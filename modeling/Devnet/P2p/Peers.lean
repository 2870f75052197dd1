import Devnet.P2p.Gossip
import Devnet.P2p.RpcCodec

/-!
The swarm task and what it keeps about its peers: who is connected, the last status of each,
and the callers that wait for an answer. libp2p may hold several connections to one peer and
reports each of them on its own.
-/

set_option autoImplicit false

namespace Devnet.P2p
open Machine Devnet.Types Devnet.Ssz Devnet.Protocol Devnet.Storage Devnet.Networking Devnet.Chain

inductive RpcError where
  | channelClosed
  | outbound (reason : String)
  | unexpectedResponseKind (expected : String)

/-- The sending half of a oneshot, by the caller it belongs to. -/
abbrev Reply := Nat

abbrev RequestId := Nat

abbrev Answers := List (Reply × Except RpcError RpcResponse)

structure OutboundTable where
  pending : HashMap RequestId (PeerId × Reply)

namespace OutboundTable

def insert (self : OutboundTable) (id : RequestId) (peer : PeerId) (reply : Reply) :
    OutboundTable := ⟨self.pending.insert id (peer,reply)⟩

def wake (self : OutboundTable) (id : RequestId) (result : Except RpcError RpcResponse) :
    OutboundTable × Answers :=
  match self.pending[id]? with
  | none => (self,[])
  | some (_,reply) => (⟨self.pending.erase id⟩,[(reply,result)])

def fulfill (self : OutboundTable) (id : RequestId) (response : RpcResponse) :
    OutboundTable × Answers := self.wake id (.ok response)

def fail (self : OutboundTable) (id : RequestId) (reason : String) : OutboundTable × Answers :=
  self.wake id (.error (.outbound reason))

/-- The ids are collected first and then taken out one by one. -/
def failAllForPeer (self : OutboundTable) (peer : PeerId) (reason : String) :
    OutboundTable × Answers :=
  let ids := (self.pending.toList.filter fun entry => entry.2.1 = peer).map Prod.fst
  ids.foldl (fun acc id => ((acc.1.fail id reason).1,acc.2 ++ (acc.1.fail id reason).2)) (self,[])

theorem wake_pending (self : OutboundTable) (id : RequestId)
    (result : Except RpcError RpcResponse) (other : RequestId) :
    (self.wake id result).1.pending[other]? = if other = id then none else self.pending[other]? := by
  by_cases hid : other = id
  · subst hid
    cases hentry : self.pending[other]? <;> simp [wake,hentry]
  · cases hentry : self.pending[id]? <;>
      simp [wake,hentry,hid,Std.ExtTreeMap.getElem?_erase,Ne.symm hid]

theorem pending_of_foldl_fail {ids : List RequestId} {self : OutboundTable} {answers : Answers}
    {reason : String} {other : RequestId} :
    (ids.foldl (fun acc id => ((acc.1.fail id reason).1,acc.2 ++ (acc.1.fail id reason).2))
      (self,answers)).1.pending[other]? = if other ∈ ids then none else self.pending[other]? := by
  induction ids generalizing self answers with
  | nil => simp
  | cons id ids ih =>
    rw [List.foldl_cons,ih,fail,wake_pending]
    by_cases hid : other = id <;> simp [hid]

theorem failAllForPeer_pending (self : OutboundTable) (peer : PeerId) (reason : String)
    (other : RequestId) : (self.failAllForPeer peer reason).1.pending[other]? =
      self.pending[other]?.filter fun entry => entry.1 ≠ peer := by
  rw [failAllForPeer,pending_of_foldl_fail]
  have hids : other ∈ (self.pending.toList.filter fun entry => entry.2.1 = peer).map Prod.fst ↔
      ∃ entry, self.pending[other]? = some entry ∧ entry.1 = peer := by
    simp [Std.ExtTreeMap.mem_toList_iff_getElem?_eq_some]
  simp only [hids]
  cases hentry : self.pending[other]? with
  | none => simp
  | some entry => by_cases hpeer : entry.1 = peer <;> simp [hpeer,Option.filter_some]

end OutboundTable

structure PeerRegistry where
  connected : Finset PeerId
  statuses : HashMap PeerId Status
  subscribers : List (Channel String)

namespace PeerRegistry

def onConnect (self : PeerRegistry) (peer : PeerId) : PeerRegistry :=
  { self with connected := insert peer self.connected }

def onDisconnect (self : PeerRegistry) (peer : PeerId) : PeerRegistry :=
  { self with connected := self.connected.erase peer, statuses := self.statuses.erase peer }

/-- A full subscriber misses the event, one that is closed is dropped. -/
def setStatus (self : PeerRegistry) (peer : PeerId) (status : Status) : PeerRegistry :=
  { self with
    statuses := self.statuses.insert peer status
    subscribers := self.subscribers.filterMap fun tx =>
      if tx.closed then none else some ((tx.trySend peer.raw).getD tx) }

def statusOf (self : PeerRegistry) (peer : PeerId) : Option Status := self.statuses[peer]?

def subscribe (self : PeerRegistry) (bound : Nat) : PeerRegistry :=
  -- The new receiver's channel is the last.
  { self with
    subscribers := (self.subscribers.filter fun tx => !tx.closed) ++ [⟨[],max bound 1,false⟩] }

end PeerRegistry

def RpcProvider.localStatus : RpcProvider → Status
  | .noOp => ⟨default,default⟩
  | .chain service => Chain.localStatus service

inductive SwarmAction where
  | sendRequest (peer : PeerId) (request : RpcRequest)
  | sendResponse (channel : Nat) (response : RpcResponse)
  | disconnectPeerId (peer : PeerId)

/-- The same finalized slot with another root is another fork. -/
def validate (own peer : Status) : Bool :=
  decide (own.finalized.slot ≠ peer.finalized.slot) || decide (own.finalized.root = peer.finalized.root)

def statusOnInbound (peer : PeerId) (peerStatus : Status) (channel : Nat)
    (provider : RpcProvider) : List SwarmAction :=
  let own := provider.localStatus
  if validate own peerStatus then [.sendResponse channel (.status own)]
  else [.disconnectPeerId peer]

def statusOnOutboundResponse (peer : PeerId) (peerStatus : Status) (provider : RpcProvider) :
    List SwarmAction :=
  if validate provider.localStatus peerStatus then [] else [.disconnectPeerId peer]

inductive RrEvent where
  | request (peer : PeerId) (request : RpcRequest) (channel : Nat)
  | response (peer : PeerId) (requestId : RequestId) (response : RpcResponse)
  | outboundFailure (peer : PeerId) (requestId : RequestId) (error : String)
  | inboundFailure (peer : PeerId) (error : String)
  | responseSent

inductive SwarmEvent where
  | gossip (propagationSource : String) (id : MessageId) (msg : Message)
  | statusRr (event : RrEvent)
  | blocksRr (event : RrEvent)
  | connectionEstablished (peer : PeerId) (connection : Nat)
  | connectionClosed (peer : PeerId) (connection : Nat)
  | logged

structure Host where
  registry : PeerRegistry
  outbound : OutboundTable
  router : Router

structure Handled where
  host : Host
  actions : List SwarmAction
  answers : Answers

def handleStatusRrEvent (event : RrEvent) (provider : RpcProvider) (self : Host) : Handled :=
  match event with
  | .request peer (.status s) channel =>
    ⟨{ self with registry := self.registry.setStatus peer s },
      statusOnInbound peer s channel provider,[]⟩
  | .response peer _ (.status s) =>
    ⟨{ self with registry := self.registry.setStatus peer s },
      statusOnOutboundResponse peer s provider,[]⟩
  | _ => ⟨self,[],[]⟩

def handleBlocksRrEvent (event : RrEvent) (fault : Fault) (provider : RpcProvider) (self : Host) :
    Handled :=
  match event with
  | .request _ (.blocksByRoot r) channel =>
    ⟨self,[.sendResponse channel (.blocksByRoot (buildResponse r fault provider))],[]⟩
  | .response _ requestId (.blocksByRoot r) =>
    let (outbound,answers) := self.outbound.fulfill requestId (.blocksByRoot r)
    ⟨{ self with outbound := outbound },[],answers⟩
  | .outboundFailure _ requestId error =>
    let (outbound,answers) := self.outbound.fail requestId error
    ⟨{ self with outbound := outbound },[],answers⟩
  | _ => ⟨self,[],[]⟩

def handleSwarmEvent [Snappy] (event : SwarmEvent) (fault : Fault) (provider : RpcProvider)
    (self : Host) : Handled :=
  match event with
  | .gossip propagationSource id msg =>
    ⟨{ self with router := routeGossipsubMessage propagationSource id msg self.router },[],[]⟩
  | .statusRr event => handleStatusRrEvent event provider self
  | .blocksRr event => handleBlocksRrEvent event fault provider self
  | .connectionEstablished peer _ =>
    ⟨{ self with registry := self.registry.onConnect peer },
      [.sendRequest peer (.status provider.localStatus)],[]⟩
  | .connectionClosed peer _ =>
    let (outbound,answers) := self.outbound.failAllForPeer peer "peer connection closed"
    ⟨{ self with registry := self.registry.onDisconnect peer, outbound := outbound },[],answers⟩
  | .logged => ⟨self,[],[]⟩

/-- Inputs of the swarm task: an event, or a request to send with the id libp2p gave it. -/
inductive Input where
  | event (event : SwarmEvent) (fault : Fault) (provider : RpcProvider)
  | sendRequest (id : RequestId) (peer : PeerId) (request : RpcRequest) (reply : Reply)

/-- The task beside the swarm that feeds it: the connections that are open, by their ids, and
the ids there have been. -/
structure Net where
  host : Host
  links : HashMap Nat PeerId
  used : Finset Nat

def OpenTo (links : HashMap Nat PeerId) (peer : PeerId) : Prop := ∃ c : Nat, links[c]? = some peer

theorem openTo_iff {links : HashMap Nat PeerId} {peer : PeerId} :
    OpenTo links peer ↔ ∃ link ∈ links.toList, link.2 = peer := by
  simp [OpenTo,Std.ExtTreeMap.mem_toList_iff_getElem?_eq_some]

instance (links : HashMap Nat PeerId) (peer : PeerId) : Decidable (OpenTo links peer) :=
  decidable_of_iff _ openTo_iff.symm

theorem openTo_insert {links : HashMap Nat PeerId} {c : Nat} (h : links[c]? = none)
    {peer other : PeerId} : OpenTo (links.insert c peer) other ↔ other = peer ∨ OpenTo links other := by
  simp only [OpenTo,Std.ExtTreeMap.getElem?_insert,Std.compare_eq_iff_eq]
  constructor
  · rintro ⟨d,hd⟩
    by_cases hcd : c = d
    · exact .inl (by simpa [hcd,eq_comm] using hd)
    · exact .inr ⟨d,by simpa [hcd] using hd⟩
  · rintro (rfl | ⟨d,hd⟩)
    · exact ⟨c,by simp⟩
    · have hcd : c ≠ d := by
        rintro rfl
        simp [h] at hd
      exact ⟨d,by simpa [hcd] using hd⟩

theorem openTo_erase {links : HashMap Nat PeerId} {c : Nat} {peer other : PeerId}
    (hc : links[c]? = some peer) (hlast : ∀ d : Nat, links[d]? = some peer → d = c) :
    OpenTo (links.erase c) other ↔ other ≠ peer ∧ OpenTo links other := by
  simp only [OpenTo,Std.ExtTreeMap.getElem?_erase,Std.compare_eq_iff_eq]
  constructor
  · rintro ⟨d,hd⟩
    by_cases hcd : c = d
    · simp [hcd] at hd
    · rw [if_neg hcd] at hd
      refine ⟨?_,d,hd⟩
      rintro rfl
      exact hcd (hlast d hd).symm
  · rintro ⟨hother,d,hd⟩
    have hcd : c ≠ d := by
      rintro rfl
      exact hother (Option.some.inj (hd.symm.trans hc))
    exact ⟨d,by rwa [if_neg hcd]⟩

def Net.Linked (self : Net) (peer : PeerId) : Prop := OpenTo self.links peer

section Swarm
variable [Snappy]

def Net.handle (input : Input) (self : Net) : Handled × Net :=
  match input with
  | .sendRequest id peer request reply =>
    let host := { self.host with outbound := self.host.outbound.insert id peer reply }
    (⟨host,[.sendRequest peer request],[]⟩,{ self with host := host })
  | .event event fault provider =>
    let handled := handleSwarmEvent event fault provider self.host
    match event with
    | .connectionEstablished peer c =>
      (handled,⟨handled.host,self.links.insert c peer,insert c self.used⟩)
    | .connectionClosed _ c => (handled,⟨handled.host,self.links.erase c,self.used⟩)
    | _ => (handled,{ self with host := handled.host })

end Swarm

def RrEvent.status? : RrEvent → Option PeerId
  | .request peer (.status _) _ => some peer
  | .response peer _ (.status _) => some peer
  | _ => none

/-- What libp2p promises: a connection is established once and closed at most once after
that, messages come over open connections, request ids are fresh. -/
def Net.Admits (self : Net) : Input → Prop
  | .sendRequest id _ _ _ => id ∉ self.host.outbound.pending
  | .event (.connectionEstablished _ c) _ _ => c ∉ self.used
  | .event (.connectionClosed peer c) _ _ => self.links[c]? = some peer
  | .event (.statusRr event) _ _ => ∀ peer ∈ event.status?, self.Linked peer
  | .event _ _ _ => True

/-- A connection that closes was the last one to its peer. -/
def Net.ClosesLast (self : Net) : Input → Prop
  | .event (.connectionClosed peer c) _ _ => ∀ d : Nat, self.links[d]? = some peer → d = c
  | _ => True

/-- The registry says of every peer what the swarm knows of it. -/
structure Net.Mirrors (net : Net) : Prop where
  connected : ∀ peer, peer ∈ net.host.registry.connected ↔ net.Linked peer
  cached : ∀ peer, peer ∈ net.host.registry.statuses → peer ∈ net.host.registry.connected

def Input.Settles (id : RequestId) : Input → Prop
  | .event (.blocksRr (.response _ answered (.blocksByRoot _))) _ _ => answered = id
  | .event (.blocksRr (.outboundFailure _ failed _)) _ _ => failed = id
  | _ => False

/-- What a peer had that is still connected, it still has: its status, and its requests as
far as they are not settled. -/
def Net.Keeps (self : Net) (input : Input) (next : Net) : Prop :=
  ∀ peer, next.Linked peer →
    (peer ∈ self.host.registry.statuses → peer ∈ next.host.registry.statuses) ∧
    ∀ id reply, self.host.outbound.pending[id]? = some (peer,reply) →
      input.Settles id ∨ next.host.outbound.pending[id]? = some (peer,reply)

section Steps

theorem handleBlocksRrEvent_registry (event : RrEvent) (fault : Fault) (provider : RpcProvider)
    (self : Host) : (handleBlocksRrEvent event fault provider self).host.registry = self.registry := by
  unfold handleBlocksRrEvent
  split <;> rfl

theorem handleBlocksRrEvent_pending {event : RrEvent} {fault : Fault} {provider : RpcProvider}
    {self : Host} {id : RequestId} {entry : PeerId × Reply}
    (h : self.outbound.pending[id]? = some entry) :
    (Input.event (.blocksRr event) fault provider).Settles id ∨
      (handleBlocksRrEvent event fault provider self).host.outbound.pending[id]? = some entry := by
  unfold handleBlocksRrEvent
  split
  · exact .inr h
  · next answered r =>
    by_cases hid : id = answered
    · exact .inl hid.symm
    · exact .inr (by simp [OutboundTable.fulfill,OutboundTable.wake_pending,hid,h])
  · next failed error =>
    by_cases hid : id = failed
    · exact .inl hid.symm
    · exact .inr (by simp [OutboundTable.fail,OutboundTable.wake_pending,hid,h])
  · exact .inr h

theorem handleStatusRrEvent_outbound (event : RrEvent) (provider : RpcProvider) (self : Host) :
    (handleStatusRrEvent event provider self).host.outbound = self.outbound := by
  unfold handleStatusRrEvent
  split <;> rfl

theorem handleStatusRrEvent_connected (event : RrEvent) (provider : RpcProvider) (self : Host) :
    (handleStatusRrEvent event provider self).host.registry.connected =
      self.registry.connected := by
  unfold handleStatusRrEvent
  split <;> rfl

theorem handleStatusRrEvent_statuses (event : RrEvent) (provider : RpcProvider) (self : Host)
    (peer : PeerId) : peer ∈ (handleStatusRrEvent event provider self).host.registry.statuses ↔
      event.status? = some peer ∨ peer ∈ self.registry.statuses := by
  unfold handleStatusRrEvent
  split <;> simp_all [RrEvent.status?,PeerRegistry.setStatus,Std.ExtTreeMap.mem_insert]

end Steps

section Mirror
variable [Snappy]

structure Net.Sound (net : Net) : Prop extends net.Mirrors where
  tracked : ∀ (c : Nat) (peer : PeerId), net.links[c]? = some peer → c ∈ net.used

omit [Snappy] in
theorem Net.Sound.frame {net next : Net} (h : net.Sound) (hlinks : next.links = net.links)
    (hused : next.used = net.used)
    (hconnected : next.host.registry.connected = net.host.registry.connected)
    (hstatuses : ∀ peer, peer ∈ next.host.registry.statuses →
      net.Linked peer ∨ peer ∈ net.host.registry.statuses) : next.Sound := by
  refine ⟨⟨fun peer => ?_,fun peer hpeer => ?_⟩,fun c peer hc => ?_⟩
  · rw [hconnected,Linked,hlinks]
    exact h.connected peer
  · rw [hconnected]
    exact (hstatuses peer hpeer).elim (h.connected peer).mpr (h.cached peer)
  · rw [hused]
    exact h.tracked c peer (hlinks ▸ hc)

theorem Net.Sound.established {net : Net} (h : net.Sound) {peer : PeerId} {c : Nat}
    {fault : Fault} {provider : RpcProvider} (hfresh : c ∉ net.used) :
    (net.handle (.event (.connectionEstablished peer c) fault provider)).2.Sound := by
  have hnew : net.links[c]? = none := by
    cases hc : net.links[c]? with
    | none => rfl
    | some other => exact absurd (h.tracked c other hc) hfresh
  refine ⟨⟨fun other => ?_,fun other hother => ?_⟩,fun d other hd => ?_⟩
  · change other ∈ insert peer net.host.registry.connected ↔ OpenTo (net.links.insert c peer) other
    rw [Finset.mem_insert,openTo_insert hnew,h.connected other]
    rfl
  · exact Finset.mem_insert_of_mem (h.cached other hother)
  · change (net.links.insert c peer)[d]? = some other at hd
    change d ∈ insert c net.used
    by_cases hcd : d = c
    · exact hcd ▸ Finset.mem_insert_self _ _
    · rw [Std.ExtTreeMap.getElem?_insert,if_neg (by simpa using Ne.symm hcd)] at hd
      exact Finset.mem_insert_of_mem (h.tracked d other hd)

theorem Net.Sound.closed {net : Net} (h : net.Sound) {peer : PeerId} {c : Nat} {fault : Fault}
    {provider : RpcProvider} (hopen : net.links[c]? = some peer)
    (hlast : ∀ d : Nat, net.links[d]? = some peer → d = c) :
    (net.handle (.event (.connectionClosed peer c) fault provider)).2.Sound := by
  refine ⟨⟨fun other => ?_,fun other hother => ?_⟩,fun d other hd => ?_⟩
  · change other ∈ net.host.registry.connected.erase peer ↔ OpenTo (net.links.erase c) other
    rw [Finset.mem_erase,openTo_erase hopen hlast,h.connected other]
    rfl
  · change other ∈ net.host.registry.statuses.erase peer at hother
    change other ∈ net.host.registry.connected.erase peer
    rw [Std.ExtTreeMap.mem_erase] at hother
    have hother' : other ≠ peer := fun heq => hother.1 (Std.compare_eq_iff_eq.mpr heq.symm)
    exact Finset.mem_erase.mpr ⟨hother',h.cached other hother.2⟩
  · change (net.links.erase c)[d]? = some other at hd
    rw [Std.ExtTreeMap.getElem?_erase] at hd
    split at hd
    · cases hd
    · exact h.tracked d other hd

theorem Net.Sound.step {net : Net} (h : net.Sound) {input : Input} (hadmits : net.Admits input)
    (hlast : net.ClosesLast input) : (net.handle input).2.Sound := by
  cases input with
  | sendRequest id peer request reply => exact h.frame rfl rfl rfl fun _ hpeer => .inr hpeer
  | event event fault provider =>
    cases event with
    | gossip source id msg => exact h.frame rfl rfl rfl fun _ hpeer => .inr hpeer
    | logged => exact h.frame rfl rfl rfl fun _ hpeer => .inr hpeer
    | connectionEstablished peer c => exact h.established hadmits
    | connectionClosed peer c => exact h.closed hadmits hlast
    | blocksRr event =>
      have hregistry := handleBlocksRrEvent_registry event fault provider net.host
      refine h.frame rfl rfl (congrArg PeerRegistry.connected hregistry) fun peer hpeer => .inr ?_
      exact hregistry ▸ hpeer
    | statusRr event =>
      refine h.frame rfl rfl (handleStatusRrEvent_connected event provider net.host)
        fun peer hpeer => ?_
      exact ((handleStatusRrEvent_statuses event provider net.host peer).mp hpeer).imp
        (hadmits peer) id

/-- Only the end of a connection takes anything away, and then from nobody who still has one. -/
theorem Net.keeps_handle {net : Net} {input : Input} (hadmits : net.Admits input)
    (hlast : net.ClosesLast input) : net.Keeps input (net.handle input).2 := by
  intro peer hlinked
  cases input with
  | sendRequest id other request reply =>
    refine ⟨fun hstatus => hstatus,fun id' reply' hpending => .inr ?_⟩
    change (net.host.outbound.pending.insert id (other,reply))[id']? = some (peer,reply')
    have hne : id ≠ id' := by
      rintro rfl
      exact hadmits (Std.ExtTreeMap.mem_iff_isSome_getElem?.mpr (by rw [hpending]; rfl))
    rw [Std.ExtTreeMap.getElem?_insert,if_neg (by simpa using hne)]
    exact hpending
  | event event fault provider =>
    cases event with
    | gossip source messageId msg => exact ⟨id,fun _ _ hpending => .inr hpending⟩
    | logged => exact ⟨id,fun _ _ hpending => .inr hpending⟩
    | connectionEstablished other c => exact ⟨id,fun _ _ hpending => .inr hpending⟩
    | connectionClosed other c =>
      have hne : peer ≠ other := ((openTo_erase hadmits hlast).mp hlinked).1
      refine ⟨fun hstatus => ?_,fun id reply hpending => .inr ?_⟩
      · change peer ∈ net.host.registry.statuses.erase other
        rw [Std.ExtTreeMap.mem_erase]
        exact ⟨fun heq => hne (Std.compare_eq_iff_eq.mp heq).symm,hstatus⟩
      · change (net.host.outbound.failAllForPeer other _).1.pending[id]? = some (peer,reply)
        rw [OutboundTable.failAllForPeer_pending,hpending,Option.filter_some,if_pos (by simpa)]
    | blocksRr event =>
      have hregistry := handleBlocksRrEvent_registry event fault provider net.host
      refine ⟨fun hstatus => ?_,fun id reply hpending => handleBlocksRrEvent_pending hpending⟩
      change peer ∈ (handleBlocksRrEvent event fault provider net.host).host.registry.statuses
      rwa [hregistry]
    | statusRr event =>
      refine ⟨fun hstatus => ?_,fun id reply hpending => .inr ?_⟩
      · exact (handleStatusRrEvent_statuses event provider net.host peer).mpr (.inr hstatus)
      · change (handleStatusRrEvent event provider net.host).host.outbound.pending[id]? = _
        rwa [handleStatusRrEvent_outbound]

/-- The registry mirrors the swarm in every run in which each connection that closes was the
last one to its peer. -/
theorem registry_mirrors_swarm {start s : Net} (hconnected : start.host.registry.connected = ∅)
    (hstatuses : start.host.registry.statuses = ∅) (hlinks : start.links = ∅)
    {inputs : List Input} {os : List Handled}
    (hrun : Run (fun m i o n => (m.Admits i ∧ m.ClosesLast i) ∧ m.handle i = (o,n))
      start inputs os s) :
    s.Mirrors ∧ ∀ input, s.Admits input → s.ClosesLast input →
      s.Keeps input (s.handle input).2 := by
  have hstart : start.Sound := by
    refine ⟨⟨?_,?_⟩,?_⟩
    · simp [hconnected,Net.Linked,OpenTo,hlinks]
    · simp [hstatuses]
    · simp [hlinks]
  have hsound : s.Sound := hrun.preserves Net.Sound hstart fun h hstep => by
    have hnext := h.step hstep.1.1 hstep.1.2
    rwa [hstep.2] at hnext
  exact ⟨hsound.toMirrors,fun input => Net.keeps_handle⟩

end Mirror

section Twice
attribute [local instance] stored

def lonely : Net := ⟨⟨⟨∅,∅,[]⟩,⟨∅⟩,quiet⟩,∅,∅⟩

def greeting : Status := ⟨default,default⟩

theorem secondPeer_nonempty : "16Uiu3" ≠ "" := by decide

def secondPeer : PeerId := ⟨"16Uiu3",secondPeer_nonempty⟩

def connects (peer : PeerId) (c : Nat) : Input := .event (.connectionEstablished peer c) none .noOp
def greets (peer : PeerId) : Input :=
  .event (.statusRr (.request peer (.status greeting) 0)) none .noOp

def dialled (c : Nat) : Input := connects votePeer c
def greeted : Input := greets votePeer
def asked : Input := .sendRequest 7 votePeer (.blocksByRoot ⟨[]⟩) 0
def hungUp (c : Nat) : Input := .event (.connectionClosed votePeer c) none .noOp

def ended (inputs : List Input) : Net := (trace Net.handle inputs lonely).2

theorem greets_admitted {net : Net} {peer : PeerId} (h : net.Linked peer) :
    net.Admits (greets peer) := by
  intro other hother
  cases hother
  exact h

def departure : List Input :=
  [connects votePeer 1,greets votePeer,connects secondPeer 2,greets secondPeer,hungUp 1]

theorem registry_mirrors_departure :
    (ended departure).Mirrors ∧
      votePeer ∉ (ended departure).host.registry.connected ∧
      votePeer ∉ (ended departure).host.registry.statuses ∧
      secondPeer ∈ (ended departure).host.registry.connected ∧
      secondPeer ∈ (ended departure).host.registry.statuses := by
  have honly : ∀ d : Nat, (ended (departure.take 4)).links[d]? = some votePeer → d = 1 := by
    have hlinks : (ended (departure.take 4)).links =
        ((∅ : Std.ExtTreeMap Nat PeerId compare).insert 1 votePeer).insert 2 secondPeer := rfl
    have hne : secondPeer ≠ votePeer := by decide
    intro d hd
    rw [hlinks,Std.ExtTreeMap.getElem?_insert,Std.ExtTreeMap.getElem?_insert] at hd
    simp only [Nat.compare_eq_eq,Std.ExtTreeMap.getElem?_empty] at hd
    split_ifs at hd with h2 h1
    · exact absurd (Option.some.inj hd) hne
    · exact h1.symm
  have hmeets : Meets (fun m i => m.Admits i ∧ m.ClosesLast i) Net.handle departure lonely := by
    refine ⟨⟨?_,trivial⟩,⟨greets_admitted ⟨1,?_⟩,trivial⟩,⟨?_,trivial⟩,
      ⟨greets_admitted ⟨2,?_⟩,trivial⟩,⟨?_,honly⟩,trivial⟩
    · change (1 : Nat) ∉ lonely.used
      decide
    · decide +kernel
    · change (2 : Nat) ∉ (ended (departure.take 2)).used
      decide +kernel
    · decide +kernel
    · change (ended (departure.take 4)).links[1]? = some votePeer
      decide +kernel
  exact ⟨(registry_mirrors_swarm rfl rfl rfl (run_meets hmeets)).1,by decide +kernel,
    by decide +kernel,by decide +kernel,by decide +kernel⟩

/-- Both sides dialled, and one of the two connections goes. -/
theorem registry_forgets :
    Meets Net.Admits Net.handle [dialled 1,dialled 2,greeted,asked,hungUp 1] lonely ∧
      (ended [dialled 1,dialled 2,greeted,asked,hungUp 1]).Linked votePeer ∧
      votePeer ∉ (ended [dialled 1,dialled 2,greeted,asked,hungUp 1]).host.registry.connected ∧
      votePeer ∈ (ended [dialled 1,dialled 2,greeted,asked]).host.registry.statuses ∧
      votePeer ∉ (ended [dialled 1,dialled 2,greeted,asked,hungUp 1]).host.registry.statuses ∧
      7 ∈ (ended [dialled 1,dialled 2,greeted,asked]).host.outbound.pending ∧
      7 ∉ (ended [dialled 1,dialled 2,greeted,asked,hungUp 1]).host.outbound.pending := by
  refine ⟨⟨?_,?_,greets_admitted ⟨1,?_⟩,?_,?_,trivial⟩,⟨2,?_⟩,?_,?_,?_,?_,?_⟩
  · change (1 : Nat) ∉ lonely.used
    decide
  · change (2 : Nat) ∉ (ended [dialled 1]).used
    decide +kernel
  · decide +kernel
  · change (7 : Nat) ∉ (ended [dialled 1,dialled 2,greeted]).host.outbound.pending
    decide +kernel
  · change (ended [dialled 1,dialled 2,greeted,asked]).links[1]? = some votePeer
    decide +kernel
  all_goals decide +kernel

end Twice

end Devnet.P2p
