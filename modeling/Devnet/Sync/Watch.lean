import Devnet.P2p.Peers
import Devnet.Sync.Walk

/-!
The handshake beside the watch loop. The swarm task caches a status and tells the watch loop
about it, and validates it only then; a worker of the watch loop reads the cache whenever it
gets to run.
-/

set_option autoImplicit false

namespace Devnet.Sync
open Machine Devnet.Types Devnet.Ssz Devnet.Protocol Devnet.Storage Devnet.Networking Devnet.Chain
  Devnet.P2p

def peerEventChannelBound : Nat := 256

/-- Where the task spawned for a peer is: not polled yet, past the check of its token, in its
walk, or over. -/
inductive WalkTask where
  | spawned
  | checked
  | walking
  | finished
  deriving DecidableEq

structure Watcher where
  waiting : Option PeerId
  inFlight : HashMap PeerId WalkTask
  permits : Nat
  cancelled : Bool
  exited : Bool

namespace Watcher

def new (maxConcurrentPeerSyncs : Nat) : Watcher := ⟨none,∅,maxConcurrentPeerSyncs,false,false⟩

def onEvent (self : Watcher) (raw : String) : Watcher :=
  match PeerId.new raw with
  | none => self
  | some peer =>
    let inFlight := self.inFlight.filter fun _ task => decide (task ≠ .finished)
    if peer ∈ inFlight then { self with inFlight := inFlight }
    else { self with inFlight := inFlight, waiting := some peer }

def exit (self : Watcher) : Watcher := { self with waiting := none, exited := true }

def spawn (self : Watcher) : Watcher :=
  match self.waiting,self.permits with
  | some peer,permits+1 =>
    { self with
      waiting := none
      inFlight := self.inFlight.insert peer .spawned
      permits := permits }
  | _,_ => self

def finish (self : Watcher) (peer : PeerId) : Watcher :=
  -- The permit is held for as long as the task lives.
  { self with inFlight := self.inFlight.insert peer .finished, permits := self.permits+1 }

def proceed (self : Watcher) (peer : PeerId) (task : WalkTask) : Watcher :=
  { self with inFlight := self.inFlight.insert peer task }

def poll (self : Watcher) (peer : PeerId) : Watcher :=
  -- A cancelled task ends at its first poll.
  match self.inFlight[peer]? with
  | some .spawned => if self.cancelled then self.finish peer else self.proceed peer .checked
  | _ => self

def complete (self : Watcher) (peer : PeerId) : Watcher :=
  match self.inFlight[peer]? with
  | some .walking => self.finish peer
  | _ => self

end Watcher

/-- The watch loop is the one subscriber: its receiver is that of the last channel. -/
def receive (self : PeerRegistry) : Option (String × PeerRegistry) :=
  match self.subscribers.getLast? with
  | none => none
  | some tx =>
    match tx.queue with
    | [] => none
    | raw :: queue =>
      some (raw,{ self with subscribers := self.subscribers.dropLast ++ [{ tx with queue := queue }] })

def dropReceiver (self : PeerRegistry) : PeerRegistry :=
  { self with
    subscribers := self.subscribers.dropLast ++
      self.subscribers.getLast?.toList.map fun tx => { tx with closed := true } }

def statusExchange (own : Status) (registry : PeerRegistry) (peer : PeerId) :
    Option (Status × Status) := do
  let peerStatus ← registry.statusOf peer
  pure (own,peerStatus)

/-- A status that is cached and not yet validated; an answer to our own request has no channel
to respond on. -/
structure Handshake where
  peer : PeerId
  status : Status
  channel : Option Nat
  message : Nat

def Handshake.validated (self : Handshake) (provider : RpcProvider) : List SwarmAction :=
  match self.channel with
  | some channel => statusOnInbound self.peer self.status channel provider
  | none => statusOnOutboundResponse self.peer self.status provider

structure Walk where
  peer : PeerId
  status : Status
  message : Option Nat

/-- The status messages so far, which of them the cached statuses are from, those that failed
the validation, and the walks. -/
structure History where
  messages : List (PeerId × Status)
  latest : HashMap PeerId Nat
  rejected : Finset Nat
  walks : List Walk

/-- Both tasks. Of the peers in `leaving` the swarm was asked to disconnect, and none of their
connections has been reported closed since. -/
structure Node where
  host : Host
  handshake : Option Handshake
  leaving : Finset PeerId
  watcher : Watcher
  history : History

inductive Turn where
  | swarm (event : SwarmEvent) (fault : Fault) (provider : RpcProvider)
  | send (id : RequestId) (peer : PeerId) (request : RpcRequest) (reply : P2p.Reply)
  | validation (provider : RpcProvider)
  | recv
  | acquire
  | poll (peer : PeerId)
  | exchange (peer : PeerId) (own : Status)
  | complete (peer : PeerId)
  | cancel
  | initial (peer : PeerId) (own : Status)

def statusMessage : SwarmEvent → Option (PeerId × Status × Option Nat)
  | .statusRr (.request peer (.status s) channel) => some (peer,s,some channel)
  | .statusRr (.response peer _ (.status s)) => some (peer,s,none)
  | _ => none

namespace Node

/-- The first half of `handle_status_rr_event`. -/
def arrive (self : Node) (peer : PeerId) (status : Status) (channel : Option Nat) : Node :=
  { self with
    host := { self.host with registry := self.host.registry.setStatus peer status }
    handshake := some ⟨peer,status,channel,self.history.messages.length⟩
    history := { self.history with
      messages := self.history.messages ++ [(peer,status)]
      latest := self.history.latest.insert peer self.history.messages.length } }

def conclude (self : Node) (handshake : Handshake) (provider : RpcProvider) : Node :=
  if validate provider.localStatus handshake.status then { self with handshake := none }
  else
    { self with
      handshake := none
      leaving := insert handshake.peer self.leaving
      history := { self.history with rejected := insert handshake.message self.history.rejected } }

/-- `PeerWorker::handle` past the check of its token, and whether it goes on to walk. -/
def handle (self : Node) (peer : PeerId) (own : Status) : Bool × Node :=
  match statusExchange own self.host.registry peer with
  | none => (false,self)
  | some (own,peerStatus) =>
    if shouldSync own peerStatus then
      (true,{ self with history := { self.history with
        walks := self.history.walks ++ [⟨peer,peerStatus,self.history.latest[peer]?⟩] } })
    else (false,self)

def closing (self : Node) : SwarmEvent → Node
  | .connectionClosed peer _ =>
    { self with
      leaving := self.leaving.erase peer
      history := { self.history with latest := self.history.latest.erase peer } }
  | _ => self

section Swarm
variable [Snappy]

/-- Between the halves of a handshake the swarm task has nothing else to do; neither task does
a step that it is not at. -/
def turn (input : Turn) (self : Node) : List SwarmAction × Node :=
  match input with
  | .swarm event fault provider =>
    match self.handshake,statusMessage event with
    | some _,_ => ([],self)
    | none,some (peer,status,channel) => ([],self.arrive peer status channel)
    | none,none =>
      let handled := handleSwarmEvent event fault provider self.host
      (handled.actions,{ self.closing event with host := handled.host })
  | .send id peer request reply =>
    match self.handshake with
    | some _ => ([],self)
    | none =>
      ([.sendRequest peer request],
        { self with host := { self.host with
          outbound := self.host.outbound.insert id peer reply } })
  | .validation provider =>
    match self.handshake with
    | none => ([],self)
    | some handshake => (handshake.validated provider,self.conclude handshake provider)
  | .recv =>
    if self.watcher.exited ∨ self.watcher.waiting.isSome then ([],self)
    else if self.watcher.cancelled then
      ([],{ self with
        watcher := self.watcher.exit
        host := { self.host with registry := dropReceiver self.host.registry } })
    else
      match receive self.host.registry with
      | none => ([],self)
      | some (raw,registry) =>
        ([],{ self with
          watcher := self.watcher.onEvent raw
          host := { self.host with registry := registry } })
  | .acquire =>
    if self.watcher.waiting.isSome ∧ self.watcher.cancelled then
      ([],{ self with
        watcher := self.watcher.exit
        host := { self.host with registry := dropReceiver self.host.registry } })
    else ([],{ self with watcher := self.watcher.spawn })
  | .poll peer => ([],{ self with watcher := self.watcher.poll peer })
  | .exchange peer own =>
    match self.watcher.inFlight[peer]? with
    | some .checked =>
      let (walks,next) := self.handle peer own
      ([],{ next with
        watcher := if walks then self.watcher.proceed peer .walking else self.watcher.finish peer })
    | _ => ([],self)
  | .complete peer => ([],{ self with watcher := self.watcher.complete peer })
  | .cancel => ([],{ self with watcher := { self.watcher with cancelled := true } })
  | .initial peer own => ([],(self.handle peer own).2)

end Swarm

end Node

section Halves
variable [Snappy]

theorem Node.conclude_arrive {node : Node} {event : SwarmEvent} {peer : PeerId} {status : Status}
    {channel : Option Nat} (hevent : statusMessage event = some (peer,status,channel))
    (fault : Fault) (provider : RpcProvider) (message : Nat) :
    ((node.arrive peer status channel).conclude ⟨peer,status,channel,message⟩ provider).host =
        (handleSwarmEvent event fault provider node.host).host ∧
      Handshake.validated ⟨peer,status,channel,message⟩ provider =
        (handleSwarmEvent event fault provider node.host).actions := by
  unfold statusMessage at hevent
  split at hevent
  all_goals cases hevent
  all_goals
    refine ⟨?_,rfl⟩
    unfold Node.conclude
    split <;> rfl

end Halves

theorem Handshake.disconnects_iff (self : Handshake) (provider : RpcProvider) :
    .disconnectPeerId self.peer ∈ self.validated provider ↔
      validate provider.localStatus self.status = false := by
  unfold validated
  cases self.channel with
  | none =>
    by_cases hvalid : validate provider.localStatus self.status <;>
      simp [statusOnOutboundResponse,hvalid]
  | some channel =>
    by_cases hvalid : validate provider.localStatus self.status <;>
      simp [statusOnInbound,hvalid]

/-- Every walk starts from the status of a message that has not been rejected. -/
def Node.TrustsAccepted (self : Node) : Prop :=
  ∀ walk ∈ self.history.walks, ∃ n, walk.message = some n ∧
    self.history.messages[n]? = some (walk.peer,walk.status) ∧ n ∉ self.history.rejected

theorem Node.not_trustsAccepted {node : Node} {n : Nat} (hrejected : n ∈ node.history.rejected)
    (hwalk : some n ∈ node.history.walks.map Walk.message) : ¬node.TrustsAccepted := by
  intro htrusts
  obtain ⟨walk,hwalk,hn⟩ := List.mem_map.mp hwalk
  obtain ⟨k,hk,-,haccepted⟩ := htrusts walk hwalk
  obtain rfl : k = n := Option.some.inj (hk.symm.trans hn)
  exact haccepted hrejected

/-- Where a worker reads the cached status of a peer, the swarm task is not about to validate
it and the peer is not waiting to be disconnected. -/
def Node.Calm (self : Node) : Turn → Prop
  | .exchange peer _ => (∀ h ∈ self.handshake, h.peer ≠ peer) ∧ peer ∉ self.leaving
  | .initial peer _ => (∀ h ∈ self.handshake, h.peer ≠ peer) ∧ peer ∉ self.leaving
  | _ => True

/-- What the history has to do with the registry and with where the swarm task is. -/
structure Node.Sound (node : Node) : Prop where
  cached : ∀ peer ∈ node.host.registry.statuses, peer ∈ node.history.latest
  latest : ∀ (peer : PeerId) (n : Nat), node.history.latest[peer]? = some n →
    ∃ status, node.host.registry.statuses[peer]? = some status ∧
      node.history.messages[n]? = some (peer,status)
  pending : ∀ h ∈ node.handshake, node.history.messages[h.message]? = some (h.peer,h.status)
  leaving : ∀ (peer : PeerId) (n : Nat), node.history.latest[peer]? = some n →
    n ∈ node.history.rejected → peer ∈ node.leaving
  bounded : ∀ n ∈ node.history.rejected, n < node.history.messages.length
  walks : node.TrustsAccepted
  unvalidated : ∀ walk ∈ node.history.walks, ∀ h ∈ node.handshake, walk.message ≠ some h.message

namespace Node.Sound

theorem frame {node next : Node} (h : node.Sound)
    (hstatuses : next.host.registry.statuses = node.host.registry.statuses)
    (hhandshake : next.handshake = node.handshake) (hleaving : next.leaving = node.leaving)
    (hhistory : next.history = node.history) : next.Sound := by
  constructor
  · rw [hstatuses,hhistory]
    exact h.cached
  · rw [hstatuses,hhistory]
    exact h.latest
  · rw [hhandshake,hhistory]
    exact h.pending
  · rw [hleaving,hhistory]
    exact h.leaving
  · rw [hhistory]
    exact h.bounded
  · rw [TrustsAccepted,hhistory]
    exact h.walks
  · rw [hhandshake,hhistory]
    exact h.unvalidated

theorem arrive {node : Node} (h : node.Sound) (peer : PeerId) (status : Status)
    (channel : Option Nat) : (node.arrive peer status channel).Sound := by
  -- The new message has the next number, which nothing refers to yet.
  have hold : ∀ {n : Nat} {message : PeerId × Status}, node.history.messages[n]? = some message →
      (node.history.messages ++ [(peer,status)])[n]? = some message := by
    intro n message hn
    have hlt : n < node.history.messages.length := (List.getElem?_eq_some_iff.mp hn).1
    rwa [List.getElem?_append_left hlt]
  have hnew : (node.history.messages ++ [(peer,status)])[node.history.messages.length]? =
      some (peer,status) := by simp
  constructor
  · intro other hother
    change other ∈ node.host.registry.statuses.insert peer status at hother
    change other ∈ node.history.latest.insert peer node.history.messages.length
    rw [Std.ExtTreeMap.mem_insert] at hother ⊢
    exact hother.imp id (h.cached other)
  · intro other n hn
    change (node.history.latest.insert peer node.history.messages.length)[other]? = some n at hn
    change ∃ s, (node.host.registry.statuses.insert peer status)[other]? = some s ∧
      (node.history.messages ++ [(peer,status)])[n]? = some (other,s)
    rw [Std.ExtTreeMap.getElem?_insert] at hn ⊢
    by_cases heq : peer = other
    · subst heq
      simp only [Std.compare_self,if_true,Option.some.injEq] at hn ⊢
      exact ⟨status,rfl,hn ▸ hnew⟩
    · have hcmp : compare peer other ≠ .eq := fun hc => heq (Std.compare_eq_iff_eq.mp hc)
      rw [if_neg hcmp] at hn ⊢
      obtain ⟨s,hs,hmessage⟩ := h.latest other n hn
      exact ⟨s,hs,hold hmessage⟩
  · rintro hs ⟨⟩
    exact hnew
  · intro other n hn hrejected
    change (node.history.latest.insert peer node.history.messages.length)[other]? = some n at hn
    have hlt := h.bounded n hrejected
    rw [Std.ExtTreeMap.getElem?_insert] at hn
    split at hn
    · simp only [Option.some.injEq] at hn
      omega
    · exact h.leaving other n hn hrejected
  · intro n hrejected
    have hlt := h.bounded n hrejected
    change n < (node.history.messages ++ [(peer,status)]).length
    simp only [List.length_append,List.length_singleton]
    omega
  · intro walk hwalk
    obtain ⟨n,hn,hmessage,haccepted⟩ := h.walks walk hwalk
    exact ⟨n,hn,hold hmessage,haccepted⟩
  · rintro walk hwalk hs ⟨⟩ hsame
    obtain ⟨n,hn,hmessage,-⟩ := h.walks walk hwalk
    have hlt : n < node.history.messages.length := (List.getElem?_eq_some_iff.mp hmessage).1
    rw [hn,Option.some.injEq] at hsame
    change n = node.history.messages.length at hsame
    omega

theorem release {node : Node} (h : node.Sound) : { node with handshake := none }.Sound where
  cached := h.cached
  latest := h.latest
  pending := by simp
  leaving := h.leaving
  bounded := h.bounded
  walks := h.walks
  unvalidated := by simp

theorem conclude {node : Node} (h : node.Sound) {handshake : Handshake}
    (hpending : node.handshake = some handshake) (provider : RpcProvider) :
    (node.conclude handshake provider).Sound := by
  have hmessage := h.pending handshake hpending
  unfold Node.conclude
  split
  · exact h.release
  · refine ⟨h.cached,h.latest,by simp,?_,?_,?_,by simp⟩
    · intro peer n hn hrejected
      change peer ∈ insert handshake.peer node.leaving
      rcases Finset.mem_insert.mp hrejected with rfl | hrejected
      · -- the message is the one under validation, so the peer is its sender
        obtain ⟨status,-,hlatest⟩ := h.latest peer _ hn
        rw [hmessage,Option.some.injEq,Prod.mk.injEq] at hlatest
        exact hlatest.1 ▸ Finset.mem_insert_self _ _
      · exact Finset.mem_insert_of_mem (h.leaving peer n hn hrejected)
    · intro n hrejected
      rcases Finset.mem_insert.mp hrejected with rfl | hrejected
      · exact (List.getElem?_eq_some_iff.mp hmessage).1
      · exact h.bounded n hrejected
    · intro walk hwalk
      obtain ⟨n,hn,hfrom,haccepted⟩ := h.walks walk hwalk
      refine ⟨n,hn,hfrom,fun hrejected => ?_⟩
      rcases Finset.mem_insert.mp hrejected with rfl | hrejected
      · exact h.unvalidated walk hwalk handshake hpending hn
      · exact haccepted hrejected

theorem close {node : Node} (h : node.Sound) (peer : PeerId) (registry : PeerRegistry)
    (hstatuses : registry.statuses = node.host.registry.statuses.erase peer) :
    { node with
      host := { node.host with registry := registry }
      leaving := node.leaving.erase peer
      history := { node.history with latest := node.history.latest.erase peer } }.Sound := by
  have hkept : ∀ {other : PeerId} {n : Nat}, (node.history.latest.erase peer)[other]? = some n →
      other ≠ peer ∧ node.history.latest[other]? = some n := by
    intro other n hn
    rw [Std.ExtTreeMap.getElem?_erase] at hn
    split at hn
    · cases hn
    · next hcmp => exact ⟨fun heq => hcmp (Std.compare_eq_iff_eq.mpr heq.symm),hn⟩
  refine ⟨?_,?_,h.pending,?_,h.bounded,h.walks,h.unvalidated⟩
  · intro other hother
    change other ∈ registry.statuses at hother
    change other ∈ node.history.latest.erase peer
    rw [hstatuses,Std.ExtTreeMap.mem_erase] at hother
    rw [Std.ExtTreeMap.mem_erase]
    exact hother.imp id (h.cached other)
  · intro other n hn
    obtain ⟨hne,hn⟩ := hkept hn
    change ∃ s, registry.statuses[other]? = some s ∧ _
    have hcmp : compare peer other ≠ .eq := fun hc => hne (Std.compare_eq_iff_eq.mp hc).symm
    rw [hstatuses,Std.ExtTreeMap.getElem?_erase,if_neg hcmp]
    exact h.latest other n hn
  · intro other n hn hrejected
    obtain ⟨hne,hn⟩ := hkept hn
    exact Finset.mem_erase.mpr ⟨hne,h.leaving other n hn hrejected⟩

theorem handle {node : Node} (h : node.Sound) {peer : PeerId} (own : Status)
    (hvalidated : ∀ hs ∈ node.handshake, hs.peer ≠ peer) (hstays : peer ∉ node.leaving) :
    (node.handle peer own).2.Sound := by
  unfold Node.handle
  cases hexchange : statusExchange own node.host.registry peer with
  | none => exact h
  | some statuses =>
    obtain ⟨own',peerStatus⟩ := statuses
    dsimp only
    split
    · have hstatus : node.host.registry.statuses[peer]? = some peerStatus := by
        simp only [statusExchange,PeerRegistry.statusOf,Option.bind_eq_bind,Option.pure_def,
          Option.bind_eq_some_iff,Option.some.injEq,Prod.mk.injEq] at hexchange
        obtain ⟨s,hs,-,rfl⟩ := hexchange
        exact hs
      have hlatest : peer ∈ node.history.latest :=
        h.cached peer (Std.ExtTreeMap.mem_iff_isSome_getElem?.mpr (by rw [hstatus]; rfl))
      obtain ⟨n,hn⟩ := Option.isSome_iff_exists.mp
        (Std.ExtTreeMap.mem_iff_isSome_getElem?.mp hlatest)
      obtain ⟨status,hcached,hmessage⟩ := h.latest peer n hn
      obtain rfl : status = peerStatus := Option.some.inj (hcached.symm.trans hstatus)
      refine ⟨h.cached,h.latest,h.pending,h.leaving,h.bounded,?_,?_⟩
      · intro walk hwalk
        rcases List.mem_append.mp hwalk with hwalk | hwalk
        · exact h.walks walk hwalk
        · obtain rfl := List.mem_singleton.mp hwalk
          exact ⟨n,hn,hmessage,fun hrejected => hstays (h.leaving peer n hn hrejected)⟩
      · intro walk hwalk hs hpending hsame
        rcases List.mem_append.mp hwalk with hwalk | hwalk
        · exact h.unvalidated walk hwalk hs hpending hsame
        · obtain rfl := List.mem_singleton.mp hwalk
          obtain rfl : n = hs.message := Option.some.inj (hn.symm.trans hsame)
          have hsender := h.pending hs hpending
          rw [hmessage,Option.some.injEq,Prod.mk.injEq] at hsender
          exact hvalidated hs hpending hsender.1.symm
    · exact h

end Node.Sound

theorem receive_statuses {registry next : PeerRegistry} {raw : String}
    (h : receive registry = some (raw,next)) : next.statuses = registry.statuses := by
  unfold receive at h
  split at h
  · cases h
  · split at h
    · cases h
    · cases h
      rfl

section Run
variable [Snappy]

theorem Node.Sound.swarm {node : Node} (h : node.Sound) {event : SwarmEvent} {fault : Fault}
    {provider : RpcProvider} (hevent : statusMessage event = none) :
    { node.closing event with
      host := (handleSwarmEvent event fault provider node.host).host }.Sound := by
  cases event with
  | gossip source id msg => exact h.frame rfl rfl rfl rfl
  | logged => exact h.frame rfl rfl rfl rfl
  | connectionEstablished peer c => exact h.frame rfl rfl rfl rfl
  | connectionClosed peer c => exact (h.close peer _ rfl).frame rfl rfl rfl rfl
  | blocksRr event =>
    have hregistry := handleBlocksRrEvent_registry event fault provider node.host
    exact h.frame (congrArg PeerRegistry.statuses hregistry) rfl rfl rfl
  | statusRr event =>
    have hhost : (handleStatusRrEvent event provider node.host).host = node.host := by
      unfold handleStatusRrEvent
      split
      · simp [statusMessage] at hevent
      · simp [statusMessage] at hevent
      · rfl
    exact h.frame (congrArg (fun host => host.registry.statuses) hhost) rfl rfl rfl

theorem Node.Sound.turn {node : Node} (h : node.Sound) {input : Turn} (hcalm : node.Calm input) :
    (node.turn input).2.Sound := by
  cases input with
  | swarm event fault provider =>
    simp only [Node.turn]
    split
    · exact h
    · exact h.arrive _ _ _
    · next hevent => exact h.swarm hevent
  | send id peer request reply =>
    simp only [Node.turn]
    split
    · exact h
    · exact h.frame rfl rfl rfl rfl
  | validation provider =>
    simp only [Node.turn]
    split
    · exact h
    · next hpending => exact h.conclude hpending provider
  | recv =>
    simp only [Node.turn]
    split
    · exact h
    · split
      · exact h.frame rfl rfl rfl rfl
      · split
        · exact h
        · next hreceive => exact h.frame (receive_statuses hreceive) rfl rfl rfl
  | acquire =>
    simp only [Node.turn]
    split <;> exact h.frame rfl rfl rfl rfl
  | poll peer => exact h.frame rfl rfl rfl rfl
  | exchange peer own =>
    simp only [Node.turn]
    split
    · exact (h.handle own hcalm.1 hcalm.2).frame rfl rfl rfl rfl
    · exact h
  | complete peer => exact h.frame rfl rfl rfl rfl
  | cancel => exact h.frame rfl rfl rfl rfl
  | initial peer own => exact h.handle own hcalm.1 hcalm.2

/-- In every run in which no worker reads the status of a peer between its arrival and its
validation, or between the rejection of one and the end of a connection to that peer, walks
start from accepted statuses only. -/
theorem walks_from_accepted {start s : Node} (hstatuses : start.host.registry.statuses = ∅)
    (hhandshake : start.handshake = none) (hhistory : start.history = ⟨[],∅,∅,[]⟩)
    {inputs : List Turn} {os : List (List SwarmAction)}
    (hrun : Run (fun m i o n => m.Calm i ∧ m.turn i = (o,n)) start inputs os s) :
    s.TrustsAccepted := by
  have hstart : start.Sound := by
    constructor <;> simp [hstatuses,hhandshake,hhistory,Node.TrustsAccepted]
  have hsound : s.Sound := hrun.preserves Node.Sound hstart fun h hstep => by
    have hnext := h.turn hstep.1
    rwa [hstep.2] at hnext
  exact hsound.walks

end Run

section Ahead
attribute [local instance] stored

def watching : Node :=
  ⟨⟨(⟨∅,∅,[]⟩ : PeerRegistry).subscribe peerEventChannelBound,⟨∅⟩,quiet⟩,none,∅,.new 4,⟨[],∅,∅,[]⟩⟩

def ahead (finalized : Bytes32) : Status := ⟨⟨finalized,Slot.zero⟩,⟨default,Slot.ofNat 5⟩⟩

def announced (finalized : Bytes32) : Turn :=
  .swarm (.statusRr (.request votePeer (.status (ahead finalized)) 0)) none .noOp

def woken : List Turn := [.recv,.acquire,.poll votePeer,.exchange votePeer greeting]

def watched (inputs : List Turn) : Node := (trace Node.turn inputs watching).2

theorem walks_once_accepted :
    (watched ([announced default,.validation .noOp] ++ woken)).TrustsAccepted ∧
      (watched ([announced default,.validation .noOp] ++ woken)).history.walks.length = 1 := by
  have hmeets : Meets Node.Calm Node.turn ([announced default,.validation .noOp] ++ woken)
      watching := by
    refine ⟨trivial,trivial,trivial,trivial,trivial,⟨?_,?_⟩,trivial⟩
    · have hdone : (watched [announced default,.validation .noOp,.recv,.acquire,
          .poll votePeer]).handshake = none := by decide +kernel
      intro h hpending
      exact absurd (hdone.symm.trans hpending) (by simp)
    · change votePeer ∉ (watched [announced default,.validation .noOp,.recv,.acquire,
        .poll votePeer]).leaving
      decide +kernel
  exact ⟨walks_from_accepted rfl rfl rfl (run_meets hmeets),by decide +kernel⟩

/-- The worker is faster than the validation, or comes after it and before the disconnect. -/
theorem walks_from_rejected :
    ¬(watched ([announced (u64Chunk 1)] ++ woken ++ [.validation .noOp])).TrustsAccepted ∧
      ¬(watched ([announced (u64Chunk 1),.validation .noOp] ++ woken)).TrustsAccepted := by
  have hfirst : 0 ∈ (watched ([announced (u64Chunk 1)] ++ woken ++
      [.validation .noOp])).history.rejected ∧
      some 0 ∈ (watched ([announced (u64Chunk 1)] ++ woken ++
        [.validation .noOp])).history.walks.map Walk.message := by decide +kernel
  have hsecond : 0 ∈ (watched ([announced (u64Chunk 1),.validation .noOp] ++
      woken)).history.rejected ∧
      some 0 ∈ (watched ([announced (u64Chunk 1),.validation .noOp] ++
        woken)).history.walks.map Walk.message := by decide +kernel
  exact ⟨Node.not_trustsAccepted hfirst.1 hfirst.2,Node.not_trustsAccepted hsecond.1 hsecond.2⟩

end Ahead

end Devnet.Sync
