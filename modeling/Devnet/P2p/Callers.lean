import Devnet.Lib.Custody
import Devnet.P2p.Peers

/-!
The callers of outbound requests. The sending half of each caller's oneshot is in the custody of
the swarm task, in a table by request id, until a response, a failure or the end of a connection
takes it out. So every caller gets one answer or is still waiting, and an answer is always to the
caller's own request.
-/

set_option autoImplicit false

namespace Devnet.P2p
open Machine Custody Tables Devnet.Types Devnet.Ssz Devnet.Protocol Devnet.Storage
  Devnet.Networking Devnet.Chain

def Input.sends : Input → List (PeerId × Reply)
  | .sendRequest _ peer _ reply => [(peer,reply)]
  | .event _ _ _ => []

/-- An input that answers request `id` to `peer` with this result. -/
def Input.Answers (id : RequestId) (peer : PeerId) (result : Except RpcError RpcResponse) :
    Input → Prop
  | .event (.blocksRr (.response _ answered (.blocksByRoot r))) _ _ =>
    answered = id ∧ result = .ok (.blocksByRoot r)
  | .event (.blocksRr (.outboundFailure _ failed error)) _ _ =>
    failed = id ∧ result = .error (.outbound error)
  | .event (.connectionClosed closed _) _ _ =>
    closed = peer ∧ result = .error (.outbound "peer connection closed")
  | _ => False

/-- The answers of an operation are to callers that it takes out of the table, each with its
id, its peer and the result. -/
structure Hands (table : OutboundTable)
    (right : RequestId → PeerId → Except RpcError RpcResponse → Prop)
    (after : OutboundTable × Answers) (ins : List (PeerId × Reply)) : Prop where
  moves : ∃ outs, Moves table.pending ins outs after.1.pending ∧
    after.2.map Prod.fst = outs.map Prod.snd
  right : ∀ answer ∈ after.2, ∃ id peer, table.pending[id]? = some (peer,answer.1) ∧
    right id peer answer.2

theorem hands_wake (table : OutboundTable) (id : RequestId)
    (result : Except RpcError RpcResponse) :
    Hands table (fun id' _ result' => id = id' ∧ result' = result) (table.wake id result) [] := by
  unfold OutboundTable.wake
  cases hentry : table.pending[id]? with
  | none => exact ⟨⟨[],.refl _,rfl⟩,by simp⟩
  | some entry =>
    obtain ⟨peer,reply⟩ := entry
    refine ⟨⟨[(peer,reply)],moves_erase hentry,rfl⟩,?_⟩
    intro answer hanswer
    obtain rfl := List.mem_singleton.mp hanswer
    exact ⟨id,peer,hentry,rfl,rfl⟩

theorem hands_foldl (reason : String) (ids : List RequestId) (table : OutboundTable)
    (earlier : Answers) :
    ∃ later, (ids.foldl (fun acc id => ((acc.1.fail id reason).1,
        acc.2 ++ (acc.1.fail id reason).2)) (table,earlier)).2 = earlier ++ later ∧
      Hands table (fun id _ result => id ∈ ids ∧ result = .error (.outbound reason))
        ((ids.foldl (fun acc id => ((acc.1.fail id reason).1,
          acc.2 ++ (acc.1.fail id reason).2)) (table,earlier)).1,later) [] := by
  induction ids generalizing table earlier with
  | nil => exact ⟨[],by simp,⟨[],.refl _,rfl⟩,by simp⟩
  | cons id ids ih =>
    obtain ⟨later,hlater,hrest⟩ := ih (table.fail id reason).1
      (earlier ++ (table.fail id reason).2)
    obtain ⟨⟨outs,hmoves,houts⟩,hright⟩ := hands_wake table id (.error (.outbound reason))
    obtain ⟨outs',hmoves',houts'⟩ := hrest.moves
    refine ⟨(table.fail id reason).2 ++ later,by rw [List.foldl_cons,hlater,List.append_assoc],
      ⟨outs ++ outs',hmoves.trans hmoves',?_⟩,?_⟩
    · rw [List.map_append,List.map_append,← houts,← houts']
      rfl
    · intro answer hanswer
      rcases List.mem_append.mp hanswer with hnow | hthen
      · obtain ⟨id',peer,hentry,rfl,hresult⟩ := hright answer hnow
        exact ⟨_,peer,hentry,List.mem_cons_self,hresult⟩
      · obtain ⟨id',peer,hentry,hmem,hresult⟩ := hrest.right answer hthen
        refine ⟨id',peer,?_,List.mem_cons_of_mem _ hmem,hresult⟩
        rw [OutboundTable.fail,OutboundTable.wake_pending] at hentry
        split at hentry
        · cases hentry
        · exact hentry

theorem hands_failAllForPeer (table : OutboundTable) (peer : PeerId) (reason : String) :
    Hands table (fun _ peer' result => peer = peer' ∧ result = .error (.outbound reason))
      (table.failAllForPeer peer reason) [] := by
  obtain ⟨later,hlater,hhands⟩ := hands_foldl reason
    ((table.pending.toList.filter fun entry => entry.2.1 = peer).map Prod.fst) table []
  rw [List.nil_append] at hlater
  subst hlater
  refine ⟨hhands.moves,?_⟩
  intro answer hanswer
  obtain ⟨id,peer',hentry,hid,hresult⟩ := hhands.right answer hanswer
  refine ⟨id,peer',hentry,?_,hresult⟩
  obtain ⟨entry,hmem,rfl⟩ := List.mem_map.mp hid
  obtain ⟨hmem,hpeer⟩ := List.mem_filter.mp hmem
  have hget := Std.ExtTreeMap.mem_toList_iff_getElem?_eq_some.mp hmem
  have hsame : (peer',answer.1) = entry.2 := Option.some.inj (hentry.symm.trans hget)
  exact (of_decide_eq_true hpeer).symm.trans (congrArg Prod.fst hsame.symm)

section
variable [Snappy]

theorem hands_handle {net : Net} {input : Input} (h : net.Admits input) :
    Hands net.host.outbound (fun id peer result => input.Answers id peer result)
      ((net.handle input).2.host.outbound,(net.handle input).1.answers) input.sends := by
  have hquiet : ∀ {right : RequestId → PeerId → Except RpcError RpcResponse → Prop},
      Hands net.host.outbound right (net.host.outbound,[]) [] :=
    ⟨⟨[],.refl _,rfl⟩,by simp⟩
  cases input with
  | sendRequest id peer request reply =>
    exact ⟨⟨[],moves_insert h (peer,reply),rfl⟩,by simp [Net.handle]⟩
  | event event fault provider =>
    cases event with
    | gossip source messageId msg => exact hquiet
    | logged => exact hquiet
    | connectionEstablished other c => exact hquiet
    | statusRr event =>
      have houtbound := handleStatusRrEvent_outbound event provider net.host
      have hanswers : (handleStatusRrEvent event provider net.host).answers = [] := by
        unfold handleStatusRrEvent
        split <;> rfl
      simp only [Net.handle,handleSwarmEvent,houtbound,hanswers]
      exact hquiet
    | connectionClosed other c =>
      have hhands := hands_failAllForPeer net.host.outbound other "peer connection closed"
      exact ⟨hhands.moves,hhands.right⟩
    | blocksRr event =>
      simp only [Net.handle,handleSwarmEvent]
      unfold handleBlocksRrEvent
      split
      · exact hquiet
      · next answered r =>
        have hhands := hands_wake net.host.outbound answered (.ok (.blocksByRoot r))
        exact ⟨hhands.moves,hhands.right⟩
      · next failed error =>
        have hhands := hands_wake net.host.outbound failed (.error (.outbound error))
        exact ⟨hhands.moves,hhands.right⟩
      · exact hquiet

theorem of_pending_handle {net : Net} {input : Input} {id : RequestId} {peer : PeerId}
    {reply : Reply}
    (h : (net.handle input).2.host.outbound.pending[id]? = some (peer,reply)) :
    net.host.outbound.pending[id]? = some (peer,reply) ∨
      ∃ request, input = .sendRequest id peer request reply := by
  have hwoken : ∀ {other : RequestId} {result : Except RpcError RpcResponse},
      (net.host.outbound.wake other result).1.pending[id]? = some (peer,reply) →
      net.host.outbound.pending[id]? = some (peer,reply) := by
    intro other result hget
    rw [OutboundTable.wake_pending] at hget
    split at hget
    · cases hget
    · exact hget
  cases input with
  | sendRequest id' peer' request reply' =>
    change (net.host.outbound.pending.insert id' (peer',reply'))[id]? = some (peer,reply) at h
    by_cases hid : id' = id
    · subst hid
      obtain ⟨rfl,rfl⟩ : peer' = peer ∧ reply' = reply := by simpa using h
      exact .inr ⟨request,rfl⟩
    · rw [Std.ExtTreeMap.getElem?_insert,if_neg (by simpa using hid)] at h
      exact .inl h
  | event event fault provider =>
    refine .inl ?_
    cases event with
    | gossip source messageId msg => exact h
    | logged => exact h
    | connectionEstablished other c => exact h
    | statusRr event =>
      change (handleStatusRrEvent event provider net.host).host.outbound.pending[id]? = _ at h
      rwa [handleStatusRrEvent_outbound] at h
    | connectionClosed other c =>
      change (net.host.outbound.failAllForPeer other _).1.pending[id]? = _ at h
      rw [OutboundTable.failAllForPeer_pending,Option.filter_eq_some_iff] at h
      exact h.1
    | blocksRr event =>
      change (handleBlocksRrEvent event fault provider net.host).host.outbound.pending[id]? = _ at h
      unfold handleBlocksRrEvent at h
      split at h
      · exact h
      · exact hwoken h
      · exact hwoken h
      · exact h

structure Booked (inputs : List Input) (os : List Handled) (net : Net) : Prop where
  moves : ∃ outs, Moves ∅ (inputs.flatMap Input.sends) outs net.host.outbound.pending ∧
    (os.flatMap Handled.answers).map Prod.fst = outs.map Prod.snd
  waiting : ∀ {id : RequestId} {peer : PeerId} {reply : Reply},
    net.host.outbound.pending[id]? = some (peer,reply) →
      ∃ request, Input.sendRequest id peer request reply ∈ inputs
  right : ∀ entry ∈ inputs.zip os, ∀ answer ∈ entry.2.answers, ∃ id peer request,
    Input.sendRequest id peer request answer.1 ∈ inputs ∧ entry.1.Answers id peer answer.2

theorem Booked.step {inputs : List Input} {os : List Handled} {net : Net}
    (h : Booked inputs os net) (hlength : inputs.length = os.length) {input : Input}
    (hadmits : net.Admits input) :
    Booked (inputs ++ [input]) (os ++ [(net.handle input).1]) (net.handle input).2 := by
  obtain ⟨⟨outs',hmoves',houts'⟩,hright'⟩ := hands_handle hadmits
  obtain ⟨outs,hmoves,houts⟩ := h.moves
  refine ⟨⟨outs ++ outs',?_,?_⟩,?_,?_⟩
  · simpa [List.flatMap_append] using hmoves.trans hmoves'
  · simp only [List.flatMap_append,List.flatMap_singleton,List.map_append,houts,← houts']
  · intro id peer reply hentry
    rcases of_pending_handle hentry with hold | ⟨request,rfl⟩
    · obtain ⟨request,hsent⟩ := h.waiting hold
      exact ⟨request,List.mem_append_left _ hsent⟩
    · exact ⟨request,by simp⟩
  · intro entry hentry answer hanswer
    rw [List.zip_append hlength] at hentry
    rcases List.mem_append.mp hentry with hold | hnew
    · obtain ⟨id,peer,request,hsent,hresult⟩ := h.right entry hold answer hanswer
      exact ⟨id,peer,request,List.mem_append_left _ hsent,hresult⟩
    · obtain rfl : entry = (input,(net.handle input).1) := by simpa using hnew
      obtain ⟨id,peer,hwaits,hresult⟩ := hright' answer hanswer
      obtain ⟨request,hsent⟩ := h.waiting hwaits
      exact ⟨id,peer,request,List.mem_append_left _ hsent,hresult⟩

/-- From an empty table on, in every run of the swarm task: the callers that have sent a request
are those that have been answered and those that still wait, each of them once; and every
answer is to a request that the caller did send, by a response or a failure for that request or
the end of a connection to that peer. -/
theorem callers_answered_once {start net : Net} (hempty : start.host.outbound.pending = ∅)
    {inputs : List Input} {os : List Handled}
    (hrun : Run (fun m i o n => m.Admits i ∧ m.handle i = (o,n)) start inputs os net) :
    ((inputs.flatMap Input.sends).map Prod.snd).Perm
        ((os.flatMap Handled.answers).map Prod.fst ++
          (rowsOf net.host.outbound.pending).map Prod.snd) ∧
    ∀ entry ∈ inputs.zip os, ∀ answer ∈ entry.2.answers, ∃ id peer request,
      Input.sendRequest id peer request answer.1 ∈ inputs ∧
        entry.1.Answers id peer answer.2 := by
  have hbooked : Booked inputs os net := by
    refine hrun.invariant Booked ?_ ?_
    · refine ⟨⟨[],?_,rfl⟩,?_,by simp⟩
      · rw [hempty]
        exact .refl ∅
      · simp [hempty]
    · intro earlier outs m input o n hbefore hbooks hstep
      have hnext := hbooks.step hbefore.length_eq hstep.1
      rwa [hstep.2] at hnext
  obtain ⟨outs,hmoves,houts⟩ := hbooked.moves
  refine ⟨?_,hbooked.right⟩
  have hperm := hmoves.map Prod.snd
  have hnone : rowsOf (∅ : HashMap RequestId (PeerId × Reply)) = [] := rfl
  rw [hnone,List.nil_append,List.map_append] at hperm
  rwa [houts]

end

section
attribute [local instance] stored

def twoCallers : List Input :=
  [dialled 1,.sendRequest 7 votePeer (.blocksByRoot ⟨[]⟩) 0,
    .sendRequest 8 votePeer (.blocksByRoot ⟨[]⟩) 1,
    .event (.blocksRr (.response votePeer 7 (.blocksByRoot ⟨[]⟩))) none .noOp,hungUp 1]

theorem callers_answered_once_pair :
    ((trace Net.handle twoCallers lonely).1.flatMap Handled.answers).map Prod.fst = [0,1] ∧
    ((twoCallers.flatMap Input.sends).map Prod.snd).Perm
      (((trace Net.handle twoCallers lonely).1.flatMap Handled.answers).map Prod.fst ++
        (rowsOf (trace Net.handle twoCallers lonely).2.host.outbound.pending).map Prod.snd) := by
  have hmeets : Meets Net.Admits Net.handle twoCallers lonely := by
    refine ⟨?_,?_,?_,trivial,?_,trivial⟩
    · change (1 : Nat) ∉ lonely.used
      decide
    · change (7 : Nat) ∉ (ended [dialled 1]).host.outbound.pending
      decide +kernel
    · change (8 : Nat) ∉ (ended [dialled 1,.sendRequest 7 votePeer (.blocksByRoot ⟨[]⟩)
        0]).host.outbound.pending
      decide +kernel
    · change (ended (twoCallers.take 4)).links[1]? = some votePeer
      decide +kernel
  exact ⟨by decide +kernel,(callers_answered_once rfl (run_meets hmeets)).1⟩

end

end Devnet.P2p
