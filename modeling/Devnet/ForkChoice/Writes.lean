import Devnet.ForkChoice.Production

/-!
What the operations of a store write, said once. Every operation is a sequence of a
few kinds of write, also when it fails half-way; an invariant is then proved write by
write. A gossip vote is the one write kept apart, since it is the only one that does
not look at the known votes.
-/

set_option autoImplicit false

namespace Devnet.ForkChoice
open Machine Trees Devnet.Types Devnet.Ssz Devnet.Protocol

/-- A write that leaves the block tree and the checkpoints alone. -/
inductive Touch : Store → Store → Prop where
  | clock (st : Store) (time : Time) : Touch st { st with time := time }
  | onChain {st : Store} {vote : SignedAttestation} (admits : st.Admits vote) :
      Touch st (st.withOnChain vote)
  | promote (st : Store) : Touch st st.promoted
  | head {st : Store} {head : Bytes32} (votes : HashMap ValidatorIndex Checkpoint)
      (selects : getForkChoiceHead st.blocks st.latestJustified.root votes 0 = .ok head) :
      Touch st { st with head := head }
  | safeTarget {st : Store} {target : Bytes32} (votes : HashMap ValidatorIndex Checkpoint)
      (minScore : Nat)
      (selects : getForkChoiceHead st.blocks st.latestJustified.root votes minScore = .ok target) :
      Touch st { st with safeTarget := target }

abbrev Touches := Relation.ReflTransGen Touch

/-- A new pair enters the tree: its parent's post-state leads to its own. -/
inductive Write [HashPair] : Store → Store → Prop where
  | touch {st t : Store} (touch : Touch st t) : Write st t
  | track {st : Store} {block : Block} {parent post : State}
      (hasParent : st.states[block.parentRoot]? = some parent)
      (assembled : Assembled parent block post) (root : block.stateRoot = hashTreeRoot post)
      (isNew : hashTreeRoot block ∉ st.blocks) :
      Write st (st.tracking (hashTreeRoot block) block post)

abbrev Writes [HashPair] := Relation.ReflTransGen Write

structure SameTree (st t : Store) : Prop where
  blocks : t.blocks = st.blocks
  states : t.states = st.states
  blockOrder : t.blockOrder = st.blockOrder
  latestJustified : t.latestJustified = st.latestJustified
  latestFinalized : t.latestFinalized = st.latestFinalized

theorem SameTree.refl (st : Store) : SameTree st st := ⟨rfl,rfl,rfl,rfl,rfl⟩

theorem SameTree.trans {st m t : Store} (h : SameTree st m) (h' : SameTree m t) : SameTree st t :=
  ⟨h'.blocks.trans h.blocks,h'.states.trans h.states,h'.blockOrder.trans h.blockOrder,
    h'.latestJustified.trans h.latestJustified,h'.latestFinalized.trans h.latestFinalized⟩

theorem Touch.sameTree {st t : Store} (h : Touch st t) : SameTree st t := by
  cases h <;> exact ⟨rfl,rfl,rfl,rfl,rfl⟩

theorem sameTree_of_touches {st t : Store} (h : Touches st t) : SameTree st t := by
  induction h with
  | refl => exact SameTree.refl st
  | tail _ hstep ih => exact ih.trans hstep.sameTree

theorem touches_acceptNewVotes (st : Store) : Touches st (after acceptNewVotes st) := by
  have hpromote : Touches st st.promoted := .single (.promote st)
  rcases acceptNewVotes_cases st with ⟨head,hhead,hrun⟩ | ⟨e,-,hrun⟩
  · rw [after_of_ok hrun]
    have hselect : Touch st.promoted { st.promoted with head := head } := .head _ hhead
    exact hpromote.tail hselect
  · rw [after_of_error hrun]
    exact hpromote

theorem touches_updateSafeTarget (st : Store) : Touches st (after updateSafeTarget st) := by
  rcases updateSafeTarget_cases st with ⟨target,hsel,hrun⟩ | ⟨e,-,hrun⟩
  · rw [after_of_ok hrun]
    obtain ⟨n,-,hselects⟩ := except_bind_ok.mp hsel
    exact .single (.safeTarget _ _ hselects)
  · rw [after_of_error hrun]

theorem touches_onChain (st : Store) (vote : SignedAttestation) :
    Touches st (after (processAttestation vote true) st) := by
  rcases processAttestation_cases st vote true with ⟨e,-,hrun⟩ | ⟨changed,hadmits,hrun⟩
  · rw [after_of_error hrun]
  · rw [after_of_ok hrun]
    exact .single (.onChain hadmits)

theorem touches_tickInterval (hasProposal : Bool) (st : Store) :
    Touches st (after (tickInterval hasProposal) st) := by
  cases hnext : st.time.checkedAdvance with
  | none =>
    have hrun : tickInterval hasProposal st = .error (.timeOverflow st.time) st := by
      simp [tickInterval,hnext]
    rw [after_of_error hrun]
  | some next =>
    have hclock : Touches st { st with time := next } := .single (.clock st next)
    have hrun : ∀ {m}, (tickInterval hasProposal) st = m { st with time := next } →
        Touches { st with time := next } (after m { st with time := next }) →
        Touches st (after (tickInterval hasProposal) st) := by
      intro m heq hm
      rw [after,heq]
      exact hclock.trans hm
    cases hphase : next.phase with
    | proposal =>
      cases hasProposal with
      | false =>
        refine hrun (m := pure ()) ?_ .refl
        simp [tickInterval,hnext,hphase]
        rfl
      | true =>
        refine hrun ?_ (touches_acceptNewVotes _)
        simp [tickInterval,hnext,hphase]
        rfl
    | idle =>
      refine hrun (m := pure ()) ?_ .refl
      simp [tickInterval,hnext,hphase]
      rfl
    | updateSafeTarget =>
      refine hrun ?_ (touches_updateSafeTarget _)
      simp [tickInterval,hnext,hphase]
      rfl
    | acceptNewVotes =>
      refine hrun ?_ (touches_acceptNewVotes _)
      simp [tickInterval,hnext,hphase]
      rfl

theorem after_getProposalHead (st : Store) :
    after getProposalHead st = after acceptNewVotes st := by
  rcases acceptNewVotes_cases st with ⟨head,-,hrun⟩ | ⟨e,-,hrun⟩
  · rw [getProposalHead,after_bind_of_ok hrun,after_of_ok hrun]
    rfl
  · rw [getProposalHead,after_bind_of_error hrun,after_of_error hrun]

theorem after_produceAttestationVote (slot : Slot) (st : Store) :
    after (produceAttestationVote slot) st = after acceptNewVotes st := by
  rw [← after_getProposalHead]
  unfold produceAttestationVote
  cases hrun : getProposalHead st with
  | error e m => rw [after_bind_of_error hrun,after_of_error hrun]
  | ok headRoot m =>
    rw [after_bind_of_ok hrun,after_of_ok hrun]
    exact after_check_bind (R := fun s t => t = s) (fun _ => rfl)
      fun _ => after_check_bind (R := fun s t => t = s) (fun _ => rfl) fun _ => rfl

section Writing
variable [HashPair]

theorem writes_of_touches {st t : Store} (h : Touches st t) : Writes st t := by
  induction h with
  | refl => exact .refl
  | tail _ htouch ih => exact ih.tail (.touch htouch)

/-- An operation either leaves the tree alone, or ends with a refresh of the head. -/
inductive Settles (st : Store) : Store → Prop where
  | quiet {t : Store} (touches : Touches st t) : Settles st t
  | refreshed {m : Store} (writes : Writes st m) : Settles st (after acceptNewVotes m)

theorem Settles.writes {st t : Store} (h : Settles st t) : Writes st t := by
  cases h with
  | quiet htouches => exact writes_of_touches htouches
  | refreshed hwrites => exact hwrites.trans (writes_of_touches (touches_acceptNewVotes _))

theorem Settles.head {st m t : Store} (h : Touches st m) (h' : Settles m t) : Settles st t := by
  cases h' with
  | quiet htouches => exact .quiet (h.trans htouches)
  | refreshed hwrites => exact .refreshed ((writes_of_touches h).trans hwrites)

theorem settles_self (st : Store) : Settles st st := .quiet .refl

theorem settles_finalizeProducedBlock {st : Store} {slot : Slot} {validator : ValidatorIndex}
    {headRoot : Bytes32} {headState post : State} {votes : List SignedAttestation}
    {candidate : Block} (hstate : st.states[headRoot]? = some headState)
    (hbuild : buildCandidateBlock headRoot slot validator headState votes = .ok (candidate,post)) :
    Settles st (after (finalizeProducedBlock headRoot slot validator votes post) st) := by
  unfold finalizeProducedBlock
  rcases trackBlock_cases st ⟨slot,validator,headRoot,hashTreeRoot post,bodyFrom votes⟩ post with
    ⟨e,hrun⟩ | ⟨-,hrun⟩ | ⟨hroot,hnew,hrun⟩
  · rw [after_bind_of_error hrun]
    exact settles_self st
  · rw [after_bind_of_ok hrun,after_bind_pure]
    exact .refreshed .refl
  · rw [after_bind_of_ok hrun,after_bind_pure]
    exact .refreshed (.single (.track hstate (buildCandidateBlock_ok hbuild _) hroot hnew))

theorem settles_produceBlock (order : IterationOrder SignedAttestation) (slot : Slot)
    (validator : ValidatorIndex) (st : Store) :
    Settles st (after (produceBlock order slot validator) st) := by
  have htouches := after_getProposalHead st ▸ touches_acceptNewVotes st
  unfold produceBlock
  cases hhead : getProposalHead st with
  | error e m =>
    rw [after_of_error hhead] at htouches
    rw [after_bind_of_error hhead]
    exact .quiet htouches
  | ok headRoot m =>
    rw [after_of_ok hhead] at htouches
    rw [after_bind_of_ok hhead]
    refine Settles.head htouches ?_
    rw [after_bind_of_ok (rfl : (get : Edit Store) m = .ok m m)]
    cases hstate : m.states[headRoot]? with
    | none => exact settles_self m
    | some headState =>
      refine after_check_bind settles_self ?_
      intro proposes _
      cases proposes with
      | false => exact settles_self m
      | true =>
        simp only [Bool.true_eq_false,if_false]
        refine after_check_bind settles_self ?_
        rintro ⟨votes,post⟩ hconv
        obtain ⟨-,candidate,hbuild⟩ := convergeAttestations_ok hconv
        exact settles_finalizeProducedBlock hstate hbuild

end Writing

end Devnet.ForkChoice
