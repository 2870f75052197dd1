import Devnet.ForkChoice.Store
import Devnet.Protocol.Transition

/-!
Local production of blocks and votes. The producer does not call the state
transition: it advances the head's post-state itself, runs a candidate block whose
state root is still zero, and gathers votes until none is left to add. That the two
ways agree is `Assembled.stateTransition`.
-/

set_option autoImplicit false

namespace Devnet.ForkChoice
open Machine Trees Devnet.Types Devnet.Ssz Devnet.Protocol

/-- The order in which a hash map hands out its values: any rearrangement of them. -/
structure IterationOrder (α : Type) where
  arrange : List α → List α
  perm : ∀ values, (arrange values).Perm values

instance {α : Type} : Inhabited (IterationOrder α) := ⟨⟨id,List.Perm.refl⟩⟩

structure ProducedBlock where
  block : Block
  root : Bytes32
  parentRoot : Bytes32
  postState : State
  postStateRoot : Bytes32

structure ProducedVote where
  vote : AttestationData
  headRoot : Bytes32
  target : Checkpoint
  source : Checkpoint
  safeTarget : Bytes32

def bodyFrom (votes : List SignedAttestation) : BlockBody := ⟨votes.map (·.message)⟩

/-- Votes for tracked targets, from the candidate's own justified checkpoint, that the
block does not carry yet; no more than fit. -/
def Store.collectIncludableVotes (self : Store) (order : IterationOrder SignedAttestation)
    (postState : State) (alreadyIncluded : List SignedAttestation) : List SignedAttestation :=
  let cap := maxAttestations - alreadyIncluded.length
  if cap = 0 then []
  else
    ((((order.arrange (Tables.values self.latestKnownVotes)).filter fun vote =>
      self.hasBlock vote.message.data.target.root).filter fun vote =>
      decide (vote.message.data.source = postState.latestJustified)).filter fun vote =>
      !alreadyIncluded.contains vote).take cap

theorem length_collectIncludableVotes (self : Store) (order : IterationOrder SignedAttestation)
    (postState : State) (included : List SignedAttestation) :
    (self.collectIncludableVotes order postState included).length ≤
      maxAttestations - included.length := by
  unfold Store.collectIncludableVotes
  by_cases hcap : maxAttestations - included.length = 0
  · simp [hcap]
  · simp only [if_neg hcap]
    exact List.length_take_le _ _

theorem mem_collectIncludableVotes {self : Store} {order : IterationOrder SignedAttestation}
    {postState : State} {included : List SignedAttestation} {vote : SignedAttestation}
    (h : vote ∈ self.collectIncludableVotes order postState included) :
    vote ∈ Tables.values self.latestKnownVotes ∧
      vote.message.data.source = postState.latestJustified ∧
      vote.message.data.target.root ∈ self.blocks := by
  unfold Store.collectIncludableVotes at h
  by_cases hcap : maxAttestations - included.length = 0
  · simp [hcap] at h
  · simp only [if_neg hcap] at h
    have hmem := List.mem_of_mem_take h
    simp only [List.mem_filter,decide_eq_true_eq] at hmem
    exact ⟨(order.perm _).mem_iff.mp hmem.1.1.1,hmem.1.2,
      Std.ExtTreeMap.contains_iff_mem.mp hmem.1.1.2⟩

theorem collectIncludableVotes_empty {self : Store} (h : self.latestKnownVotes = ∅)
    (order : IterationOrder SignedAttestation) (postState : State)
    (included : List SignedAttestation) :
    self.collectIncludableVotes order postState included = [] := by
  rw [List.eq_nil_iff_forall_not_mem]
  intro vote hvote
  obtain ⟨v,hv⟩ := Tables.mem_values.mp (mem_collectIncludableVotes hvote).1
  simp [h] at hv

section Production
variable [HashPair]

def advanceStateToSlot (state : State) (target : Slot) : Except ForkchoiceError State :=
  match compare state.slot.get target.get with
  | .eq => .ok state
  | .lt => (onCopy (processSlots target) state).mapError .stateTransition
  | .gt => .error (.stateSlotAheadOfTarget state.slot target)

def buildCandidateBlock (headRoot : Bytes32) (slot : Slot) (validator : ValidatorIndex)
    (headState : State) (votes : List SignedAttestation) :
    Except ForkchoiceError (Block × State) := do
  let candidate : Block :=
    { slot := slot
      proposerIndex := validator
      parentRoot := headRoot
      stateRoot := ByteVector.zero
      body := bodyFrom votes }
  let next ← advanceStateToSlot headState slot
  let next ← (onCopy (processBlockHeader candidate) next).mapError .stateTransition
  let next ← (onCopy (processAttestations candidate.body.attestations) next).mapError
    .stateTransition
  .ok (candidate,next)

def Store.convergeRound (self : Store) (order : IterationOrder SignedAttestation)
    (headRoot : Bytes32) (slot : Slot) (validator : ValidatorIndex) (headState : State)
    (attestations : List SignedAttestation) :
    Except ForkchoiceError
      (Flow (List SignedAttestation) (List SignedAttestation × State)) := do
  let (_,postState) ← buildCandidateBlock headRoot slot validator headState attestations
  let additions := self.collectIncludableVotes order postState attestations
  if additions.isEmpty = true then .ok (.stop (attestations,postState))
  else .ok (.next (attestations ++ additions))

/-- Each round but the last adds a vote, so there is one round for each place in the body
and one more. -/
def Store.convergeAttestations (self : Store) (order : IterationOrder SignedAttestation)
    (headRoot : Bytes32) (slot : Slot) (validator : ValidatorIndex) (headState : State) :
    Except ForkchoiceError (List SignedAttestation × State) :=
  loop (self.convergeRound order headRoot slot validator headState) .unending
    (maxAttestations+1) []

def finalizeProducedBlock (headRoot : Bytes32) (slot : Slot) (validator : ValidatorIndex)
    (attestations : List SignedAttestation) (postState : State) : Edit ProducedBlock := do
  let postStateRoot := hashTreeRoot postState
  let block : Block :=
    { slot := slot
      proposerIndex := validator
      parentRoot := headRoot
      stateRoot := postStateRoot
      body := bodyFrom attestations }
  let root := hashTreeRoot block
  let _ ← trackBlock block postState
  acceptNewVotes
  pure ⟨block,root,headRoot,postState,postStateRoot⟩

def produceBlock (order : IterationOrder SignedAttestation) (slot : Slot)
    (validator : ValidatorIndex) : Edit ProducedBlock := do
  let headRoot ← getProposalHead
  let self ← get
  match self.states[headRoot]? with
  | none => throw (.headStateNotFound headRoot)
  | some headState =>
    let proposes ←
      check ((isProposer validator slot headState.numValidators).mapError .protocol)
    if proposes = false then throw (.unauthorizedProposer validator slot)
    else do
      let (attestations,postState) ←
        check (self.convergeAttestations order headRoot slot validator headState)
      finalizeProducedBlock headRoot slot validator attestations postState

def produceAttestationVote (slot : Slot) : Edit ProducedVote := do
  let headRoot ← getProposalHead
  let self ← get
  let headBlock ← check (self.lookupBlock headRoot .unknownHeadBlock)
  let target ← check self.getVoteTarget
  let source := self.latestJustified
  pure
    { vote := ⟨slot,⟨headRoot,headBlock.slot⟩,target,source⟩
      headRoot := headRoot
      target := target
      source := source
      safeTarget := self.safeTarget }

/-- How the producer gets from the parent's post-state to the block's, whatever state
root the block ends up with. -/
structure Assembled (parent : State) (block : Block) (post : State) : Prop where
  run : ∃ m opened, advanceStateToSlot parent block.slot = .ok m ∧
    processBlockHeader block m = .ok () opened ∧
    processAttestations block.body.attestations opened = .ok () post

theorem advanceStateToSlot_ok {s t : State} {target : Slot} :
    advanceStateToSlot s target = .ok t ↔
      s.slot = target ∧ t = s ∨ processSlots target s = .ok () t := by
  unfold advanceStateToSlot
  rcases Nat.lt_trichotomy s.slot.get target.get with hlt | heq | hgt
  · have hne : s.slot ≠ target := fun h => by simp [h] at hlt
    simp only [Nat.compare_eq_lt.mpr hlt,mapError_ok,onCopy_ok,hne,false_and,false_or]
    exact ⟨fun ⟨_,h⟩ => h,fun h => ⟨(),h⟩⟩
  · have hfail : ∀ t, processSlots target s ≠ .ok () t := by
      intro t h
      have := (processSlots_ok h).1
      omega
    simp [Slot.ext_get heq,hfail,eq_comm (a := t)]
  · have hne : s.slot ≠ target := fun h => by simp [h] at hgt
    have hfail : ∀ t, processSlots target s ≠ .ok () t := by
      intro t h
      have := (processSlots_ok h).1
      omega
    simp [Nat.compare_eq_gt.mpr hgt,hne,hfail]

theorem processSlots_append {s : State} {mid last : Slot} (hroot : hashTreeRoot s ≠ ByteVector.zero)
    (hmid : s.slot.get < mid.get) (hlast : mid.get < last.get) :
    (processSlots mid >>= fun _ => processSlots last) s = processSlots last s := by
  -- The second leg finds the root taken.
  have hcached := State.cachedRoot_ne_zero hroot
  have hkept : (s.sealed mid s.cachedRoot).cachedRoot = s.cachedRoot :=
    State.cachedRoot_sealed hcached
  have hsecond := processSlots_sealed (s := s.sealed mid s.cachedRoot) (by rwa [hkept]) hlast
  rw [estate_bind_of_ok (processSlots_sealed hcached hmid),hsecond,hkept,
    processSlots_sealed hcached (hmid.trans hlast)]
  rfl

theorem buildCandidateBlock_ok {headRoot : Bytes32} {slot : Slot} {validator : ValidatorIndex}
    {headState post : State} {votes : List SignedAttestation} {candidate : Block}
    (h : buildCandidateBlock headRoot slot validator headState votes = .ok (candidate,post))
    (root : Bytes32) :
    Assembled headState ⟨slot,validator,headRoot,root,bodyFrom votes⟩ post := by
  simp only [buildCandidateBlock,except_bind_ok,mapError_ok,onCopy_ok,Except.ok.injEq,
    Prod.mk.injEq] at h
  obtain ⟨m,hm,opened,⟨⟨⟩,hopened⟩,_,⟨⟨⟩,hpost⟩,-,rfl⟩ := h
  exact ⟨m,opened,hm,hopened,hpost⟩

theorem assembled_of_stateTransition {s t : State} {signed : SignedBlockWithAttestation}
    {validate : Bool} (h : s.stateTransition signed validate = .ok t) :
    Assembled s signed.message.block t := by
  obtain ⟨opened,hopened,hpost,-⟩ := stateTransition_ok.mp h
  simp only [State.opened,except_bind_ok,onCopy_ok] at hopened
  obtain ⟨m,⟨⟨⟩,hm⟩,⟨⟩,hheader⟩ := hopened
  exact ⟨m,opened,advanceStateToSlot_ok.mpr (.inr hm),hheader,hpost⟩

/-- On a state that stands at its latest block the producer's way is the transition's: a
block at that very slot is turned down by the header step. -/
theorem Assembled.stateTransition {parent post : State} {signed : SignedBlockWithAttestation}
    (h : Assembled parent signed.message.block post)
    (hstands : parent.latestBlockHeader.slot = parent.slot)
    (hroot : signed.message.block.stateRoot = hashTreeRoot post) :
    parent.stateTransition signed true = .ok post := by
  obtain ⟨m,opened,hm,hheader,hpost⟩ := h.run
  rcases advanceStateToSlot_ok.mp hm with ⟨hslot,rfl⟩ | hslots
  · have hlater := (processBlockHeader_ok hheader).1.later
    rw [hstands,hslot] at hlater
    omega
  · refine stateTransition_ok.mpr ⟨opened,?_,hpost,fun _ => hroot.symm⟩
    simp only [State.opened,except_bind_ok,onCopy_ok]
    exact ⟨m,⟨(),hslots⟩,(),hheader⟩

theorem Assembled.frame {parent post : State} {block : Block} (h : Assembled parent block post) :
    post.validators = parent.validators ∧
      post.latestBlockHeader = { block.header with stateRoot := ByteVector.zero } := by
  obtain ⟨m,opened,hm,hheader,hpost⟩ := h.run
  obtain ⟨-,bits,-,rfl⟩ := processBlockHeader_ok hheader
  obtain ⟨_,_,_,-,-,-,rfl⟩ := processAttestations_ok.mp hpost
  refine ⟨?_,rfl⟩
  rcases advanceStateToSlot_ok.mp hm with ⟨-,rfl⟩ | hslots
  · rfl
  · obtain ⟨-,root,rfl,-⟩ := processSlots_ok hslots
    rfl

theorem convergeRound_ok {st : Store} {order : IterationOrder SignedAttestation}
    {headRoot : Bytes32} {slot : Slot} {validator : ValidatorIndex} {headState : State}
    {included : List SignedAttestation}
    {flow : Flow (List SignedAttestation) (List SignedAttestation × State)}
    (h : st.convergeRound order headRoot slot validator headState included = .ok flow) :
    ∃ candidate post,
      buildCandidateBlock headRoot slot validator headState included = .ok (candidate,post) ∧
      (st.collectIncludableVotes order post included = [] ∧ flow = .stop (included,post) ∨
        st.collectIncludableVotes order post included ≠ [] ∧
          flow = .next (included ++ st.collectIncludableVotes order post included)) := by
  obtain ⟨⟨candidate,post⟩,hbuild,hrest⟩ := except_bind_ok.mp h
  refine ⟨candidate,post,hbuild,?_⟩
  by_cases hempty : st.collectIncludableVotes order post included = []
  · simp only [hempty,List.isEmpty_nil,if_true,Except.ok.injEq] at hrest
    exact .inl ⟨hempty,hrest.symm⟩
  · simp only [List.isEmpty_iff,hempty,if_false,Except.ok.injEq] at hrest
    exact .inr ⟨hempty,hrest.symm⟩

theorem convergeAttestations_ok {st : Store} {order : IterationOrder SignedAttestation}
    {headRoot : Bytes32} {slot : Slot} {validator : ValidatorIndex} {headState post : State}
    {votes : List SignedAttestation}
    (h : st.convergeAttestations order headRoot slot validator headState = .ok (votes,post)) :
    votes.length ≤ maxAttestations ∧ ∃ candidate,
      buildCandidateBlock headRoot slot validator headState votes = .ok (candidate,post) := by
  refine loop_sound (fun included => included.length ≤ maxAttestations)
    (fun result => result.1.length ≤ maxAttestations ∧ ∃ candidate,
      buildCandidateBlock headRoot slot validator headState result.1 = .ok (candidate,result.2))
    ?_ ?_ (Nat.zero_le _) h
  · intro included next hfit hround
    obtain ⟨candidate,post,-,⟨-,hflow⟩ | ⟨-,hflow⟩⟩ := convergeRound_ok hround
    · cases hflow
    · cases hflow
      have := length_collectIncludableVotes st order post included
      rw [List.length_append]
      omega
  · intro included result hfit hround
    obtain ⟨candidate,post,hbuild,⟨-,hflow⟩ | ⟨-,hflow⟩⟩ := convergeRound_ok hround
    · cases hflow
      exact ⟨hfit,candidate,hbuild⟩
    · cases hflow

theorem convergeAttestations_empty {st : Store} (hvotes : st.latestKnownVotes = ∅)
    {order : IterationOrder SignedAttestation} {headRoot : Bytes32} {slot : Slot}
    {validator : ValidatorIndex} {headState : State} {result : List SignedAttestation × State} :
    st.convergeAttestations order headRoot slot validator headState = .ok result ↔
      ∃ candidate, buildCandidateBlock headRoot slot validator headState [] =
        .ok (candidate,result.2) ∧ result.1 = [] := by
  have hempty := fun post => collectIncludableVotes_empty hvotes order post []
  cases hbuild : buildCandidateBlock headRoot slot validator headState [] with
  | error e =>
    simp [Store.convergeAttestations,loop,Store.convergeRound,hbuild,bind,Except.bind]
  | ok built =>
    simp only [Store.convergeAttestations,loop,Store.convergeRound,hbuild,bind,Except.bind,hempty,
      List.isEmpty_nil,if_true,Except.ok.injEq]
    constructor
    · rintro rfl
      exact ⟨built.1,rfl,rfl⟩
    · rintro ⟨candidate,rfl,hnil⟩
      exact Prod.ext hnil.symm rfl

theorem buildCandidateBlock_ne_unending {headRoot : Bytes32} {slot : Slot}
    {validator : ValidatorIndex} {headState : State} {votes : List SignedAttestation} :
    buildCandidateBlock headRoot slot validator headState votes ≠ .error .unending := by
  -- Each step that can fail reports an error of the state transition, or a slot behind.
  have hmap : ∀ {x : Except StateTransitionError State},
      x.mapError ForkchoiceError.stateTransition ≠ .error .unending := by
    intro x
    cases x with
    | error e => simp [Except.mapError]
    | ok s => simp [Except.mapError]
  have hadvance : advanceStateToSlot headState slot ≠ .error .unending := by
    unfold advanceStateToSlot
    split
    · simp
    · exact hmap
    · simp
  intro h
  simp only [buildCandidateBlock,except_bind_error] at h
  rcases h with h | ⟨_,-,h | ⟨_,-,h | ⟨_,-,h⟩⟩⟩
  · exact hadvance h
  · exact hmap h
  · exact hmap h
  · cases h

/-- Gathering votes ends: a round that goes on has filled at least one more place. -/
theorem convergeAttestations_ends (st : Store) (order : IterationOrder SignedAttestation)
    (headRoot : Bytes32) (slot : Slot) (validator : ValidatorIndex) (headState : State) :
    st.convergeAttestations order headRoot slot validator headState ≠ .error .unending := by
  refine loop_ends (fun included => included.length ≤ maxAttestations)
    (fun included => maxAttestations - included.length) ?_ ?_ (Nat.zero_le _)
    (Nat.lt_succ_of_le (Nat.sub_le _ _))
  · intro included h
    rcases except_bind_error.mp h with h | ⟨⟨candidate,post⟩,-,h⟩
    · exact buildCandidateBlock_ne_unending h
    · simp only at h
      split at h <;> cases h
  · intro included next hfit hround
    obtain ⟨candidate,post,-,⟨-,hflow⟩ | ⟨hne,hflow⟩⟩ := convergeRound_ok hround
    · cases hflow
    · cases hflow
      have hcap := length_collectIncludableVotes st order post included
      have hpos := List.length_pos_iff.mpr hne
      rw [List.length_append]
      omega

theorem produceBlock_eq {st m : Store} {order : IterationOrder SignedAttestation} {slot : Slot}
    {validator : ValidatorIndex} {headState post : State} {votes : List SignedAttestation}
    (haccept : acceptNewVotes st = .ok () m) (hstate : m.states[m.head]? = some headState)
    (hproposer : isProposer validator slot headState.numValidators = .ok true)
    (hconv : m.convergeAttestations order m.head slot validator headState = .ok (votes,post)) :
    produceBlock order slot validator st =
      finalizeProducedBlock m.head slot validator votes post m := by
  have hhead : getProposalHead st = .ok m.head m := by
    rw [getProposalHead,estate_bind_of_ok haccept,estate_get_bind]
    rfl
  rw [produceBlock,estate_bind_of_ok hhead,estate_get_bind,hstate]
  simp only [hproposer,hconv,Except.mapError,check_bind_ok,Bool.true_eq_false,if_false]

theorem produceBlock_cases (st : Store) (order : IterationOrder SignedAttestation) (slot : Slot)
    (validator : ValidatorIndex) :
    (∃ e, produceBlock order slot validator st = .error e (after acceptNewVotes st)) ∨
    ∃ m headState votes post, acceptNewVotes st = .ok () m ∧
      m.states[m.head]? = some headState ∧
      m.convergeAttestations order m.head slot validator headState = .ok (votes,post) ∧
      produceBlock order slot validator st =
        finalizeProducedBlock m.head slot validator votes post m := by
  cases haccept : acceptNewVotes st with
  | error e m =>
    have hproposal : getProposalHead st = .error e m := estate_bind_error.mpr (.inl haccept)
    refine .inl ⟨e,?_⟩
    rw [after_of_error haccept,produceBlock]
    exact estate_bind_error.mpr (.inl hproposal)
  | ok _ m =>
    have hproposal : getProposalHead st = .ok m.head m := by
      rw [getProposalHead,estate_bind_of_ok haccept,estate_get_bind]
      rfl
    rw [after_of_ok haccept]
    cases hstate : m.states[m.head]? with
    | none =>
      refine .inl ⟨.headStateNotFound m.head,?_⟩
      rw [produceBlock,estate_bind_of_ok hproposal,estate_get_bind,hstate]
      rfl
    | some headState =>
      cases hproposes : isProposer validator slot headState.numValidators with
      | error e =>
        refine .inl ⟨.protocol e,?_⟩
        rw [produceBlock,estate_bind_of_ok hproposal,estate_get_bind,hstate]
        simp only [hproposes,Except.mapError,check_bind_error]
      | ok proposes =>
        cases proposes with
        | false =>
          refine .inl ⟨.unauthorizedProposer validator slot,?_⟩
          rw [produceBlock,estate_bind_of_ok hproposal,estate_get_bind,hstate]
          simp only [hproposes,Except.mapError,check_bind_ok,if_true,estate_throw]
        | true =>
          cases hconv : m.convergeAttestations order m.head slot validator headState with
          | error e =>
            refine .inl ⟨e,?_⟩
            rw [produceBlock,estate_bind_of_ok hproposal,estate_get_bind,hstate]
            simp only [hproposes,hconv,Except.mapError,check_bind_ok,check_bind_error,
              Bool.true_eq_false,if_false]
          | ok result =>
            exact .inr ⟨m,headState,result.1,result.2,rfl,hstate,hconv,
              produceBlock_eq haccept hstate hproposes hconv⟩

/-- A block is produced on the refreshed head, by the slot's proposer, with the gathered
votes; it is tracked, and the head is refreshed again. -/
theorem produceBlock_ok {st t : Store} {order : IterationOrder SignedAttestation} {slot : Slot}
    {validator : ValidatorIndex} {produced : ProducedBlock}
    (h : produceBlock order slot validator st = .ok produced t) :
    ∃ m headState votes post tracked n, acceptNewVotes st = .ok () m ∧
      m.states[m.head]? = some headState ∧
      m.convergeAttestations order m.head slot validator headState = .ok (votes,post) ∧
      produced.block = ⟨slot,validator,m.head,hashTreeRoot post,bodyFrom votes⟩ ∧
      produced.root = hashTreeRoot produced.block ∧ produced.parentRoot = m.head ∧
      produced.postState = post ∧ produced.postStateRoot = hashTreeRoot post ∧
      trackBlock produced.block post m = .ok tracked n ∧ acceptNewVotes n = .ok () t := by
  simp only [produceBlock,getProposalHead,estate_bind_ok,estate_get_bind] at h
  obtain ⟨headRoot,m,⟨_,m',haccept,hhead⟩,h⟩ := h
  obtain ⟨rfl,rfl⟩ := estate_pure_ok.mp hhead
  cases hstate : m'.states[m'.head]? with
  | none => simp [hstate] at h
  | some headState =>
    simp only [hstate,estate_bind_ok,check_ok] at h
    obtain ⟨proposes,_,⟨-,rfl⟩,h⟩ := h
    cases proposes with
    | false => simp at h
    | true =>
      simp only [Bool.true_eq_false,if_false,estate_bind_ok,check_ok] at h
      obtain ⟨⟨votes,post⟩,_,⟨hconv,rfl⟩,h⟩ := h
      simp only [finalizeProducedBlock,estate_bind_ok,estate_pure_ok] at h
      obtain ⟨tracked,n,htrack,_,_,hrefresh,rfl,rfl⟩ := h
      exact ⟨m',headState,votes,post,tracked,n,haccept,hstate,hconv,rfl,rfl,rfl,rfl,rfl,htrack,
        hrefresh⟩

theorem slots_closed_form {s : State} {target : Slot} (hroot : hashTreeRoot s ≠ ByteVector.zero)
    (hlater : s.slot.get < target.get) :
    processSlots target s = .ok () { s with
        slot := target
        latestBlockHeader := { s.latestBlockHeader with
          stateRoot := if s.latestBlockHeader.stateRoot = ByteVector.zero then hashTreeRoot s
            else s.latestBlockHeader.stateRoot } } ∧
      (∀ next : Slot, target.get < next.get →
        (processSlots target >>= fun _ => processSlots next) s = processSlots next s) ∧
      ∀ next : Slot, target.get ≤ next.get →
        (advanceStateToSlot s target >>= fun m => advanceStateToSlot m next) =
          advanceStateToSlot s next := by
  have hrun := processSlots_sealed (State.cachedRoot_ne_zero hroot) hlater
  refine ⟨hrun,fun next hnext => processSlots_append hroot hlater hnext,fun next hnext => ?_⟩
  have hfirst := advanceStateToSlot_ok.mpr (.inr hrun)
  have hjoin : advanceStateToSlot (s.sealed target s.cachedRoot) next =
      advanceStateToSlot s next := by
    rcases Nat.eq_or_lt_of_le hnext with heq | hlt
    · obtain rfl := Slot.ext_get heq
      rw [hfirst]
      exact advanceStateToSlot_ok.mpr (.inl ⟨rfl,rfl⟩)
    · have hdirect := processSlots_sealed (State.cachedRoot_ne_zero hroot) (hlater.trans hlt)
      have happend := processSlots_append hroot hlater hlt
      rw [estate_bind_of_ok hrun,hdirect] at happend
      rw [advanceStateToSlot_ok.mpr (.inr hdirect),advanceStateToSlot_ok.mpr (.inr happend)]
  rw [hfirst]
  exact hjoin

end Production

section
attribute [local instance] mixPair

theorem slots_closed_form_genesis :
    hashTreeRoot (genesisState 0 [default]) ≠ ByteVector.zero ∧
      (processSlots (Slot.ofNat 3) >>= fun _ => processSlots (Slot.ofNat 7))
        (genesisState 0 [default]) = processSlots (Slot.ofNat 7) (genesisState 0 [default]) := by
  have hroot : hashTreeRoot (genesisState 0 [default]) ≠ ByteVector.zero := by decide +kernel
  exact ⟨hroot,(slots_closed_form hroot (by decide)).2.1 _ (by decide)⟩

end

end Devnet.ForkChoice
