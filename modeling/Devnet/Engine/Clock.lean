import Devnet.Engine.Node

/-!
The clock of a store. A tick moves it, also when the work of its phase fails; nothing else
does. At the last interval a clock can count to, a tick is an error and the clock stays.
-/

set_option autoImplicit false

namespace Devnet.ForkChoice
open Machine Devnet.Types Devnet.Ssz Devnet.Protocol

def Time.next (self : Time) : Time := self.checkedAdvance.getD self

theorem Time.get_next (self : Time) : self.next.get = min (self.get+1) (2^64-1) := by
  have hlt := self.isLt
  unfold Time.next Time.checkedAdvance
  split
  · simp only [Option.getD_some]
    omega
  · simp only [Option.getD_none]
    omega

def Store.currentSlot (self : Store) : Nat := self.time.slot

def Store.currentInterval (self : Store) : Nat := self.time.interval

def SameClock (st t : Store) : Prop := t.time = st.time

theorem SameClock.trans {st m t : Store} (h : SameClock st m) (h' : SameClock m t) :
    SameClock st t := Eq.trans h' h

theorem sameClock_refl (st : Store) : SameClock st st := rfl

theorem sameClock_acceptNewVotes (st : Store) : SameClock st (after acceptNewVotes st) := by
  rcases acceptNewVotes_cases st with ⟨head,-,hrun⟩ | ⟨e,-,hrun⟩
  · rw [after_of_ok hrun]
    rfl
  · rw [after_of_error hrun]
    rfl

theorem sameClock_updateSafeTarget (st : Store) : SameClock st (after updateSafeTarget st) := by
  rcases updateSafeTarget_cases st with ⟨target,-,hrun⟩ | ⟨e,-,hrun⟩
  · rw [after_of_ok hrun]
    rfl
  · rw [after_of_error hrun]
    rfl

theorem sameClock_processAttestation (st : Store) (vote : SignedAttestation) (isFromBlock : Bool) :
    SameClock st (after (processAttestation vote isFromBlock) st) := by
  rcases processAttestation_cases st vote isFromBlock with ⟨e,-,hrun⟩ | ⟨changed,-,hrun⟩
  · rw [after_of_error hrun]
    rfl
  · rw [after_of_ok hrun]
    cases isFromBlock <;> rfl

theorem time_tickInterval (hasProposal : Bool) (st : Store) :
    (after (tickInterval hasProposal) st).time = st.time.next := by
  -- The phase's work comes after the clock has moved, and leaves it there.
  cases hnext : st.time.checkedAdvance with
  | none => simp [tickInterval,Time.next,hnext,after]
  | some next =>
    have hclock : st.time.next = next := by simp [Time.next,hnext]
    have hrun : ∀ {m : Edit Unit}, tickInterval hasProposal st = m { st with time := next } →
        SameClock { st with time := next } (after m { st with time := next }) →
        (after (tickInterval hasProposal) st).time = st.time.next := by
      intro m heq hsame
      rw [after,heq,hclock]
      exact hsame
    cases hphase : next.phase with
    | proposal =>
      cases hasProposal with
      | false => exact hrun (m := pure ()) (by simp [tickInterval,hnext,hphase]; rfl) rfl
      | true => exact hrun (by simp [tickInterval,hnext,hphase]; rfl) (sameClock_acceptNewVotes _)
    | idle => exact hrun (m := pure ()) (by simp [tickInterval,hnext,hphase]; rfl) rfl
    | updateSafeTarget =>
      exact hrun (by simp [tickInterval,hnext,hphase]; rfl) (sameClock_updateSafeTarget _)
    | acceptNewVotes =>
      exact hrun (by simp [tickInterval,hnext,hphase]; rfl) (sameClock_acceptNewVotes _)

theorem sameClock_tracking (st : Store) (root : Bytes32) (block : Block) (post : State) :
    SameClock st (st.tracking root block post) := by
  rw [SameClock,Store.tracking,adoptPostStateCheckpoints_eq]
  unfold Store.insertBlock
  split <;> rfl

section
variable [HashPair]

theorem sameClock_trackBlock (st : Store) (block : Block) (post : State) :
    SameClock st (after (trackBlock block post) st) := by
  rcases trackBlock_cases st block post with ⟨e,hrun⟩ | ⟨-,hrun⟩ | ⟨-,-,hrun⟩
  · rw [after_of_error hrun]
    rfl
  · rw [after_of_ok hrun]
    rfl
  · rw [after_of_ok hrun]
    exact sameClock_tracking st _ block post

theorem sameClock_produceBlock (order : IterationOrder SignedAttestation) (slot : Slot)
    (validator : ValidatorIndex) (st : Store) :
    SameClock st (after (produceBlock order slot validator) st) := by
  rcases produceBlock_cases st order slot validator with
    ⟨e,hrun⟩ | ⟨m,headState,votes,post,haccept,-,-,hrun⟩
  · rw [after_of_error hrun]
    exact sameClock_acceptNewVotes st
  · have hrefreshed := sameClock_acceptNewVotes st
    rw [after_of_ok haccept] at hrefreshed
    refine hrefreshed.trans ?_
    rw [after,hrun]
    refine after_bind (R := SameClock) SameClock.trans (sameClock_trackBlock m _ post) ?_
    intro _ n _
    rw [after_bind_pure]
    exact sameClock_acceptNewVotes n

theorem time_seedAnchor {state : State} {block : Block}
    {checkpoints : Bytes32 → Slot → Checkpoint × Checkpoint} {st : Store}
    (h : Store.seedAnchor state block checkpoints = .ok st) :
    st.time.get = block.slot.get*intervalsPerSlot := by
  obtain ⟨-,h⟩ := guard_ok.mp h
  split at h
  · obtain rfl := Except.ok.inj h
    rw [Store.insertBlock]
    split <;> rfl
  · cases h

end

end Devnet.ForkChoice

namespace Devnet.Engine
open Machine Devnet.Types Devnet.Ssz Devnet.Protocol Devnet.ForkChoice

theorem sameClock_foldBlockAttestations (votes : List SignedAttestation) (st : Store) :
    SameClock st (foldBlockAttestations votes st) := by
  induction votes generalizing st with
  | nil => rfl
  | cons vote rest ih => exact (sameClock_processAttestation st vote true).trans (ih _)

theorem sameClock_importAttestation (vote : SignedAttestation) (st : Store) :
    SameClock st (importAttestation vote st).2 := by
  rw [importAttestation_store]
  exact sameClock_processAttestation st vote false

section
variable [HashPair]

theorem sameClock_transitionAndTrack (signed : SignedBlockWithAttestation) (parent : State)
    (st : Store) : SameClock st (after (transitionAndTrack signed parent) st) := by
  refine after_check_bind sameClock_refl ?_
  intro post _
  refine after_bind (R := SameClock) SameClock.trans ?_ ?_
  · rw [after_adaptExcept]
    exact sameClock_trackBlock st _ post
  · intro _ m _
    rw [after_bind_of_ok (estate_modify _ m),after_bind_pure,after_adaptExcept]
    exact (sameClock_foldBlockAttestations _ m).trans (sameClock_acceptNewVotes _)

theorem sameClock_importBlock (verifier : Option Verifier) (signed : SignedBlockWithAttestation)
    (policy : VerifyPolicy) (st : Store) :
    SameClock st (importBlockCapturingInner verifier signed policy st).2 := by
  rcases importBlock_cases verifier signed policy st with
    ⟨outcome,-,-,heq⟩ | ⟨parent,error,t,-,hrun,heq⟩ | ⟨parent,root,t,-,hrun,heq⟩
  · rw [heq]
    rfl
  · have hclock := sameClock_transitionAndTrack signed parent st
    rw [heq]
    rwa [after_of_error hrun] at hclock
  · have hclock := sameClock_transitionAndTrack signed parent st
    rw [heq]
    rwa [after_of_ok hrun] at hclock

omit [HashPair] in
theorem sameClock_produceAttestationVote (slot : Slot) (st : Store) :
    SameClock st (after (produceAttestationVote slot) st) := by
  rw [after_produceAttestationVote]
  exact sameClock_acceptNewVotes st

theorem sameClock_produceBlockUnsigned (order : IterationOrder SignedAttestation) (slot : Slot)
    (validator : ValidatorIndex) (st : Store) :
    SameClock st (after (produceBlockUnsigned order slot validator) st) := by
  refine after_bind (R := SameClock) SameClock.trans ?_ ?_
  · rw [after_adaptExcept]
    exact sameClock_produceBlock order slot validator st
  · intro _ m _
    refine after_bind (R := SameClock) SameClock.trans ?_ ?_
    · rw [after_adaptExcept]
      exact sameClock_produceAttestationVote slot m
    · intro _ n _
      exact sameClock_refl n

theorem time_handle (e : Event) (st : Store) :
    (handle e st).time = st.time ∨
      (∃ hasProposal, e = .tickInterval hasProposal) ∧ (handle e st).time = st.time.next := by
  cases e with
  | importBlock verifier signed policy => exact .inl (sameClock_importBlock verifier signed policy st)
  | importAttestation vote => exact .inl (sameClock_importAttestation vote st)
  | processAttestation vote isFromBlock =>
    exact .inl (sameClock_processAttestation st vote isFromBlock)
  | acceptNewVotes => exact .inl (sameClock_acceptNewVotes st)
  | tickInterval hasProposal => exact .inr ⟨⟨hasProposal,rfl⟩,time_tickInterval hasProposal st⟩
  | produceBlock order slot validator =>
    exact .inl (sameClock_produceBlock order slot validator st)
  | produceAttestationVote slot => exact .inl (sameClock_produceAttestationVote slot st)
  | produceBlockUnsigned order slot validator =>
    exact .inl (sameClock_produceBlockUnsigned order slot validator st)

theorem sameClock_drive {events : List Event}
    (h : ∀ e ∈ events, ∀ hasProposal, e ≠ .tickInterval hasProposal) (st : Store) :
    SameClock st (drive events st) := by
  induction events generalizing st with
  | nil => rfl
  | cons e rest ih =>
    have hfirst : SameClock st (handle e st) := by
      rcases time_handle e st with hsame | ⟨⟨hasProposal,htick⟩,-⟩
      · exact hsame
      · exact absurd htick (h e List.mem_cons_self hasProposal)
    exact hfirst.trans (ih (fun e he => h e (List.mem_cons_of_mem _ he)) _)

end

end Devnet.Engine
