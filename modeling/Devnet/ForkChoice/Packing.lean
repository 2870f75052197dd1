import Devnet.ForkChoice.Production
import Devnet.Lib.Gathering

/-!
Packing votes into a block. Each round rebuilds the candidate's post-state with the votes found
so far and asks the pool again, with the justified checkpoint of that post-state as the filter.
The filter may move either way; that the rounds end rests on no vote being drawn twice.
-/

set_option autoImplicit false

namespace Devnet.ForkChoice
open Machine Tables Devnet.Types Devnet.Ssz Devnet.Protocol

section
variable (st : Store) (order : IterationOrder SignedAttestation) (postState : State)
  (included : List SignedAttestation)

theorem drawn_collectIncludableVotes :
    Drawn st.latestKnownVotes (st.collectIncludableVotes order postState included) ∧
      ∀ vote ∈ st.collectIncludableVotes order postState included, vote ∉ included := by
  unfold Store.collectIncludableVotes
  by_cases hcap : maxAttestations - included.length = 0
  · simp [hcap,drawn_nil]
  · simp only [if_neg hcap]
    have harranged := (drawn_values st.latestKnownVotes).perm (order.perm _).symm
    refine ⟨harranged.sublist ?_,fun vote hvote hin => ?_⟩
    · exact (List.take_sublist _ _).trans (List.filter_sublist.trans
        (List.filter_sublist.trans List.filter_sublist))
    · have hnew := (List.mem_filter.mp (List.mem_of_mem_take hvote)).2
      simp [hin] at hnew

variable {st order postState included}

theorem collectIncludableVotes_nil (h : st.collectIncludableVotes order postState included = []) :
    maxAttestations ≤ included.length ∨ ∀ vote ∈ Tables.values st.latestKnownVotes,
      vote.message.data.target.root ∈ st.blocks →
      vote.message.data.source = postState.latestJustified → vote ∈ included := by
  by_cases hcap : maxAttestations - included.length = 0
  · exact .inl (by omega)
  · refine .inr fun vote hvote htracked hsource => ?_
    rw [Store.collectIncludableVotes,if_neg hcap,List.take_eq_nil_iff] at h
    simp only [hcap,false_or,List.filter_eq_nil_iff,List.mem_filter,(order.perm _).mem_iff] at h
    simpa using h vote ⟨⟨hvote,Std.ExtTreeMap.contains_iff_mem.mpr htracked⟩,by simpa using hsource⟩

end

/-- Votes that could be packed: no more than fit, each the entry of another validator in the
pool, each for a tracked target. -/
structure Packing (st : Store) (votes : List SignedAttestation) : Prop where
  fits : votes.length ≤ maxAttestations
  drawn : Drawn st.latestKnownVotes votes
  tracked : ∀ vote ∈ votes, vote.message.data.target.root ∈ st.blocks

theorem packing_nil (st : Store) : Packing st [] := ⟨Nat.zero_le _,drawn_nil _,by simp⟩

theorem Packing.collect {st : Store} {included : List SignedAttestation} (h : Packing st included)
    (order : IterationOrder SignedAttestation) (postState : State) :
    Packing st (included ++ st.collectIncludableVotes order postState included) := by
  obtain ⟨hdrawn,hnew⟩ := drawn_collectIncludableVotes st order postState included
  refine ⟨?_,h.drawn.append hdrawn hnew,fun vote hvote => ?_⟩
  · have hroom := length_collectIncludableVotes st order postState included
    have hfits := h.fits
    rw [List.length_append]
    omega
  · rcases List.mem_append.mp hvote with hold | hadded
    · exact h.tracked vote hold
    · exact (mem_collectIncludableVotes hadded).2.2

theorem Packing.length_le {st : Store} {votes : List SignedAttestation} (h : Packing st votes) :
    votes.length ≤ min maxAttestations st.latestKnownVotes.size :=
  Nat.le_min.mpr ⟨h.fits,h.drawn.length_le⟩

section
variable [HashPair]

/-- The votes of a finished block and its post-state: nothing is left to add. -/
structure Packed (st : Store) (headRoot : Bytes32) (slot : Slot) (validator : ValidatorIndex)
    (headState : State) (votes : List SignedAttestation) (post : State) : Prop
    extends Packing st votes where
  built : ∃ candidate,
    buildCandidateBlock headRoot slot validator headState votes = .ok (candidate,post)
  closed : votes.length = maxAttestations ∨ ∀ vote ∈ Tables.values st.latestKnownVotes,
    vote.message.data.target.root ∈ st.blocks →
    vote.message.data.source = post.latestJustified → vote ∈ votes

section
variable {st : Store} {order : IterationOrder SignedAttestation} {headRoot : Bytes32}
  {slot : Slot} {validator : ValidatorIndex} {headState : State}
  {included next : List SignedAttestation}

theorem Packing.round (h : Packing st included)
    (hround : st.convergeRound order headRoot slot validator headState included =
      .ok (.next next)) :
    Packing st next ∧ min maxAttestations st.latestKnownVotes.size - next.length <
      min maxAttestations st.latestKnownVotes.size - included.length := by
  obtain ⟨candidate,post,-,⟨-,hflow⟩ | ⟨hne,hflow⟩⟩ := convergeRound_ok hround
  · cases hflow
  · cases hflow
    have hpos := List.length_pos_iff.mpr hne
    have hpacking := h.collect order post
    have hbound := hpacking.length_le
    rw [List.length_append] at hbound ⊢
    exact ⟨hpacking,by omega⟩

theorem Packing.last (h : Packing st included) {result : List SignedAttestation × State}
    (hround : st.convergeRound order headRoot slot validator headState included =
      .ok (.stop result)) :
    Packed st headRoot slot validator headState result.1 result.2 := by
  obtain ⟨candidate,post,hbuilt,⟨hempty,hflow⟩ | ⟨-,hflow⟩⟩ := convergeRound_ok hround
  · cases hflow
    refine { h with built := ⟨candidate,hbuilt⟩,closed := ?_ }
    rcases collectIncludableVotes_nil hempty with hfull | hall
    · exact .inl (Nat.le_antisymm h.fits hfull)
    · exact .inr hall
  · cases hflow

theorem convergeRound_error {e : ForkchoiceError}
    (h : st.convergeRound order headRoot slot validator headState included = .error e) :
    buildCandidateBlock headRoot slot validator headState included = .error e := by
  -- The only fallible part of a round is building its candidate.
  rcases except_bind_error.mp h with h | ⟨⟨candidate,post⟩,-,h⟩
  · exact h
  · simp only at h
    split at h <;> cases h

end

end

end Devnet.ForkChoice
