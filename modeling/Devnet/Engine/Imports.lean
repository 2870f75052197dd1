import Devnet.Engine.Ladder
import Devnet.Engine.Produced

/-!
Import is all or nothing. The store is written before the last call that can fail, the
refresh of the head; on the stores a node holds that call does not fail. What decides about
a block is settled before its votes are looked at by the fork choice.
-/

set_option autoImplicit false

namespace Devnet.Engine
open Machine Trees Devnet.Types Devnet.Ssz Devnet.Protocol Devnet.ForkChoice

section
variable [HashPair]

/-- A block is accepted exactly if it passes the checks and the transition; then it is tracked
with its post-state. In every other case the whole store stays as it was. -/
theorem import_all_or_nothing {held : List Block} {st : Store} (hlife : Lives held st)
    (verifier : Option Verifier) (signed : SignedBlockWithAttestation) (policy : VerifyPolicy)
    (hsound : Sound (held ++ [signed.message.block])) :
    ((importBlockCapturingInner verifier signed policy st).1.1.isAccepted = false →
      (importBlockCapturingInner verifier signed policy st).2 = st) ∧
    ((importBlockCapturingInner verifier signed policy st).1.1.isAccepted = true →
      ∃ parent post, st.states[signed.message.block.parentRoot]? = some parent ∧
        parent.stateTransition signed true = .ok post ∧
        (importBlockCapturingInner verifier signed policy st).2.blocks[
          hashTreeRoot signed.message.block]? = some signed.message.block ∧
        (importBlockCapturingInner verifier signed policy st).2.states[
          hashTreeRoot signed.message.block]? = some post) ∧
    ((importBlockCapturingInner verifier signed policy st).1.1.isAccepted = true ↔
      ∃ parent post, Importable verifier signed policy st parent ∧
        parent.stateTransition signed true = .ok post) := by
  obtain ⟨anchor,hst⟩ := hlife.grounded (fun _ => List.mem_append_left _) hsound
  by_cases hgood : ∃ parent post, Importable verifier signed policy st parent ∧
      parent.stateTransition signed true = .ok post
  · obtain ⟨parent,post,himportable,htrans⟩ := hgood
    obtain ⟨head,plan,t,heq,hsame⟩ := hst.importBlock_accepted hsound (by simp) himportable htrans
    have hget := getElem?_tracking himportable.fresh signed.message.block post
      (hashTreeRoot signed.message.block)
    rw [if_pos rfl,if_pos rfl] at hget
    rw [heq]
    refine ⟨by simp [BlockImportResult.isAccepted],fun _ => ?_,
      fun _ => ⟨parent,post,himportable,htrans⟩,fun _ => rfl⟩
    refine ⟨parent,post,himportable.hasParent,htrans,?_,?_⟩
    · rw [hsame.blocks]
      exact hget.1
    · rw [hsame.states]
      exact hget.2
  · have hrefused : ∃ outcome, outcome.isAccepted = false ∧
        importBlockCapturingInner verifier signed policy st = ((outcome,none),st) := by
      rcases importBlock_cases verifier signed policy st with
        ⟨outcome,hout,-,heq⟩ | ⟨parent,error,t,himportable,hrun,heq⟩ |
        ⟨parent,root,t,himportable,hrun,-⟩
      · exact ⟨outcome,hout,heq⟩
      · cases htrans : parent.stateTransition signed true with
        | ok post => exact absurd ⟨parent,post,himportable,htrans⟩ hgood
        | error e =>
          rw [transitionAndTrack_refused htrans] at hrun
          obtain ⟨-,rfl⟩ : EngineError.stateTransition e = error ∧ st = t := by simpa using hrun
          exact ⟨_,rfl,heq⟩
      · obtain ⟨post,htrans⟩ := stateTransition_of_tracked hrun
        exact absurd ⟨parent,post,himportable,htrans⟩ hgood
    obtain ⟨outcome,hout,heq⟩ := hrefused
    rw [heq]
    refine ⟨fun _ => rfl,?_,?_⟩
    · intro haccepted
      simp [hout] at haccepted
    · exact ⟨fun haccepted => by simp [hout] at haccepted,fun h => absurd h hgood⟩

end

section
attribute [local instance] mixPair

def strayVote : SignedAttestation := soloVote genesisPoint ⟨ByteVector.zero,Slot.zero⟩

def strayEnvelope : SignedBlockWithAttestation :=
  ⟨⟨mint soloStore genesisPoint.root 1 [strayVote],default⟩,[]⟩

theorem import_all_or_nothing_stray :
    (soloStore.validateAttestation strayVote.message.data).toOption = none ∧
      (importBlockCapturingInner none strayEnvelope .enforce soloStore).1.1.isAccepted = true ∧
      (importBlockCapturingInner none strayEnvelope .enforce soloStore).2.blocks[
        hashTreeRoot strayEnvelope.message.block]? = some strayEnvelope.message.block ∧
      (importBlockCapturingInner none default .enforce soloStore).2 = soloStore := by
  obtain ⟨hstray,hsound,haccepted,hdefault,hrefused⟩ :
      (soloStore.validateAttestation strayVote.message.data).toOption = none ∧
      Sound (Tables.values soloStore.blocks ++ [strayEnvelope.message.block]) ∧
      (importBlockCapturingInner none strayEnvelope .enforce soloStore).1.1.isAccepted = true ∧
      Sound (Tables.values soloStore.blocks ++
        [(default : SignedBlockWithAttestation).message.block]) ∧
      (importBlockCapturingInner none default .enforce soloStore).1.1.isAccepted = false := by
    decide +kernel
  have hlife : Lives (Tables.values soloStore.blocks) soloStore := lives_genesis 0 [default]
  obtain ⟨-,hall,-⟩ := import_all_or_nothing hlife none strayEnvelope .enforce hsound
  obtain ⟨_,_,_,_,hblock,_⟩ := hall haccepted
  obtain ⟨hnone,-⟩ := import_all_or_nothing hlife none default .enforce hdefault
  exact ⟨hstray,haccepted,hblock,hnone hrefused⟩

end

end Devnet.Engine
