import Devnet.Chain.Service
import Devnet.Engine.Grafts

/-!
What a failed proposal leaves behind. The engine tracks the block before the signer and the
store are asked, and nothing takes it back when one of them refuses.
-/

set_option autoImplicit false

namespace Devnet.Chain
open Machine Devnet.Types Devnet.Ssz Devnet.Protocol Devnet.ForkChoice Devnet.Engine
  Devnet.Storage Devnet.Duties

theorem sameTree_importAttestation (vote : SignedAttestation) (st : Store) :
    SameTree st (Engine.importAttestation vote st).2 := by
  rw [importAttestation_store]
  rcases processAttestation_cases st vote false with ⟨e,-,hrun⟩ | ⟨changed,-,hrun⟩
  · rw [after_of_error hrun]
    exact SameTree.refl st
  · rw [after_of_ok hrun]
    exact ⟨rfl,rfl,rfl,rfl,rfl⟩

theorem head_importAttestation (vote : SignedAttestation) (st : Store) :
    (Engine.importAttestation vote st).2.head = st.head := by
  rw [importAttestation_store]
  rcases processAttestation_cases st vote false with ⟨e,-,hrun⟩ | ⟨changed,-,hrun⟩
  · rw [after_of_error hrun]
  · rw [after_of_ok hrun]
    rfl

section
variable [HashPair]

theorem sameTree_produceBlock (self : Service) (order : IterationOrder SignedAttestation)
    (slot : Slot) (validator : ValidatorIndex) (signer : AttestationSigner) (fault : Fault) :
    SameTree (after (produceBlockUnsigned order slot validator) self.engine)
      (after (produceBlock order slot validator signer fault) self).engine := by
  rcases produceBlock_cases self order slot validator signer fault with
    ⟨e,engine,hrun,heq⟩ | ⟨prod,engine,hrun,⟨-,heq⟩ | ⟨inputs,-,⟨e,-,heq⟩ | ⟨signature,-,heq⟩⟩⟩
  · rw [after_of_error hrun,after_of_error heq]
    exact SameTree.refl engine
  · rw [after_of_ok hrun,after_of_error heq]
    exact SameTree.refl engine
  · rw [after_of_ok hrun,after_of_error heq]
    exact SameTree.refl engine
  · rw [after_of_ok hrun,after,heq,← after,engine_persistPlan]
    exact sameTree_importAttestation _ engine

/-- A proposal that fails leaves the tracked blocks and both checkpoints as they were, if no block
was produced or the signer signs its vote and the save goes through. If either refuses, the
block that the engine produced is tracked although the call fails. -/
theorem failed_proposal {held : List Block} {self : Service} (hlife : Lives held self.engine)
    (order : IterationOrder SignedAttestation) (slot : Slot) (validator : ValidatorIndex)
    (signer : AttestationSigner) (fault : Fault)
    (hsound : Sound (held ++ Tables.values
      (after (produceBlock order slot validator signer fault) self).engine.blocks)) :
    ((∀ prod engine, produceBlockUnsigned order slot validator self.engine = .ok prod engine →
        (∃ signature, signer ⟨validator,prod.proposerVote.vote⟩ = .ok signature) ∧ fault = none) →
      ∀ e t, produceBlock order slot validator signer fault self = .error e t →
        t.engine.blocks = self.engine.blocks ∧
        t.engine.latestJustified = self.engine.latestJustified ∧
        t.engine.latestFinalized = self.engine.latestFinalized) ∧
    ∀ prod engine, produceBlockUnsigned order slot validator self.engine = .ok prod engine →
      prod.blockRoot ∉ self.engine.blocks →
      (∃ e, signer ⟨validator,prod.proposerVote.vote⟩ = .error e) ∨ fault ≠ none →
      ∃ e t, produceBlock order slot validator signer fault self = .error e t ∧
        prod.blockRoot ∈ t.engine.blocks := by
  have htree := sameTree_produceBlock self order slot validator signer fault
  obtain ⟨anchor,hgrounded⟩ := hlife.grounded (fun _ => List.mem_append_left _) hsound
  have hunsigned := hgrounded.produceBlockUnsigned_cases hsound order slot validator (by
    intro r b hb
    rw [← htree.blocks] at hb
    exact List.mem_append_right _ (Tables.mem_values.mpr ⟨r,hb⟩))
  have hcases := produceBlock_cases self order slot validator signer fault
  rcases hunsigned with ⟨e,t,hrun,hsame⟩ | ⟨prod,inputs,t,post,hrun,hpersist,-,-,hroot,hgrafts⟩
  · refine ⟨?_,?_⟩
    · intro _ e' t' heq
      rw [after_of_error heq,after_of_error hrun] at htree
      have hall := hsame.trans htree
      exact ⟨hall.blocks,hall.latestJustified,hall.latestFinalized⟩
    · intro prod engine hok
      simp [hrun] at hok
  · obtain ⟨prod',engine,hok,hrest⟩ := hcases.resolve_left (by simp [hrun])
    obtain ⟨rfl,rfl⟩ : prod = prod' ∧ t = engine := by simpa [hrun] using hok
    obtain ⟨inputs',-,hsigned⟩ := hrest.resolve_left (by simp [hpersist])
    refine ⟨?_,?_⟩
    · intro hgranted e' t' heq
      obtain ⟨⟨signature,hsignature⟩,rfl⟩ := hgranted prod t hrun
      rcases hsigned with ⟨e,hrefused,-⟩ | ⟨signature,-,hcall⟩
      · simp [hsignature] at hrefused
      · rw [hcall,estate_bind_of_ok (persistPlan_none _ _)] at heq
        cases heq
    · intro prod'' engine' hok' hnew hfails
      obtain ⟨rfl,rfl⟩ : prod = prod'' ∧ t = engine' := by simpa [hrun] using hok'
      have hgrown := hgrafts.resolve_left fun h => hnew h.2
      have htracked : prod.blockRoot ∈ t.blocks := by
        refine mem_of_get (v := prod.block) ?_
        rw [(hgrown.getElem? prod.blockRoot).1,hroot,if_pos rfl]
      rcases hsigned with ⟨e,-,hcall⟩ | ⟨signature,hsignature,hcall⟩
      · exact ⟨_,_,hcall,htracked⟩
      · cases fault with
        | none => simp [hsignature] at hfails
        | some e =>
          refine ⟨.storage e,_,hcall.trans (estate_bind_error.mpr (.inl (persistPlan_some e _ _))),?_⟩
          rw [(sameTree_importAttestation _ t).blocks]
          exact htracked

end

section
attribute [local instance] mixPair

def soloService : Service := ⟨soloStore,RedbStore.empty⟩

def willing : AttestationSigner := fun _ => .ok default
def keyless : AttestationSigner := fun att => .error (.unknownValidator att.validatorId.get)

def soloProposal (signer : AttestationSigner) (fault : Fault) : Call SignedBlockWithAttestation :=
  produceBlock default (Slot.ofNat 1) default signer fault

/-- The proposal of slot 0, which the engine turns down whatever the signer does, and that of
slot 1 without a key. -/
theorem failed_proposal_solo :
    (∃ e t, produceBlock default Slot.zero default keyless none soloService = .error e t ∧
      t.engine.blocks = soloService.engine.blocks) ∧
    ∃ prod engine e t,
      produceBlockUnsigned default (Slot.ofNat 1) default soloStore = .ok prod engine ∧
      soloProposal keyless none soloService = .error e t ∧ prod.blockRoot ∈ t.engine.blocks := by
  obtain ⟨hrefused,hrejected,hsound,hproduced,hsound'⟩ :
      (failure (produceBlock default Slot.zero default keyless none) soloService).isSome = true ∧
      (success (produceBlockUnsigned default Slot.zero default) soloStore).isNone = true ∧
      Sound (Tables.values soloStore.blocks ++ Tables.values (after (produceBlock default Slot.zero
        default keyless none) soloService).engine.blocks) ∧
      (∃ p ∈ success (produceBlockUnsigned default (Slot.ofNat 1) default) soloStore,
        p.1.blockRoot ∉ soloStore.blocks) ∧
      Sound (Tables.values soloStore.blocks ++ Tables.values (after (produceBlock default
        (Slot.ofNat 1) default keyless none) soloService).engine.blocks) := by
    decide +kernel
  have hlife : Lives (Tables.values soloStore.blocks) soloStore := lives_genesis 0 [default]
  have hsolo : Lives (Tables.values soloStore.blocks) soloService.engine := hlife
  obtain ⟨e,he⟩ := Option.isSome_iff_exists.mp hrefused
  obtain ⟨t,ht⟩ := failure_eq_some.mp he
  obtain ⟨⟨prod,engine⟩,hok,hnew⟩ := hproduced
  have hunsigned := success_eq_some.mp hok
  refine ⟨⟨e,t,ht,?_⟩,?_⟩
  · have hnone : ∀ prod engine, produceBlockUnsigned default Slot.zero default soloStore ≠
        .ok prod engine := by
      intro prod engine hrun
      simp [success,hrun] at hrejected
    exact ((failed_proposal hsolo default Slot.zero default keyless none hsound).1
      (fun prod engine hrun => absurd hrun (hnone prod engine)) e t ht).1
  · obtain ⟨e',t',ht',htracked⟩ := (failed_proposal hsolo default (Slot.ofNat 1) default keyless
      none hsound').2 prod engine hunsigned hnew (.inl ⟨_,rfl⟩)
    exact ⟨prod,engine,e',t',hunsigned,ht',htracked⟩

theorem blocks_ne_of_head {st st' : Store} (h : st'.head ∈ st'.blocks ∧ st'.head ∉ st.blocks) :
    st'.blocks ≠ st.blocks :=
  fun heq => h.2 (heq ▸ h.1)

/-- Without a key, and with a store that refuses the write: the call fails, and the engine has
moved its head to a block that is neither signed nor saved. -/
theorem failed_proposal_tracked :
    Lives (Tables.values soloStore.blocks) soloService.engine ∧
    failure (soloProposal keyless none) soloService = some (.sign (.unknownValidator 0)) ∧
    (after (soloProposal keyless none) soloService).engine.blocks ≠ soloService.engine.blocks ∧
    (after (soloProposal keyless none) soloService).engine.head ∉ soloService.engine.blocks ∧
    failure (soloProposal willing (some (.backend "full"))) soloService =
      some (.storage (.backend "full")) ∧
    (after (soloProposal willing (some (.backend "full"))) soloService).engine.blocks ≠
      soloService.engine.blocks ∧
    (after (soloProposal willing (some (.backend "full"))) soloService).engine.head ∉
      soloService.engine.blocks ∧
    (after (soloProposal willing (some (.backend "full"))) soloService).store.blocks.isEmpty =
      true := by
  have hlife : Lives (Tables.values soloStore.blocks) soloStore := lives_genesis 0 [default]
  have hsolo : Lives (Tables.values soloStore.blocks) soloService.engine := hlife
  have hhead : ∀ engine ∈ [(after (soloProposal keyless none) soloService).engine,
      (after (soloProposal willing (some (.backend "full"))) soloService).engine],
      engine.head ∈ engine.blocks ∧ engine.head ∉ soloService.engine.blocks := by decide +kernel
  obtain ⟨hkeyless,hfull⟩ : _ ∧ _ := by simpa using hhead
  refine ⟨hsolo,by decide +kernel,blocks_ne_of_head hkeyless,hkeyless.2,by decide +kernel,
    blocks_ne_of_head hfull,hfull.2,by decide +kernel⟩

end

end Devnet.Chain
