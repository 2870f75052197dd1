import Devnet.Engine.Ladder
import Devnet.ForkChoice.Unsigned

/-!
What stands around a block in its envelope. A node without a verifier ends in stores that
differ in pooled signatures only, and no later call tells those apart.
-/

set_option autoImplicit false

namespace Devnet.Engine
open Machine Devnet.Types Devnet.Ssz Devnet.Protocol Devnet.ForkChoice

/-- What a call tells its caller. -/
inductive Answer where
  | block (result : BlockImportResult) (plan : Option PersistPlan)
  | attestation (result : AttestationImportResult)
  | changed (result : Except ForkchoiceError Bool)
  | done (result : Except ForkchoiceError Unit)
  | produced (result : Except ForkchoiceError ProducedBlock)
  | voted (result : Except ForkchoiceError ProducedVote)
  | production (result : Except EngineError UnsignedProduction)

structure View where
  head : Bytes32
  safeTarget : Bytes32
  latestJustified : Checkpoint
  latestFinalized : Checkpoint

def view (st : Store) : View := ⟨st.head,st.safeTarget,st.latestJustified,st.latestFinalized⟩

theorem alike_view {s t : Store} (h : Alike s t) : view s = view t := by
  obtain ⟨-,-⟩ := h
  rfl

section
variable [HashPair]

def answer : Event → Store → Answer
  | .importBlock verifier signed policy, st =>
    let ((result,plan),_) := importBlockCapturingInner verifier signed policy st
    .block result plan
  | .importAttestation vote, st => .attestation (importAttestation vote st).1
  | .processAttestation vote isFromBlock, st =>
    .changed (returned (processAttestation vote isFromBlock) st)
  | .acceptNewVotes, st => .done (returned acceptNewVotes st)
  | .tickInterval hasProposal, st => .done (returned (tickInterval hasProposal) st)
  | .produceBlock order slot validator, st =>
    .produced (returned (produceBlock order slot validator) st)
  | .produceAttestationVote slot, st => .voted (returned (produceAttestationVote slot) st)
  | .produceBlockUnsigned order slot validator, st =>
    .production (returned (produceBlockUnsigned order slot validator) st)

/-- All that is seen of a node while it handles events: the answers, and the view after each. -/
def observe : List Event → Store → List (Answer × View)
  | [], _ => []
  | e :: events, st => (answer e st,view (handle e st)) :: observe events (handle e st)

omit [HashPair] in
theorem blockCarriedVotes_messages (body : List Attestation) (signatures : BlockSignatures) :
    (blockCarriedVotes body signatures).map (·.message) = body := by
  apply List.ext_getElem?
  intro i
  cases h : body[i]? with
  | none => simp [blockCarriedVotes,h]
  | some att => simp [blockCarriedVotes,h]

omit [HashPair] in
theorem alike_foldBlockAttestations {votes votes' : List SignedAttestation}
    (hvotes : votes.map (·.message) = votes'.map (·.message)) {s t : Store} (h : Alike s t) :
    Alike (foldBlockAttestations votes s) (foldBlockAttestations votes' t) := by
  induction votes generalizing votes' s t with
  | nil =>
    obtain rfl : votes' = [] := by simpa using hvotes.symm
    exact h
  | cons vote votes ih =>
    cases votes' with
    | nil => simp at hvotes
    | cons vote' votes' =>
      obtain ⟨hvote,hrest⟩ := List.cons.inj hvotes
      exact ih hrest ((alike_processAttestation hvote true).after_rel h)

theorem stateTransition_block {signed signed' : SignedBlockWithAttestation}
    (h : signed.message.block = signed'.message.block) (s : State) (validate : Bool) :
    s.stateTransition signed validate = s.stateTransition signed' validate := by
  simp only [State.stateTransition,h]

theorem alike_transitionAndTrack {signed signed' : SignedBlockWithAttestation}
    (hblock : signed.message.block = signed'.message.block) (parent : State) :
    Agree Alike Eq (transitionAndTrack signed parent) (transitionAndTrack signed' parent) := by
  simp only [transitionAndTrack,stateTransition_block hblock,hblock]
  refine agree_bind (agree_check (.refl _)) ?_
  rintro post _ rfl
  refine agree_bind (agree_adaptExcept (alike_trackBlock _ post) _) fun _ _ _ => ?_
  refine agree_bind (agree_modify ?_) fun _ _ _ => ?_
  · intro s t hst
    refine alike_foldBlockAttestations ?_ hst
    rw [blockCarriedVotes_messages,blockCarriedVotes_messages]
  · refine agree_bind (agree_adaptExcept alike_acceptNewVotes _) fun _ _ _ => ?_
    exact agree_pure rfl

theorem alike_screenBlock {signed signed' : SignedBlockWithAttestation} {s t : Store}
    (h : Alike s t) (hblock : signed.message.block = signed'.message.block)
    {verifier : Option Verifier}
    (hgate : ∀ registry,
      runVerifyGate verifier signed registry = runVerifyGate verifier signed' registry)
    (hcap : preCheckOverCap signed.signature signed.message.block.body.attestations =
      preCheckOverCap signed'.signature signed'.message.block.body.attestations)
    (policy : VerifyPolicy) :
    screenBlock verifier signed policy s = screenBlock verifier signed' policy t := by
  obtain ⟨-,-⟩ := h
  rw [hblock] at hcap
  simp only [screenBlock,hcap,hgate,hblock]
  rfl

theorem alike_settleBlock {signed signed' : SignedBlockWithAttestation} {s t : Store}
    (h : Alike s t) (hblock : signed.message.block = signed'.message.block)
    (screened : Except BlockImportResult State) :
    (settleBlock signed s screened).1.1 = (settleBlock signed' t screened).1.1 ∧
      Alike (settleBlock signed s screened).2 (settleBlock signed' t screened).2 ∧
      (signed = signed' →
        (settleBlock signed s screened).1.2 = (settleBlock signed' t screened).1.2) := by
  cases screened with
  | error outcome => exact ⟨rfl,h,fun _ => rfl⟩
  | ok parent =>
    rcases (alike_transitionAndTrack hblock parent s t h).inv with
      ⟨root,_,m,n,hs,ht,rfl,hmn⟩ | ⟨e,m,n,hs,ht,hmn⟩
    · simp only [settleBlock,hs,ht,hblock]
      obtain ⟨hknown,hpending⟩ := hmn
      refine ⟨rfl,.mk hknown hpending,?_⟩
      rintro rfl
      rfl
    · simp only [settleBlock,hs,ht,hblock,true_and,implies_true,and_true]
      exact hmn

theorem alike_produceBlockUnsigned {order order' : IterationOrder SignedAttestation}
    (horder : SameOrder order order') (slot : Slot) (validator : ValidatorIndex) :
    Agree Alike Eq (produceBlockUnsigned order slot validator)
      (produceBlockUnsigned order' slot validator) := by
  refine agree_bind (agree_adaptExcept (alike_produceBlock horder slot validator) _) ?_
  rintro produced _ rfl
  refine agree_bind (agree_adaptExcept (alike_produceAttestationVote slot) _) ?_
  rintro vote _ rfl
  refine agree_get ?_
  rintro s _ ⟨-,-⟩
  exact agree_pure rfl

def Event.order : Event → Option (IterationOrder SignedAttestation)
  | .produceBlock order _ _ => some order
  | .produceBlockUnsigned order _ _ => some order
  | _ => none

/-- One call made in two runs; hash maps are read in the same order in both. -/
inductive SameEvent : Event → Event → Prop where
  | produceBlock {order order' : IterationOrder SignedAttestation}
      (h : SameOrder order order') (slot : Slot) (validator : ValidatorIndex) :
      SameEvent (.produceBlock order slot validator) (.produceBlock order' slot validator)
  | produceBlockUnsigned {order order' : IterationOrder SignedAttestation}
      (h : SameOrder order order') (slot : Slot) (validator : ValidatorIndex) :
      SameEvent (.produceBlockUnsigned order slot validator)
        (.produceBlockUnsigned order' slot validator)
  | same {e : Event} (h : e.order = none) : SameEvent e e

theorem SameEvent.alike {e e' : Event} (he : SameEvent e e') {s t : Store} (h : Alike s t) :
    answer e s = answer e' t ∧ Alike (handle e s) (handle e' t) := by
  cases he with
  | produceBlock horder slot validator =>
    have hagree := alike_produceBlock horder slot validator
    exact ⟨congrArg Answer.produced (hagree.returned_eq h),hagree.after_rel h⟩
  | produceBlockUnsigned horder slot validator =>
    have hagree := alike_produceBlockUnsigned horder slot validator
    exact ⟨congrArg Answer.production (hagree.returned_eq h),hagree.after_rel h⟩
  | same horder =>
    cases e with
    | importBlock verifier signed policy =>
      have hscreen := alike_screenBlock h rfl (fun registry =>
        Eq.refl (runVerifyGate verifier signed registry)) rfl policy
      obtain ⟨hresult,halike,hplan⟩ := alike_settleBlock h (Eq.refl signed.message.block)
        (screenBlock verifier signed policy s)
      simp only [answer,handle,importBlockCapturingInner_eq,← hscreen]
      exact ⟨by rw [hresult,hplan rfl],halike⟩
    | importAttestation vote =>
      rcases (alike_processAttestation (Eq.refl vote.message) false s t h).inv with
        ⟨changed,_,m,n,hs,ht,rfl,hmn⟩ | ⟨error,m,n,hs,ht,hmn⟩
      · obtain ⟨hknown,hpending⟩ := hmn
        cases changed with
        | true =>
          simp only [answer,handle,importAttestation,hs,ht,true_and]
          exact .mk hknown hpending
        | false =>
          simp only [answer,handle,importAttestation,hs,ht,true_and]
          exact .mk hknown hpending
      · simp only [answer,handle,importAttestation,hs,ht,true_and]
        exact hmn
    | processAttestation vote isFromBlock =>
      have hagree := alike_processAttestation (Eq.refl vote.message) isFromBlock
      exact ⟨congrArg Answer.changed (hagree.returned_eq h),hagree.after_rel h⟩
    | acceptNewVotes =>
      exact ⟨congrArg Answer.done (alike_acceptNewVotes.returned_eq h),
        alike_acceptNewVotes.after_rel h⟩
    | tickInterval hasProposal =>
      have hagree := alike_tickInterval hasProposal
      exact ⟨congrArg Answer.done (hagree.returned_eq h),hagree.after_rel h⟩
    | produceAttestationVote slot =>
      have hagree := alike_produceAttestationVote slot
      exact ⟨congrArg Answer.voted (hagree.returned_eq h),hagree.after_rel h⟩
    | produceBlock order slot validator => simp [Event.order] at horder
    | produceBlockUnsigned order slot validator => simp [Event.order] at horder

theorem alike_observe {events events' : List Event} (hevents : List.Forall₂ SameEvent events events')
    {s t : Store} (h : Alike s t) : observe events s = observe events' t := by
  induction hevents generalizing s t with
  | nil => rfl
  | cons he _ ih =>
    obtain ⟨hanswer,halike⟩ := he.alike h
    rw [observe,observe,hanswer,alike_view halike,ih halike]

/-- Without a verifier, what stands around a block decides neither about the block nor about
anything the node does later. -/
theorem envelope_noninterference (st : Store) {signed signed' : SignedBlockWithAttestation}
    (hblock : signed.message.block = signed'.message.block)
    (hlength : signed.signature.length ≤ maxAttestations)
    (hlength' : signed'.signature.length ≤ maxAttestations) (policy : VerifyPolicy)
    {events events' : List Event} (hevents : List.Forall₂ SameEvent events events') :
    (importBlockCapturingInner none signed policy st).1.1 =
        (importBlockCapturingInner none signed' policy st).1.1 ∧
      view (importBlockCapturingInner none signed policy st).2 =
        view (importBlockCapturingInner none signed' policy st).2 ∧
      observe events (importBlockCapturingInner none signed policy st).2 =
        observe events' (importBlockCapturingInner none signed' policy st).2 := by
  have hcap : preCheckOverCap signed.signature signed.message.block.body.attestations =
      preCheckOverCap signed'.signature signed'.message.block.body.attestations := by
    simp only [preCheckOverCap,Nat.not_lt.mpr hlength,Nat.not_lt.mpr hlength',if_false,hblock]
  have hgate : ∀ registry, runVerifyGate none signed registry = runVerifyGate none signed' registry :=
    fun _ => rfl
  have hscreen := alike_screenBlock (.refl st) hblock hgate hcap policy
  obtain ⟨hresult,halike,-⟩ := alike_settleBlock (.refl st) hblock
    (screenBlock none signed policy st)
  simp only [importBlockCapturingInner_eq,← hscreen]
  exact ⟨hresult,alike_view halike,alike_observe hevents halike⟩

end

section
attribute [local instance] mixPair

def otherSignature : Signature := ⟨1 :: List.replicate 3115 0,by rw [List.length_cons,List.length_replicate]⟩

def envelope2 (proposer : ValidatorIndex) (signature : Signature) : SignedBlockWithAttestation :=
  ⟨⟨mint line1 (tip line1).root 2 [soloVote genesisPoint (tip line1)],⟨proposer,default⟩⟩,
    [signature]⟩

/-- The signature differs in the pools, and the producer still makes the same block. -/
theorem envelope_noninterference_line :
    (Tables.values (importBlockCapturingInner none (envelope2 default default) .enforce
        line1).2.latestKnownVotes).map (·.signature) ≠
      (Tables.values (importBlockCapturingInner none (envelope2 default otherSignature) .enforce
        line1).2.latestKnownVotes).map (·.signature) ∧
    observe [.produceBlock default (Slot.ofNat 3) default,.produceAttestationVote (Slot.ofNat 3)]
        (importBlockCapturingInner none (envelope2 default default) .enforce line1).2 =
      observe [.produceBlock default (Slot.ofNat 3) default,.produceAttestationVote (Slot.ofNat 3)]
        (importBlockCapturingInner none (envelope2 default otherSignature) .enforce line1).2 := by
  have hlength : ∀ signature, (envelope2 default signature).signature.length ≤ maxAttestations := by
    simp [envelope2,maxAttestations,validatorRegistryLimit]
  have hblock : (envelope2 default default).message.block =
      (envelope2 default otherSignature).message.block := rfl
  have horder : SameOrder default default := fun _ _ h => h
  have hevents := List.Forall₂.cons (SameEvent.produceBlock horder (Slot.ofNat 3) default)
    (.cons (SameEvent.same (Eq.refl (Event.produceAttestationVote (Slot.ofNat 3)).order)) .nil)
  exact ⟨by decide +kernel,(envelope_noninterference line1 hblock (hlength default)
    (hlength otherSignature) .enforce hevents).2.2⟩

end

end Devnet.Engine
