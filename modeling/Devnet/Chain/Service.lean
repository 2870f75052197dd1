import Devnet.Duties.Signer
import Devnet.Engine.Node

/-!
The chain service: the engine, the store on disk, and the calls that keep the second behind
the first. A block is tracked by the engine in one step, under its lock; whether it is then
signed and saved is decided afterwards. The signer's answer and the backend's are arguments.
-/

set_option autoImplicit false

namespace Devnet.Chain
open Machine Devnet.Types Devnet.Ssz Devnet.Protocol Devnet.ForkChoice Devnet.Engine
  Devnet.Storage Devnet.Duties

inductive ChainError where
  | storage (error : StorageError)
  | postStateMissing (blockRoot : Bytes32)
  | engine (error : EngineError)
  | sign (error : SignError)
  deriving DecidableEq

structure Service where
  engine : Store
  store : RedbStore

abbrev Call := EStateM ChainError Service

/-- The signer behind its port: what it answers when asked for a signature. -/
abbrev AttestationSigner := Attestation → Except SignError Signature

def onEngine {α : Type} (x : EStateM EngineError Store α) : Call α := fun self =>
  match x self.engine with
  | .ok a engine => .ok a { self with engine := engine }
  | .error e engine => .error (.engine e) { self with engine := engine }

theorem onEngine_of_ok {α : Type} {x : EStateM EngineError Store α} {self : Service} {a : α}
    {engine : Store} (h : x self.engine = .ok a engine) :
    onEngine x self = .ok a { self with engine := engine } := by
  simp [onEngine,h]

theorem onEngine_of_error {α : Type} {x : EStateM EngineError Store α} {self : Service}
    {e : EngineError} {engine : Store} (h : x self.engine = .error e engine) :
    onEngine x self = .error (.engine e) { self with engine := engine } := by
  simp [onEngine,h]

theorem after_onEngine {α : Type} (x : EStateM EngineError Store α) (self : Service) :
    after (onEngine x) self = { self with engine := after x self.engine } := by
  cases h : x self.engine with
  | ok a engine => rw [after_of_ok (onEngine_of_ok h),after_of_ok h]
  | error e engine => rw [after_of_error (onEngine_of_error h),after_of_error h]

/-- Writes the plan as it was captured, without a check of its head. -/
def persistPlan (fault : Fault) (plan : PersistPlan) : Call Unit := fun self =>
  match RedbStore.saveAccepted fault plan.blockRoot plan.block plan.state
    ⟨plan.head,plan.finalized⟩ self.store with
  | .ok _ store => .ok () { self with store := store }
  | .error e store => .error (.storage e) { self with store := store }

def saved (plan : PersistPlan) (store : RedbStore) : RedbStore :=
  store.putAccepted plan.blockRoot plan.block plan.state ⟨plan.head,plan.finalized⟩

theorem persistPlan_none (plan : PersistPlan) (self : Service) :
    persistPlan none plan self = .ok () { self with store := saved plan self.store } := rfl

theorem persistPlan_some (e : StorageError) (plan : PersistPlan) (self : Service) :
    persistPlan (some e) plan self = .error (.storage e) self := rfl

theorem engine_persistPlan {α : Type} (fault : Fault) (plan : PersistPlan) (a : α)
    (self : Service) :
    (after (persistPlan fault plan >>= fun _ => pure a : Call α) self).engine = self.engine := by
  rw [after_bind_pure]
  cases fault with
  | none => rfl
  | some e => rfl

def persistAccepted (fault : Fault) (outcome : BlockImportResult) (plan : Option PersistPlan) :
    Call BlockImportResult :=
  match outcome with
  | .accepted blockRoot _ _ _ =>
    match plan with
    | none => throw (.postStateMissing blockRoot)
    | some plan => do
      persistPlan fault plan
      pure outcome
  | _ => pure outcome

def importAttestation (vote : SignedAttestation) : Call AttestationImportResult := fun self =>
  .ok (Engine.importAttestation vote self.engine).1
    { self with engine := (Engine.importAttestation vote self.engine).2 }

def proposal (block : Block) (proposerAttestation : Attestation) (signature : Signature) :
    SignedBlockWithAttestation := ⟨⟨block,proposerAttestation⟩,[signature]⟩

def planFor (prod : UnsignedProduction) (inputs : PersistInputs)
    (signed : SignedBlockWithAttestation) : PersistPlan :=
  ⟨prod.blockRoot,inputs.head,inputs.finalized,inputs.postState,signed⟩

section
variable [HashPair]

def importCapturing (verifier : Option Verifier) (signed : SignedBlockWithAttestation)
    (policy : VerifyPolicy) (fault : Fault) : Call BlockImportResult := fun self =>
  let ((outcome,plan),engine) := importBlockCapturingInner verifier signed policy self.engine
  persistAccepted fault outcome plan { self with engine := engine }

def importBlock (verifier : Option Verifier) (signed : SignedBlockWithAttestation)
    (fault : Fault) : Call BlockImportResult := importCapturing verifier signed .enforce fault

def importBlockSynced (verifier : Option Verifier) (signed : SignedBlockWithAttestation)
    (fault : Fault) : Call BlockImportResult := importCapturing verifier signed .skip fault

def tickInterval (hasProposal : Bool) : Call Unit :=
  onEngine ((ForkChoice.tickInterval hasProposal).adaptExcept .forkchoice)

/-- By the time the signer is asked, the engine tracks the block. -/
def produceBlock (order : IterationOrder SignedAttestation) (slot : Slot)
    (validator : ValidatorIndex) (signer : AttestationSigner) (fault : Fault) :
    Call SignedBlockWithAttestation := do
  let prod ← onEngine (produceBlockUnsigned order slot validator)
  match prod.persist with
  | none => throw (.postStateMissing prod.blockRoot)
  | some inputs => do
    let proposerAttestation : Attestation := ⟨validator,prod.proposerVote.vote⟩
    let signature ← check ((signer proposerAttestation).mapError .sign)
    let _ ← importAttestation ⟨proposerAttestation,signature⟩
    let signed := proposal prod.block proposerAttestation signature
    persistPlan fault (planFor prod inputs signed)
    pure signed

def produceAttestation (slot : Slot) (validator : ValidatorIndex) (signer : AttestationSigner) :
    Call SignedAttestation := do
  let produced ← onEngine ((produceAttestationVote slot).adaptExcept .forkchoice)
  let message : Attestation := ⟨validator,produced.vote⟩
  let signature ← check ((signer message).mapError .sign)
  let signed : SignedAttestation := ⟨message,signature⟩
  let _ ← importAttestation signed
  pure signed

theorem importCapturing_cases (self : Service) (verifier : Option Verifier)
    (signed : SignedBlockWithAttestation) (policy : VerifyPolicy) (fault : Fault) :
    ∃ outcome plan engine,
      importBlockCapturingInner verifier signed policy self.engine = ((outcome,plan),engine) ∧
      ((outcome.isAccepted = false ∧ importCapturing verifier signed policy fault self =
        .ok outcome { self with engine := engine }) ∨
      outcome.isAccepted = true ∧ ((∃ root, plan = none ∧
        importCapturing verifier signed policy fault self =
          .error (.postStateMissing root) { self with engine := engine }) ∨
        ∃ captured, plan = some captured ∧ importCapturing verifier signed policy fault self =
          (persistPlan fault captured >>= fun _ => pure outcome : Call _)
            { self with engine := engine })) := by
  rcases hrun : importBlockCapturingInner verifier signed policy self.engine with
    ⟨⟨outcome,plan⟩,engine⟩
  refine ⟨outcome,plan,engine,rfl,?_⟩
  unfold importCapturing
  rw [hrun]
  cases outcome with
  | accepted root parent post head =>
    refine .inr ⟨rfl,?_⟩
    cases plan with
    | none => exact .inl ⟨root,rfl,rfl⟩
    | some captured => exact .inr ⟨captured,rfl,rfl⟩
  | duplicateBlock root => exact .inl ⟨rfl,rfl⟩
  | missingParent root parent => exact .inl ⟨rfl,rfl⟩
  | rejected root parent error => exact .inl ⟨rfl,rfl⟩

theorem engine_importCapturing (verifier : Option Verifier) (signed : SignedBlockWithAttestation)
    (policy : VerifyPolicy) (fault : Fault) (self : Service) :
    (after (importCapturing verifier signed policy fault) self).engine =
      (importBlockCapturingInner verifier signed policy self.engine).2 := by
  obtain ⟨outcome,plan,engine,hrun,⟨-,heq⟩ | ⟨-,⟨root,-,heq⟩ | ⟨captured,-,heq⟩⟩⟩ :=
    importCapturing_cases self verifier signed policy fault
  · rw [after_of_ok heq,hrun]
  · rw [after_of_error heq,hrun]
  · rw [after,heq,← after,engine_persistPlan,hrun]

/-- A proposal ends in the engine, for want of a post-state, or at the signer; or it comes
to be saved. -/
theorem produceBlock_cases (self : Service) (order : IterationOrder SignedAttestation)
    (slot : Slot) (validator : ValidatorIndex) (signer : AttestationSigner) (fault : Fault) :
    (∃ e engine, produceBlockUnsigned order slot validator self.engine = .error e engine ∧
      produceBlock order slot validator signer fault self =
        .error (.engine e) { self with engine := engine }) ∨
    ∃ prod engine, produceBlockUnsigned order slot validator self.engine = .ok prod engine ∧
      ((prod.persist = none ∧ produceBlock order slot validator signer fault self =
        .error (.postStateMissing prod.blockRoot) { self with engine := engine }) ∨
      ∃ inputs, prod.persist = some inputs ∧
        ((∃ e, signer ⟨validator,prod.proposerVote.vote⟩ = .error e ∧
          produceBlock order slot validator signer fault self =
            .error (.sign e) { self with engine := engine }) ∨
        ∃ signature, signer ⟨validator,prod.proposerVote.vote⟩ = .ok signature ∧
          produceBlock order slot validator signer fault self =
            (persistPlan fault (planFor prod inputs
              (proposal prod.block ⟨validator,prod.proposerVote.vote⟩ signature)) >>= fun _ =>
              pure (proposal prod.block ⟨validator,prod.proposerVote.vote⟩ signature) : Call _)
              { self with engine := (Engine.importAttestation
                ⟨⟨validator,prod.proposerVote.vote⟩,signature⟩ engine).2 })) := by
  cases hunsigned : produceBlockUnsigned order slot validator self.engine with
  | error e engine =>
    refine .inl ⟨e,engine,rfl,?_⟩
    exact estate_bind_error.mpr (.inl (onEngine_of_error hunsigned))
  | ok prod engine =>
    refine .inr ⟨prod,engine,rfl,?_⟩
    rw [produceBlock,estate_bind_of_ok (onEngine_of_ok hunsigned)]
    cases hpersist : prod.persist with
    | none => exact .inl ⟨rfl,rfl⟩
    | some inputs =>
      refine .inr ⟨inputs,rfl,?_⟩
      dsimp only
      cases hsign : signer ⟨validator,prod.proposerVote.vote⟩ with
      | error e => exact .inl ⟨e,rfl,rfl⟩
      | ok signature => exact .inr ⟨signature,rfl,rfl⟩

omit [HashPair] in
theorem after_produceAttestation (self : Service) (slot : Slot) (validator : ValidatorIndex)
    (signer : AttestationSigner) :
    after (produceAttestation slot validator signer) self =
        { self with engine := after (produceAttestationVote slot) self.engine } ∨
      ∃ vote, after (produceAttestation slot validator signer) self = { self with
        engine := (Engine.importAttestation vote
          (after (produceAttestationVote slot) self.engine)).2 } := by
  unfold produceAttestation
  cases hrun : produceAttestationVote slot self.engine with
  | error e engine =>
    have hengine : onEngine ((produceAttestationVote slot).adaptExcept EngineError.forkchoice) self =
        .error (.engine (.forkchoice e)) { self with engine := engine } :=
      onEngine_of_error (adaptExcept_of_error hrun)
    exact .inl (by rw [after_bind_of_error hengine,after_of_error hrun])
  | ok produced engine =>
    have hengine : onEngine ((produceAttestationVote slot).adaptExcept EngineError.forkchoice) self =
        .ok produced { self with engine := engine } := onEngine_of_ok (adaptExcept_ok.mpr hrun)
    rw [after_bind_of_ok hengine,after_of_ok hrun]
    dsimp only
    cases hsign : signer ⟨validator,produced.vote⟩ with
    | error e => exact .inl rfl
    | ok signature => exact .inr ⟨⟨⟨validator,produced.vote⟩,signature⟩,rfl⟩

end

end Devnet.Chain
