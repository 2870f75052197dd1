import Devnet.ForkChoice.Writes

/-!
The engine's surface over a store: the signature gate, block and attestation import
with their structured outcomes, and what is captured for persistence. A call holds the
store for its whole duration, so each is one step from store to store. Logs and metrics
are left out; they influence nothing.
-/

set_option autoImplicit false

namespace Devnet.Engine
open Machine Devnet.Types Devnet.Ssz Devnet.Protocol Devnet.ForkChoice

/-- The failures of the signature scheme. The source of a signing failure belongs to the
scheme's own library and is not kept. -/
inductive CryptoError where
  | epochReused (epoch lastSigned : UInt32)
  | epochNotPrepared (epoch : UInt32) (start end_ : UInt64)
  | epochNotActive (epoch : UInt32) (start end_ : UInt64)
  | invalidSignature
  | signing
  | payloadLength (got expected : Nat)
  | payloadTooLong (got capacity : Nat)
  | schemeMisconfigured (payloadLen capacity : Nat)
  | nonZeroPadding
  | malformedLayout (field : String) (got expected : UInt32)
  | activationOutOfRange (activationEpoch numActiveEpochs : Nat) (lifetime : UInt64)
  | publicKeyLength (got expected : Nat)
  | signatureDecode (detail : String)
  | publicKeyDecode (detail : String)
  deriving DecidableEq

inductive VerifyError where
  | lengthMismatch (expected got : Nat)
  | validatorOutOfRange (validatorId len : Nat)
  | epochOverflow (slot : Nat)
  | crypto (error : CryptoError)
  | overCap (len cap : Nat)
  deriving DecidableEq

inductive EngineError where
  | forkchoice (error : ForkchoiceError)
  | stateTransition (error : StateTransitionError)
  | verify (error : VerifyError)
  deriving DecidableEq

/-- The port behind which the signature scheme sits. -/
structure Verifier where
  verify : PublicKey → UInt32 → Bytes32 → Signature → Except CryptoError Unit

inductive VerifyPolicy where
  | enforce
  | skip
  deriving DecidableEq

def VerifyPolicy.enforces : VerifyPolicy → Bool
  | .enforce => true
  | .skip => false

/-- Neither list is longer than the cap; the first one that is gets reported. -/
def preCheckOverCap (signatures : List Signature) (bodyAttestations : List Attestation) :
    Except VerifyError Unit :=
  if maxAttestations < signatures.length then .error (.overCap signatures.length maxAttestations)
  else if maxAttestations < bodyAttestations.length then
    .error (.overCap bodyAttestations.length maxAttestations)
  else .ok ()

inductive BlockImportResult where
  | accepted (blockRoot parentRoot postStateRoot headRoot : Bytes32)
  | duplicateBlock (blockRoot : Bytes32)
  | missingParent (blockRoot parentRoot : Bytes32)
  | rejected (blockRoot parentRoot : Bytes32) (error : EngineError)
  deriving DecidableEq

def BlockImportResult.isAccepted : BlockImportResult → Bool
  | .accepted _ _ _ _ => true
  | _ => false

inductive AttestationImportResult where
  | accepted (validatorId : ValidatorIndex) (headRoot safeTargetRoot : Bytes32)
  | ignored (validatorId : ValidatorIndex) (headRoot safeTargetRoot : Bytes32)
  | rejected (validatorId : ValidatorIndex) (error : EngineError)
  deriving DecidableEq

structure PersistInputs where
  head : Checkpoint
  finalized : Checkpoint
  postState : State

structure PersistPlan where
  blockRoot : Bytes32
  head : Checkpoint
  finalized : Checkpoint
  state : State
  block : SignedBlockWithAttestation

structure UnsignedProduction where
  block : Block
  proposerVote : ProducedVote
  blockRoot : Bytes32
  persist : Option PersistInputs

def capturePersistInputs (store : Store) (blockRoot headRoot : Bytes32) : Option PersistInputs := do
  let postState ← store.states[blockRoot]?
  let headBlock ← store.blocks[headRoot]?
  some ⟨⟨headRoot,headBlock.slot⟩,store.latestFinalized,postState⟩

def capturePersistPlan (store : Store) (blockRoot headRoot : Bytes32)
    (block : SignedBlockWithAttestation) : Option PersistPlan := do
  let inputs ← capturePersistInputs store blockRoot headRoot
  some ⟨blockRoot,inputs.head,inputs.finalized,inputs.postState,block⟩

/-- Each vote of the body with the signature at its place, or a placeholder. The
proposer's own attestation is not among them. -/
def blockCarriedVotes (body : List Attestation) (signatures : BlockSignatures) :
    List SignedAttestation :=
  body.mapIdx fun i att => ⟨att,signatures.getD i default⟩

/-- A vote that fails validation is skipped. -/
def foldBlockAttestations (votes : List SignedAttestation) (store : Store) : Store :=
  votes.foldl (fun store vote => after (processAttestation vote true) store) store

def importAttestation (signedVote : SignedAttestation) (store : Store) :
    AttestationImportResult × Store :=
  let validatorId := signedVote.message.validatorId
  match processAttestation signedVote false store with
  | .error e store => (.rejected validatorId (.forkchoice e),store)
  | .ok true store => (.accepted validatorId store.head store.safeTarget,store)
  | .ok false store => (.ignored validatorId store.head store.safeTarget,store)

theorem importAttestation_store (vote : SignedAttestation) (st : Store) :
    (importAttestation vote st).2 = after (processAttestation vote false) st := by
  rcases processAttestation_cases st vote false with ⟨e,-,hrun⟩ | ⟨changed,-,hrun⟩
  · rw [after_of_error hrun]
    simp [importAttestation,hrun]
  · rw [after_of_ok hrun]
    cases changed <;> simp [importAttestation,hrun]

theorem touches_foldBlockAttestations (votes : List SignedAttestation) (st : Store) :
    Touches st (foldBlockAttestations votes st) := by
  induction votes generalizing st with
  | nil => exact .refl
  | cons vote rest ih => exact (touches_onChain st vote).trans (ih _)

section Import
variable [HashPair]

def attestationSigningInputs (att : Attestation) : Except VerifyError (UInt32 × Bytes32) :=
  let slot := att.data.slot.get
  if slot < 2^32 then .ok (UInt32.ofNat slot,hashTreeRoot att) else .error (.epochOverflow slot)

def verifyOne (verifier : Verifier) (validators : Validators) (att : Attestation)
    (sig : Signature) : Except VerifyError Unit :=
  match validators[att.validatorId.get]? with
  | none => .error (.validatorOutOfRange att.validatorId.get validators.length)
  | some validator => do
    let (epoch,message) ← attestationSigningInputs att
    (verifier.verify validator.pubkey epoch message sig).mapError .crypto

/-- The body's attestations and then the proposer's, each against the signature at its
place; the first failure stops. -/
def verifyPositional (bodyAttestations : List Attestation) (proposerAttestation : Attestation)
    (signatures : List Signature) (validators : Validators) (verifier : Verifier) :
    Except VerifyError Unit :=
  let expected := bodyAttestations.length+1
  if signatures.length ≠ expected then .error (.lengthMismatch expected signatures.length)
  else ((bodyAttestations ++ [proposerAttestation]).zip signatures).forM fun pair =>
    verifyOne verifier validators pair.1 pair.2

/-- Without a verifier the gate is open. -/
def runVerifyGate (verifier : Option Verifier) (signedBlock : SignedBlockWithAttestation)
    (validators : Validators) : Except VerifyError Unit :=
  match verifier with
  | none => .ok ()
  | some verifier =>
    verifyPositional signedBlock.message.block.body.attestations
      signedBlock.message.proposerAttestation signedBlock.signature validators verifier

def transitionAndTrack (signedBlock : SignedBlockWithAttestation) (parentState : State) :
    EStateM EngineError Store Bytes32 := do
  let postState ← check ((parentState.stateTransition signedBlock true).mapError .stateTransition)
  let postStateRoot := hashTreeRoot postState
  let block := signedBlock.message.block
  let _ ← (trackBlock block postState).adaptExcept .forkchoice
  modify (foldBlockAttestations (blockCarriedVotes block.body.attestations signedBlock.signature))
  acceptNewVotes.adaptExcept .forkchoice
  pure postStateRoot

def importBlockCapturingInner (verifier : Option Verifier)
    (signedBlock : SignedBlockWithAttestation) (policy : VerifyPolicy) (store : Store) :
    (BlockImportResult × Option PersistPlan) × Store :=
  let blockRoot := hashTreeRoot signedBlock.message.block
  let parentRoot := signedBlock.message.block.parentRoot
  let reject (error : VerifyError) : BlockImportResult × Option PersistPlan :=
    (.rejected blockRoot parentRoot (.verify error),none)
  if store.hasBlock blockRoot = true then ((.duplicateBlock blockRoot,none),store)
  else
    match preCheckOverCap signedBlock.signature signedBlock.message.block.body.attestations with
    | .error e => (reject e,store)
    | .ok () =>
      match store.states[parentRoot]? with
      | none => ((.missingParent blockRoot parentRoot,none),store)
      | some parentState =>
        match (if policy.enforces = true then
          runVerifyGate verifier signedBlock parentState.validators else .ok ()) with
        | .error e => (reject e,store)
        | .ok () =>
          match transitionAndTrack signedBlock parentState store with
          | .error error store => ((.rejected blockRoot parentRoot error,none),store)
          | .ok postStateRoot store =>
            ((.accepted blockRoot parentRoot postStateRoot store.head,
              capturePersistPlan store blockRoot store.head signedBlock),store)

def importBlockCapturing (verifier : Option Verifier) (signedBlock : SignedBlockWithAttestation)
    (store : Store) : (BlockImportResult × Option PersistPlan) × Store :=
  importBlockCapturingInner verifier signedBlock .enforce store

def importBlockSyncedCapturing (verifier : Option Verifier)
    (signedBlock : SignedBlockWithAttestation) (store : Store) :
    (BlockImportResult × Option PersistPlan) × Store :=
  importBlockCapturingInner verifier signedBlock .skip store

def importBlock (verifier : Option Verifier) (signedBlock : SignedBlockWithAttestation)
    (store : Store) : BlockImportResult × Store :=
  let ((result,_),store) := importBlockCapturing verifier signedBlock store
  (result,store)

def produceBlockUnsigned (order : IterationOrder SignedAttestation) (slot : Slot)
    (validator : ValidatorIndex) : EStateM EngineError Store UnsignedProduction := do
  let produced ← (produceBlock order slot validator).adaptExcept .forkchoice
  let proposerVote ← (produceAttestationVote slot).adaptExcept .forkchoice
  let store ← get
  pure ⟨produced.block,proposerVote,produced.root,
    capturePersistInputs store produced.root store.head⟩

/-- The checks before the transition let the block through to its parent's post-state. -/
structure Importable (verifier : Option Verifier) (signed : SignedBlockWithAttestation)
    (policy : VerifyPolicy) (st : Store) (parent : State) : Prop where
  fresh : hashTreeRoot signed.message.block ∉ st.blocks
  capped : preCheckOverCap signed.signature signed.message.block.body.attestations = .ok ()
  hasParent : st.states[signed.message.block.parentRoot]? = some parent
  gate : policy.enforces = true → runVerifyGate verifier signed parent.validators = .ok ()

theorem transitionAndTrack_refused {st : Store} {signed : SignedBlockWithAttestation}
    {parent : State} {e : StateTransitionError}
    (h : parent.stateTransition signed true = .error e) :
    transitionAndTrack signed parent st = .error (.stateTransition e) st := by
  simp [transitionAndTrack,h,Except.mapError]

theorem stateTransition_of_tracked {st t : Store} {signed : SignedBlockWithAttestation}
    {parent : State} {root : Bytes32} (h : transitionAndTrack signed parent st = .ok root t) :
    ∃ post, parent.stateTransition signed true = .ok post := by
  cases htrans : parent.stateTransition signed true with
  | error e => simp [transitionAndTrack_refused htrans] at h
  | ok post => exact ⟨post,rfl⟩

/-- The checks before the transition: the outcome that ends the import there, or the
post-state of the parent. -/
def screenBlock (verifier : Option Verifier) (signed : SignedBlockWithAttestation)
    (policy : VerifyPolicy) (store : Store) : Except BlockImportResult State :=
  let blockRoot := hashTreeRoot signed.message.block
  let parentRoot := signed.message.block.parentRoot
  if store.hasBlock blockRoot = true then .error (.duplicateBlock blockRoot)
  else
    match preCheckOverCap signed.signature signed.message.block.body.attestations with
    | .error e => .error (.rejected blockRoot parentRoot (.verify e))
    | .ok () =>
      match store.states[parentRoot]? with
      | none => .error (.missingParent blockRoot parentRoot)
      | some parentState =>
        match (if policy.enforces = true then
          runVerifyGate verifier signed parentState.validators else .ok ()) with
        | .error e => .error (.rejected blockRoot parentRoot (.verify e))
        | .ok () => .ok parentState

def settleBlock (signed : SignedBlockWithAttestation) (store : Store) :
    Except BlockImportResult State → (BlockImportResult × Option PersistPlan) × Store
  | .error outcome => ((outcome,none),store)
  | .ok parentState =>
    let blockRoot := hashTreeRoot signed.message.block
    let parentRoot := signed.message.block.parentRoot
    match transitionAndTrack signed parentState store with
    | .error error store => ((.rejected blockRoot parentRoot error,none),store)
    | .ok postStateRoot store =>
      ((.accepted blockRoot parentRoot postStateRoot store.head,
        capturePersistPlan store blockRoot store.head signed),store)

theorem importBlockCapturingInner_eq (verifier : Option Verifier)
    (signed : SignedBlockWithAttestation) (policy : VerifyPolicy) (st : Store) :
    importBlockCapturingInner verifier signed policy st =
      settleBlock signed st (screenBlock verifier signed policy st) := by
  unfold importBlockCapturingInner screenBlock
  dsimp only
  split
  · rfl
  · split
    · rfl
    · split
      · rfl
      · split <;> rfl

theorem screenBlock_error {verifier : Option Verifier} {signed : SignedBlockWithAttestation}
    {policy : VerifyPolicy} {st : Store} {outcome : BlockImportResult}
    (h : screenBlock verifier signed policy st = .error outcome) : outcome.isAccepted = false := by
  unfold screenBlock at h
  dsimp only at h
  split at h
  · cases h
    rfl
  · split at h
    · cases h
      rfl
    · split at h
      · cases h
        rfl
      · split at h
        · cases h
          rfl
        · cases h

theorem parent_missing {verifier : Option Verifier} {signed : SignedBlockWithAttestation}
    {policy : VerifyPolicy} {st : Store} {root parent : Bytes32}
    (h : (importBlockCapturingInner verifier signed policy st).1.1 = .missingParent root parent) :
    st.states[signed.message.block.parentRoot]? = none := by
  cases hstate : st.states[signed.message.block.parentRoot]? with
  | none => rfl
  | some state =>
    rw [importBlockCapturingInner_eq] at h
    unfold screenBlock at h
    simp only [hstate] at h
    split at h
    · simp [settleBlock] at h
    · split at h
      · simp [settleBlock] at h
      · split at h
        · simp [settleBlock] at h
        · unfold settleBlock at h
          dsimp only at h
          split at h
          · simp at h
          · simp at h

theorem screenBlock_ok {verifier : Option Verifier} {signed : SignedBlockWithAttestation}
    {policy : VerifyPolicy} {st : Store} {parent : State} :
    screenBlock verifier signed policy st = .ok parent ↔
      Importable verifier signed policy st parent := by
  have hmem : st.hasBlock (hashTreeRoot signed.message.block) = true ↔
      hashTreeRoot signed.message.block ∈ st.blocks := Std.ExtTreeMap.contains_iff_mem
  constructor
  · intro h
    unfold screenBlock at h
    dsimp only at h
    split at h
    · cases h
    · next hfresh =>
      split at h
      · cases h
      · next hcap =>
        split at h
        · cases h
        · next hparent =>
          split at h
          · cases h
          · next hgate =>
            cases h
            refine ⟨fun hin => hfresh (hmem.mpr hin),hcap,hparent,fun henforce => ?_⟩
            rwa [if_pos henforce] at hgate
  · intro h
    have hfresh := mt hmem.mp h.fresh
    simp only [screenBlock,if_neg hfresh,h.capped,h.hasParent]
    by_cases henforce : policy.enforces = true
    · simp only [if_pos henforce,h.gate henforce]
    · simp only [if_neg henforce]

/-- An import stops at its checks, or it is what the transition makes of it. -/
theorem importBlock_cases (verifier : Option Verifier) (signed : SignedBlockWithAttestation)
    (policy : VerifyPolicy) (st : Store) :
    (∃ outcome, outcome.isAccepted = false ∧
      (¬ ∃ parent, Importable verifier signed policy st parent) ∧
      importBlockCapturingInner verifier signed policy st = ((outcome,none),st)) ∨
    (∃ parent error t, Importable verifier signed policy st parent ∧
      transitionAndTrack signed parent st = .error error t ∧
      importBlockCapturingInner verifier signed policy st =
        ((.rejected (hashTreeRoot signed.message.block) signed.message.block.parentRoot error,
          none),t)) ∨
    (∃ parent root t, Importable verifier signed policy st parent ∧
      transitionAndTrack signed parent st = .ok root t ∧
      importBlockCapturingInner verifier signed policy st =
        ((.accepted (hashTreeRoot signed.message.block) signed.message.block.parentRoot root t.head,
          capturePersistPlan t (hashTreeRoot signed.message.block) t.head signed),t)) := by
  rw [importBlockCapturingInner_eq]
  cases hscreen : screenBlock verifier signed policy st with
  | error outcome =>
    refine .inl ⟨outcome,screenBlock_error hscreen,?_,rfl⟩
    rintro ⟨parent,h⟩
    simp [screenBlock_ok.mpr h] at hscreen
  | ok parent =>
    have himportable := screenBlock_ok.mp hscreen
    cases hrun : transitionAndTrack signed parent st with
    | error error t =>
      exact .inr (.inl ⟨parent,error,t,himportable,hrun,by simp only [settleBlock,hrun]⟩)
    | ok root t => exact .inr (.inr ⟨parent,root,t,himportable,hrun,by simp only [settleBlock,hrun]⟩)

theorem settles_transitionAndTrack {st : Store} {signed : SignedBlockWithAttestation}
    {parent : State} (hparent : st.states[signed.message.block.parentRoot]? = some parent) :
    Settles st (after (transitionAndTrack signed parent) st) := by
  refine after_check_bind settles_self ?_
  intro post hpost
  have htrans := mapError_ok.mp hpost
  have hroot := ((stateTransition_extends htrans).2 rfl).symm
  have hrefresh : ∀ {m}, Writes st m → Settles st (after (modify (foldBlockAttestations
      (blockCarriedVotes signed.message.block.body.attestations signed.signature)) >>= fun _ =>
      acceptNewVotes.adaptExcept EngineError.forkchoice >>= fun _ =>
        pure (hashTreeRoot post)) m) := by
    intro m hm
    rw [after_bind_of_ok (estate_modify _ m),after_bind_pure,after_adaptExcept]
    exact .refreshed (hm.trans (writes_of_touches (touches_foldBlockAttestations _ m)))
  rcases trackBlock_cases st signed.message.block post with
    ⟨e,hrun⟩ | ⟨-,hrun⟩ | ⟨-,hnew,hrun⟩
  · rw [after_bind_of_error (adaptExcept_of_error hrun)]
    exact settles_self st
  · rw [after_bind_of_ok (adaptExcept_ok.mpr hrun)]
    exact hrefresh .refl
  · rw [after_bind_of_ok (adaptExcept_ok.mpr hrun)]
    exact hrefresh (.single (.track hparent (assembled_of_stateTransition htrans) hroot hnew))

theorem settles_importBlockCapturingInner (verifier : Option Verifier)
    (signed : SignedBlockWithAttestation) (policy : VerifyPolicy) (st : Store) :
    Settles st (importBlockCapturingInner verifier signed policy st).2 := by
  rcases importBlock_cases verifier signed policy st with
    ⟨outcome,-,-,heq⟩ | ⟨parent,error,t,himportable,hrun,heq⟩ | ⟨parent,root,t,himportable,hrun,heq⟩
  · rw [heq]
    exact settles_self st
  · have hsettles := settles_transitionAndTrack himportable.hasParent
    rw [heq]
    rwa [after_of_error hrun] at hsettles
  · have hsettles := settles_transitionAndTrack himportable.hasParent
    rw [heq]
    rwa [after_of_ok hrun] at hsettles

theorem settles_produceBlockUnsigned (order : IterationOrder SignedAttestation) (slot : Slot)
    (validator : ValidatorIndex) (st : Store) :
    Settles st (after (produceBlockUnsigned order slot validator) st) := by
  have hsettles := settles_produceBlock order slot validator st
  unfold produceBlockUnsigned
  cases hrun : produceBlock order slot validator st with
  | error e m =>
    rw [after_of_error hrun] at hsettles
    rwa [after_bind_of_error (adaptExcept_of_error hrun)]
  | ok produced m =>
    rw [after_of_ok hrun] at hsettles
    have hvote := after_produceAttestationVote slot m
    rw [after_bind_of_ok (adaptExcept_ok.mpr hrun)]
    cases hvoted : produceAttestationVote slot m with
    | error e n =>
      rw [after_of_error hvoted] at hvote
      rw [after_bind_of_error (adaptExcept_of_error hvoted),hvote]
      exact .refreshed hsettles.writes
    | ok vote n =>
      rw [after_of_ok hvoted] at hvote
      rw [after_bind_of_ok (adaptExcept_ok.mpr hvoted)]
      change Settles st n
      rw [hvote]
      exact .refreshed hsettles.writes

end Import

end Devnet.Engine
