import Devnet.Engine.Ladder
import Devnet.Engine.Produced

/-!
Who a block accepted on the gossip path was signed by. The gate holds each attestation of
an envelope against the registry key of the validator it names, and the header check holds
the block's proposer against its slot. Nothing holds the two against each other.
-/

set_option autoImplicit false

namespace Devnet.Engine
open Machine Trees Devnet.Types Devnet.Ssz Devnet.Protocol Devnet.ForkChoice

def registryKey (registry : Validators) (index : ValidatorIndex) : Option PublicKey :=
  registry[index.get]?.map Validator.pubkey

def carried (signed : SignedBlockWithAttestation) : List (Attestation × Signature) :=
  (signed.message.block.body.attestations ++ [signed.message.proposerAttestation]).zip
    signed.signature

abbrev Imprint := UInt32 × Bytes32 × Signature

section
variable [HashPair]

theorem verifyOne_ok {verifier : Verifier} {registry : Validators} {att : Attestation}
    {sig : Signature} :
    verifyOne verifier registry att sig = .ok () ↔ ∃ key epoch message,
      registryKey registry att.validatorId = some key ∧
      attestationSigningInputs att = .ok (epoch,message) ∧
      verifier.verify key epoch message sig = .ok () := by
  cases hid : registry[att.validatorId.get]? with
  | none => simp [verifyOne,registryKey,hid]
  | some validator => simp [verifyOne,registryKey,hid,except_bind_ok,mapError_ok]

/-- The envelope has a signature for each attestation, by a registered validator and for a
slot that is an epoch: what is left for the gate to stop it are the signatures themselves. -/
structure Postable (registry : Validators) (signed : SignedBlockWithAttestation) : Prop where
  length : signed.signature.length = signed.message.block.body.attestations.length+1
  inputs : ∀ pair ∈ carried signed, ∃ key epoch message,
    registryKey registry pair.1.validatorId = some key ∧
      attestationSigningInputs pair.1 = .ok (epoch,message)

theorem verifyGate_ok {verifier : Verifier} {registry : Validators}
    {signed : SignedBlockWithAttestation} :
    runVerifyGate (some verifier) signed registry = .ok () ↔
      signed.signature.length = signed.message.block.body.attestations.length+1 ∧
      ∀ pair ∈ carried signed, verifyOne verifier registry pair.1 pair.2 = .ok () := by
  simp only [runVerifyGate,verifyPositional,guard_ok,forM_ok,carried,ne_eq,not_not]

/-- The envelope holds a signature that verifies under `key`, and not one of `published`. -/
def SignedUnder (verifier : Verifier) (published : List Imprint)
    (signed : SignedBlockWithAttestation) (key : PublicKey) : Prop :=
  ∃ pair ∈ carried signed, ∃ epoch message,
    attestationSigningInputs pair.1 = .ok (epoch,message) ∧
    (epoch,message,pair.2) ∉ published ∧ verifier.verify key epoch message pair.2 = .ok ()

/-- The envelope holds an attestation of a validator with the proposer's key, and its
signature is not one of `published`. -/
def NamesProposer (registry : Validators) (published : List Imprint)
    (signed : SignedBlockWithAttestation) : Prop :=
  ∃ pair ∈ carried signed, ∃ epoch message,
    attestationSigningInputs pair.1 = .ok (epoch,message) ∧
    (epoch,message,pair.2) ∉ published ∧
    registryKey registry pair.1.validatorId =
      registryKey registry signed.message.block.proposerIndex

def exactVerifier (registry : Validators) (signed : SignedBlockWithAttestation) : Verifier where
  verify key epoch message sig :=
    if ∃ pair ∈ carried signed, registryKey registry pair.1.validatorId = some key ∧
        attestationSigningInputs pair.1 = .ok (epoch,message) ∧ pair.2 = sig then .ok ()
    else .error .invalidSignature

theorem exactVerifier_ok {registry : Validators} {signed : SignedBlockWithAttestation}
    {key : PublicKey} {epoch : UInt32} {message : Bytes32} {sig : Signature} :
    (exactVerifier registry signed).verify key epoch message sig = .ok () ↔
      ∃ pair ∈ carried signed, registryKey registry pair.1.validatorId = some key ∧
        attestationSigningInputs pair.1 = .ok (epoch,message) ∧ pair.2 = sig := by
  simp [exactVerifier]

theorem Postable.gate {registry : Validators} {signed : SignedBlockWithAttestation}
    (h : Postable registry signed) :
    runVerifyGate (some (exactVerifier registry signed)) signed registry = .ok () := by
  refine verifyGate_ok.mpr ⟨h.length,?_⟩
  intro pair hpair
  obtain ⟨key,epoch,message,hkey,hinputs⟩ := h.inputs pair hpair
  exact verifyOne_ok.mpr ⟨key,epoch,message,hkey,hinputs,
    exactVerifier_ok.mpr ⟨pair,hpair,hkey,hinputs,rfl⟩⟩

theorem Postable.of_gate {verifier : Verifier} {registry : Validators}
    {signed : SignedBlockWithAttestation}
    (h : runVerifyGate (some verifier) signed registry = .ok ()) : Postable registry signed := by
  obtain ⟨hlength,hall⟩ := verifyGate_ok.mp h
  refine ⟨hlength,?_⟩
  intro pair hpair
  obtain ⟨key,epoch,message,hkey,hinputs,-⟩ := verifyOne_ok.mp (hall pair hpair)
  exact ⟨key,epoch,message,hkey,hinputs⟩

theorem NamesProposer.signed {verifier : Verifier} {registry : Validators}
    {published : List Imprint} {signed : SignedBlockWithAttestation}
    (h : NamesProposer registry published signed)
    (hgate : runVerifyGate (some verifier) signed registry = .ok ()) :
    ∃ key, registryKey registry signed.message.block.proposerIndex = some key ∧
      SignedUnder verifier published signed key := by
  obtain ⟨pair,hpair,epoch,message,hinputs,hnew,hkeys⟩ := h
  obtain ⟨key,epoch',message',hkey,hinputs',hverify⟩ :=
    verifyOne_ok.mp ((verifyGate_ok.mp hgate).2 pair hpair)
  obtain ⟨rfl,rfl⟩ : epoch' = epoch ∧ message' = message := by
    simpa [hinputs'] using hinputs
  exact ⟨key,hkeys ▸ hkey,pair,hpair,_,_,hinputs,hnew,hverify⟩

/-- The accepted envelopes of a block are signed under its proposer's key, by signatures
beyond those already public, exactly if an attestation in them names that key so. -/
theorem proposer_authenticated {held : List Block} {st : Store} (hlife : Lives held st)
    (signed : SignedBlockWithAttestation) (hsound : Sound (held ++ [signed.message.block]))
    (published : List Imprint) :
    (∀ verifier parent, st.states[signed.message.block.parentRoot]? = some parent →
      (importBlock (some verifier) signed st).1.isAccepted = true →
      ∃ key, registryKey parent.validators signed.message.block.proposerIndex = some key ∧
        SignedUnder verifier published signed key) ↔
    (∀ parent post, Importable none signed .enforce st parent →
      parent.stateTransition signed true = .ok post → Postable parent.validators signed →
      NamesProposer parent.validators published signed) := by
  constructor
  · intro hall parent post himportable htrans hpostable
    obtain ⟨anchor,hgrounded⟩ := hlife.grounded (fun _ => List.mem_append_left _) hsound
    have hopen : Importable (some (exactVerifier parent.validators signed)) signed .enforce st
        parent :=
      ⟨himportable.fresh,himportable.capped,himportable.hasParent,fun _ => hpostable.gate⟩
    obtain ⟨head,plan,t,heq,-⟩ := hgrounded.importBlock_accepted hsound
      (by simp) hopen htrans
    have haccepted : (importBlock (some (exactVerifier parent.validators signed)) signed
        st).1.isAccepted = true := by
      simp [importBlock,importBlockCapturing,heq,BlockImportResult.isAccepted]
    obtain ⟨key,hkey,pair,hpair,epoch,message,hinputs,hnew,hverify⟩ :=
      hall _ parent himportable.hasParent haccepted
    obtain ⟨other,hother,hname,hsame,hsig⟩ := exactVerifier_ok.mp hverify
    refine ⟨other,hother,epoch,message,hsame,?_,hname.trans hkey.symm⟩
    rwa [hsig]
  · intro hnames verifier parent hparent haccepted
    rcases importBlock_cases (some verifier) signed .enforce st with
      ⟨outcome,hout,-,heq⟩ | ⟨other,error,t,-,-,heq⟩ | ⟨other,root,t,himportable,hrun,-⟩
    · simp [importBlock,importBlockCapturing,heq,hout] at haccepted
    · simp [importBlock,importBlockCapturing,heq,BlockImportResult.isAccepted] at haccepted
    · obtain rfl : other = parent := by simpa [hparent] using himportable.hasParent.symm
      have hgate := himportable.gate rfl
      obtain ⟨post,htrans⟩ := stateTransition_of_tracked hrun
      have hopen : Importable none signed .enforce st other :=
        ⟨himportable.fresh,himportable.capped,hparent,fun _ => rfl⟩
      exact (hnames other post hopen htrans (.of_gate hgate)).signed hgate

end

section
attribute [local instance] mixPair

def rivalKey : PublicKey := ⟨1 :: List.replicate 51 0,by simp⟩

def rivalIndex : ValidatorIndex := ⟨1,(Slot.ofNat 1).isLt⟩

def duoStore : Store := genesisStore 0 [default,⟨rivalKey,rivalIndex⟩]

def duoEnvelope (voter : ValidatorIndex) : SignedBlockWithAttestation :=
  ⟨⟨mint duoStore (tip duoStore).root 2 [],⟨voter,default⟩⟩,[default]⟩

def keyed (key : PublicKey) : Verifier where
  verify other _ _ _ := if other = key then .ok () else .error .invalidSignature

def replayedImprint : Imprint := (0,hashTreeRoot (⟨default,default⟩ : Attestation),default)

theorem proposer_authenticated_duo :
    (importBlock (some (keyed default)) (duoEnvelope default) duoStore).1.isAccepted = true ∧
      ∀ verifier parent,
        duoStore.states[(duoEnvelope default).message.block.parentRoot]? = some parent →
        (importBlock (some verifier) (duoEnvelope default) duoStore).1.isAccepted = true →
        ∃ key, registryKey parent.validators (duoEnvelope default).message.block.proposerIndex =
          some key ∧ SignedUnder verifier [] (duoEnvelope default) key := by
  obtain ⟨haccepted,hsound,hproposer,hcarried⟩ :
      (importBlock (some (keyed default)) (duoEnvelope default) duoStore).1.isAccepted = true ∧
      Sound (Tables.values duoStore.blocks ++ [(duoEnvelope default).message.block]) ∧
      (duoEnvelope default).message.block.proposerIndex = default ∧
      (⟨default,default⟩,default) ∈ carried (duoEnvelope default) := by decide +kernel
  have hlife : Lives (Tables.values duoStore.blocks) duoStore := lives_genesis 0 _
  refine ⟨haccepted,(proposer_authenticated hlife _ hsound []).mpr ?_⟩
  intro parent post himportable htrans hpostable
  refine ⟨_,hcarried,0,hashTreeRoot (⟨default,default⟩ : Attestation),rfl,by simp,?_⟩
  rw [hproposer]

/-- A block of validator 0 is accepted with a signature under the key of validator 1 only;
it is accepted again with nothing but an old signature of validator 0. -/
theorem unsigned_proposal_accepted :
    ∃ held, Lives held duoStore ∧ Sound (held ++ [(duoEnvelope default).message.block]) ∧
      (duoEnvelope rivalIndex).message.block = (duoEnvelope default).message.block ∧
      (∃ parent key, duoStore.states[(duoEnvelope default).message.block.parentRoot]? =
          some parent ∧
        registryKey parent.validators (duoEnvelope default).message.block.proposerIndex =
          some key ∧
        (importBlock (some (keyed rivalKey)) (duoEnvelope rivalIndex) duoStore).1.isAccepted =
          true ∧
        ¬ SignedUnder (keyed rivalKey) [] (duoEnvelope rivalIndex) key ∧
        (importBlock (some (keyed key)) (duoEnvelope default) duoStore).1.isAccepted = true ∧
        ¬ SignedUnder (keyed key) [replayedImprint] (duoEnvelope default) key) := by
  have hlife : Lives (Tables.values duoStore.blocks) duoStore := lives_genesis 0 _
  obtain ⟨hsound,⟨parent,hparent,hkey⟩,hrival,haccepted,hcarried⟩ :
      Sound (Tables.values duoStore.blocks ++ [(duoEnvelope default).message.block]) ∧
      (∃ parent ∈ duoStore.states[(duoEnvelope default).message.block.parentRoot]?,
        registryKey parent.validators (duoEnvelope default).message.block.proposerIndex =
          some default) ∧
      (importBlock (some (keyed rivalKey)) (duoEnvelope rivalIndex) duoStore).1.isAccepted =
        true ∧
      (importBlock (some (keyed default)) (duoEnvelope default) duoStore).1.isAccepted = true ∧
      carried (duoEnvelope default) = [(⟨default,default⟩,default)] := by decide +kernel
  refine ⟨_,hlife,hsound,rfl,parent,default,Option.mem_def.mp hparent,hkey,hrival,?_,haccepted,?_⟩
  · rintro ⟨pair,-,epoch,message,-,-,hverify⟩
    have hkeys : (default : PublicKey) ≠ rivalKey := by decide
    simp [keyed,hkeys] at hverify
  · rintro ⟨pair,hpair,epoch,message,hinputs,hnew,-⟩
    obtain rfl : pair = (⟨default,default⟩,default) := by simpa [hcarried] using hpair
    obtain ⟨rfl,rfl⟩ := Prod.mk.inj (Except.ok.inj hinputs)
    exact hnew (List.mem_singleton.mpr rfl)

end

end Devnet.Engine
