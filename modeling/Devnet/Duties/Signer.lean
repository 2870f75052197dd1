import Devnet.Crypto.SigningKey
import Devnet.Lib.Marks
import Devnet.Storage.Store

/-!
The signer of a node and its runs. A signature leaves the node after the watermark that
covers its epoch has been stored. The process may be started with any of the key files,
fail to store, and die at any point; the files stay the same and the store keeps what was
last written to it. Each validator's key is then a guarded mark.
-/

set_option autoImplicit false

namespace Devnet.Duties
open Machine Devnet.Types Devnet.Ssz Devnet.Protocol Devnet.Engine Devnet.Crypto Devnet.Storage

inductive SignerLoadError where
  | secretFileRead (index : Nat) (path : String)
  | keyStateDecode (index : Nat) (source : OtsKeyStateDecodeError)
  | keyRestore (index : Nat) (source : CryptoError)
  | keyStateLoad (index : Nat) (source : StorageError)
  | keyStateMismatch (index : Nat)
  deriving DecidableEq

inductive SignError where
  | unknownValidator (validatorId : Nat)
  | epochOverflow (slot : Nat)
  | crypto (source : CryptoError)
  | persist (validatorId : Nat) (source : StorageError)
  deriving DecidableEq

abbrev Files := String → Option (List UInt8)

def validatorSecretPath (secretsDir : String) (index : Nat) : String :=
  secretsDir ++ "/validator_" ++ toString index ++ ".ssz"

def readSecretRecord (files : Files) (secretsDir : String) (index : ValidatorIndex) :
    Except SignerLoadError OtsKeyState :=
  let path := validatorSecretPath secretsDir index.get
  match files path with
  | none => .error (.secretFileRead index.get path)
  | some bytes => (OtsKeyState.fromSszBytes bytes).mapError (.keyStateDecode index.get)

/-- The record of the file, with the index that is further on. Records of different keys are
not merged. -/
def resolveRecord (seedCommitment : Bytes32 → Bytes32) (index : ValidatorIndex)
    (file : OtsKeyState) (stored : Option OtsWatermark) : Except SignerLoadError OtsKeyState :=
  match stored with
  | none => .ok file
  | some stored =>
    if stored.identifies (seedCommitment file.seed) file.activationEpoch file.numActiveEpochs =
        false then
      .error (.keyStateMismatch index.get)
    else .ok { file with nextIndex := max file.nextIndex stored.nextIndex }

section
variable (S : SignatureScheme)

structure LocalSigner where
  keys : BTreeMap ValidatorIndex (SigningKey S)

structure OtsSigner where
  inner : LocalSigner S
  store : RedbStore

/-- What a node reads its keys from, and the digest that stands for a seed. -/
structure KeySource where
  files : Files
  secretsDir : String
  seedCommitment : Bytes32 → Bytes32

variable {S}

/-- One round of the load loop: the first failure ends it. -/
def loadKey (source : KeySource) (store : RedbStore) (faults : ValidatorIndex → Fault)
    (keys : BTreeMap ValidatorIndex (SigningKey S)) (index : ValidatorIndex) :
    Except SignerLoadError (BTreeMap ValidatorIndex (SigningKey S)) := do
  let fileRecord ← readSecretRecord source.files source.secretsDir index
  let stored ← (store.loadOtsKeyState (faults index) index).mapError (.keyStateLoad index.get)
  let record ← resolveRecord source.seedCommitment index fileRecord stored
  let key ← (fromRecord S record).mapError (.keyRestore index.get)
  .ok (keys.insert index key)

def loadResuming (source : KeySource) (store : RedbStore) (faults : ValidatorIndex → Fault)
    (localIndices : List ValidatorIndex) : Except SignerLoadError (LocalSigner S) :=
  (localIndices.foldlM (loadKey source store faults) ∅).map LocalSigner.mk

def LocalSigner.watermarkFor (seedCommitment : Bytes32 → Bytes32) (self : LocalSigner S)
    (validator : ValidatorIndex) : Option OtsWatermark :=
  self.keys[validator]?.map (SigningKey.toWatermark seedCommitment)

end

section
variable [HashPair] {S : SignatureScheme}

/-- What was done to the key stays, also when signing fails. -/
def LocalSigner.signAttestation (att : Attestation) :
    EStateM SignError (LocalSigner S) Signature := fun self =>
  match self.keys[att.validatorId]? with
  | none => .error (.unknownValidator att.validatorId.get) self
  | some key =>
    match attestationSigningInputs att with
    | .error _ => .error (.epochOverflow att.data.slot.get) self
    | .ok (epoch,message) =>
      match (prepare epoch >>= fun _ => sign epoch message) key with
      | .ok signature key => .ok signature ⟨self.keys.insert att.validatorId key⟩
      | .error e key => .error (.crypto e) ⟨self.keys.insert att.validatorId key⟩

/-- Sign, store the watermark, release. -/
def OtsSigner.signAttestation (seedCommitment : Bytes32 → Bytes32) (fault : Fault)
    (att : Attestation) : EStateM SignError (OtsSigner S) Signature := fun self =>
  match LocalSigner.signAttestation att self.inner with
  | .error e inner => .error e { self with inner := inner }
  | .ok signature inner =>
    match inner.watermarkFor seedCommitment att.validatorId with
    | none => .error (.unknownValidator att.validatorId.get) { self with inner := inner }
    | some watermark =>
      match RedbStore.saveOtsKeyState fault att.validatorId watermark self.store with
      | .error e store => .error (.persist att.validatorId.get e) ⟨inner,store⟩
      | .ok _ store => .ok signature ⟨inner,store⟩

structure Release where
  validator : ValidatorIndex
  epoch : Nat
  signature : Signature

/-- The disk, and the signer of the process that runs, if one does. -/
structure Station (S : SignatureScheme) where
  inner : Option (LocalSigner S)
  store : RedbStore

inductive SignerEvent where
  | start (localIndices : List ValidatorIndex) (faults : ValidatorIndex → Fault)
  | signAttestation (att : Attestation) (fault : Fault)
  | crash
  /-- The process dies inside the call, before the watermark is stored or after. -/
  | crashSigning (att : Attestation) (fault : Fault)

def operate (source : KeySource) : SignerEvent → Station S → List Release × Station S
  | .start localIndices faults, st =>
    match loadResuming source st.store faults localIndices with
    | .ok inner => ([],{ st with inner := some inner })
    | .error _ => ([],{ st with inner := none })
  | .signAttestation att fault, st =>
    match st.inner with
    | none => ([],st)
    | some inner =>
      match OtsSigner.signAttestation source.seedCommitment fault att ⟨inner,st.store⟩ with
      | .ok signature t =>
        ([⟨att.validatorId,att.data.slot.get,signature⟩],⟨some t.inner,t.store⟩)
      | .error _ t => ([],⟨some t.inner,t.store⟩)
  | .crash, st => ([],{ st with inner := none })
  | .crashSigning att fault, st =>
    match st.inner with
    | none => ([],st)
    | some inner =>
      let t := after (OtsSigner.signAttestation source.seedCommitment fault att)
        ⟨inner,st.store⟩
      ([],⟨none,t.store⟩)

def Operates (source : KeySource) (st : Station S) (event : SignerEvent) (out : List Release)
    (t : Station S) : Prop := operate source event st = (out,t)

end

section
variable {S : SignatureScheme}

def persistedIndex (store : RedbStore) (validator : ValidatorIndex) : Nat :=
  match store.otsKeyState[validator]?.bind fun bytes =>
    (OtsWatermark.fromSszBytes bytes).toOption with
  | some watermark => watermark.nextIndex.toNat
  | none => 0

def LocalSigner.index (self : LocalSigner S) (validator : ValidatorIndex) : Option Nat :=
  self.keys[validator]?.map SigningKey.nextIndex

/-- The mark of one validator's key. -/
def Station.mark (self : Station S) (validator : ValidatorIndex) : Marks.Mark :=
  ⟨persistedIndex self.store validator,self.inner.bind fun inner => inner.index validator⟩

theorem mark_running (inner : LocalSigner S) (store : RedbStore) (v : ValidatorIndex) :
    (⟨some inner,store⟩ : Station S).mark v = ⟨persistedIndex store v,inner.index v⟩ := rfl

end

end Devnet.Duties
