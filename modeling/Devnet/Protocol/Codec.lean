import Devnet.Protocol.Containers
import Devnet.Ssz.Codec

/-!
The codecs of the containers of fixed length. Each checks the length of its input once and
then reads its fields in the order they are written in.
-/

set_option autoImplicit false

namespace Devnet.Protocol
open Machine Wire Devnet.Types Devnet.Ssz

def u64Len : Nat := 8
def bytes32Len : Nat := 32
def signatureLen : Nat := 3116
def slotLen : Nat := u64Len
def validatorIndexLen : Nat := u64Len
def Internal.publicKeyLen : Nat := 52
def validatorSszLen : Nat := Internal.publicKeyLen+validatorIndexLen
def checkpointLen : Nat := bytes32Len+slotLen
def blockHeaderLen : Nat := slotLen+validatorIndexLen+3*bytes32Len
def attestationDataSszLen : Nat := slotLen+3*checkpointLen
def attestationSszLen : Nat := validatorIndexLen+attestationDataSszLen
def signedAttestationSszLen : Nat := attestationSszLen+signatureLen
def protocolConfigSszLen : Nat := u64Len

theorem lawfulFixed_newtype {α : Type} [Encode α] [Decode α] (raw : α → UInt64) (wrap : UInt64 → α)
    (hraw : ∀ v, raw (wrap v) = v) (hwrap : ∀ x, wrap (raw x) = x)
    (happend : ∀ x buf, sszAppend x buf = sszAppend (raw x) buf) (hbytes : ∀ x : α, sszBytesLen x = 8)
    (hfixed : sszFixedLen α = 8)
    (hdecode : ∀ b, fromSszBytes b = (fromSszBytes b : Decoded UInt64).map wrap) :
    LawfulFixed α := by
  have hencode : ∀ x : α, encode x = encode (raw x) := fun x => happend x []
  constructor
  · intro x buf
    rw [happend,hencode,LawfulFixed.appends]
  · intro x
    rw [hbytes,hfixed]
  · intro x
    rw [hencode,LawfulFixed.length,hfixed]
    rfl
  · rw [hfixed]
    decide
  · intro b x
    rw [hdecode,hencode,← LawfulFixed.accepts]
    cases hb : (fromSszBytes b : Decoded UInt64) with
    | error e => simp [Except.map]
    | ok v =>
      simp only [Except.map,Except.ok.injEq]
      exact ⟨fun h => h ▸ (hraw v).symm,fun h => h ▸ hwrap x⟩
  · intro b
    rw [hdecode]
    exact (LawfulFixed.safe b).map wrap

instance : Encode Slot := ⟨fun _ => sszFixedLen UInt64,fun self => sszAppend (UInt64.ofNat self.get)⟩

instance : Decode Slot where
  sszFixedLen := sszFixedLen UInt64
  fromSszBytes bytes := (fromSszBytes bytes : Decoded UInt64).map fun v => ⟨v.toNat,v.toNat_lt⟩

instance : LawfulFixed Slot :=
  lawfulFixed_newtype (fun s => UInt64.ofNat s.get) (fun v => ⟨v.toNat,v.toNat_lt⟩) (by simp)
    (fun s => Slot.ext_get (UInt64.toNat_ofNat_of_lt' s.isLt)) (fun _ _ => rfl) (fun _ => rfl) rfl
    (fun _ => rfl)

instance : Encode ValidatorIndex :=
  ⟨fun _ => sszFixedLen UInt64,fun self => sszAppend (UInt64.ofNat self.get)⟩

instance : Decode ValidatorIndex where
  sszFixedLen := sszFixedLen UInt64
  fromSszBytes bytes := (fromSszBytes bytes : Decoded UInt64).map fun v => ⟨v.toNat,v.toNat_lt⟩

instance : LawfulFixed ValidatorIndex :=
  lawfulFixed_newtype (fun s => UInt64.ofNat s.get) (fun v => ⟨v.toNat,v.toNat_lt⟩) (by simp)
    (fun s => ValidatorIndex.ext_get (UInt64.toNat_ofNat_of_lt' s.isLt)) (fun _ _ => rfl)
    (fun _ => rfl) rfl (fun _ => rfl)

theorem lawfulFixed_container {α : Type} [Encode α] [Decode α] (parts : α → List (List UInt8))
    (hpos : 0 < sszFixedLen α) (hbytes : ∀ x : α, sszBytesLen x = sszFixedLen α)
    (happend : ∀ (x : α) buf, sszAppend x buf = buf ++ (parts x).flatten)
    (hextent : ∀ x, extent (parts x) = sszFixedLen α)
    (hdecode : ∀ b (x : α), fromSszBytes b = .ok x ↔
      b.length = sszFixedLen α ∧ Tiles b 0 (parts x))
    (hsafe : ∀ b, Safe (fromSszBytes b : Decoded α)) : LawfulFixed α := by
  have hencode : ∀ x : α, encode x = (parts x).flatten := fun x => happend x []
  constructor
  · intro x buf
    rw [happend,hencode]
  · exact hbytes
  · intro x
    rw [hencode,length_flatten_parts,hextent]
  · exact hpos
  · intro b x
    rw [hdecode,hencode,flatten_eq,hextent]
  · exact hsafe

section Lengths

@[simp] theorem checkpointLen_eq : checkpointLen = 40 := by decide
@[simp] theorem attestationDataSszLen_eq : attestationDataSszLen = 128 := by decide
@[simp] theorem attestationSszLen_eq : attestationSszLen = 136 := by decide
@[simp] theorem signedAttestationSszLen_eq : signedAttestationSszLen = 3252 := by decide
@[simp] theorem blockHeaderLen_eq : blockHeaderLen = 112 := by decide
@[simp] theorem validatorSszLen_eq : validatorSszLen = 60 := by decide
@[simp] theorem protocolConfigSszLen_eq : protocolConfigSszLen = 8 := by decide

@[simp] theorem fixedLen_u64 : sszFixedLen UInt64 = 8 := by decide
@[simp] theorem fixedLen_slot : sszFixedLen Slot = 8 := by decide
@[simp] theorem fixedLen_validatorIndex : sszFixedLen ValidatorIndex = 8 := by decide

@[simp] theorem length_encode_u64 (v : UInt64) : (encode v).length = 8 := LawfulFixed.length v
@[simp] theorem length_encode_slot (s : Slot) : (encode s).length = 8 := LawfulFixed.length s
@[simp] theorem length_encode_validatorIndex (v : ValidatorIndex) : (encode v).length = 8 :=
  LawfulFixed.length v

end Lengths

def Checkpoint.sszAppend (self : Checkpoint) (buf : List UInt8) : List UInt8 :=
  let buf := buf ++ self.root.bytes
  Encode.sszAppend self.slot buf

def Checkpoint.fromSszBytes (bytes : List UInt8) : Decoded Checkpoint :=
  if bytes.length ≠ checkpointLen then refuse (.invalidByteLength bytes.length checkpointLen)
  else do
    let root ← copyFromSlice bytes32Len (← slice bytes 0 bytes32Len)
    let slot ← Decode.fromSszBytes (← slice bytes bytes32Len bytes.length)
    .ok ⟨root,slot⟩

instance : Encode Checkpoint := ⟨fun _ => checkpointLen,Checkpoint.sszAppend⟩
instance : Decode Checkpoint := ⟨checkpointLen,Checkpoint.fromSszBytes⟩

@[simp] theorem fixedLen_checkpoint : sszFixedLen Checkpoint = 40 := by decide

theorem Checkpoint.fromSszBytes_ok {b : List UInt8} {x : Checkpoint} :
    Checkpoint.fromSszBytes b = .ok x ↔ b.length = 40 ∧ Tiles b 0 [x.root.bytes,encode x.slot] := by
  cases x with | mk root slot =>
  have hroot := root.size
  by_cases hlen : b.length = 40
  · simp [Checkpoint.fromSszBytes,hlen,hroot,Tiles,except_bind_ok,slice_ok,copyFromSlice_ok,
      LawfulFixed.accepts,bytes32Len]
  · simp [Checkpoint.fromSszBytes,hlen,refuse]

instance : LawfulFixed Checkpoint := by
  refine lawfulFixed_container (fun x => [x.root.bytes,encode x.slot]) (by decide) (fun _ => rfl)
    ?_ ?_ (fun _ _ => Checkpoint.fromSszBytes_ok) ?_
  · intro x buf
    change Checkpoint.sszAppend x buf = _
    simp [Checkpoint.sszAppend,LawfulFixed.appends]
  · intro x
    simp [extent,x.root.size]
  · intro b
    refine Safe.guard fun hlen => ?_
    have hlen : b.length = 40 := not_not.mp hlen
    refine (safe_slice (by decide) (hlen ▸ by decide)).bind fun part hpart => ?_
    refine (safe_copyFromSlice (length_of_slice hpart)).bind fun root _ => ?_
    refine (safe_slice (hlen ▸ by decide) le_rfl).bind fun part _ => ?_
    exact (LawfulFixed.safe part).bind fun slot _ => safe_ok _

@[simp] theorem length_encode_checkpoint (c : Checkpoint) : (encode c).length = 40 :=
  LawfulFixed.length c

def AttestationData.sszAppend (self : AttestationData) (buf : List UInt8) : List UInt8 :=
  let buf := Encode.sszAppend self.slot buf
  let buf := Encode.sszAppend self.head buf
  let buf := Encode.sszAppend self.target buf
  Encode.sszAppend self.source buf

def AttestationData.fromSszBytes (bytes : List UInt8) : Decoded AttestationData := do
  ensureLen bytes attestationDataSszLen
  let c := 0
  let (slot,c) ← readFixed bytes c
  let (head,c) ← readFixed bytes c
  let (target,c) ← readFixed bytes c
  let (source,_) ← readFixed bytes c
  .ok ⟨slot,head,target,source⟩

instance : Encode AttestationData := ⟨fun _ => attestationDataSszLen,AttestationData.sszAppend⟩
instance : Decode AttestationData := ⟨attestationDataSszLen,AttestationData.fromSszBytes⟩

@[simp] theorem fixedLen_attestationData : sszFixedLen AttestationData = 128 := by decide

instance : LawfulFixed AttestationData := by
  refine lawfulFixed_container (fun x => [encode x.slot,encode x.head,encode x.target,
    encode x.source]) (by decide) (fun _ => rfl) ?_ ?_ ?_ ?_
  · intro x buf
    change AttestationData.sszAppend x buf = _
    simp [AttestationData.sszAppend,LawfulFixed.appends]
  · intro x
    simp [extent]
  · intro b x
    change AttestationData.fromSszBytes b = _ ↔ _
    cases x
    by_cases hlen : b.length = 128
    · simp [AttestationData.fromSszBytes,except_bind_ok,readFixed_ok,ensureLen_ok,hlen,Tiles]
    · simp [AttestationData.fromSszBytes,except_bind_ok,ensureLen_ok,hlen]
  · intro b
    refine (safe_ensureLen b _).bind fun _ hlen => ?_
    have hlen := ensureLen_ok.mp hlen
    refine safe_readFixed_bind ?_ fun slot => safe_readFixed_bind ?_ fun head =>
      safe_readFixed_bind ?_ fun target => safe_readFixed_bind ?_ fun source => safe_ok _
    all_goals simp [hlen]

@[simp] theorem length_encode_attestationData (d : AttestationData) : (encode d).length = 128 :=
  LawfulFixed.length d

def Attestation.sszAppend (self : Attestation) (buf : List UInt8) : List UInt8 :=
  let buf := Encode.sszAppend self.validatorId buf
  Encode.sszAppend self.data buf

def Attestation.fromSszBytes (bytes : List UInt8) : Decoded Attestation := do
  ensureLen bytes attestationSszLen
  let c := 0
  let (validatorId,c) ← readFixed bytes c
  let (data,_) ← readFixed bytes c
  .ok ⟨validatorId,data⟩

instance : Encode Attestation := ⟨fun _ => attestationSszLen,Attestation.sszAppend⟩
instance : Decode Attestation := ⟨attestationSszLen,Attestation.fromSszBytes⟩

@[simp] theorem fixedLen_attestation : sszFixedLen Attestation = 136 := by decide

instance : LawfulFixed Attestation := by
  refine lawfulFixed_container (fun x => [encode x.validatorId,encode x.data]) (by decide)
    (fun _ => rfl) ?_ ?_ ?_ ?_
  · intro x buf
    change Attestation.sszAppend x buf = _
    simp [Attestation.sszAppend,LawfulFixed.appends]
  · intro x
    simp [extent]
  · intro b x
    change Attestation.fromSszBytes b = _ ↔ _
    cases x
    by_cases hlen : b.length = 136
    · simp [Attestation.fromSszBytes,except_bind_ok,readFixed_ok,ensureLen_ok,hlen,Tiles]
    · simp [Attestation.fromSszBytes,except_bind_ok,ensureLen_ok,hlen]
  · intro b
    refine (safe_ensureLen b _).bind fun _ hlen => ?_
    have hlen := ensureLen_ok.mp hlen
    refine safe_readFixed_bind ?_ fun validatorId => safe_readFixed_bind ?_ fun data => safe_ok _
    all_goals simp [hlen]

@[simp] theorem length_encode_attestation (a : Attestation) : (encode a).length = 136 :=
  LawfulFixed.length a

def SignedAttestation.sszAppend (self : SignedAttestation) (buf : List UInt8) : List UInt8 :=
  let buf := Encode.sszAppend self.message buf
  buf ++ self.signature.bytes

def SignedAttestation.fromSszBytes (bytes : List UInt8) : Decoded SignedAttestation := do
  ensureLen bytes signedAttestationSszLen
  let c := 0
  let (message,c) ← readFixed bytes c
  let (signature,_) ← readByteArray 3116 bytes c
  .ok ⟨message,signature⟩

instance : Encode SignedAttestation :=
  ⟨fun _ => signedAttestationSszLen,SignedAttestation.sszAppend⟩
instance : Decode SignedAttestation :=
  ⟨signedAttestationSszLen,SignedAttestation.fromSszBytes⟩

@[simp] theorem fixedLen_signedAttestation : sszFixedLen SignedAttestation = 3252 := by decide

instance : LawfulFixed SignedAttestation := by
  refine lawfulFixed_container (fun x => [encode x.message,x.signature.bytes]) (by decide)
    (fun _ => rfl) ?_ ?_ ?_ ?_
  · intro x buf
    change SignedAttestation.sszAppend x buf = _
    simp [SignedAttestation.sszAppend,LawfulFixed.appends]
  · intro x
    simp [extent,ByteVector.size]
  · intro b x
    change SignedAttestation.fromSszBytes b = _ ↔ _
    cases x
    by_cases hlen : b.length = 3252
    · simp [SignedAttestation.fromSszBytes,except_bind_ok,readFixed_ok,readByteArray_ok,
        ensureLen_ok,hlen,Tiles,ByteVector.size]
    · simp [SignedAttestation.fromSszBytes,except_bind_ok,ensureLen_ok,hlen]
  · intro b
    refine (safe_ensureLen b _).bind fun _ hlen => ?_
    have hlen := ensureLen_ok.mp hlen
    refine safe_readFixed_bind ?_ fun message =>
      safe_readByteArray_bind ?_ fun signature => safe_ok _
    all_goals simp [hlen]

def BlockHeader.sszAppend (self : BlockHeader) (buf : List UInt8) : List UInt8 :=
  let buf := Encode.sszAppend self.slot buf
  let buf := Encode.sszAppend self.proposerIndex buf
  let buf := buf ++ self.parentRoot.bytes
  let buf := buf ++ self.stateRoot.bytes
  buf ++ self.bodyRoot.bytes

def BlockHeader.fromSszBytes (bytes : List UInt8) : Decoded BlockHeader := do
  ensureLen bytes blockHeaderLen
  let c := 0
  let (slot,c) ← readFixed bytes c
  let (proposerIndex,c) ← readFixed bytes c
  let (parentRoot,c) ← readByteArray 32 bytes c
  let (stateRoot,c) ← readByteArray 32 bytes c
  let (bodyRoot,_) ← readByteArray 32 bytes c
  .ok ⟨slot,proposerIndex,parentRoot,stateRoot,bodyRoot⟩

instance : Encode BlockHeader := ⟨fun _ => blockHeaderLen,BlockHeader.sszAppend⟩
instance : Decode BlockHeader := ⟨blockHeaderLen,BlockHeader.fromSszBytes⟩

@[simp] theorem fixedLen_blockHeader : sszFixedLen BlockHeader = 112 := by decide

instance : LawfulFixed BlockHeader := by
  refine lawfulFixed_container (fun x => [encode x.slot,encode x.proposerIndex,x.parentRoot.bytes,
    x.stateRoot.bytes,x.bodyRoot.bytes]) (by decide) (fun _ => rfl) ?_ ?_ ?_ ?_
  · intro x buf
    change BlockHeader.sszAppend x buf = _
    simp [BlockHeader.sszAppend,LawfulFixed.appends]
  · intro x
    simp [extent,ByteVector.size]
  · intro b x
    change BlockHeader.fromSszBytes b = _ ↔ _
    cases x
    by_cases hlen : b.length = 112
    · simp [BlockHeader.fromSszBytes,except_bind_ok,readFixed_ok,readByteArray_ok,ensureLen_ok,hlen,
        Tiles,ByteVector.size]
    · simp [BlockHeader.fromSszBytes,except_bind_ok,ensureLen_ok,hlen]
  · intro b
    refine (safe_ensureLen b _).bind fun _ hlen => ?_
    have hlen := ensureLen_ok.mp hlen
    refine safe_readFixed_bind ?_ fun slot => safe_readFixed_bind ?_ fun proposerIndex =>
      safe_readByteArray_bind ?_ fun parentRoot => safe_readByteArray_bind ?_ fun stateRoot =>
      safe_readByteArray_bind ?_ fun bodyRoot => safe_ok _
    all_goals simp [hlen]

@[simp] theorem length_encode_blockHeader (h : BlockHeader) : (encode h).length = 112 :=
  LawfulFixed.length h

def Validator.sszAppend (self : Validator) (buf : List UInt8) : List UInt8 :=
  let buf := buf ++ self.pubkey.bytes
  Encode.sszAppend self.index buf

def Validator.fromSszBytes (bytes : List UInt8) : Decoded Validator := do
  ensureLen bytes validatorSszLen
  let cursor := 0
  let (pubkey,cursor) ← readByteArray 52 bytes cursor
  let index ← Decode.fromSszBytes (← slice bytes cursor (cursor+validatorIndexLen))
  .ok ⟨pubkey,index⟩

instance : Encode Validator := ⟨fun _ => validatorSszLen,Validator.sszAppend⟩
instance : Decode Validator := ⟨validatorSszLen,Validator.fromSszBytes⟩

@[simp] theorem fixedLen_validator : sszFixedLen Validator = 60 := by decide

instance : LawfulFixed Validator := by
  refine lawfulFixed_container (fun x => [x.pubkey.bytes,encode x.index]) (by decide)
    (fun _ => rfl) ?_ ?_ ?_ ?_
  · intro x buf
    change Validator.sszAppend x buf = _
    simp [Validator.sszAppend,LawfulFixed.appends]
  · intro x
    simp [extent,ByteVector.size]
  · intro b x
    change Validator.fromSszBytes b = _ ↔ _
    cases x
    by_cases hlen : b.length = 60
    · simp [Validator.fromSszBytes,except_bind_ok,readByteArray_ok,slice_ok,LawfulFixed.accepts,
        ensureLen_ok,hlen,Tiles,ByteVector.size,validatorIndexLen,u64Len]
    · simp [Validator.fromSszBytes,except_bind_ok,ensureLen_ok,hlen]
  · intro b
    refine (safe_ensureLen b _).bind fun _ hlen => ?_
    have hlen : b.length = 60 := ensureLen_ok.mp hlen
    refine safe_readByteArray_bind (by simp [hlen]) fun pubkey => ?_
    refine (safe_slice (Nat.le_add_right _ _) (hlen ▸ by decide)).bind fun part _ => ?_
    exact (LawfulFixed.safe part).bind fun index _ => safe_ok _

@[simp] theorem length_encode_validator (v : Validator) : (encode v).length = 60 :=
  LawfulFixed.length v

def ProtocolConfig.sszAppend (self : ProtocolConfig) (buf : List UInt8) : List UInt8 :=
  Encode.sszAppend self.genesisTime buf

def ProtocolConfig.fromSszBytes (bytes : List UInt8) : Decoded ProtocolConfig := do
  ensureLen bytes protocolConfigSszLen
  let c := 0
  let (genesisTime,_) ← readFixed bytes c
  .ok ⟨genesisTime⟩

instance : Encode ProtocolConfig := ⟨fun _ => protocolConfigSszLen,ProtocolConfig.sszAppend⟩
instance : Decode ProtocolConfig := ⟨protocolConfigSszLen,ProtocolConfig.fromSszBytes⟩

@[simp] theorem fixedLen_protocolConfig : sszFixedLen ProtocolConfig = 8 := by decide

instance : LawfulFixed ProtocolConfig := by
  refine lawfulFixed_container (fun x => [encode x.genesisTime]) (by decide) (fun _ => rfl)
    ?_ ?_ ?_ ?_
  · intro x buf
    change ProtocolConfig.sszAppend x buf = _
    simp [ProtocolConfig.sszAppend,LawfulFixed.appends]
  · intro x
    simp [extent]
  · intro b x
    change ProtocolConfig.fromSszBytes b = _ ↔ _
    cases x
    by_cases hlen : b.length = 8
    · simp [ProtocolConfig.fromSszBytes,except_bind_ok,readFixed_ok,ensureLen_ok,hlen,Tiles]
    · simp [ProtocolConfig.fromSszBytes,except_bind_ok,ensureLen_ok,hlen]
  · intro b
    refine (safe_ensureLen b _).bind fun _ hlen => ?_
    exact safe_readFixed_bind (ensureLen_ok.mp hlen).ge fun genesisTime => safe_ok _

@[simp] theorem length_encode_protocolConfig (c : ProtocolConfig) : (encode c).length = 8 :=
  LawfulFixed.length c

end Devnet.Protocol
