import Devnet.Protocol.Codec

/-!
The codecs of the block containers, one inside the other. Each has a fixed portion that ends
where its first offset has to point, so that the variable part begins right behind it.
-/

set_option autoImplicit false

namespace Devnet.Protocol
open Machine Wire Devnet.Types Devnet.Ssz

def blockFixedPartLen : Nat := slotLen+validatorIndexLen+2*bytes32Len+bytesPerLengthOffset
def blockWithAttestationFixedPartLen : Nat := bytesPerLengthOffset+attestationSszLen
def signedBlockWithAttestationFixedPartLen : Nat := 2*bytesPerLengthOffset

@[simp] theorem blockFixedPartLen_eq : blockFixedPartLen = 84 := by decide
@[simp] theorem blockWithAttestationFixedPartLen_eq : blockWithAttestationFixedPartLen = 140 := by
  decide
@[simp] theorem signedBlockWithAttestationFixedPartLen_eq :
    signedBlockWithAttestationFixedPartLen = 8 := by decide

def BlockBody.sszBytesLen (self : BlockBody) : Nat :=
  bytesPerLengthOffset + self.attestations.length*sszFixedLen Attestation

def BlockBody.sszAppend (self : BlockBody) (buf : List UInt8) : List UInt8 :=
  let buf := writeOffset buf bytesPerLengthOffset
  encodeFixedElementList self.attestations buf

def BlockBody.fromSszBytes (bytes : List UInt8) : Decoded BlockBody :=
  if bytes.length < bytesPerLengthOffset then
    refuse (.invalidByteLength bytes.length bytesPerLengthOffset)
  else do
    let (offset,c) ← readOffset bytes 0
    if offset ≠ bytesPerLengthOffset then refuse (.offsetIntoFixedPortion offset)
    else do
      let attestations ←
        decodeFixedElementList Attestation (← slice bytes c bytes.length) maxAttestations
      .ok ⟨attestations⟩

instance : Encode BlockBody := ⟨BlockBody.sszBytesLen,BlockBody.sszAppend⟩
instance : Decode BlockBody where
  fromSszBytes := BlockBody.fromSszBytes

def BlockBody.WithinLimits (self : BlockBody) : Prop := self.attestations.length ≤ maxAttestations

theorem lawful_container {α β : Type} [Encode α] [Decode α] [Encode β] [Decode β]
    {Within : α → Prop} {Inner : β → Prop} (hinner : Lawful β Inner) (parts : α → List (List UInt8))
    (inner : α → β) (fixedLen : Nat) (hwithin : ∀ x, Within x ↔ Inner (inner x))
    (happend : ∀ (x : α) buf, sszAppend x buf = buf ++ ((parts x).flatten ++ encode (inner x)))
    (hbytes : ∀ x : α, sszBytesLen x = fixedLen + sszBytesLen (inner x))
    (hextent : ∀ x, extent (parts x) = fixedLen)
    (hdecode : ∀ b (x : α), fromSszBytes b = .ok x ↔ fixedLen ≤ b.length ∧ Tiles b 0 (parts x) ∧
      fromSszBytes (b.drop fixedLen) = .ok (inner x))
    (hsafe : ∀ b, Safe (fromSszBytes b : Decoded α)) : Lawful α Within := by
  have hencode : ∀ x : α, encode x = (parts x).flatten ++ encode (inner x) := fun x => happend x []
  constructor
  · intro x buf
    rw [happend,hencode]
  · intro x
    rw [hbytes,hencode,List.length_append,length_flatten_parts,hextent,hinner.bytesLen]
  · intro b x
    rw [hdecode,hinner.accepts,hwithin,hencode,flatten_append_eq,hextent]
    constructor
    · rintro ⟨hlen,htiles,hinner,hrest⟩
      exact ⟨hinner,htiles,hrest⟩
    · rintro ⟨hinner,htiles,hrest⟩
      refine ⟨?_,htiles,hinner,hrest⟩
      have hall := congrArg List.length (flatten_append_eq.mpr ⟨htiles,(hextent x).symm ▸ hrest⟩)
      rw [List.length_append,length_flatten_parts,hextent] at hall
      omega
  · exact hsafe

theorem blockBody_append (x : BlockBody) (buf : List UInt8) :
    sszAppend x buf = buf ++ (leBytes 4 4 ++ (x.attestations.map encode).flatten) := by
  change BlockBody.sszAppend x buf = _
  rw [BlockBody.sszAppend,encodeFixedElementList_eq,bytesPerLengthOffset_eq,
    writeOffset_eq (by decide),List.append_assoc]

theorem lawful_blockBody : Lawful BlockBody BlockBody.WithinLimits := by
  have hencode : ∀ x : BlockBody, encode x = leBytes 4 4 ++ (x.attestations.map encode).flatten :=
    fun x => blockBody_append x []
  constructor
  · intro x buf
    rw [blockBody_append,hencode]
  · intro x
    have hparts : ∀ part ∈ x.attestations.map encode, part.length = 136 := by simp
    rw [hencode,List.length_append,length_leBytes,length_flatten_eq hparts,List.length_map]
    rfl
  · intro b x
    change BlockBody.fromSszBytes b = _ ↔ _
    rw [hencode,BlockBody.WithinLimits]
    rw [append_eq_iff]
    simp only [BlockBody.fromSszBytes,refuse_guard_ok,except_bind_ok,Prod.exists,readOffset_ok,
      slice_rest_ok,decodeFixedElementList_ok,bytesPerLengthOffset_eq,not_not,length_leBytes]
    constructor
    · rintro ⟨hlen,offset,_,⟨-,-,hoffset,rfl⟩,rfl,_,⟨-,rfl⟩,atts,⟨hmax,hatts⟩,⟨⟩⟩
      exact ⟨hmax,hoffset,hatts⟩
    · rintro ⟨hmax,hoffset,hatts⟩
      have hlen := congrArg List.length hoffset
      have hlen : 4 ≤ b.length := by simpa [field] using hlen
      exact ⟨by omega,4,_,⟨by omega,by decide,hoffset,rfl⟩,rfl,_,⟨hlen,rfl⟩,_,⟨hmax,hatts⟩,rfl⟩
  · intro b
    refine Safe.guard fun hlen => ?_
    rw [bytesPerLengthOffset_eq] at hlen
    refine safe_readOffset_bind (by omega) fun offset => Safe.guard fun _ => ?_
    refine (safe_slice (by omega) le_rfl).bind fun part _ => ?_
    exact (safe_decodeFixedElementList part _).bind fun atts _ => safe_ok _

def Block.sszBytesLen (self : Block) : Nat := blockFixedPartLen + Encode.sszBytesLen self.body

def Block.sszAppend (self : Block) (buf : List UInt8) : List UInt8 :=
  let buf := Encode.sszAppend self.slot buf
  let buf := Encode.sszAppend self.proposerIndex buf
  let buf := buf ++ self.parentRoot.bytes
  let buf := buf ++ self.stateRoot.bytes
  let buf := writeOffset buf blockFixedPartLen
  Encode.sszAppend self.body buf

def Block.fromSszBytes (bytes : List UInt8) : Decoded Block :=
  if bytes.length < blockFixedPartLen then
    refuse (.invalidByteLength bytes.length blockFixedPartLen)
  else do
    let (slot,c) ← readFixed bytes 0
    let (proposerIndex,c) ← readFixed bytes c
    let (parentRoot,c) ← readByteArray 32 bytes c
    let (stateRoot,c) ← readByteArray 32 bytes c
    let (offset,_) ← readOffset bytes c
    if offset ≠ blockFixedPartLen then refuse (.offsetIntoFixedPortion offset)
    else do
      let body ← Decode.fromSszBytes (← slice bytes offset bytes.length)
      .ok ⟨slot,proposerIndex,parentRoot,stateRoot,body⟩

instance : Encode Block := ⟨Block.sszBytesLen,Block.sszAppend⟩
instance : Decode Block where
  fromSszBytes := Block.fromSszBytes

def Block.WithinLimits (self : Block) : Prop := self.body.WithinLimits

theorem lawful_block : Lawful Block Block.WithinLimits := by
  refine lawful_container lawful_blockBody (fun x => [encode x.slot,encode x.proposerIndex,
    x.parentRoot.bytes,x.stateRoot.bytes,leBytes 4 84]) Block.body 84 (fun _ => Iff.rfl) ?_
    (fun _ => rfl) ?_ ?_ ?_
  · intro x buf
    change Block.sszAppend x buf = _
    simp [Block.sszAppend,LawfulFixed.appends,lawful_blockBody.appends,writeOffset]
  · intro x
    simp [extent,ByteVector.size]
  · intro b x
    change Block.fromSszBytes b = _ ↔ _
    cases x with | mk slot proposerIndex parentRoot stateRoot body =>
    by_cases hlen : b.length < 84
    · simp [Block.fromSszBytes,hlen,refuse]
    · simp only [Block.fromSszBytes,refuse_guard_ok,except_bind_ok,Prod.exists,readFixed_ok,
        readByteArray_ok,readOffset_ok,slice_rest_ok,blockFixedPartLen_eq,fixedLen_slot,
        fixedLen_validatorIndex,not_not,hlen]
      have hle : ∀ {n : Nat}, n ≤ 84 → n ≤ b.length := by omega
      simp [Tiles,ByteVector.size,hle,and_assoc]
  · intro b
    refine Safe.guard fun hlen => ?_
    rw [blockFixedPartLen_eq] at hlen
    refine safe_readFixed_bind (by simp; omega) fun slot => ?_
    refine safe_readFixed_bind (by simp; omega) fun proposerIndex => ?_
    refine safe_readByteArray_bind (by simp; omega) fun parentRoot => ?_
    refine safe_readByteArray_bind (by simp; omega) fun stateRoot => ?_
    refine safe_readOffset_bind (by simp; omega) fun offset => Safe.guard fun hoffset => ?_
    rw [not_not,blockFixedPartLen_eq] at hoffset
    refine (safe_slice (by omega) le_rfl).bind fun part _ => ?_
    exact (lawful_blockBody.safe part).bind fun body _ => safe_ok _

instance : Encode BlockSignatures :=
  ⟨fun self => self.length*signatureLen,encodeByteVectorList⟩
instance : Decode BlockSignatures where
  fromSszBytes bytes := decodeByteVectorList signatureLen bytes maxAttestations

def BlockSignatures.WithinLimits (self : BlockSignatures) : Prop := self.length ≤ maxAttestations

theorem encode_blockSignatures (x : BlockSignatures) :
    encode x = (x.map ByteVector.bytes).flatten := encodeByteVectorList_eq x []

theorem lawful_blockSignatures : Lawful BlockSignatures BlockSignatures.WithinLimits := by
  constructor
  · intro x buf
    rw [encode_blockSignatures]
    exact encodeByteVectorList_eq x buf
  · intro x
    have hparts : ∀ part ∈ x.map ByteVector.bytes, part.length = signatureLen := by
      simp [ByteVector.size,signatureLen]
    rw [encode_blockSignatures,length_flatten_eq hparts,List.length_map]
    rfl
  · intro b x
    rw [encode_blockSignatures]
    exact decodeByteVectorList_ok (by decide)
  · intro b
    exact safe_decodeByteVectorList _ _ _

def BlockWithAttestation.sszBytesLen (self : BlockWithAttestation) : Nat :=
  blockWithAttestationFixedPartLen + Encode.sszBytesLen self.block

def BlockWithAttestation.sszAppend (self : BlockWithAttestation) (buf : List UInt8) :
    List UInt8 :=
  let buf := writeOffset buf blockWithAttestationFixedPartLen
  let buf := Encode.sszAppend self.proposerAttestation buf
  Encode.sszAppend self.block buf

def BlockWithAttestation.fromSszBytes (bytes : List UInt8) : Decoded BlockWithAttestation :=
  if bytes.length < blockWithAttestationFixedPartLen then
    refuse (.invalidByteLength bytes.length blockWithAttestationFixedPartLen)
  else do
    let (offset,c) ← readOffset bytes 0
    if offset ≠ blockWithAttestationFixedPartLen then refuse (.offsetIntoFixedPortion offset)
    else do
      let (proposerAttestation,_) ← readFixed bytes c
      let block ← Decode.fromSszBytes (← slice bytes offset bytes.length)
      .ok ⟨block,proposerAttestation⟩

instance : Encode BlockWithAttestation :=
  ⟨BlockWithAttestation.sszBytesLen,BlockWithAttestation.sszAppend⟩
instance : Decode BlockWithAttestation where
  fromSszBytes := BlockWithAttestation.fromSszBytes

def BlockWithAttestation.WithinLimits (self : BlockWithAttestation) : Prop :=
  self.block.WithinLimits

theorem lawful_blockWithAttestation :
    Lawful BlockWithAttestation BlockWithAttestation.WithinLimits := by
  refine lawful_container lawful_block (fun x => [leBytes 4 140,encode x.proposerAttestation])
    BlockWithAttestation.block 140 (fun _ => Iff.rfl) ?_ (fun _ => rfl) ?_ ?_ ?_
  · intro x buf
    change BlockWithAttestation.sszAppend x buf = _
    simp [BlockWithAttestation.sszAppend,LawfulFixed.appends,lawful_block.appends,writeOffset]
  · intro x
    simp [extent]
  · intro b x
    change BlockWithAttestation.fromSszBytes b = _ ↔ _
    cases x with | mk block proposerAttestation =>
    by_cases hlen : b.length < 140
    · simp [BlockWithAttestation.fromSszBytes,hlen,refuse]
    · simp only [BlockWithAttestation.fromSszBytes,refuse_guard_ok,except_bind_ok,Prod.exists,
        readFixed_ok,readOffset_ok,slice_rest_ok,blockWithAttestationFixedPartLen_eq,
        fixedLen_attestation,not_not,hlen]
      have hle : ∀ {n : Nat}, n ≤ 140 → n ≤ b.length := by omega
      simp [Tiles,hle,and_assoc]
  · intro b
    refine Safe.guard fun hlen => ?_
    rw [blockWithAttestationFixedPartLen_eq] at hlen
    refine safe_readOffset_bind (by simp; omega) fun offset => Safe.guard fun hoffset => ?_
    rw [not_not,blockWithAttestationFixedPartLen_eq] at hoffset
    refine safe_readFixed_bind (by simp; omega) fun proposerAttestation => ?_
    refine (safe_slice (by omega) le_rfl).bind fun part _ => ?_
    exact (lawful_block.safe part).bind fun block _ => safe_ok _

def SignedBlockWithAttestation.sszBytesLen (self : SignedBlockWithAttestation) : Nat :=
  signedBlockWithAttestationFixedPartLen + Encode.sszBytesLen self.message +
    Encode.sszBytesLen self.signature

def SignedBlockWithAttestation.sszAppend (self : SignedBlockWithAttestation) (buf : List UInt8) :
    List UInt8 :=
  let messageOffset := signedBlockWithAttestationFixedPartLen
  let signatureOffset := messageOffset + Encode.sszBytesLen self.message
  let buf := writeOffset buf messageOffset
  let buf := writeOffset buf signatureOffset
  let buf := Encode.sszAppend self.message buf
  Encode.sszAppend self.signature buf

def SignedBlockWithAttestation.fromSszBytes (bytes : List UInt8) :
    Decoded SignedBlockWithAttestation :=
  if bytes.length < signedBlockWithAttestationFixedPartLen then
    refuse (.invalidByteLength bytes.length signedBlockWithAttestationFixedPartLen)
  else do
    let (messageOffset,c) ← readOffset bytes 0
    let (signatureOffset,_) ← readOffset bytes c
    if messageOffset ≠ signedBlockWithAttestationFixedPartLen then
      refuse (.offsetIntoFixedPortion messageOffset)
    else if signatureOffset < messageOffset ∨ signatureOffset > bytes.length then
      refuse (.offsetOutOfBounds signatureOffset)
    else do
      let message ← Decode.fromSszBytes (← slice bytes messageOffset signatureOffset)
      let signature ← Decode.fromSszBytes (← slice bytes signatureOffset bytes.length)
      .ok ⟨message,signature⟩

instance : Encode SignedBlockWithAttestation :=
  ⟨SignedBlockWithAttestation.sszBytesLen,SignedBlockWithAttestation.sszAppend⟩
instance : Decode SignedBlockWithAttestation where
  fromSszBytes := SignedBlockWithAttestation.fromSszBytes

def SignedBlockWithAttestation.WithinLimits (self : SignedBlockWithAttestation) : Prop :=
  self.message.WithinLimits ∧ self.signature.WithinLimits

theorem BlockWithAttestation.length_encode (x : BlockWithAttestation) :
    (encode x).length = 228 + x.block.body.attestations.length*136 := by
  rw [← lawful_blockWithAttestation.bytesLen]
  change 140 + (84 + (4 + x.block.body.attestations.length*136)) = _
  omega

theorem BlockSignatures.length_encode (x : BlockSignatures) :
    (encode x).length = x.length*3116 := (lawful_blockSignatures.bytesLen x).symm

theorem signedBlock_append (x : SignedBlockWithAttestation) (buf : List UInt8) :
    sszAppend x buf = buf ++ ([leBytes 4 8,
      leBytes 4 (min (8+(encode x.message).length) (2^32-1)),encode x.message].flatten ++
        encode x.signature) := by
  change SignedBlockWithAttestation.sszAppend x buf = _
  simp [SignedBlockWithAttestation.sszAppend,lawful_blockWithAttestation.appends,
    lawful_blockWithAttestation.bytesLen,lawful_blockSignatures.appends,writeOffset]

theorem SignedBlockWithAttestation.length_encode (x : SignedBlockWithAttestation) :
    (encode x).length = 236 + x.message.block.body.attestations.length*136 +
      x.signature.length*3116 := by
  rw [encode,signedBlock_append]
  simp [BlockWithAttestation.length_encode,BlockSignatures.length_encode]
  omega

theorem SignedBlockWithAttestation.accepts (b : List UInt8) (x : SignedBlockWithAttestation) :
    SignedBlockWithAttestation.fromSszBytes b = .ok x ↔ x.WithinLimits ∧ encode x = b := by
  -- The second offset is where the message ends, so there is one way to lay out the two.
  cases x with | mk message signature =>
  rw [encode,signedBlock_append,List.nil_append]
  simp only [SignedBlockWithAttestation.fromSszBytes,refuse_guard_ok,except_bind_ok,Prod.exists,
    readOffset_ok,slice_ok,field_rest,lawful_blockWithAttestation.accepts,
    lawful_blockSignatures.accepts,signedBlockWithAttestationFixedPartLen_eq,not_not,not_or]
  constructor
  · rintro ⟨hlen,_,_,⟨-,-,hfirst,rfl⟩,offset,_,⟨-,hlt,hsecond,rfl⟩,rfl,⟨hge,hle⟩,_,
      ⟨-,-,rfl⟩,_,⟨hmessage,hpart⟩,_,⟨-,-,rfl⟩,_,⟨hsignature,hrest⟩,⟨⟩⟩
    have hlength : (encode message).length = offset - 8 := by
      rw [hpart,length_field (by omega)]
    have hoffset : 8 + (encode message).length = offset := by omega
    rw [flatten_append_eq,hoffset,Nat.min_eq_left (Nat.le_sub_one_of_lt hlt)]
    refine ⟨⟨hmessage,hsignature⟩,?_,?_⟩
    · simpa [Tiles,hlength] using ⟨hfirst,hsecond,hpart⟩
    · simpa [extent,← hoffset,← Nat.add_assoc] using hrest
  · rintro ⟨⟨hmessage,hsignature⟩,hb⟩
    have hsmall : (encode message).length ≤ 228 + 4096*136 := by
      rw [BlockWithAttestation.length_encode]
      exact Nat.add_le_add_left (Nat.mul_le_mul_right 136 hmessage) 228
    rw [Nat.min_eq_left (by omega)] at hb
    have hlen := congrArg List.length hb
    obtain ⟨htiles,hrest⟩ := flatten_append_eq.mp hb
    simp only [Tiles,extent,List.map_cons,List.map_nil,List.sum_cons,List.sum_nil,length_leBytes,
      List.length_append,List.length_flatten,and_true] at htiles hrest hlen
    obtain ⟨hfirst,hsecond,hpart⟩ := htiles
    refine ⟨by omega,8,4,⟨by omega,by decide,hfirst,rfl⟩,8+(encode message).length,8,
      ⟨by omega,by omega,hsecond,rfl⟩,rfl,⟨by omega,by omega⟩,_,⟨by omega,by omega,rfl⟩,message,
      ⟨hmessage,?_⟩,_,⟨by omega,le_rfl,rfl⟩,signature,⟨hsignature,?_⟩,rfl⟩
    · simpa using hpart
    · simpa [← Nat.add_assoc] using hrest

theorem SignedBlockWithAttestation.safe (b : List UInt8) :
    Safe (SignedBlockWithAttestation.fromSszBytes b) := by
  refine Safe.guard fun hlen => ?_
  rw [signedBlockWithAttestationFixedPartLen_eq] at hlen
  refine safe_readOffset_bind (by omega) fun messageOffset => ?_
  refine safe_readOffset_bind (by omega) fun signatureOffset => ?_
  refine Safe.guard fun _ => Safe.guard fun hoffset => ?_
  refine (safe_slice (by omega) (by omega)).bind fun part _ => ?_
  refine (lawful_blockWithAttestation.safe part).bind fun message _ => ?_
  refine (safe_slice (by omega) le_rfl).bind fun part _ => ?_
  exact (lawful_blockSignatures.safe part).bind fun signature _ => safe_ok _

theorem lawful_signedBlock :
    Lawful SignedBlockWithAttestation SignedBlockWithAttestation.WithinLimits := by
  constructor
  · intro x buf
    rw [encode,signedBlock_append,signedBlock_append,List.nil_append]
  · intro x
    change 8 + sszBytesLen x.message + sszBytesLen x.signature = _
    rw [lawful_blockWithAttestation.bytesLen,BlockWithAttestation.length_encode,
      lawful_blockSignatures.bytesLen,BlockSignatures.length_encode,
      SignedBlockWithAttestation.length_encode]
    omega
  · exact SignedBlockWithAttestation.accepts
  · exact SignedBlockWithAttestation.safe

def votingBlock (slot : Slot) : SignedBlockWithAttestation :=
  let vote : Attestation := ⟨default,⟨slot,⟨.filled 1,slot⟩,⟨.filled 1,slot⟩,⟨.filled 2,.zero⟩⟩⟩
  let later := { vote with validatorId := .ofNat 1 }
  ⟨⟨⟨slot,default,.filled 1,.filled 3,⟨[vote,later]⟩⟩,vote⟩,[.filled 4,.filled 5,.filled 6]⟩

theorem votingBlock_within (slot : Slot) : (votingBlock slot).WithinLimits :=
  ⟨show 2 ≤ maxAttestations by decide,show 3 ≤ maxAttestations by decide⟩

end Devnet.Protocol
