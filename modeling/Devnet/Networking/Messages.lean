import Devnet.Protocol.BlockCodec
import Devnet.Ssz.Lists

/-!
The answer to a request for blocks by root: a bounded list of signed blocks, with the codec
that puts it on the wire. Its encoder is the one of the variable-element lists and inherits
its panic.
-/

set_option autoImplicit false

namespace Devnet.Networking
open Machine Wire Devnet.Types Devnet.Ssz Devnet.Protocol

def maxRequestBlocks : Nat := 1 <<< 10

inductive IoErrorKind where
  | unexpectedEof
  deriving DecidableEq, Repr

inductive NetworkingError where
  | listTooLarge (kind : String) (len max : Nat)
  | ssz (err : DecodeError)
  | io (kind : IoErrorKind)
  | snappy
  | malformedFrame (reason : String)
  | frameTooLarge (length max : Nat)
  | uvarintOverflow
  deriving DecidableEq, Repr

def enforceListCap {α : Type} (items : List α) (kind : String) :
    Except NetworkingError (List α) :=
  if maxRequestBlocks < items.length then
    .error (.listTooLarge kind items.length maxRequestBlocks)
  else .ok items

structure BlocksByRootResponse where
  blocks : List SignedBlockWithAttestation
  deriving DecidableEq, Inhabited

namespace BlocksByRootResponse

def new (blocks : List SignedBlockWithAttestation) :
    Except NetworkingError BlocksByRootResponse := do
  let blocks ← enforceListCap blocks "blocks_by_root response"
  .ok ⟨blocks⟩

def sszBytesLen (self : BlocksByRootResponse) : Nat :=
  let offsets := self.blocks.length*bytesPerLengthOffset
  let payload := (self.blocks.map Encode.sszBytesLen).sum
  offsets+payload

def sszAppend (self : BlocksByRootResponse) (buf : List UInt8) : Encoded :=
  encodeVariableElementList self.blocks buf

def encode (self : BlocksByRootResponse) : Encoded := self.sszAppend []

def fromSszBytes (bytes : List UInt8) : Decoded BlocksByRootResponse := do
  let blocks ← decodeVariableElementList SignedBlockWithAttestation bytes maxRequestBlocks
  .ok ⟨blocks⟩

@[mk_iff] structure WithinLimits (response : BlocksByRootResponse) : Prop where
  count : response.blocks.length ≤ maxRequestBlocks
  each : ∀ block ∈ response.blocks, block.WithinLimits

theorem new_ok {blocks : List SignedBlockWithAttestation} {response : BlocksByRootResponse} :
    new blocks = .ok response ↔ blocks.length ≤ maxRequestBlocks ∧ response = ⟨blocks⟩ := by
  simp only [new,enforceListCap,except_bind_ok,guard_ok,Nat.not_lt,Except.ok.injEq]
  aesop

/-- The last block begins below 4 GiB: in front of it are the offsets and all blocks but it. -/
def Addressable (self : BlocksByRootResponse) : Prop :=
  self.blocks.length*bytesPerLengthOffset +
    (self.blocks.dropLast.map Encode.sszBytesLen).sum < 2^32

instance (self : BlocksByRootResponse) : Decidable self.Addressable := Nat.decLt _ _

theorem addressable_iff {self : BlocksByRootResponse} : self.Addressable ↔
    ∀ o ∈ offsetsFrom (self.blocks.length*4) (self.blocks.map Ssz.encode), o < 2^32 := by
  rcases eq_or_ne self.blocks [] with hblocks | hblocks
  · simp [Addressable,hblocks,offsetsFrom]
  · have hsizes : self.blocks.dropLast.map Encode.sszBytesLen =
        (self.blocks.map Ssz.encode).dropLast.map List.length := by
      rw [← List.map_dropLast,List.map_map]
      exact List.map_congr_left fun block _ => lawful_signedBlock.bytesLen block
    rw [offsetsFrom_lt_iff (by simpa using hblocks),extent,← hsizes]
    rfl

theorem encode_eq (self : BlocksByRootResponse) : self.encode =
    if self.Addressable then
      .ok (table 4 (self.blocks.length*4) (self.blocks.map Ssz.encode) ++
        (self.blocks.map Ssz.encode).flatten)
    else panicked := by
  rw [encode,sszAppend,encodeVariableElementList_eq lawful_signedBlock.appends,List.nil_append]
  simp only [addressable_iff]

theorem accepts (b : List UInt8) (response : BlocksByRootResponse) :
    fromSszBytes b = .ok response ↔ response.WithinLimits ∧ response.encode = .ok b := by
  rw [withinLimits_iff]
  simp only [fromSszBytes,except_bind_ok,decodeVariableElementList_ok lawful_signedBlock,
    Except.ok.injEq]
  constructor
  · rintro ⟨blocks,hblocks,rfl⟩
    exact hblocks
  · intro h
    exact ⟨response.blocks,h,rfl⟩

theorem safe (b : List UInt8) : Safe (fromSszBytes b) :=
  (safe_decodeVariableElementList lawful_signedBlock _).bind fun _ _ => safe_ok _

end BlocksByRootResponse

/-- The containers of a signed block and their bytes determine each other. A response keeps
to that as long as the last of its blocks can be addressed. -/
theorem block_codecs_bijective (block : Block) (message : BlockWithAttestation)
    (signed : SignedBlockWithAttestation) (response : BlocksByRootResponse) (b : List UInt8) :
    (block.WithinLimits → fromSszBytes (encode block) = .ok block) ∧
    (message.WithinLimits → fromSszBytes (encode message) = .ok message) ∧
    (signed.WithinLimits → fromSszBytes (encode signed) = .ok signed) ∧
    (response.WithinLimits →
      ((∃ out, response.encode = .ok out ∧ BlocksByRootResponse.fromSszBytes out = .ok response) ↔
        response.Addressable)) ∧
    (Safe (fromSszBytes b : Decoded Block) ∧
      (fromSszBytes b = .ok block → block.WithinLimits ∧ encode block = b)) ∧
    (Safe (fromSszBytes b : Decoded BlockWithAttestation) ∧
      (fromSszBytes b = .ok message → message.WithinLimits ∧ encode message = b)) ∧
    (Safe (fromSszBytes b : Decoded SignedBlockWithAttestation) ∧
      (fromSszBytes b = .ok signed → signed.WithinLimits ∧ encode signed = b)) ∧
    Safe (BlocksByRootResponse.fromSszBytes b) ∧
      (BlocksByRootResponse.fromSszBytes b = .ok response →
        response.WithinLimits ∧ response.encode = .ok b) := by
  refine ⟨fun h => (lawful_block.accepts _ block).mpr ⟨h,rfl⟩,
    fun h => (lawful_blockWithAttestation.accepts _ message).mpr ⟨h,rfl⟩,
    fun h => (lawful_signedBlock.accepts _ signed).mpr ⟨h,rfl⟩,?_,
    ⟨lawful_block.safe b,(lawful_block.accepts b block).mp⟩,
    ⟨lawful_blockWithAttestation.safe b,(lawful_blockWithAttestation.accepts b message).mp⟩,
    ⟨lawful_signedBlock.safe b,(lawful_signedBlock.accepts b signed).mp⟩,
    BlocksByRootResponse.safe b,(BlocksByRootResponse.accepts b response).mp⟩
  intro hwithin
  constructor
  · rintro ⟨out,hencode,-⟩
    by_contra hfar
    simp [response.encode_eq,hfar,panicked] at hencode
  · intro hnear
    have hencode := response.encode_eq
    rw [if_pos hnear] at hencode
    exact ⟨_,hencode,(BlocksByRootResponse.accepts _ response).mpr ⟨hwithin,hencode⟩⟩

theorem block_codecs_voting :
    fromSszBytes (encode (votingBlock (.ofNat 1)).message.block) =
      .ok (votingBlock (.ofNat 1)).message.block ∧
    fromSszBytes (encode (votingBlock (.ofNat 1)).message) = .ok (votingBlock (.ofNat 1)).message ∧
    fromSszBytes (encode (votingBlock (.ofNat 1))) = .ok (votingBlock (.ofNat 1)) ∧
    ∃ out, BlocksByRootResponse.encode ⟨[votingBlock (.ofNat 1),votingBlock (.ofNat 2)]⟩ = .ok out ∧
      BlocksByRootResponse.fromSszBytes out =
        .ok ⟨[votingBlock (.ofNat 1),votingBlock (.ofNat 2)]⟩ := by
  have hcodecs := block_codecs_bijective (votingBlock (.ofNat 1)).message.block
    (votingBlock (.ofNat 1)).message (votingBlock (.ofNat 1))
    ⟨[votingBlock (.ofNat 1),votingBlock (.ofNat 2)]⟩ []
  have hwithin := votingBlock_within (.ofNat 1)
  refine ⟨hcodecs.1 hwithin.1,hcodecs.2.1 hwithin.1,hcodecs.2.2.1 hwithin,
    (hcodecs.2.2.2.1 ⟨by decide,?_⟩).mpr (by decide +kernel)⟩
  simpa using ⟨hwithin,votingBlock_within (.ofNat 2)⟩

def heavyBlock : SignedBlockWithAttestation := ⟨default,List.replicate maxAttestations default⟩

/-- A full response of such blocks is within its limits and cannot be encoded. -/
theorem full_response_panics :
    ∃ response : BlocksByRootResponse,
      BlocksByRootResponse.new (List.replicate maxRequestBlocks heavyBlock) = .ok response ∧
        response.WithinLimits ∧ response.encode = panicked := by
  have hsize : sszBytesLen heavyBlock = 236 + maxAttestations*3116 := by
    rw [lawful_signedBlock.bytesLen,SignedBlockWithAttestation.length_encode]
    simp [heavyBlock]
    rfl
  refine ⟨⟨List.replicate maxRequestBlocks heavyBlock⟩,?_,⟨by simp,?_⟩,?_⟩
  · simp [BlocksByRootResponse.new_ok]
  · intro block hblock
    rw [List.eq_of_mem_replicate hblock]
    exact ⟨Nat.zero_le _,by simp [heavyBlock,BlockSignatures.WithinLimits]⟩
  · rw [BlocksByRootResponse.encode_eq,if_neg]
    simp [BlocksByRootResponse.Addressable,hsize]
    decide

end Devnet.Networking
