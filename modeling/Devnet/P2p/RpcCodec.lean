import Devnet.Chain.Status
import Devnet.Networking.Frames

/-!
The codec of the two request/response protocols. A message is one frame; a response with
blocks is a frame per block. The receiver reads a stream to its end before it decodes
anything, and refuses one that is longer than its limit.
-/

set_option autoImplicit false

namespace Devnet.P2p
open Machine Wire Devnet.Types Devnet.Ssz Devnet.Protocol Devnet.Storage Devnet.Networking
  Devnet.Chain

def maxRpcStreamBytes : Nat := 16*1024*1024

def statusProtocolV1 : String := "/leanconsensus/req/status/1/ssz_snappy"
def blocksByRootProtocolV1 : String := "/leanconsensus/req/lean_blocks_by_root/1/ssz_snappy"

def statusSszLen : Nat := 2*checkpointLen

instance : Encode Status where
  sszBytesLen _ := statusSszLen
  sszAppend self buf := sszAppend self.head (sszAppend self.finalized buf)

instance : Decode Status where
  sszFixedLen := statusSszLen
  fromSszBytes bytes :=
    if bytes.length ≠ statusSszLen then refuse (.invalidByteLength bytes.length statusSszLen)
    else do
      let finalized ← fromSszBytes (← slice bytes 0 checkpointLen)
      let head ← fromSszBytes (← slice bytes checkpointLen bytes.length)
      .ok ⟨finalized,head⟩

/-- Unlike the other lists it has the element size in its text. -/
def decodeBytes32List (bytes : List UInt8) (max : Nat) : Decoded (List Bytes32) :=
  if bytes.length % 32 ≠ 0 then
    refuse (.bytesInvalid ("Bytes32 list bytes (" ++ toString bytes.length ++
      ") not divisible by 32"))
  else if max < bytes.length/32 then
    refuse (.bytesInvalid ("Bytes32 list length (" ++ toString (bytes.length/32) ++
      ") exceeds max (" ++ toString max ++ ")"))
  else (List.range (bytes.length/32)).mapM fun i => do
    copyFromSlice 32 (← slice bytes (i*32) (i*32+32))

structure BlocksByRootRequest where
  roots : List Bytes32
  deriving DecidableEq

def BlocksByRootRequest.new (roots : List Bytes32) :
    Except NetworkingError BlocksByRootRequest := do
  let roots ← enforceListCap roots "blocks_by_root request"
  .ok ⟨roots⟩

instance : Encode BlocksByRootRequest where
  sszBytesLen self := self.roots.length*32
  sszAppend self buf := encodeByteVectorList self.roots buf

instance : Decode BlocksByRootRequest where
  fromSszBytes bytes := do
    let roots ← decodeBytes32List bytes maxRequestBlocks
    .ok ⟨roots⟩

inductive RpcRequest where
  | status (s : Status)
  | blocksByRoot (r : BlocksByRootRequest)

inductive RpcResponse where
  | status (s : Status)
  | blocksByRoot (r : BlocksByRootResponse)

inductive ErrorKind where
  | invalidData
  | invalidInput
  | unsupported
  deriving DecidableEq, Repr

/-- The `io::Error`s of the codec, by what they carry. -/
inductive CodecError where
  | streamExceeded (max : Nat)
  | frameCount (got : Nat)
  | networking (err : NetworkingError)
  | ssz (err : DecodeError)
  | unknownProtocol (name : String)
  | protocolMismatch (name kind : String)
  deriving DecidableEq, Repr

def CodecError.kind : CodecError → ErrorKind
  | .unknownProtocol _ => .unsupported
  | .protocolMismatch _ _ => .invalidInput
  | _ => .invalidData

/-- `io.take(MAX_RPC_STREAM_BYTES + 1).read_to_end`. -/
def readToEnd (io : List UInt8) : Outcome CodecError (List UInt8) :=
  let buf := io.take (maxRpcStreamBytes+1)
  if maxRpcStreamBytes < buf.length then refuse (.streamExceeded maxRpcStreamBytes) else .ok buf

section Codec
variable [Snappy]

def encodeFrame {α : Type} [Encode α] (value : α) : Outcome CodecError (List UInt8) :=
  (writeReqRespFrame [] (encode value)).mapError (.map .networking)

def encodeBlocksByRootResponse (response : BlocksByRootResponse) :
    Outcome CodecError (List UInt8) :=
  (response.blocks.foldlM (fun wire block => writeReqRespFrame wire (encode block)) []).mapError
    (.map .networking)

def decodeFrames (α : Type) [Decode α] (cursor : List UInt8) : Outcome CodecError (List α) :=
  match _h : readReqRespFrame (some maxRpcStreamBytes) cursor with
  | .error err _ => refuse (.networking err)
  | .ok none _ => .ok []
  | .ok (some sszBytes) rest => do
    let frame ← (fromSszBytes sszBytes : Decoded α).mapError (.map .ssz)
    let frames ← decodeFrames α rest
    .ok (frame :: frames)
termination_by cursor.length
decreasing_by exact readReqRespFrame_shrinks _h

def decodeSingleFrame (α : Type) [Decode α] (buf : List UInt8) : Outcome CodecError α := do
  match ← decodeFrames α buf with
  | [frame] => .ok frame
  | frames => refuse (.frameCount frames.length)

def decodeBlocksByRootResponse (buf : List UInt8) : Outcome CodecError BlocksByRootResponse := do
  let blocks ← decodeFrames SignedBlockWithAttestation buf
  (BlocksByRootResponse.new blocks).mapError fun err => .refused (.networking err)

def readRequest (protocol : String) (io : List UInt8) : Outcome CodecError RpcRequest := do
  let buf ← readToEnd io
  if protocol = statusProtocolV1 then .status <$> decodeSingleFrame Status buf
  else if protocol = blocksByRootProtocolV1 then
    .blocksByRoot <$> decodeSingleFrame BlocksByRootRequest buf
  else refuse (.unknownProtocol protocol)

def readResponse (protocol : String) (io : List UInt8) : Outcome CodecError RpcResponse := do
  let buf ← readToEnd io
  if protocol = statusProtocolV1 then .status <$> decodeSingleFrame Status buf
  else if protocol = blocksByRootProtocolV1 then
    .blocksByRoot <$> decodeBlocksByRootResponse buf
  else refuse (.unknownProtocol protocol)

def writeRequest (protocol : String) : RpcRequest → Outcome CodecError (List UInt8)
  | .status s =>
    if protocol = statusProtocolV1 then encodeFrame s
    else refuse (.protocolMismatch protocol "request")
  | .blocksByRoot r =>
    if protocol = blocksByRootProtocolV1 then encodeFrame r
    else refuse (.protocolMismatch protocol "request")

def writeResponse (protocol : String) : RpcResponse → Outcome CodecError (List UInt8)
  | .status s =>
    if protocol = statusProtocolV1 then encodeFrame s
    else refuse (.protocolMismatch protocol "response")
  | .blocksByRoot r =>
    if protocol = blocksByRootProtocolV1 then encodeBlocksByRootResponse r
    else refuse (.protocolMismatch protocol "response")

end Codec

inductive RpcProvider where
  | noOp
  | chain (service : Service)

/-- A failed lookup is logged and counts as an unknown root. -/
def RpcProvider.getBlockByRoot (fault : Fault) (root : Bytes32) :
    RpcProvider → Option SignedBlockWithAttestation
  | .noOp => none
  | .chain service => ((service.store.loadBlock fault root).toOption).join

def buildResponse (request : BlocksByRootRequest) (fault : Fault) (provider : RpcProvider) :
    BlocksByRootResponse :=
  let blocks := request.roots.filterMap fun root => provider.getBlockByRoot fault root
  ((BlocksByRootResponse.new blocks).toOption).getD default

theorem buildResponse_blocks {roots : List Bytes32} {request : BlocksByRootRequest}
    (h : BlocksByRootRequest.new roots = .ok request) (fault : Fault) (provider : RpcProvider) :
    BlocksByRootResponse.new (roots.filterMap fun root => provider.getBlockByRoot fault root) =
      .ok (buildResponse request fault provider) := by
  -- No more blocks are found than were asked for, so the cap never replaces the response.
  simp only [BlocksByRootRequest.new,enforceListCap,except_bind_ok,guard_ok,Nat.not_lt,
    Except.ok.injEq] at h
  obtain ⟨_,⟨hcap,rfl⟩,rfl⟩ := h
  have hfits := BlocksByRootResponse.new_ok.mpr
    ⟨(List.length_filterMap_le (fun root => provider.getBlockByRoot fault root) roots).trans hcap,
      rfl⟩
  rw [hfits,buildResponse,hfits]
  rfl

theorem length_encode_bounds {block : SignedBlockWithAttestation} (h : block.WithinLimits) :
    (encode block).length ≤ maxRpcStreamBytes ∧ (encode block).length ≠ 1 := by
  have hlimits : maxAttestations = 4096 := by decide
  have hattestations : block.message.block.body.attestations.length ≤ maxAttestations := h.1
  have hsignatures : block.signature.length ≤ maxAttestations := h.2
  have hmax : maxRpcStreamBytes = 16777216 := by decide
  rw [SignedBlockWithAttestation.length_encode]
  omega

theorem readToEnd_ok {io buf : List UInt8} :
    readToEnd io = .ok buf ↔ io.length ≤ maxRpcStreamBytes ∧ io = buf := by
  simp only [readToEnd,refuse_guard_ok,List.length_take,Except.ok.injEq]
  constructor
  · rintro ⟨hshort,rfl⟩
    have hle : io.length ≤ maxRpcStreamBytes := by omega
    exact ⟨hle,(List.take_of_length_le (hle.trans (Nat.le_succ _))).symm⟩
  · rintro ⟨hle,rfl⟩
    exact ⟨by omega,List.take_of_length_le (hle.trans (Nat.le_succ _))⟩

section Response
variable [Snappy]

theorem decodeFrames_end {α : Type} [Decode α] {stream rest : List UInt8}
    (h : readReqRespFrame (some maxRpcStreamBytes) stream = .ok none rest) :
    decodeFrames α stream = .ok [] := by
  rw [decodeFrames]
  split <;> simp_all

theorem decodeFrames_next {α : Type} [Decode α] {stream sszBytes rest : List UInt8} {frame : α}
    {frames : List α}
    (h : readReqRespFrame (some maxRpcStreamBytes) stream = .ok (some sszBytes) rest)
    (hframe : fromSszBytes sszBytes = .ok frame) (hrest : decodeFrames α rest = .ok frames) :
    decodeFrames α stream = .ok (frame :: frames) := by
  rw [decodeFrames]
  split
  · simp_all
  · simp_all
  · next heq =>
    rw [h] at heq
    cases heq
    rw [hframe,hrest]
    rfl

theorem decodeFrames_readsBack {α : Type} [Encode α] [Decode α] {values : List α}
    (hvalues : ∀ value ∈ values, fromSszBytes (encode value) = .ok value) {stream : List UInt8}
    (h : ReadsBack maxRpcStreamBytes (values.map encode) stream) :
    decodeFrames α stream = .ok values := by
  induction values generalizing stream with
  | nil => exact decodeFrames_end h
  | cons value values ih =>
    obtain ⟨rest,hread,-,hback⟩ := h
    obtain ⟨hvalue,hrest⟩ := List.forall_mem_cons.mp hvalues
    exact decodeFrames_next hread hvalue (ih hrest hback)

theorem writeResponse_blocks (encoder : FrameEncoder) {blocks : List SignedBlockWithAttestation}
    {response : BlocksByRootResponse} (hnew : BlocksByRootResponse.new blocks = .ok response)
    (heach : ∀ block ∈ blocks, block.WithinLimits) :
    ∃ wire, writeResponse blocksByRootProtocolV1 (.blocksByRoot response) = .ok wire ∧
      wire.length = (blocks.map fun block => frameSize (encode block)).sum ∧
      decodeBlocksByRootResponse wire = .ok response := by
  obtain ⟨-,rfl⟩ := BlocksByRootResponse.new_ok.mp hnew
  have hbounds : ∀ ssz ∈ blocks.map encode, ssz.length ≤ maxRpcStreamBytes ∧ ssz.length ≠ 1 := by
    simpa using fun block hblock => length_encode_bounds (heach block hblock)
  obtain ⟨wire,hsize,hwrites,hback⟩ := frames_cases encoder (show maxRpcStreamBytes ≤ 2^24 by decide)
    fun ssz hssz => (hbounds ssz hssz).1
  have hdecode : decodeFrames SignedBlockWithAttestation wire = .ok blocks :=
    decodeFrames_readsBack (fun block hblock =>
      (lawful_signedBlock.accepts _ block).mpr ⟨heach block hblock,rfl⟩)
      (hback.mpr fun ssz hssz => (hbounds ssz hssz).2)
  have hwritten := hwrites []
  rw [writeFrames,List.foldlM_map,List.nil_append] at hwritten
  rw [List.map_map] at hsize
  refine ⟨wire,?_,hsize,except_bind_ok.mpr ⟨blocks,hdecode,mapError_ok.mpr hnew⟩⟩
  rw [writeResponse,if_pos rfl,encodeBlocksByRootResponse,hwritten]
  rfl

/-- The sender always writes, and the receiver reads it back if the frames of all the blocks
together keep to its limit. -/
theorem blocks_response_fits (encoder : FrameEncoder) {blocks : List SignedBlockWithAttestation}
    {response : BlocksByRootResponse} (hnew : BlocksByRootResponse.new blocks = .ok response)
    (heach : ∀ block ∈ blocks, block.WithinLimits) :
    ∃ wire, writeResponse blocksByRootProtocolV1 (.blocksByRoot response) = .ok wire ∧
      (readResponse blocksByRootProtocolV1 wire = .ok (.blocksByRoot response) ↔
        (blocks.map fun block => frameSize (encode block)).sum ≤ maxRpcStreamBytes) := by
  obtain ⟨wire,hwrite,hsize,hresponse⟩ := writeResponse_blocks encoder hnew heach
  have hother : blocksByRootProtocolV1 ≠ statusProtocolV1 := by decide
  refine ⟨wire,hwrite,?_⟩
  simp only [readResponse,except_bind_ok,readToEnd_ok,if_neg hother,if_true,← hsize]
  constructor
  · rintro ⟨buf,⟨hle,-⟩,-⟩
    exact hle
  · intro hle
    refine ⟨wire,⟨hle,rfl⟩,?_⟩
    rw [hresponse]
    rfl

end Response

section Stored
attribute [local instance] stored

theorem frameSize_block (block : SignedBlockWithAttestation) :
    frameSize (encode block) = Nat.log 128 (encode block).length+11+
      ((encode block).length+65535)/65536*8+(encode block).length := by
  refine frameSize_stored (List.length_pos_iff.mp ?_)
  rw [SignedBlockWithAttestation.length_encode]
  omega

theorem blocks_response_voting :
    ∃ response wire, BlocksByRootResponse.new ((List.range 3).map fun k => votingBlock (.ofNat k)) =
        .ok response ∧
      writeResponse blocksByRootProtocolV1 (.blocksByRoot response) = .ok wire ∧
      readResponse blocksByRootProtocolV1 wire = .ok (.blocksByRoot response) := by
  have heach : ∀ block ∈ (List.range 3).map fun k => votingBlock (.ofNat k),
      block.WithinLimits := by
    simpa using fun k _ => votingBlock_within (.ofNat k)
  have hnew : BlocksByRootResponse.new ((List.range 3).map fun k => votingBlock (.ofNat k)) =
      .ok ⟨(List.range 3).map fun k => votingBlock (.ofNat k)⟩ := rfl
  have hlen (slot : Slot) : (encode (votingBlock slot)).length = 9856 := by
    rw [SignedBlockWithAttestation.length_encode]
    simp [votingBlock]
  obtain ⟨wire,hwrite,hread⟩ := blocks_response_fits stored_encoder hnew heach
  refine ⟨_,wire,hnew,hwrite,hread.mpr ?_⟩
  simp only [List.map_map,Function.comp_def,frameSize_block,hlen]
  decide +kernel

/-- The digits of a running number to the base 128, the lowest first and marked. -/
def noise (p : Nat) : UInt8 :=
  UInt8.ofNat ((if p%4 = 0 then 128 else 0)+p/4/128^(p%4)%128)

theorem noise_toNat (p : Nat) :
    (noise p).toNat = (if p%4 = 0 then 128 else 0)+p/4/128^(p%4)%128 := by
  rw [noise,UInt8.toNat_ofNat']
  split <;> omega

theorem noise_marked (p : Nat) : 128 ≤ (noise p).toNat ↔ p%4 = 0 := by
  rw [noise_toNat]
  split <;> omega

theorem noise_low {p : Nat} (h : p%4 = 0) : (noise p).toNat = 128+p/4%128 := by
  rw [noise_toNat,if_pos h,h,pow_zero,Nat.div_one]

theorem noise_next {p : Nat} (h : p%4 = 1) : (noise p).toNat = p/512%128 := by
  rw [noise_toNat,if_neg (by omega),h,pow_one,Nat.div_div_eq_div_mul,Nat.zero_add]

/-- Four bytes in a row give away where they are in 64 KiB, so nothing in a chunk is repeated. -/
theorem noise_unrepeated {p q : Nat} (h : ∀ i < 4, noise (p+i) = noise (q+i)) :
    p%65536 = q%65536 := by
  have hmark : ∀ i < 4, (p+i)%4 = 0 ↔ (q+i)%4 = 0 := by
    intro i hi
    rw [← noise_marked,← noise_marked,h i hi]
  have hlow : ∀ i < 4, (p+i)%4 = 0 → (p+i)/4%128 = (q+i)/4%128 := by
    intro i hi hp
    have hbyte := congrArg UInt8.toNat (h i hi)
    rw [noise_low hp,noise_low ((hmark i hi).mp hp)] at hbyte
    omega
  have hres : p%4 = q%4 := by
    have h0 := hmark 0 (by omega)
    have h1 := hmark 1 (by omega)
    have h2 := hmark 2 (by omega)
    omega
  have hnext : ∀ i < 4, (p+i)%4 = 1 → (p+i)/512%128 = (q+i)/512%128 := by
    intro i hi hp
    have hbyte := congrArg UInt8.toNat (h i hi)
    rwa [noise_next hp,noise_next (by omega)] at hbyte
  -- The window has the low digits of one number and the next ones of it or of the one before.
  have hcases : p%4 = 0 ∨ p%4 = 1 ∨ p%4 = 2 ∨ p%4 = 3 := by omega
  rcases hcases with hp | hp | hp | hp
  · have hl := hlow 0 (by omega) (by omega)
    have hn := hnext 1 (by omega) (by omega)
    omega
  · have hl := hlow 3 (by omega) (by omega)
    have hn := hnext 0 (by omega) (by omega)
    omega
  · have hl := hlow 2 (by omega) (by omega)
    have hn := hnext 3 (by omega) (by omega)
    omega
  · have hl := hlow 1 (by omega) (by omega)
    have hn := hnext 2 (by omega) (by omega)
    omega

theorem length_noise (i : Nat) : ((List.range 3116).map fun j => noise (3116*i+j)).length = 3116 := by
  rw [List.length_map,List.length_range]

def noisyBlock (slot : Slot) : SignedBlockWithAttestation :=
  ⟨⟨⟨slot,default,.filled 1,.filled 2,default⟩,default⟩,
    (List.range maxAttestations).map fun i => ⟨_,length_noise i⟩⟩

theorem noisyBlock_within (slot : Slot) : (noisyBlock slot).WithinLimits :=
  ⟨Nat.zero_le _,by simp [noisyBlock,BlockSignatures.WithinLimits]⟩

theorem length_encode_noisyBlock (slot : Slot) : (encode (noisyBlock slot)).length = 12763372 := by
  have hattestations : (noisyBlock slot).message.block.body.attestations.length = 0 := rfl
  have hsignatures : (noisyBlock slot).signature.length = 4096 := by
    rw [noisyBlock,List.length_map,List.length_range]
    rfl
  rw [SignedBlockWithAttestation.length_encode,hattestations,hsignatures]

theorem readResponse_long {wire : List UInt8} (h : maxRpcStreamBytes < wire.length) :
    readResponse blocksByRootProtocolV1 wire = refuse (.streamExceeded maxRpcStreamBytes) := by
  have hread : maxRpcStreamBytes < (wire.take (maxRpcStreamBytes+1)).length := by
    rw [List.length_take]
    exact Nat.lt_min.mpr ⟨Nat.lt_succ_self _,h⟩
  rw [readResponse,readToEnd,if_pos hread]
  rfl

/-- Two blocks with all the signatures they may carry, and nothing in them to compress. -/
theorem heavy_response_refused :
    (∀ p q, (∀ i < 4, noise (p+i) = noise (q+i)) → p%65536 = q%65536) ∧
    ∃ response wire, BlocksByRootResponse.new [noisyBlock (.ofNat 1),noisyBlock (.ofNat 2)] =
        .ok response ∧ response.WithinLimits ∧
      writeResponse blocksByRootProtocolV1 (.blocksByRoot response) = .ok wire ∧
      wire.length = 25529892 ∧
      readResponse blocksByRootProtocolV1 wire = refuse (.streamExceeded maxRpcStreamBytes) := by
  have heach : ∀ block ∈ [noisyBlock (.ofNat 1),noisyBlock (.ofNat 2)], block.WithinLimits := by
    simpa using ⟨noisyBlock_within (.ofNat 1),noisyBlock_within (.ofNat 2)⟩
  have hnew : BlocksByRootResponse.new [noisyBlock (.ofNat 1),noisyBlock (.ofNat 2)] =
      .ok ⟨[noisyBlock (.ofNat 1),noisyBlock (.ofNat 2)]⟩ :=
    BlocksByRootResponse.new_ok.mpr ⟨show 2 ≤ maxRequestBlocks by decide,rfl⟩
  obtain ⟨wire,hwrite,hsize,-⟩ := writeResponse_blocks stored_encoder hnew heach
  have hlog : Nat.log 128 12763372 = 3 := by decide +kernel
  simp only [List.map_cons,List.map_nil,List.sum_cons,List.sum_nil,frameSize_block,
    length_encode_noisyBlock,hlog] at hsize
  refine ⟨fun p q => noise_unrepeated,_,wire,hnew,⟨(BlocksByRootResponse.new_ok.mp hnew).1,heach⟩,
    hwrite,hsize,readResponse_long ?_⟩
  rw [hsize]
  decide

end Stored

end Devnet.P2p
