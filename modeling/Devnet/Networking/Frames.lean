import Devnet.Lib.RawBlocks
import Devnet.Lib.Streams
import Devnet.Networking.Messages

/-!
Length-prefixed frames on a request/response stream. The writer puts the length in front of
what the snappy frame encoder emits; the reader walks the chunks itself, so that it stops where
the frame does. The encoder, the raw decoder and the checksum are parameters.
-/

set_option autoImplicit false

namespace Devnet.Networking
open Machine Wire Devnet.Types

def snappyStreamIdentifier : UInt8 := 0xff
def snappyChunkCompressed : UInt8 := 0x00
def snappyChunkUncompressed : UInt8 := 0x01

def snappyStreamMagic : List UInt8 := [115,78,97,80,112,89]

def snappyChecksumLen : Nat := 4
def snappyChunkHeaderLen : Nat := 4
def uvarintMaxLen : Nat := 10
def maxSnappyChunkIterations : Nat := 4096

/-- What the crates for snappy and CRC-32C provide. -/
class Snappy where
  /-- All that `snap::write::FrameEncoder` emits for one payload. -/
  frame : List UInt8 → List UInt8
  /-- `snap::raw::decompress_len`, the length a block declares. -/
  decompressLen : List UInt8 → Option Nat
  /-- `snap::raw::Decoder::decompress` into a buffer: the bytes written, and the buffer then. -/
  decompress : List UInt8 → List UInt8 → Option Nat × List UInt8
  /-- `snap::raw::Decoder::decompress_vec`. -/
  decompressVec : List UInt8 → Option (List UInt8)
  crc32c : List UInt8 → UInt32

/-- The loop of `write_uvarint`, with as much of its buffer left as `room` says. -/
def uvarintLoop : Nat → Nat → Outcome NetworkingError (List UInt8)
  | 0, _ => panicked
  | room+1, value =>
    if 0x80 ≤ value then do
      let rest ← uvarintLoop room (value >>> 7)
      .ok ((UInt8.ofNat value ||| 0x80) :: rest)
    else .ok [UInt8.ofNat value]

def writeUvarint (w : List UInt8) (value : Nat) : Outcome NetworkingError (List UInt8) := do
  let buf ← uvarintLoop uvarintMaxLen value
  .ok (w ++ buf)

/-- The byte at position `uvarintMaxLen - rounds` of the prefix, and those behind it. -/
def readUvarintLoop : Nat → Nat → Nat → Reader NetworkingError (Option Nat)
  | 0, _, _ => throw .uvarintOverflow
  | rounds+1, acc, shift => do
    match ← readByte with
    | none => if rounds+1 = uvarintMaxLen then pure none else throw (.io .unexpectedEof)
    | some byte =>
      if byte < 0x80 then
        if rounds = 0 ∧ 1 < byte then throw .uvarintOverflow
        else pure (some (acc ||| (byte.toNat <<< shift % 2^64)))
      else readUvarintLoop rounds (acc ||| ((byte &&& 0x7f).toNat <<< shift % 2^64)) (shift+7)

def readUvarintOrEof : Reader NetworkingError (Option Nat) := readUvarintLoop uvarintMaxLen 0 0

def readSnappyChunk (maxPayloadLen : Nat) : Reader NetworkingError (UInt8 × List UInt8) := do
  let header ← readExact (.io .unexpectedEof) snappyChunkHeaderLen
  let chunkType := header.headD 0
  let len := ofLeBytes header.tail
  if maxPayloadLen < len then
    throw (.malformedFrame "snappy chunk payload length exceeds caller budget")
  else do
    let payload ← readExact (.io .unexpectedEof) len
    pure (chunkType,payload)

section Chunks
variable [Snappy]

/-- The checksum of the framing format: rotated by 15 and masked. -/
def snappyMaskedCrc (bytes : List UInt8) : UInt32 :=
  let crc := Snappy.crc32c bytes
  (crc >>> 15 ||| crc <<< 17)+0xa282ead8

def splitChecksum (payload : List UInt8) : Except NetworkingError (UInt32 × List UInt8) :=
  if payload.length < snappyChecksumLen then .error (.malformedFrame "snappy chunk missing checksum")
  else .ok (UInt32.ofNat (ofLeBytes (payload.take snappyChecksumLen)),
    payload.drop snappyChecksumLen)

def decompress (body : List UInt8) : Except NetworkingError (List UInt8) :=
  match Snappy.decompressVec body with
  | some decoded => .ok decoded
  | none => .error .snappy

def checkCrc (data : List UInt8) (checksum : UInt32) : Except NetworkingError (List UInt8) :=
  if snappyMaskedCrc data ≠ checksum then .error (.malformedFrame "snappy chunk crc mismatch")
  else .ok data

def decodeCompressedChunk (payload : List UInt8) : Except NetworkingError (List UInt8) := do
  let (checksum,body) ← splitChecksum payload
  let decoded ← decompress body
  checkCrc decoded checksum

def decodeUncompressedChunk (payload : List UInt8) : Except NetworkingError (List UInt8) := do
  let (checksum,data) ← splitChecksum payload
  checkCrc data checksum

/-- What is done with one chunk, and `next` with what is then left of the frame. -/
def takeChunk (next : Nat → Bool → List UInt8 → Reader NetworkingError (List UInt8))
    (remaining : Nat) (seenIdentifier : Bool) (decoded : List UInt8) (chunkType : UInt8)
    (payload : List UInt8) : Reader NetworkingError (List UInt8) :=
  if chunkType = snappyStreamIdentifier then
    if seenIdentifier then throw (.malformedFrame "duplicate snappy stream identifier")
    else if payload ≠ snappyStreamMagic then
      throw (.malformedFrame "invalid snappy stream identifier")
    else next remaining true decoded
  else if chunkType = snappyChunkCompressed ∨ chunkType = snappyChunkUncompressed then
    if seenIdentifier = false then
      throw (.malformedFrame "snappy data chunk before stream identifier")
    else do
      let data ← check (if chunkType = snappyChunkCompressed then decodeCompressedChunk payload
        else decodeUncompressedChunk payload)
      if remaining < data.length then
        throw (.malformedFrame "snappy chunk decoded length exceeds remaining")
      else next (remaining - data.length) seenIdentifier (decoded ++ data)
  else if 0x02 ≤ chunkType ∧ chunkType ≤ 0x7f then
    throw (.malformedFrame "unsupported snappy chunk type")
  else next remaining seenIdentifier decoded

/-- `saturating_add`, on 64 bits. -/
def readBudget (remaining : Nat) : Nat := min (remaining+snappyChecksumLen) (2^64-1)

/-- The loop over the chunks of one frame. -/
def readSnappyLoop : Nat → Nat → Bool → List UInt8 → Reader NetworkingError (List UInt8)
  | 0, remaining, _, decoded =>
    if remaining = 0 then pure decoded
    else throw (.malformedFrame "snappy chunk iteration cap exceeded")
  | iterations+1, remaining, seenIdentifier, decoded =>
    if remaining = 0 then pure decoded
    else do
      let chunk ← readSnappyChunk (readBudget remaining)
      takeChunk (readSnappyLoop iterations) remaining seenIdentifier decoded chunk.1 chunk.2

def readSnappyFrameExact (length : Nat) : Reader NetworkingError (List UInt8) :=
  if length = 0 then pure [] else readSnappyLoop maxSnappyChunkIterations length false []

def writeReqRespFrame (w ssz : List UInt8) : Outcome NetworkingError (List UInt8) := do
  let w ← writeUvarint w ssz.length
  .ok (w ++ Snappy.frame ssz)

def readReqRespFrame (maxUncompressed : Option Nat) :
    Reader NetworkingError (Option (List UInt8)) := do
  match ← readUvarintOrEof with
  | none => pure none
  | some length =>
    if maxUncompressed.any (· < length) then
      throw (.frameTooLarge length (maxUncompressed.getD 0))
    else some <$> readSnappyFrameExact length

end Chunks

section Progress

theorem readUvarintLoop_shrinks {rounds acc shift value : Nat} {bytes rest : List UInt8}
    (h : readUvarintLoop rounds acc shift bytes = .ok (some value) rest) :
    rest.length < bytes.length := by
  induction rounds generalizing acc shift bytes with
  | zero => cases h
  | succ rounds ih =>
    cases bytes with
    | nil =>
      rw [readUvarintLoop,estate_bind_of_ok (rfl : readByte [] = .ok none [])] at h
      by_cases hfirst : rounds+1 = uvarintMaxLen
      · simp only [hfirst,if_true] at h
        cases h
      · simp only [hfirst,if_false] at h
        cases h
    | cons byte bytes =>
      rw [readUvarintLoop,estate_bind_of_ok (readByte_cons byte bytes)] at h
      simp only at h
      split at h
      · split at h
        · cases h
        · cases h
          simp
      · exact (ih h).trans (by simp)

variable [Snappy]

theorem shrinks_snappyLoop (iterations remaining : Nat) (seenIdentifier : Bool)
    (decoded : List UInt8) :
    Shrinks (readSnappyLoop iterations remaining seenIdentifier decoded) := by
  induction iterations generalizing remaining seenIdentifier decoded with
  | zero => exact Shrinks.ite (Shrinks.pure _) (Shrinks.throw _)
  | succ iterations ih =>
    refine Shrinks.ite (Shrinks.pure _) (Shrinks.bind ?_ fun chunk => ?_)
    · refine Shrinks.bind (shrinks_exact _ _) fun header => Shrinks.ite (Shrinks.throw _) ?_
      exact Shrinks.bind (shrinks_exact _ _) fun payload => Shrinks.pure _
    · refine Shrinks.ite (Shrinks.ite (Shrinks.throw _) (Shrinks.ite (Shrinks.throw _) (ih _ _ _)))
        (Shrinks.ite (Shrinks.ite (Shrinks.throw _) ?_)
          (Shrinks.ite (Shrinks.throw _) (ih _ _ _)))
      exact Shrinks.bind (Shrinks.check _) fun data => Shrinks.ite (Shrinks.throw _) (ih _ _ _)

theorem readReqRespFrame_shrinks {cap : Option Nat} {bytes ssz rest : List UInt8}
    (h : readReqRespFrame cap bytes = .ok (some ssz) rest) : rest.length < bytes.length := by
  -- Every frame takes something off the stream, so that a loop over frames ends.
  obtain ⟨length,mid,hlength,hframe⟩ := estate_bind_ok.mp h
  cases length with
  | none => cases hframe
  | some length =>
    have hmid := readUvarintLoop_shrinks hlength
    simp only at hframe
    split at hframe
    · cases hframe
    · obtain ⟨frame,after,hread,hpure⟩ := estate_bind_ok.mp hframe
      obtain ⟨-,rfl⟩ := estate_pure_ok.mp hpure
      have hexact : Shrinks (readSnappyFrameExact length) :=
        Shrinks.ite (Shrinks.pure _) (shrinks_snappyLoop _ _ _ _)
      exact (hexact _ _ _ hread).trans_lt hmid

end Progress

section Uvarint

theorem toNat_high (byte : UInt8) : (byte ||| 0x80).toNat = byte.toNat%128+128 := by
  have hall : ∀ n < 256, n ||| 128 = n%128+128 := by decide +kernel
  rw [UInt8.toNat_or]
  exact hall byte.toNat byte.toNat_lt

theorem toNat_low (byte : UInt8) : (byte &&& 0x7f).toNat = byte.toNat%128 := by
  have hall : ∀ n < 256, n &&& 127 = n%128 := by decide +kernel
  rw [UInt8.toNat_and]
  exact hall byte.toNat byte.toNat_lt

theorem or_shiftLeft {acc bits shift : Nat} (hacc : acc < 2^shift) (hbits : bits*2^shift < 2^64) :
    acc ||| (bits <<< shift % 2^64) = acc+bits*2^shift := by
  rw [Nat.shiftLeft_eq,Nat.mod_eq_of_lt hbits,Nat.mul_comm bits,Nat.or_comm,
    ← Nat.two_pow_add_eq_or_of_lt hacc,Nat.add_comm]

theorem reads_lastByte {rounds acc shift value : Nat} (hlow : value < 128)
    (hlast : rounds = 0 → value ≤ 1) (hacc : acc < 2^shift) (hvalue : value*2^shift < 2^64) :
    Reads (readUvarintLoop (rounds+1) acc shift) [UInt8.ofNat value]
      (some (acc+value*2^shift)) := by
  have hbyte : (UInt8.ofNat value).toNat = value := by
    rw [UInt8.toNat_ofNat']
    omega
  have hshort : UInt8.ofNat value < 0x80 := by
    rw [UInt8.lt_iff_toNat_lt,hbyte]
    exact hlow
  have hfits : ¬(rounds = 0 ∧ 1 < UInt8.ofNat value) := by
    rintro ⟨hzero,hbig⟩
    rw [UInt8.lt_iff_toNat_lt,hbyte] at hbig
    exact absurd hbig (Nat.not_lt.mpr (hlast hzero))
  intro rest
  rw [List.singleton_append,readUvarintLoop,estate_bind_of_ok (readByte_cons _ rest)]
  simp only [hshort,hfits,if_true,if_false,hbyte,or_shiftLeft hacc hvalue]
  rfl

theorem reads_highByte {rounds acc shift value : Nat} (hacc : acc < 2^shift)
    (hvalue : (value%128)*2^shift < 2^64) (rest : List UInt8) :
    readUvarintLoop (rounds+1) acc shift ((UInt8.ofNat value ||| 0x80) :: rest) =
      readUvarintLoop rounds (acc+(value%128)*2^shift) (shift+7) rest := by
  have hbyte : (UInt8.ofNat value ||| 0x80).toNat = value%128+128 := by
    rw [toNat_high,UInt8.toNat_ofNat']
    omega
  have hlong : ¬(UInt8.ofNat value ||| 0x80) < 0x80 := by
    rw [UInt8.lt_iff_toNat_lt,hbyte]
    change ¬value%128+128 < 128
    omega
  have hlow : ((UInt8.ofNat value ||| 0x80) &&& 0x7f).toNat = value%128 := by
    rw [toNat_low,hbyte]
    omega
  rw [readUvarintLoop,estate_bind_of_ok (readByte_cons _ rest)]
  simp only [hlong,if_false,hlow,or_shiftLeft hacc hvalue]

theorem reads_uvarintLoop {rounds acc shift value : Nat} (hshift : shift+7*rounds = 63)
    (hacc : acc < 2^shift) (hvalue : value*2^shift < 2^64) :
    ∃ bytes, uvarintLoop (rounds+1) value = .ok bytes ∧
      Reads (readUvarintLoop (rounds+1) acc shift) bytes (some (acc+value*2^shift)) := by
  induction rounds generalizing acc shift value with
  | zero =>
    obtain rfl : shift = 63 := by omega
    have hsmall : value ≤ 1 := by omega
    have hlow : ¬0x80 ≤ value := by omega
    exact ⟨_,by rw [uvarintLoop,if_neg hlow],
      reads_lastByte (by omega) (fun _ => hsmall) hacc hvalue⟩
  | succ rounds ih =>
    by_cases hlow : 0x80 ≤ value
    · have hpow : 2^(shift+7) = 2^shift*128 := pow_add 2 shift 7
      have hmod : (value%128)*2^shift < 2^64 :=
        (Nat.mul_le_mul_right _ (Nat.mod_le value 128)).trans_lt hvalue
      have hsplit : acc+(value%128)*2^shift+value/128*2^(shift+7) = acc+value*2^shift := by
        conv_rhs => rw [← Nat.div_add_mod value 128]
        rw [hpow]
        ring
      have hnext : acc+(value%128)*2^shift < 2^(shift+7) := by
        have hlt : value%128+1 ≤ 128 := Nat.mod_lt value (by decide)
        have hmul := Nat.mul_le_mul_right (2^shift) hlt
        rw [hpow]
        linarith
      obtain ⟨bytes,hbytes,hreads⟩ := @ih (acc+(value%128)*2^shift) (shift+7) (value/128)
        (by omega) hnext (by omega)
      refine ⟨(UInt8.ofNat value ||| 0x80) :: bytes,?_,?_⟩
      · rw [uvarintLoop,if_pos hlow,Nat.shiftRight_eq_div_pow,hbytes]
        rfl
      · intro rest
        rw [List.cons_append,reads_highByte hacc hmod,hreads rest,hsplit]
    · exact ⟨_,by rw [uvarintLoop,if_neg hlow],
        reads_lastByte (by omega) (by omega) hacc hvalue⟩

theorem length_uvarintLoop {room value : Nat} {bytes : List UInt8}
    (h : uvarintLoop room value = .ok bytes) : bytes.length = Nat.log 128 value+1 := by
  induction room generalizing value bytes with
  | zero => cases h
  | succ room ih =>
    rw [uvarintLoop] at h
    split at h
    · next hlow =>
      obtain ⟨rest,hrest,hbytes⟩ := except_bind_ok.mp h
      cases hbytes
      rw [List.length_cons,ih hrest,Nat.log_of_one_lt_of_le (by decide) hlow,
        Nat.shiftRight_eq_div_pow]
    · next hlow =>
      cases h
      rw [Nat.log_of_lt (Nat.not_le.mp hlow),List.length_singleton]

theorem reads_uvarint {value : Nat} (h : value < 2^64) :
    ∃ bytes, uvarintLoop uvarintMaxLen value = .ok bytes ∧
      Reads readUvarintOrEof bytes (some value) := by
  have hloop := @reads_uvarintLoop 9 0 0 value (by decide) (by decide) (by simpa using h)
  simpa [readUvarintOrEof,uvarintMaxLen] using hloop

end Uvarint

section Framing

def chunkBytes (kind : UInt8) (payload : List UInt8) : List UInt8 :=
  (kind :: leBytes 3 payload.length) ++ payload

theorem readHeader (kind : UInt8) {payload : List UInt8} (h : payload.length < 2^24) :
    ofLeBytes (kind :: leBytes 3 payload.length).tail = payload.length := ofLeBytes_leBytes h

theorem reads_chunk {budget : Nat} (kind : UInt8) {payload : List UInt8}
    (h : payload.length < 2^24) (hbudget : payload.length ≤ budget) :
    Reads (readSnappyChunk budget) (chunkBytes kind payload) (kind,payload) := by
  refine Reads.bind (reads_exact rfl) ?_
  simp only [readHeader kind h,if_neg (Nat.not_lt.mpr hbudget)]
  have hpayload := Reads.bind (f := fun part => pure (kind,part))
    (reads_exact rfl : Reads (readExact (NetworkingError.io .unexpectedEof) payload.length)
      payload payload) (Reads.pure (kind,payload))
  rwa [List.append_nil] at hpayload

theorem refuses_chunk {budget : Nat} (kind : UInt8) {payload : List UInt8}
    (h : payload.length < 2^24) (hbudget : budget < payload.length) (rest : List UInt8) :
    ∃ left, readSnappyChunk budget (chunkBytes kind payload ++ rest) =
      .error (.malformedFrame "snappy chunk payload length exceeds caller budget") left := by
  have hheader : Reads (readExact (.io .unexpectedEof) snappyChunkHeaderLen :
      Reader NetworkingError (List UInt8)) (kind :: leBytes 3 payload.length)
      (kind :: leBytes 3 payload.length) := reads_exact rfl
  rw [chunkBytes,List.append_assoc,readSnappyChunk,estate_bind_of_ok (hheader _)]
  simp only [readHeader kind h,if_pos hbudget]
  exact ⟨_,rfl⟩

variable [Snappy]

/-- A chunk of the encoder, with the data it stands for. -/
structure DataChunk where
  compressed : Bool
  body : List UInt8
  data : List UInt8

def DataChunk.bytes (c : DataChunk) : List UInt8 :=
  chunkBytes (if c.compressed then snappyChunkCompressed else snappyChunkUncompressed)
    (leBytes 4 (snappyMaskedCrc c.data).toNat ++ c.body)

structure DataChunk.Valid (c : DataChunk) : Prop where
  nonempty : c.data ≠ []
  small : c.data.length ≤ 65536
  shrinks : c.body.length ≤ c.data.length
  decodes : if c.compressed then Snappy.decompressVec c.body = some c.data else c.body = c.data

/-- What the frame encoder promises: nothing for nothing; else the stream identifier and
chunks of 64 KiB, the last of them shorter, each no longer than the data it stands for. -/
structure FrameEncoder : Prop where
  empty : Snappy.frame [] = []
  emits : ∀ ssz : List UInt8, ssz ≠ [] → ∃ chunks : List DataChunk,
    Snappy.frame ssz = chunkBytes snappyStreamIdentifier snappyStreamMagic ++
        (chunks.map DataChunk.bytes).flatten ∧
      (chunks.map DataChunk.data).flatten = ssz ∧ (∀ c ∈ chunks, c.Valid) ∧
      chunks.length ≤ (ssz.length+65535)/65536

omit [Snappy] in
theorem splitChecksum_append (crc : UInt32) (body : List UInt8) :
    splitChecksum (leBytes 4 crc.toNat ++ body) = .ok (crc,body) := by
  have hlen : (leBytes 4 crc.toNat).length = snappyChecksumLen := length_leBytes 4 _
  have hlong : ¬(leBytes 4 crc.toNat ++ body).length < snappyChecksumLen := by
    rw [List.length_append,hlen]
    omega
  have hcrc : ofLeBytes (leBytes 4 crc.toNat) = crc.toNat := by
    have hlt := crc.toNat_lt
    exact ofLeBytes_leBytes (by omega)
  rw [splitChecksum,if_neg hlong,List.take_left' hlen,List.drop_left' hlen,hcrc,
    UInt32.ofNat_toNat]

theorem checkCrc_masked (data : List UInt8) : checkCrc data (snappyMaskedCrc data) = .ok data :=
  if_neg (not_not.mpr rfl)

theorem decode_compressed {body data : List UInt8} (h : Snappy.decompressVec body = some data) :
    decodeCompressedChunk (leBytes 4 (snappyMaskedCrc data).toNat ++ body) = .ok data := by
  have hbody : decompress body = .ok data := by rw [decompress,h]
  exact except_bind_ok.mpr ⟨_,splitChecksum_append _ _,
    except_bind_ok.mpr ⟨_,hbody,checkCrc_masked data⟩⟩

theorem decode_uncompressed (data : List UInt8) :
    decodeUncompressedChunk (leBytes 4 (snappyMaskedCrc data).toNat ++ data) = .ok data :=
  except_bind_ok.mpr ⟨_,splitChecksum_append _ _,checkCrc_masked data⟩

theorem decode_chunk {c : DataChunk} (h : c.Valid) :
    (if (if c.compressed then snappyChunkCompressed else snappyChunkUncompressed) =
        snappyChunkCompressed then
      decodeCompressedChunk (leBytes 4 (snappyMaskedCrc c.data).toNat ++ c.body)
    else decodeUncompressedChunk (leBytes 4 (snappyMaskedCrc c.data).toNat ++ c.body)) =
      .ok c.data := by
  have hdecodes := h.decodes
  cases hkind : c.compressed with
  | true =>
    rw [hkind,if_pos rfl] at hdecodes
    rw [if_pos rfl,if_pos rfl,decode_compressed hdecodes]
  | false =>
    rw [hkind,if_neg (by decide)] at hdecodes
    rw [if_neg (by decide),hdecodes,decode_uncompressed]

omit [Snappy] in
theorem le_readBudget {remaining len : Nat} (h : len ≤ remaining+4) (hlen : len < 2^24) :
    len ≤ readBudget remaining := by
  unfold readBudget snappyChecksumLen
  omega

theorem takeChunk_data {next : Nat → Bool → List UInt8 → Reader NetworkingError (List UInt8)}
    {c : DataChunk} (h : c.Valid) {remaining : Nat} (hremaining : c.data.length ≤ remaining)
    (decoded : List UInt8) :
    takeChunk next remaining true decoded
        (if c.compressed then snappyChunkCompressed else snappyChunkUncompressed)
        (leBytes 4 (snappyMaskedCrc c.data).toNat ++ c.body) =
      next (remaining - c.data.length) true (decoded ++ c.data) := by
  have hdecode := decode_chunk h
  have hkind : (if c.compressed then snappyChunkCompressed else snappyChunkUncompressed) ≠
        snappyStreamIdentifier ∧
      ((if c.compressed then snappyChunkCompressed else snappyChunkUncompressed) =
          snappyChunkCompressed ∨
        (if c.compressed then snappyChunkCompressed else snappyChunkUncompressed) =
          snappyChunkUncompressed) := by
    cases c.compressed <;> decide
  funext s
  rw [takeChunk,if_neg hkind.1,if_pos hkind.2,if_neg (by decide),hdecode,check_bind_ok,
    if_neg (Nat.not_lt.mpr hremaining)]

/-- The chunks of a frame are taken one by one, and the loop ends with the last of them. -/
theorem reads_chunks {chunks : List DataChunk} (h : ∀ c ∈ chunks, c.Valid) {iterations : Nat}
    (hiterations : chunks.length ≤ iterations) (decoded : List UInt8) :
    Reads (readSnappyLoop iterations (chunks.map DataChunk.data).flatten.length true decoded)
      (chunks.map DataChunk.bytes).flatten (decoded ++ (chunks.map DataChunk.data).flatten) := by
  induction chunks generalizing iterations decoded with
  | nil =>
    have hdone : readSnappyLoop iterations 0 true decoded = pure decoded := by
      cases iterations <;> rw [readSnappyLoop,if_pos rfl]
    simpa [hdone] using Reads.pure decoded
  | cons c chunks ih =>
    obtain ⟨hc,hrest⟩ := List.forall_mem_cons.mp h
    cases iterations with
    | zero => simp at hiterations
    | succ iterations =>
      have hpos := List.length_pos_iff.mpr hc.nonempty
      have hsmall := hc.small
      have hshrinks := hc.shrinks
      have hpayload : (leBytes 4 (snappyMaskedCrc c.data).toNat ++ c.body).length =
          4+c.body.length := by simp
      rw [List.map_cons,List.map_cons,List.flatten_cons,List.flatten_cons,List.length_append,
        readSnappyLoop,if_neg (by omega)]
      refine Reads.bind (reads_chunk _ (by omega) (le_readBudget (by omega) (by omega))) ?_
      rw [takeChunk_data hc (by omega),Nat.add_sub_cancel_left,← List.append_assoc]
      exact ih hrest (by simpa using hiterations) (decoded ++ c.data)

/-- The identifier's payload is six bytes long, and only a frame of two bytes or more has
room for it in the first budget. -/
theorem reads_frame (encoder : FrameEncoder) {ssz : List UInt8} (hlen : ssz.length ≤ 2^24)
    (h : ssz.length ≠ 1) :
    Reads (readSnappyFrameExact ssz.length) (Snappy.frame ssz) ssz := by
  by_cases hnil : ssz = []
  · subst hnil
    rw [encoder.empty]
    exact Reads.pure []
  · obtain ⟨chunks,hframe,hdata,hvalid,hcount⟩ := encoder.emits ssz hnil
    have hpos := List.length_pos_iff.mpr hnil
    rw [hframe,readSnappyFrameExact,if_neg (by omega),maxSnappyChunkIterations,readSnappyLoop,
      if_neg (by omega)]
    have hmagic : snappyStreamMagic.length = 6 := rfl
    refine Reads.bind (reads_chunk _ (by omega) (le_readBudget (by omega) (by omega))) ?_
    have hchunks := reads_chunks hvalid (show chunks.length ≤ 4095 by omega) []
    rw [hdata] at hchunks
    exact hchunks

theorem refuses_frame (encoder : FrameEncoder) {ssz : List UInt8} (h : ssz.length = 1)
    (rest : List UInt8) : ∃ left, readSnappyFrameExact ssz.length (Snappy.frame ssz ++ rest) =
      .error (.malformedFrame "snappy chunk payload length exceeds caller budget") left := by
  obtain ⟨chunks,hframe,-⟩ := encoder.emits ssz (List.length_pos_iff.mp (by omega))
  have hmagic : snappyStreamMagic.length = 6 := rfl
  have hbudget : readBudget 1 = 5 := by decide
  obtain ⟨left,hleft⟩ := refuses_chunk snappyStreamIdentifier (show snappyStreamMagic.length < 2^24
    by omega) (show readBudget 1 < snappyStreamMagic.length by omega)
    ((chunks.map DataChunk.bytes).flatten ++ rest)
  refine ⟨left,?_⟩
  rw [hframe,h,List.append_assoc,readSnappyFrameExact,if_neg (by decide),maxSnappyChunkIterations,
    readSnappyLoop,if_neg (by decide)]
  exact estate_bind_error.mpr (.inl hleft)

def frameSize (ssz : List UInt8) : Nat := Nat.log 128 ssz.length+1+(Snappy.frame ssz).length

theorem frame_cases (encoder : FrameEncoder) {cap : Nat} (hcap : cap ≤ 2^24) {ssz : List UInt8}
    (hlen : ssz.length ≤ cap) : ∃ bytes : List UInt8, bytes.length = frameSize ssz ∧
      (∀ w, writeReqRespFrame w ssz = .ok (w ++ bytes)) ∧
      (ssz.length ≠ 1 → Reads (readReqRespFrame (some cap)) bytes (some ssz)) ∧
      (ssz.length = 1 → ∀ rest, ∃ left, readReqRespFrame (some cap) (bytes ++ rest) =
        .error (.malformedFrame "snappy chunk payload length exceeds caller budget") left) := by
  obtain ⟨header,hheader,hreads⟩ := @reads_uvarint ssz.length (by omega)
  have hadmitted : ((some cap).any fun c => decide (c < ssz.length)) = false := by simpa using hlen
  refine ⟨header ++ Snappy.frame ssz,?_,fun w => ?_,fun hone => ?_,fun hone rest => ?_⟩
  · rw [List.length_append,length_uvarintLoop hheader,frameSize]
  · simp only [writeReqRespFrame,writeUvarint,hheader]
    exact congrArg Except.ok (List.append_assoc w header _)
  · refine Reads.bind hreads ?_
    simp only [hadmitted]
    have hframe := Reads.bind (f := fun frame => pure (some frame))
      (reads_frame encoder (by omega) hone) (Reads.pure (some ssz))
    rwa [List.append_nil] at hframe
  · obtain ⟨left,hleft⟩ := refuses_frame encoder hone rest
    refine ⟨left,?_⟩
    rw [List.append_assoc,readReqRespFrame,estate_bind_of_ok (hreads _)]
    simp only [hadmitted]
    exact estate_bind_error.mpr (.inl hleft)

end Framing

section Streams
variable [Snappy]

def writeFrames (w : List UInt8) (payloads : List (List UInt8)) :
    Outcome NetworkingError (List UInt8) := payloads.foldlM writeReqRespFrame w

/-- One call after the other returns the payloads, each with exactly the frames of the rest
left on the stream, and the last call finds the end of it. -/
def ReadsBack (cap : Nat) : List (List UInt8) → List UInt8 → Prop
  | [], stream => readReqRespFrame (some cap) stream = .ok none []
  | ssz :: payloads, stream => ∃ rest, readReqRespFrame (some cap) stream = .ok (some ssz) rest ∧
      writeFrames [] payloads = .ok rest ∧ ReadsBack cap payloads rest

theorem writeFrames_cons {bytes ssz stream : List UInt8} {payloads : List (List UInt8)}
    (h : ∀ w, writeReqRespFrame w ssz = .ok (w ++ bytes))
    (hrest : ∀ w, writeFrames w payloads = .ok (w ++ stream)) (w : List UInt8) :
    writeFrames w (ssz :: payloads) = .ok (w ++ (bytes ++ stream)) := by
  rw [writeFrames,List.foldlM_cons,h]
  exact (hrest _).trans (congrArg Except.ok (List.append_assoc w bytes stream))

theorem frames_cases (encoder : FrameEncoder) {cap : Nat} (hcap : cap ≤ 2^24)
    {payloads : List (List UInt8)} (h : ∀ ssz ∈ payloads, ssz.length ≤ cap) :
    ∃ stream, stream.length = (payloads.map frameSize).sum ∧
      (∀ w, writeFrames w payloads = .ok (w ++ stream)) ∧
      (ReadsBack cap payloads stream ↔ ∀ ssz ∈ payloads, ssz.length ≠ 1) := by
  induction payloads with
  | nil =>
    refine ⟨[],rfl,fun w => ?_,?_⟩
    · rw [List.append_nil]
      rfl
    · exact iff_of_true rfl (by simp)
  | cons ssz payloads ih =>
    obtain ⟨hssz,hpayloads⟩ := List.forall_mem_cons.mp h
    obtain ⟨stream,hsize,hwrites,hback⟩ := ih hpayloads
    obtain ⟨bytes,hframe,hbytes,hreads,hrefuses⟩ := frame_cases encoder hcap hssz
    refine ⟨bytes ++ stream,?_,writeFrames_cons hbytes hwrites,?_⟩
    · rw [List.length_append,hframe,hsize,List.map_cons,List.sum_cons]
    by_cases hone : ssz.length = 1
    · obtain ⟨left,hleft⟩ := hrefuses hone stream
      simp [ReadsBack,hleft,hone]
    · have hread := hreads hone stream
      have hnext : writeFrames [] payloads = .ok stream := by simpa using hwrites []
      simp [ReadsBack,hread,hnext,hback,hone]

/-- What was written is read back, unless one of the payloads is a single byte. -/
theorem req_resp_frames_round_trip (encoder : FrameEncoder) {cap : Nat}
    (hcap : cap ≤ 16*1024*1024) {payloads : List (List UInt8)}
    (h : ∀ ssz ∈ payloads, ssz.length ≤ cap) :
    ∃ stream, writeFrames [] payloads = .ok stream ∧
      (ReadsBack cap payloads stream ↔ ∀ ssz ∈ payloads, ssz.length ≠ 1) := by
  obtain ⟨stream,-,hwrites,hback⟩ := frames_cases encoder hcap h
  exact ⟨stream,by simpa using hwrites [],hback⟩

end Streams

section Stored

def blocks : Nat → List UInt8 → List (List UInt8)
  | 0, _ => []
  | count+1, data => data.take 65536 :: blocks count (data.drop 65536)

section
variable [Snappy]

def storedChunk (data : List UInt8) : List UInt8 :=
  chunkBytes snappyChunkUncompressed (leBytes 4 (snappyMaskedCrc data).toNat ++ data)

def storedFrame (ssz : List UInt8) : List UInt8 :=
  if ssz = [] then []
  else chunkBytes snappyStreamIdentifier snappyStreamMagic ++
    ((blocks ((ssz.length+65535)/65536) ssz).map storedChunk).flatten

end

/-- The raw format and the checksum of the crates, under any encoder of frames. -/
@[reducible] def framedBy (frame : List UInt8 → List UInt8) : Snappy where
  frame := frame
  decompressLen := RawBlocks.decompressLen
  decompress := RawBlocks.decompress
  decompressVec := RawBlocks.decompressVec
  crc32c := RawBlocks.crc32c

/-- Every chunk uncompressed, as the encoder emits it where compressing would save less than an
eighth. -/
@[reducible] def stored : Snappy := framedBy (@storedFrame (framedBy id))

theorem length_blocks (count : Nat) (data : List UInt8) : (blocks count data).length = count := by
  induction count generalizing data with
  | zero => rfl
  | succ count ih => rw [blocks,List.length_cons,ih]

theorem flatten_blocks {count : Nat} {data : List UInt8} (h : data.length ≤ count*65536) :
    (blocks count data).flatten = data := by
  induction count generalizing data with
  | zero =>
    have hnil : data = [] := List.length_eq_zero_iff.mp (by omega)
    rw [hnil,blocks,List.flatten_nil]
  | succ count ih =>
    have hrest : (data.drop 65536).length ≤ count*65536 := by
      rw [List.length_drop]
      omega
    rw [blocks,List.flatten_cons,ih hrest,List.take_append_drop]

theorem nonempty_of_mem_blocks {count : Nat} {data : List UInt8} (h : count*65536 < data.length+65536) :
    ∀ block ∈ blocks count data, block ≠ [] ∧ block.length ≤ 65536 := by
  induction count generalizing data with
  | zero => simp [blocks]
  | succ count ih =>
    intro block hmem
    rcases List.mem_cons.mp hmem with rfl | hmem
    · have hlen : (data.take 65536).length = min 65536 data.length := List.length_take
      exact ⟨List.length_pos_iff.mp (by omega),by omega⟩
    · by_cases hzero : count = 0
      · rw [hzero,blocks] at hmem
        exact absurd hmem List.not_mem_nil
      · have hlong : 65536 ≤ data.length := by omega
        have hrest : count*65536 < (data.drop 65536).length+65536 := by
          rw [List.length_drop,Nat.sub_add_cancel hlong]
          rw [Nat.succ_mul] at h
          exact Nat.lt_of_add_lt_add_right h
        exact ih hrest block hmem

attribute [local instance] stored

theorem length_storedFrame {ssz : List UInt8} (h : ssz ≠ []) :
    (storedFrame ssz).length = 10+(ssz.length+65535)/65536*8+ssz.length := by
  have hchunks (parts : List (List UInt8)) :
      (parts.map storedChunk).flatten.length = parts.length*8+parts.flatten.length := by
    induction parts with
    | nil => rfl
    | cons part parts ih =>
      have hpart : (storedChunk part).length = 8+part.length := by
        simp [storedChunk,chunkBytes]
        omega
      rw [List.map_cons,List.flatten_cons,List.flatten_cons,List.length_append,List.length_append,
        List.length_cons,ih,hpart]
      omega
  rw [storedFrame,if_neg h,List.length_append,hchunks,length_blocks,
    flatten_blocks (by omega),Nat.add_assoc]
  rfl

theorem frameSize_stored {ssz : List UInt8} (h : ssz ≠ []) :
    frameSize ssz = Nat.log 128 ssz.length+11+(ssz.length+65535)/65536*8+ssz.length := by
  have hframe : (Snappy.frame ssz).length = _ := length_storedFrame h
  rw [frameSize,hframe]
  omega

theorem stored_encoder : FrameEncoder := by
  have hframe (ssz : List UInt8) : Snappy.frame ssz = storedFrame ssz := rfl
  refine ⟨by rw [hframe,storedFrame,if_pos rfl],fun ssz hnil => ?_⟩
  refine ⟨(blocks ((ssz.length+65535)/65536) ssz).map fun block => ⟨false,block,block⟩,?_,?_,?_,?_⟩
  · rw [hframe,storedFrame,if_neg hnil,List.map_map]
    rfl
  · rw [List.map_map]
    simp only [Function.comp_def,List.map_id']
    exact flatten_blocks (by omega)
  · intro c hc
    obtain ⟨block,hblock,rfl⟩ := List.mem_map.mp hc
    have hpos := List.length_pos_iff.mpr hnil
    obtain ⟨hne,hsmall⟩ := nonempty_of_mem_blocks (by omega) block hblock
    exact ⟨hne,hsmall,le_rfl,rfl⟩
  · rw [List.length_map,length_blocks]

theorem req_resp_frames_stored : FrameEncoder ∧
    ∃ stream, writeFrames [] [[],[1,2,3]] = .ok stream ∧ ReadsBack 16 [[],[1,2,3]] stream := by
  obtain ⟨stream,hwrites,hback⟩ := req_resp_frames_round_trip stored_encoder
    (show 16 ≤ 16*1024*1024 by decide) (show ∀ ssz ∈ [[],[1,2,3]], ssz.length ≤ 16 by decide)
  exact ⟨stored_encoder,stream,hwrites,hback.mpr (by decide)⟩

/-- One byte: the first budget has room for five bytes, and the identifier has six. -/
theorem single_byte_refused : FrameEncoder ∧ ∃ stream left,
    writeFrames [] [[7]] = .ok stream ∧
      readReqRespFrame (some 16) stream =
        .error (.malformedFrame "snappy chunk payload length exceeds caller budget") left ∧
      ¬ReadsBack 16 [[7]] stream := by
  obtain ⟨bytes,-,hwrites,-,hrefuses⟩ := frame_cases stored_encoder (show 16 ≤ 2^24 by decide)
    (show [(7 : UInt8)].length ≤ 16 by decide)
  obtain ⟨left,hleft⟩ := hrefuses rfl []
  rw [List.append_nil] at hleft
  refine ⟨stored_encoder,bytes,left,hwrites [],hleft,?_⟩
  simp [ReadsBack,hleft]

end Stored

end Devnet.Networking
