import Devnet.Lib.Wire

/-!
The snappy block format, as a decoder reads it: the length of the payload, then literals and
copies of what is already out, into a buffer of that length. With it the checksum that goes into
the chunks of a stream.
-/

set_option autoImplicit false

namespace RawBlocks
open Wire

/-- Seven bits a byte, the low ones first; what is shifted out of 64 bits is lost. -/
def readVaru64 : List UInt8 → Nat → Nat → Option (Nat × List UInt8)
  | [], _, _ => none
  | byte :: rest, n, shift =>
    if 64 ≤ shift then none
    else if byte < 0x80 then some (n ||| (byte.toNat <<< shift % 2^64),rest)
    else readVaru64 rest (n ||| ((byte &&& 0x7f).toNat <<< shift % 2^64)) (shift+7)

def header (data : List UInt8) : Option (Nat × List UInt8) :=
  (readVaru64 data 0 0).filter fun h => h.1 ≤ 2^32-1

def decompressLen (data : List UInt8) : Option Nat :=
  if data = [] then some 0 else (header data).map Prod.fst

/-- Byte by byte, so that a copy may reach into what it has just written. -/
def copyBack (offset : Nat) : Nat → List UInt8 → List UInt8
  | 0, written => written
  | len+1, written =>
    copyBack offset len (written ++ [written.getD (written.length-offset) 0])

def element (room : Nat) (tag : UInt8) (src written : List UInt8) :
    Option (List UInt8 × List UInt8) :=
  let code := tag.toNat/4
  let kind := tag.toNat%4
  if kind = 0 then
    -- A length of its own is read from four bytes, however few of them it takes.
    if 60 ≤ code ∧ src.length < 4 then none
    else
      let extra := code-59
      let len := if code < 60 then code+1 else ofLeBytes (src.take extra)+1
      let src := src.drop extra
      if src.length < len ∨ room < written.length+len then none
      else some (src.drop len,written ++ src.take len)
  else
    let width := if kind = 3 then 4 else kind
    let offset := ofLeBytes (src.take width)+(if kind = 1 then tag.toNat/32*256 else 0)
    let len := if kind = 1 then code%8+4 else code+1
    if src.length < width ∨ offset = 0 ∨ written.length < offset ∨ room < written.length+len then
      none
    else some (src.drop width,copyBack offset len written)

/-- Whether the source was read to its end, and what was written. An element takes a byte at
least, so that the length of the source is fuel enough. -/
def elements (room : Nat) : Nat → List UInt8 → List UInt8 → Bool × List UInt8
  | _, [], written => (true,written)
  | 0, _ :: _, written => (false,written)
  | fuel+1, tag :: src, written =>
    match element room tag src written with
    | none => (false,written)
    | some (src,written) => elements room fuel src written

def decompress (data out : List UInt8) : Option Nat × List UInt8 :=
  match header data with
  | none => (none,out)
  | some (len,src) =>
    if out.length < len then (none,out)
    else
      let (done,written) := elements len src.length src []
      (if done = true ∧ written.length = len then some len else none,
        written ++ out.drop written.length)

def decompressVec (data : List UInt8) : Option (List UInt8) :=
  match decompressLen data with
  | none => none
  | some len =>
    let (done,out) := decompress data (List.replicate len 0)
    done.map fun len => out.take len

theorem header_nil : header [] = none := rfl

theorem decompressLen_of_header {data src : List UInt8} {len : Nat}
    (h : header data = some (len,src)) : decompressLen data = some len := by
  have hne : data ≠ [] := by
    rintro rfl
    cases h
  rw [decompressLen,if_neg hne,h]
  rfl

theorem decompress_of_header {data src out : List UInt8} {len : Nat}
    (h : header data = some (len,src)) (hout : out.length = len) :
    decompress data out =
      (if (elements len src.length src []).1 = true ∧ (elements len src.length src []).2.length = len
        then some len else none,
      (elements len src.length src []).2 ++ out.drop (elements len src.length src []).2.length) := by
  rw [decompress,h]
  exact if_neg (by omega)

theorem decompressVec_eq_some {data payload : List UInt8} :
    decompressVec data = some payload ↔ ∃ src, header data = some (payload.length,src) ∧
      elements payload.length src.length src [] = (true,payload) := by
  cases hheader : header data with
  | none =>
    by_cases hne : data = []
    · simp [decompressVec,decompressLen,decompress,hne,header_nil]
    · simp [decompressVec,decompressLen,hne,hheader]
  | some h =>
    obtain ⟨len,src⟩ := h
    rw [decompressVec,decompressLen_of_header hheader]
    simp only [decompress_of_header hheader (List.length_replicate (a := (0 : UInt8)))]
    constructor
    · intro h
      split_ifs at h with hdone
      · have hpayload : (elements len src.length src []).2 = payload := by
          simpa [List.take_append_of_le_length hdone.2.ge,List.take_of_length_le hdone.2.le] using h
        have hlen : payload.length = len := hpayload ▸ hdone.2
        exact ⟨src,by rw [hlen],by rw [hlen]; exact Prod.ext hdone.1 hpayload⟩
      · cases h
    · rintro ⟨src',hsrc,hpayload⟩
      cases hsrc
      simp [hpayload]

theorem decompressVec_literal {data payload : List UInt8} {low high : UInt8}
    (h : header data = some (payload.length,0xf4 :: low :: high :: payload))
    (hlen : ofLeBytes [low,high]+1 = payload.length) (hlong : 2 ≤ payload.length) :
    decompressVec data = some payload := by
  have hliteral : element payload.length 0xf4 (low :: high :: payload) [] = some ([],payload) := by
    simp [element,hlen]
    omega
  refine decompressVec_eq_some.mpr ⟨_,h,?_⟩
  simp [elements,hliteral]

theorem decompress_of_vec {data payload out : List UInt8} (h : decompressVec data = some payload)
    (hout : out.length = payload.length) : decompress data out = (some payload.length,payload) := by
  obtain ⟨src,hheader,helements⟩ := decompressVec_eq_some.mp h
  rw [decompress_of_header hheader hout,helements]
  simp [← hout]

theorem decompress_refused {data out : List UInt8} (h : decompressVec data = none)
    (hout : decompressLen data = some out.length) : (decompress data out).1 = none := by
  cases hheader : header data with
  | none => rw [decompress,hheader]
  | some head =>
    obtain ⟨len,src⟩ := head
    rw [decompressLen_of_header hheader,Option.some.injEq] at hout
    rw [decompress_of_header hheader hout.symm]
    refine if_neg fun hdone => ?_
    have hpayload := decompressVec_eq_some.mpr ⟨src,by rw [hdone.2]; exact hheader,
      by rw [hdone.2]; exact Prod.ext hdone.1 rfl⟩
    rw [h] at hpayload
    cases hpayload

def crcBit (crc : UInt32) : UInt32 := if crc &&& 1 = 1 then crc >>> 1 ^^^ 0x82f63b78 else crc >>> 1

def crcByte (crc : UInt32) (byte : UInt8) : UInt32 := Nat.repeat crcBit 8 (crc ^^^ byte.toUInt32)

def crc32c (data : List UInt8) : UInt32 := data.foldl crcByte 0xffffffff ^^^ 0xffffffff

end RawBlocks
