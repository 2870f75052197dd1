import Devnet.Types.ByteArrays

/-!
Byte vectors as text: two hex digits for each byte. The writers emit lower case, with or without
a mark in front; the reader takes both cases and both marks, and nothing of another width. A
`str` is given by its UTF-8 bytes.
-/

set_option autoImplicit false

namespace Devnet.Types
open Machine

inductive HexError where
  | invalidHexEncoding (detail : String)
  | invalidByteLength (want got : Nat)
  deriving DecidableEq

def HexError.message : HexError → String
  | .invalidHexEncoding detail => "ByteVector hex decode failed: " ++ detail
  | .invalidByteLength want got =>
    "ByteVector expects exactly " ++ toString want ++ " bytes, got " ++ toString got

def hexNibble (c : UInt8) : Except HexError UInt8 :=
  if 48 ≤ c ∧ c ≤ 57 then .ok (c-48)
  else if 97 ≤ c ∧ c ≤ 102 then .ok (c-97+10)
  else if 65 ≤ c ∧ c ≤ 70 then .ok (c-65+10)
  else .error (.invalidHexEncoding "non-hex character")

def hexPairs : List UInt8 → Except HexError (List UInt8)
  | high :: low :: rest => do
    let h ← hexNibble high
    let l ← hexNibble low
    let bytes ← hexPairs rest
    .ok ((h <<< 4 ||| l) :: bytes)
  | _ => .ok []

/-- `0x` or `0X`, if it is there. -/
def stripMark : List UInt8 → List UInt8
  | 48 :: 120 :: hex => hex
  | 48 :: 88 :: hex => hex
  | hex => hex

theorem length_hexPairs {hex bytes : List UInt8} (h : hexPairs hex = .ok bytes) :
    bytes.length = hex.length/2 := by
  fun_induction hexPairs hex generalizing bytes with
  | case1 high low rest ih =>
    simp only [except_bind_ok,Except.ok.injEq] at h
    obtain ⟨_,-,_,-,tail,htail,rfl⟩ := h
    simp only [List.length_cons,ih htail]
    omega
  | case2 hex hshort =>
    cases h
    rcases hex with _ | ⟨high,_ | ⟨low,rest⟩⟩
    · rfl
    · simp
    · exact absurd rfl (hshort high low rest)

/-- `ByteVector::try_from` on text. -/
def ByteVector.tryFromHex (N : Nat) (s : List UInt8) : Except HexError (ByteVector N) :=
  let hex := stripMark s
  if hex.length%2 ≠ 0 then .error (.invalidHexEncoding "odd number of hex digits")
  else if hwidth : hex.length ≠ 2*N then .error (.invalidByteLength N (hex.length/2))
  else
    match hbytes : hexPairs hex with
    | .error e => .error e
    | .ok bytes => .ok ⟨bytes,(length_hexPairs hbytes).trans (by omega)⟩

def hexDigit (value : UInt8) : UInt8 := if value < 10 then value+48 else value+87

/-- `hex::encode`. -/
def hexEncode (bytes : List UInt8) : List UInt8 :=
  bytes.flatMap fun byte : UInt8 => [hexDigit (byte >>> 4),hexDigit (byte &&& 15)]

def ByteVector.toHex {N : Nat} (self : ByteVector N) : List UInt8 :=
  48 :: 120 :: hexEncode self.bytes

theorem tryFromHex_ok {N : Nat} {s : List UInt8} {v : ByteVector N} :
    ByteVector.tryFromHex N s = .ok v ↔
      (stripMark s).length = 2*N ∧ hexPairs (stripMark s) = .ok v.bytes := by
  unfold ByteVector.tryFromHex
  by_cases hwidth : (stripMark s).length = 2*N
  · have heven : ¬ (stripMark s).length%2 ≠ 0 := by omega
    dsimp only
    rw [if_neg heven,dif_neg (not_not.mpr hwidth),and_iff_right hwidth]
    split
    · next e he => simp [he]
    · next bytes hbytes =>
      have hsame : hexPairs (stripMark s) = .ok v.bytes ↔ bytes = v.bytes := by
        rw [hbytes,Except.ok.injEq]
      rw [hsame,Except.ok.injEq]
      exact ⟨congrArg ByteVector.bytes,fun h => ByteVector.ext_bytes h⟩
  · refine iff_of_false ?_ fun h => hwidth h.1
    dsimp only
    rw [dif_pos hwidth]
    split <;> simp

theorem digits_of_byte (byte : UInt8) :
    hexNibble (hexDigit (byte >>> 4)) = .ok (byte >>> 4) ∧
      hexNibble (hexDigit (byte &&& 15)) = .ok (byte &&& 15) ∧
      (byte >>> 4) <<< 4 ||| byte &&& 15 = byte := by
  have hall : ∀ n < 256, hexNibble (hexDigit (UInt8.ofNat n >>> 4)) = .ok (UInt8.ofNat n >>> 4) ∧
      hexNibble (hexDigit (UInt8.ofNat n &&& 15)) = .ok (UInt8.ofNat n &&& 15) ∧
      (UInt8.ofNat n >>> 4) <<< 4 ||| UInt8.ofNat n &&& 15 = UInt8.ofNat n := by decide +kernel
  have hbyte := hall byte.toNat byte.toNat_lt
  rwa [UInt8.ofNat_toNat] at hbyte

theorem hexPairs_hexEncode (bytes : List UInt8) : hexPairs (hexEncode bytes) = .ok bytes := by
  induction bytes with
  | nil => rfl
  | cons byte rest ih =>
    obtain ⟨hhigh,hlow,hboth⟩ := digits_of_byte byte
    change (do
      let h ← hexNibble (hexDigit (byte >>> 4))
      let l ← hexNibble (hexDigit (byte &&& 15))
      let bytes ← hexPairs (hexEncode rest)
      .ok ((h <<< 4 ||| l) :: bytes) : Except HexError (List UInt8)) = _
    rw [hhigh,hlow,ih]
    exact congrArg (fun b => Except.ok (b :: rest)) hboth

theorem length_hexEncode (bytes : List UInt8) : (hexEncode bytes).length = 2*bytes.length := by
  induction bytes with
  | nil => rfl
  | cons byte rest ih =>
    simp only [hexEncode,List.flatMap_cons,List.length_append,List.length_cons] at ih ⊢
    rw [ih]
    simp only [List.length_nil]
    omega

theorem digit_of_mem_hexEncode {bytes : List UInt8} {c : UInt8} (h : c ∈ hexEncode bytes) :
    ∃ value, hexNibble c = .ok value := by
  obtain ⟨byte,-,hc⟩ := List.mem_flatMap.mp h
  obtain ⟨hhigh,hlow,-⟩ := digits_of_byte byte
  rcases List.mem_cons.mp hc with rfl | hc
  · exact ⟨_,hhigh⟩
  · rw [List.mem_singleton.mp hc]
    exact ⟨_,hlow⟩

theorem stripMark_hexEncode (bytes : List UInt8) : stripMark (hexEncode bytes) = hexEncode bytes := by
  have hdigit : ∀ c ∈ hexEncode bytes, c ≠ 120 ∧ c ≠ 88 := by
    intro c hc
    obtain ⟨value,hvalue⟩ := digit_of_mem_hexEncode hc
    refine ⟨?_,?_⟩ <;> rintro rfl <;> cases hvalue
  generalize hexEncode bytes = hex at hdigit
  unfold stripMark
  split
  · exact absurd rfl (hdigit 120 (by simp)).1
  · exact absurd rfl (hdigit 88 (by simp)).2
  · rfl

theorem tryFromHex_hexEncode {N : Nat} (v : ByteVector N) :
    ByteVector.tryFromHex N (hexEncode v.bytes) = .ok v ∧ ByteVector.tryFromHex N v.toHex = .ok v := by
  have hwidth : (hexEncode v.bytes).length = 2*N := by rw [length_hexEncode,v.size]
  refine ⟨tryFromHex_ok.mpr ?_,tryFromHex_ok.mpr ⟨hwidth,hexPairs_hexEncode _⟩⟩
  rw [stripMark_hexEncode]
  exact ⟨hwidth,hexPairs_hexEncode _⟩

end Devnet.Types
