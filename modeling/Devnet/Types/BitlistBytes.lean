import Devnet.Types.Bitfields

/-!
The SSZ form of a bit list. One more bit is set right behind the live ones, so that the
highest set bit of the last byte tells the length.
-/

set_option autoImplicit false

namespace Devnet.Types

def TypesError.message : TypesError → String
  | .bitlistLimitExceeded limit got =>
    "bitlist limit " ++ toString limit ++ " exceeded by " ++ toString got ++ " bits"
  | .invalidBitlistEncoding => "invalid bitlist encoding (missing delimiter bit)"

def ilog2 (byte : UInt8) : Nat := Nat.log2 byte.toNat

theorem ilog2_lt (byte : UInt8) : ilog2 byte < 8 := by
  by_cases h : byte.toNat = 0
  · simp [ilog2,h]
  · exact (Nat.log2_lt h).mpr byte.toNat_lt

theorem bitOf_eq_testBit (byte : UInt8) {j : Nat} (hj : j < 8) :
    bitOf byte j = byte.toNat.testBit j := bitOf_eq_getLsbD byte hj

theorem bitOf_ilog2 {byte : UInt8} (h : byte ≠ 0) : bitOf byte (ilog2 byte) = true := by
  have hne : byte.toNat ≠ 0 := fun hzero => h (UInt8.toNat.inj hzero)
  rw [bitOf_eq_testBit byte (ilog2_lt byte)]
  exact Nat.testBit_log2 hne

theorem bitOf_above_ilog2 {byte : UInt8} {j : Nat} (hj : j < 8) (h : ilog2 byte < j) :
    bitOf byte j = false := by
  rw [bitOf_eq_testBit byte hj]
  exact Nat.testBit_lt_two_pow (Nat.lt_log2_self.trans_le (Nat.pow_le_pow_right (by decide) h))

/-- The live length a byte string stands for, if its last byte is `last`. -/
def delimiterAt (data : List UInt8) (last : UInt8) : Nat := (data.length-1)*8 + ilog2 last

theorem delimiterAt_spec {data : List UInt8} {last : UInt8} (hlast : data.getLast? = some last)
    (h : last ≠ 0) :
    delimiterAt data last/8 = data.length-1 ∧ data.length ≠ 0 ∧
      readBit data (delimiterAt data last) = true ∧
      ∀ i, delimiterAt data last < i → readBit data i = false := by
  have hlt := ilog2_lt last
  have hne : data.length ≠ 0 := by
    intro hzero
    simp [List.length_eq_zero_iff.mp hzero] at hlast
  have hbyte : data.getD (data.length-1) 0 = last := by
    rw [List.getD_eq_getElem?_getD,← List.getLast?_eq_getElem?,hlast]
    rfl
  have hdiv : delimiterAt data last/8 = data.length-1 := by
    unfold delimiterAt
    omega
  have hmod : delimiterAt data last%8 = ilog2 last := by
    unfold delimiterAt
    omega
  refine ⟨hdiv,hne,?_,?_⟩
  · rw [readBit,hdiv,hmod,hbyte]
    exact bitOf_ilog2 h
  · intro i hi
    by_cases hpast : data.length ≤ i/8
    · exact readBit_past hpast
    · -- Only the bits above the delimiter are left, all in the last byte.
      have hsame : i/8 = data.length-1 := by
        unfold delimiterAt at hi
        omega
      rw [readBit,hsame,hbyte]
      exact bitOf_above_ilog2 (Nat.mod_lt _ (by decide)) (by unfold delimiterAt at hi; omega)

def stripped (data : List UInt8) (length : Nat) : List UInt8 :=
  (writeBit data length false).take ((length+7)/8)

theorem readBit_take {bytes : List UInt8} {n i : Nat} (h : i/8 < n) :
    readBit (bytes.take n) i = readBit bytes i := by
  simp [readBit,List.getD_eq_getElem?_getD,h]

theorem readBit_stripped {data : List UInt8} {length i : Nat} (hin : length/8 < data.length)
    (h : i < length) : readBit (stripped data length) i = readBit data i := by
  rw [stripped,readBit_take (by omega),readBit_writeBit false i hin,if_neg (by omega)]

theorem length_stripped {data : List UInt8} {length : Nat} (hin : length/8 < data.length) :
    (stripped data length).length = (length+7)/8 := by
  simp only [stripped,writeBit,List.length_take,List.length_set]
  omega

theorem stripped_padding {data : List UInt8} {length : Nat} (hin : length/8 < data.length)
    (habove : ∀ i, length < i → readBit data i = false) (i : Nat) (h : length ≤ i) :
    readBit (stripped data length) i = false := by
  by_cases hpast : (length+7)/8 ≤ i/8
  · exact readBit_past ((length_stripped hin).trans_le hpast)
  · rw [stripped,readBit_take (by omega),readBit_writeBit false i hin]
    split
    · rfl
    · exact habove i (by omega)

def Bitlist.asBytes {LIMIT : Nat} (self : Bitlist LIMIT) : List UInt8 :=
  let out := if self.bytes.length ≤ self.length/8 then self.bytes ++ [0] else self.bytes
  writeBit out self.length true

/-- The delimiter is the highest set bit of the last byte, which must have one. -/
def Bitlist.fromBytes {LIMIT : Nat} (data : List UInt8) : Except TypesError (Bitlist LIMIT) :=
  match hlast : data.getLast? with
  | none => .error .invalidBitlistEncoding
  | some last =>
    if hzero : last = 0 then .error .invalidBitlistEncoding
    else if hlimit : LIMIT < delimiterAt data last then
      .error (.bitlistLimitExceeded LIMIT (delimiterAt data last))
    else
      have hspec := delimiterAt_spec hlast hzero
      have hin : delimiterAt data last/8 < data.length := by omega
      .ok
        { bytes := stripped data (delimiterAt data last)
          length := delimiterAt data last
          size := length_stripped hin
          within := Nat.le_of_not_lt hlimit
          padding := stripped_padding hin hspec.2.2.2 }

theorem Bitlist.fromBytes_ok {LIMIT : Nat} {data : List UInt8} {bl : Bitlist LIMIT} :
    Bitlist.fromBytes data = .ok bl ↔ ∃ last, data.getLast? = some last ∧ last ≠ 0 ∧
      bl.length = delimiterAt data last ∧ bl.bytes = stripped data (delimiterAt data last) := by
  unfold Bitlist.fromBytes
  split
  · next hlast => simp [hlast]
  · next last hlast =>
    simp only [hlast,Option.some.injEq,exists_eq_left']
    by_cases hzero : last = 0
    · simp [hzero]
    · by_cases hlimit : LIMIT < delimiterAt data last
      · have hwithin := bl.within
        simp only [hzero,hlimit,dite_false,dite_true,reduceCtorEq,ne_eq,not_false_eq_true,
          true_and,false_iff]
        omega
      · simp only [hzero,hlimit,dite_false,Except.ok.injEq,ne_eq,not_false_eq_true,true_and]
        constructor
        · rintro rfl
          exact ⟨rfl,rfl⟩
        · rintro ⟨hlength,hbytes⟩
          cases bl
          cases hlength
          cases hbytes
          rfl

theorem Bitlist.length_asBytes {LIMIT : Nat} (self : Bitlist LIMIT) :
    self.asBytes.length = self.length/8+1 := by
  have hsize := self.size
  simp only [asBytes,writeBit,List.length_set]
  split
  · simp only [List.length_append,List.length_singleton]
    omega
  · omega

theorem Bitlist.readBit_asBytes {LIMIT : Nat} (self : Bitlist LIMIT) (i : Nat) :
    readBit self.asBytes i = if i = self.length then true else readBit self.bytes i := by
  have hin := self.length_asBytes
  simp only [asBytes,writeBit,List.length_set] at hin
  rw [asBytes,readBit_writeBit true i (by omega)]
  split
  · rfl
  · split
    · rw [← readBit_resize (n := self.bytes.length+1) (Nat.le_succ _),resize,
        List.take_of_length_le (Nat.le_succ _)]
      simp
    · rfl

/-- Accepted are the encodings of bit lists within the limit, each for its own list. -/
theorem Bitlist.fromBytes_iff {LIMIT : Nat} {data : List UInt8} {bl : Bitlist LIMIT} :
    Bitlist.fromBytes data = .ok bl ↔ bl.asBytes = data := by
  have hbits := bl.readBit_asBytes
  have hlen := bl.length_asBytes
  rw [fromBytes_ok]
  constructor
  · rintro ⟨last,hlast,hzero,hlength,hbytes⟩
    obtain ⟨hdiv,hne,hset,habove⟩ := delimiterAt_spec hlast hzero
    rw [← hlength] at hdiv hset habove hbytes
    refine bytes_ext (by omega) fun i => ?_
    rw [hbits i]
    split
    · next hi => rw [hi,hset]
    · next hi =>
      by_cases hlive : i < bl.length
      · rw [hbytes,readBit_stripped (by omega) hlive]
      · rw [bl.padding i (by omega),habove i (by omega)]
  · rintro rfl
    have hlast : bl.asBytes.getLast? = some (bl.asBytes.getD (bl.length/8) 0) := by
      rw [List.getLast?_eq_getElem?,hlen,Nat.add_sub_cancel,List.getD_eq_getElem?_getD,
        List.getElem?_eq_getElem (by omega)]
      rfl
    have hset : readBit bl.asBytes bl.length = true := by rw [hbits,if_pos rfl]
    have hzero : bl.asBytes.getD (bl.length/8) 0 ≠ 0 := by
      intro hzero
      rw [readBit,hzero,bitOf_zero] at hset
      cases hset
    obtain ⟨hdiv,hne,hset',habove⟩ := delimiterAt_spec hlast hzero
    -- Both positions hold the highest set bit.
    have hsame : bl.length = delimiterAt bl.asBytes (bl.asBytes.getD (bl.length/8) 0) := by
      rcases Nat.lt_trichotomy bl.length
        (delimiterAt bl.asBytes (bl.asBytes.getD (bl.length/8) 0)) with hlt | heq | hgt
      · rw [hbits,if_neg (by omega),bl.padding _ (Nat.le_of_lt hlt)] at hset'
        cases hset'
      · exact heq
      · rw [habove _ hgt] at hset
        cases hset
    refine ⟨_,hlast,hzero,hsame,?_⟩
    rw [← hsame]
    have hin : bl.length/8 < bl.asBytes.length := by omega
    refine bytes_ext (by rw [bl.size,length_stripped hin]) fun i => ?_
    by_cases hlive : i < bl.length
    · rw [readBit_stripped hin hlive,hbits,if_neg (by omega)]
    · rw [bl.padding i (by omega),stripped_padding hin (fun j hj => ?_) i (by omega)]
      rw [hbits,if_neg (by omega),bl.padding j (by omega)]

end Devnet.Types
