import Devnet.Types.ByteArrays

/-!
The variable-length bit list of the source: packed bytes, least significant bit
first, with the live length beside them. The invariant the source keeps in its
comments is a field here, so a bit list with a stray bit past its length cannot be
built. `Bitlist.toList` is the boolean list it stands for; every operation is
described once in terms of that list and later modules use nothing else.
-/

set_option autoImplicit false

namespace Devnet.Types

inductive TypesError where
  | bitlistLimitExceeded (limit got : Nat)
  | invalidBitlistEncoding
  deriving DecidableEq, Repr

def bitOf (byte : UInt8) (j : Nat) : Bool := byte &&& ((1 : UInt8) <<< UInt8.ofNat j) != 0

def setBit (byte : UInt8) (j : Nat) (value : Bool) : UInt8 :=
  let mask := (1 : UInt8) <<< UInt8.ofNat j
  if value then byte ||| mask else byte &&& ~~~mask

theorem mask_toBitVec {j : Nat} (hj : j < 8) :
    ((1 : UInt8) <<< UInt8.ofNat j).toBitVec = BitVec.twoPow 8 j := by
  interval_cases j <;> decide

theorem bitOf_eq_getLsbD (byte : UInt8) {j : Nat} (hj : j < 8) :
    bitOf byte j = byte.toBitVec.getLsbD j := by
  have hz : (byte &&& ((1 : UInt8) <<< UInt8.ofNat j) = 0) ↔
      byte.toBitVec &&& BitVec.twoPow 8 j = 0#8 := by
    rw [← mask_toBitVec hj,← UInt8.toBitVec_and]
    exact UInt8.toBitVec_inj.symm
  have ht : BitVec.twoPow 8 j ≠ 0#8 := by interval_cases j <;> decide
  rw [BitVec.and_twoPow] at hz
  cases hb : byte.toBitVec.getLsbD j with
  | false => simpa [bitOf,hb] using hz
  | true => simpa [bitOf,hb,ht] using hz

theorem bitOf_setBit (byte : UInt8) (value : Bool) {j k : Nat} (hj : j < 8) (hk : k < 8) :
    bitOf (setBit byte j value) k = if k = j then value else bitOf byte k := by
  rw [bitOf_eq_getLsbD _ hk,bitOf_eq_getLsbD _ hk]
  cases value with
  | false =>
    simp only [setBit,Bool.false_eq_true,if_false,UInt8.toBitVec_and,UInt8.toBitVec_not,
      mask_toBitVec hj,BitVec.getLsbD_and,BitVec.getLsbD_not,BitVec.getLsbD_twoPow]
    by_cases h : k = j
    · simp [h,hj]
    · simp [h,hk,Ne.symm h]
  | true =>
    simp only [setBit,if_true,UInt8.toBitVec_or,mask_toBitVec hj,BitVec.getLsbD_or,
      BitVec.getLsbD_twoPow]
    by_cases h : k = j
    · simp [h,hj]
    · simp [h,Ne.symm h]

theorem byte_ext {a b : UInt8} (h : ∀ j < 8, bitOf a j = bitOf b j) : a = b := by
  apply UInt8.toBitVec_inj.mp
  apply BitVec.eq_of_getLsbD_eq
  intro j hj
  rw [← bitOf_eq_getLsbD a hj,← bitOf_eq_getLsbD b hj]
  exact h j hj

def readBit (bytes : List UInt8) (i : Nat) : Bool := bitOf (bytes.getD (i/8) 0) (i%8)

def writeBit (bytes : List UInt8) (i : Nat) (value : Bool) : List UInt8 :=
  bytes.set (i/8) (setBit (bytes.getD (i/8) 0) (i%8) value)

def resize (bytes : List UInt8) (n : Nat) : List UInt8 :=
  bytes.take n ++ List.replicate (n - bytes.length) 0

theorem bitOf_zero (j : Nat) : bitOf 0 j = false := by simp [bitOf]

theorem readBit_past {bytes : List UInt8} {i : Nat} (h : bytes.length ≤ i/8) :
    readBit bytes i = false := by
  simp [readBit,List.getElem?_eq_none h,bitOf_zero]

theorem readBit_writeBit {bytes : List UInt8} {i : Nat} (value : Bool) (k : Nat)
    (hi : i/8 < bytes.length) :
    readBit (writeBit bytes i value) k = if k = i then value else readBit bytes k := by
  by_cases hb : k/8 = i/8
  · have hget : (writeBit bytes i value).getD (i/8) 0 =
        setBit (bytes.getD (i/8) 0) (i%8) value := by
      simp [writeBit,List.getD_eq_getElem?_getD,hi]
    have hk : k = i ↔ k%8 = i%8 := by omega
    simp only [readBit,hb,hget,hk]
    exact bitOf_setBit _ _ (Nat.mod_lt _ (by decide)) (Nat.mod_lt _ (by decide))
  · have hk : k ≠ i := fun h => hb (by rw [h])
    simp [readBit,writeBit,List.getD_eq_getElem?_getD,Ne.symm hb,hk]

theorem readBit_resize {bytes : List UInt8} {n : Nat} (h : bytes.length ≤ n) (k : Nat) :
    readBit (resize bytes n) k = readBit bytes k := by
  rw [resize,List.take_of_length_le h]
  by_cases hk : k/8 < bytes.length
  · simp [readBit,List.getD_eq_getElem?_getD,List.getElem?_append_left hk]
  · rw [readBit_past (Nat.le_of_not_lt hk)]
    simp only [readBit,List.getD_eq_getElem?_getD,
      List.getElem?_append_right (Nat.le_of_not_lt hk),List.getElem?_replicate]
    split <;> simp [bitOf_zero]

theorem bytes_ext {a b : List UInt8} (hl : a.length = b.length)
    (h : ∀ i, readBit a i = readBit b i) : a = b := by
  apply List.ext_getElem hl
  intro n ha hb
  apply byte_ext
  intro j hj
  have hn := h (8*n+j)
  have hdiv : (8*n+j)/8 = n := by omega
  have hmod : (8*n+j)%8 = j := by omega
  simpa [readBit,hdiv,hmod,List.getD_eq_getElem?_getD,ha,hb] using hn

structure Bitlist (LIMIT : Nat) where
  bytes : List UInt8
  length : Nat
  size : bytes.length = (length+7)/8
  within : length ≤ LIMIT
  padding : ∀ i, length ≤ i → readBit bytes i = false
  deriving DecidableEq

def Bitlist.new {LIMIT : Nat} : Bitlist LIMIT :=
  ⟨[],0,rfl,Nat.zero_le _,fun _ _ => readBit_past (Nat.zero_le _)⟩

instance {LIMIT : Nat} : Inhabited (Bitlist LIMIT) := ⟨Bitlist.new⟩

theorem readBit_replicate (n i : Nat) : readBit (List.replicate n 0) i = false := by
  simp only [readBit,List.getD_eq_getElem?_getD,List.getElem?_replicate]
  split <;> simp [bitOf_zero]

def Bitlist.withLength {LIMIT : Nat} (length : Nat) : Except TypesError (Bitlist LIMIT) :=
  if h : LIMIT < length then .error (.bitlistLimitExceeded LIMIT length)
  else .ok ⟨List.replicate ((length+7)/8) 0,length,by simp,Nat.le_of_not_lt h,
    fun i _ => readBit_replicate _ i⟩

def Bitlist.len {LIMIT : Nat} (self : Bitlist LIMIT) : Nat := self.length

def Bitlist.get {LIMIT : Nat} (self : Bitlist LIMIT) (index : Nat) : Option Bool :=
  if self.length ≤ index then none else some (readBit self.bytes index)

/-- The live length after writing at `index`: unchanged inside, grown past the end. -/
def Bitlist.grown {LIMIT : Nat} (self : Bitlist LIMIT) (index : Nat) : Nat :=
  if self.length ≤ index then index+1 else self.length

theorem Bitlist.grown_spec {LIMIT : Nat} (self : Bitlist LIMIT) (index : Nat) :
    self.length ≤ self.grown index ∧ index < self.grown index ∧
      (self.grown index = self.length ∨ self.grown index = index+1) := by
  unfold grown
  split <;> omega

theorem Bitlist.resize_length {LIMIT : Nat} (self : Bitlist LIMIT) (index : Nat) :
    (resize self.bytes ((self.grown index+7)/8)).length = (self.grown index+7)/8 := by
  have h := self.grown_spec index
  have hs := self.size
  simp [resize]
  omega

def Bitlist.set {LIMIT : Nat} (self : Bitlist LIMIT) (index : Nat) (value : Bool) :
    Except TypesError (Bitlist LIMIT) :=
  if h : LIMIT ≤ index then .error (.bitlistLimitExceeded LIMIT index)
  else .ok
    { bytes := writeBit (resize self.bytes ((self.grown index+7)/8)) index value
      length := self.grown index
      size := by simp [writeBit,self.resize_length index]
      within := by
        have hw := self.within
        have hg := self.grown_spec index
        omega
      padding := by
        intro i hi
        have hg := self.grown_spec index
        have hs := self.size
        rw [readBit_writeBit value i (by rw [self.resize_length]; omega),
          readBit_resize (by omega),if_neg (by omega)]
        exact self.padding i (by omega) }

def Bitlist.iterSetIndices {LIMIT : Nat} (self : Bitlist LIMIT) : List Nat :=
  (List.range self.length).filter (readBit self.bytes)

/-- The boolean list a bit list stands for. -/
def Bitlist.toList {LIMIT : Nat} (self : Bitlist LIMIT) : List Bool :=
  (List.range self.length).map (readBit self.bytes)

@[simp] theorem Bitlist.length_toList {LIMIT : Nat} (self : Bitlist LIMIT) :
    self.toList.length = self.len := by simp [toList,len]

@[simp] theorem Bitlist.toList_new {LIMIT : Nat} : (Bitlist.new : Bitlist LIMIT).toList = [] := rfl

theorem Bitlist.get_eq {LIMIT : Nat} (self : Bitlist LIMIT) (index : Nat) :
    self.get index = self.toList[index]? := by
  by_cases h : self.length ≤ index
  · simp [get,toList,h]
  · simp [get,toList,h,Nat.lt_of_not_le h]

theorem Bitlist.toList_injective {LIMIT : Nat} {a b : Bitlist LIMIT}
    (h : a.toList = b.toList) : a = b := by
  have hl : a.length = b.length := by simpa [toList] using congrArg List.length h
  have hbits : ∀ i, readBit a.bytes i = readBit b.bytes i := by
    intro i
    by_cases hi : i < a.length
    · have hg := congrArg (fun l => l[i]?) h
      simpa [toList,hi,hl ▸ hi] using hg
    · rw [a.padding i (by omega),b.padding i (by omega)]
  have hbytes : a.bytes = b.bytes :=
    bytes_ext (by rw [a.size,b.size,hl]) hbits
  cases a; cases b
  cases hl; cases hbytes
  rfl

theorem Bitlist.set_ok {LIMIT : Nat} (self : Bitlist LIMIT) {index : Nat} (value : Bool)
    (h : index < LIMIT) : ∃ b, self.set index value = .ok b := by
  simp [set,Nat.not_le.mpr h]

theorem Bitlist.len_set {LIMIT : Nat} {self b : Bitlist LIMIT} {index : Nat} {value : Bool}
    (h : self.set index value = .ok b) : b.len = self.grown index := by
  by_cases hl : LIMIT ≤ index
  · simp [set,hl] at h
  · simp only [set,hl,dite_false,Except.ok.injEq] at h
    subst h
    rfl

theorem Bitlist.readBit_set {LIMIT : Nat} {self b : Bitlist LIMIT} {index : Nat} {value : Bool}
    (h : self.set index value = .ok b) (k : Nat) :
    readBit b.bytes k = if k = index then value else readBit self.bytes k := by
  by_cases hl : LIMIT ≤ index
  · simp [set,hl] at h
  · simp only [set,hl,dite_false,Except.ok.injEq] at h
    subst h
    have hg := self.grown_spec index
    have hs := self.size
    rw [readBit_writeBit value k (by rw [self.resize_length]; omega),
      readBit_resize (by omega)]

theorem Bitlist.toList_write {LIMIT : Nat} {self b : Bitlist LIMIT} {index : Nat} {value : Bool}
    (h : self.set index value = .ok b) :
    b.toList = (self.toList ++ List.replicate (index+1 - self.len) false).set index value := by
  have hlen : b.length = self.grown index := len_set h
  have hgrown : self.len ≤ self.grown index ∧ index < self.grown index ∧
      (self.grown index = self.len ∨ self.grown index = index+1) := self.grown_spec index
  apply List.ext_getElem?
  intro k
  rw [List.getElem?_set,toList,List.getElem?_map,hlen]
  simp only [List.length_append,length_toList,List.length_replicate]
  by_cases hk : k < self.grown index
  · rw [List.getElem?_range hk,Option.map_some,readBit_set h k]
    by_cases hki : index = k
    · rw [if_pos hki.symm,if_pos hki,if_pos (by omega)]
    · rw [if_neg (Ne.symm hki),if_neg hki,List.getElem?_append,length_toList]
      split
      · next hlive => simp [toList,show k < self.length from hlive]
      · next hpast =>
        rw [self.padding k (Nat.le_of_not_lt hpast),List.getElem?_replicate,if_pos (by omega)]
  · rw [List.getElem?_eq_none (by simpa using hk),if_neg (by omega),Option.map_none,
      List.getElem?_eq_none]
    simp only [List.length_append,length_toList,List.length_replicate]
    omega

theorem Bitlist.toList_set {LIMIT : Nat} {self b : Bitlist LIMIT} {index : Nat} {value : Bool}
    (hi : index < self.len) (h : self.set index value = .ok b) :
    b.toList = self.toList.set index value := by
  rw [toList_write h,Nat.sub_eq_zero_of_le hi,List.replicate_zero,List.append_nil]

theorem Bitlist.toList_push {LIMIT : Nat} {self b : Bitlist LIMIT} {value : Bool}
    (h : self.set self.len value = .ok b) : b.toList = self.toList ++ [value] := by
  rw [toList_write h,Nat.add_sub_cancel_left,← length_toList]
  simp

theorem Bitlist.len_push {LIMIT : Nat} {self b : Bitlist LIMIT} {value : Bool}
    (h : self.set self.len value = .ok b) : b.len = self.len+1 := by
  rw [← length_toList,toList_push h]
  simp

theorem Bitlist.toList_withLength {LIMIT : Nat} {n : Nat} {b : Bitlist LIMIT}
    (h : Bitlist.withLength n = .ok b) : b.toList = List.replicate n false := by
  by_cases hl : LIMIT < n
  · simp [withLength,hl] at h
  · simp only [withLength,hl,dite_false,Except.ok.injEq] at h
    subst h
    apply List.ext_getElem
    · simp [toList]
    · intro k _ _
      simp [toList,readBit_replicate]

theorem Bitlist.withLength_ok {LIMIT : Nat} {n : Nat} (h : n ≤ LIMIT) :
    ∃ b : Bitlist LIMIT, Bitlist.withLength n = .ok b := by
  simp [withLength,Nat.not_lt.mpr h]

theorem Bitlist.len_le {LIMIT : Nat} (self : Bitlist LIMIT) : self.len ≤ LIMIT := self.within

end Devnet.Types
