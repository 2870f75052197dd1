import Devnet.Types.BitlistBytes

/-!
The two fields of the source's bit list, without the invariant. Here an index into the bytes can
be out of bounds, which is `none`: the source would panic. On everything its own operations build
that never happens, and each of them does what it does on the bit list with the invariant.
-/

set_option autoImplicit false

namespace Devnet.Types

structure RawBits where
  bytes : List UInt8
  length : Nat
  deriving DecidableEq

namespace RawBits

def new : RawBits := ⟨[],0⟩

def withLength (LIMIT length : Nat) : Except TypesError RawBits :=
  if LIMIT < length then .error (.bitlistLimitExceeded LIMIT length)
  else .ok ⟨List.replicate ((length+7)/8) 0,length⟩

def get (self : RawBits) (index : Nat) : Option (Option Bool) :=
  if self.length ≤ index then some none
  else self.bytes[index/8]?.map fun byte => some (bitOf byte (index%8))

def set (LIMIT : Nat) (self : RawBits) (index : Nat) (value : Bool) :
    Option (Except TypesError RawBits) :=
  if LIMIT ≤ index then some (.error (.bitlistLimitExceeded LIMIT index))
  else
    let grown : RawBits :=
      if self.length ≤ index then ⟨resize self.bytes ((index+1+7)/8),index+1⟩ else self
    grown.bytes[index/8]?.map fun byte =>
      .ok { grown with bytes := grown.bytes.set (index/8) (setBit byte (index%8) value) }

def len (self : RawBits) : Nat := self.length

def onesIn (byte : UInt8) : Nat := (List.range 8).countP (bitOf byte)

def countOnes (self : RawBits) : Nat := (self.bytes.map onesIn).sum

def setAmong (bytes : List UInt8) : List Nat → Option (List Nat)
  | [] => some []
  | i :: rest => do
    let byte ← bytes[i/8]?
    let indices ← setAmong bytes rest
    return if bitOf byte (i%8) then i :: indices else indices

def iterSetIndices (self : RawBits) : Option (List Nat) :=
  setAmong self.bytes (List.range self.length)

def asBytes (self : RawBits) : Option (List UInt8) :=
  let out := if self.bytes.length ≤ self.length/8 then self.bytes ++ [0] else self.bytes
  out[self.length/8]?.map fun byte => out.set (self.length/8) (setBit byte (self.length%8) true)

def fromBytes (LIMIT : Nat) (data : List UInt8) : Except TypesError RawBits :=
  match data.getLast? with
  | none => .error .invalidBitlistEncoding
  | some last =>
    if last = 0 then .error .invalidBitlistEncoding
    else
      let highestBit := ilog2 last
      let length := (data.length-1)*8+highestBit
      if LIMIT < length then .error (.bitlistLimitExceeded LIMIT length)
      else .ok ⟨(data.set (data.length-1) (setBit last highestBit false)).take ((length+7)/8),length⟩

/-- What the operations of the source can build. -/
inductive Built (LIMIT : Nat) : RawBits → Prop where
  | new : Built LIMIT new
  | withLength {length : Nat} {b : RawBits} (h : withLength LIMIT length = .ok b) : Built LIMIT b
  | fromBytes {data : List UInt8} {b : RawBits} (h : fromBytes LIMIT data = .ok b) : Built LIMIT b
  | set {b b' : RawBits} {index : Nat} {value : Bool} (built : Built LIMIT b)
      (h : set LIMIT b index value = some (.ok b')) : Built LIMIT b'

def bits (self : RawBits) : List Bool := (List.range self.length).map (readBit self.bytes)

end RawBits

def Bitlist.raw {LIMIT : Nat} (self : Bitlist LIMIT) : RawBits := ⟨self.bytes,self.length⟩

theorem getElem?_of_lt {bytes : List UInt8} {i : Nat} (h : i < bytes.length) :
    bytes[i]? = some (bytes.getD i 0) := by
  simp [h]

section
variable {LIMIT : Nat}

@[simp] theorem Bitlist.bits_raw (self : Bitlist LIMIT) : self.raw.bits = self.toList := rfl

theorem Bitlist.byte_of_live (self : Bitlist LIMIT) {i : Nat} (h : i < self.length) :
    self.bytes[i/8]? = some (self.bytes.getD (i/8) 0) := by
  have hsize := self.size
  exact getElem?_of_lt (by omega)

theorem Bitlist.get_raw (self : Bitlist LIMIT) (index : Nat) :
    self.raw.get index = some (self.get index) := by
  change (if self.length ≤ index then some none
    else self.bytes[index/8]?.map fun byte => some (bitOf byte (index%8))) = _
  unfold Bitlist.get
  by_cases h : self.length ≤ index
  · rw [if_pos h,if_pos h]
  · rw [if_neg h,if_neg h,self.byte_of_live (Nat.lt_of_not_le h)]
    rfl

theorem withLength_raw (length : Nat) :
    RawBits.withLength LIMIT length = (Bitlist.withLength length : Except _ (Bitlist LIMIT)).map
      Bitlist.raw := by
  unfold RawBits.withLength Bitlist.withLength
  by_cases h : LIMIT < length
  · simp [h,Except.map]
  · simp [h,Except.map,Bitlist.raw]

theorem Bitlist.set_raw (self : Bitlist LIMIT) (index : Nat) (value : Bool) :
    RawBits.set LIMIT self.raw index value = some ((self.set index value).map Bitlist.raw) := by
  unfold RawBits.set Bitlist.set
  by_cases hlimit : LIMIT ≤ index
  · simp [hlimit,Except.map]
  · have hresize := self.resize_length index
    have hgrown := self.grown_spec index
    have hbyte := getElem?_of_lt (show index/8 <
      (resize self.bytes ((self.grown index+7)/8)).length by omega)
    have hraw : (if self.raw.length ≤ index then
        (⟨resize self.raw.bytes ((index+1+7)/8),index+1⟩ : RawBits) else self.raw) =
        ⟨resize self.bytes ((self.grown index+7)/8),self.grown index⟩ := by
      unfold Bitlist.grown
      split
      · next h =>
        rw [if_pos (show self.length ≤ index from h)]
        rfl
      · next h =>
        rw [if_neg (show ¬self.length ≤ index from h),resize,← self.size]
        simp [raw]
    simp only [if_neg hlimit,hraw,hbyte,dif_neg hlimit,Option.map_some,Except.map]
    rfl

theorem stripped_eq {data : List UInt8} {last : UInt8} (hlast : data.getLast? = some last)
    (hzero : last ≠ 0) : stripped data (delimiterAt data last) =
      (data.set (data.length-1) (setBit last (ilog2 last) false)).take
        ((delimiterAt data last+7)/8) := by
  have hmod : delimiterAt data last%8 = ilog2 last := by
    have := ilog2_lt last
    unfold delimiterAt
    omega
  have hbyte : data.getD (data.length-1) 0 = last := by
    rw [List.getD_eq_getElem?_getD,← List.getLast?_eq_getElem?,hlast]
    rfl
  rw [stripped,writeBit,(delimiterAt_spec hlast hzero).1,hmod,hbyte]

theorem fromBytes_raw {data : List UInt8} {b : RawBits} :
    RawBits.fromBytes LIMIT data = .ok b ↔ ∃ bl : Bitlist LIMIT, bl.asBytes = data ∧ bl.raw = b := by
  simp only [← Bitlist.fromBytes_iff,Bitlist.fromBytes_ok]
  constructor
  · intro h
    unfold RawBits.fromBytes at h
    split at h
    · cases h
    next last hlast =>
    split at h
    · cases h
    next hzero =>
    dsimp only at h
    split at h
    · cases h
    next hlimit =>
    have hspec := delimiterAt_spec hlast hzero
    have hin : delimiterAt data last/8 < data.length := by omega
    refine ⟨⟨stripped data (delimiterAt data last),delimiterAt data last,length_stripped hin,
      Nat.le_of_not_lt hlimit,stripped_padding hin hspec.2.2.2⟩,⟨last,hlast,hzero,rfl,rfl⟩,?_⟩
    exact (congrArg (fun bytes => RawBits.mk bytes (delimiterAt data last))
      (stripped_eq hlast hzero)).trans (Except.ok.inj h)
  · rintro ⟨bl,⟨last,hlast,hzero,hlength,hbytes⟩,rfl⟩
    have hlimit : ¬LIMIT < delimiterAt data last := by
      have := bl.within
      omega
    rw [RawBits.fromBytes,hlast]
    simp only [if_neg hzero]
    rw [Bitlist.raw,hlength,hbytes,stripped_eq hlast hzero]
    exact if_neg hlimit

theorem Bitlist.asBytes_raw (self : Bitlist LIMIT) : self.raw.asBytes = some self.asBytes := by
  have hlength := self.length_asBytes
  simp only [asBytes,writeBit,List.length_set] at hlength
  have hbyte := getElem?_of_lt (show self.length/8 < (if self.bytes.length ≤ self.length/8 then
    self.bytes ++ [0] else self.bytes).length by omega)
  change Option.map _ ((if self.bytes.length ≤ self.length/8 then
    self.bytes ++ [0] else self.bytes)[self.length/8]?) = _
  rw [hbyte]
  rfl

theorem sum_onesIn (bytes : List UInt8) :
    (bytes.map RawBits.onesIn).sum = (List.range (8*bytes.length)).countP (readBit bytes) := by
  induction bytes with
  | nil => rfl
  | cons byte bytes ih =>
    have hfirst : (List.range 8).countP (readBit (byte :: bytes)) = RawBits.onesIn byte := by
      refine List.countP_congr fun i hi => ?_
      have hlt := List.mem_range.mp hi
      rw [readBit,Nat.div_eq_of_lt hlt,Nat.mod_eq_of_lt hlt]
      rfl
    have hrest : ((List.range (8*bytes.length)).map (8+·)).countP (readBit (byte :: bytes)) =
        (List.range (8*bytes.length)).countP (readBit bytes) := by
      rw [List.countP_map]
      refine List.countP_congr fun i _ => ?_
      rw [Function.comp,readBit,readBit,show (8+i)/8 = i/8+1 by omega,show (8+i)%8 = i%8 by omega]
      rfl
    rw [List.map_cons,List.sum_cons,List.length_cons,
      show 8*(bytes.length+1) = 8+8*bytes.length by omega,List.range_add,List.countP_append,
      hfirst,hrest,ih]

theorem Bitlist.countOnes_raw (self : Bitlist LIMIT) :
    self.raw.countOnes = self.toList.count true := by
  obtain ⟨rest,hrest⟩ : ∃ rest, 8*self.bytes.length = self.length+rest :=
    ⟨8*self.bytes.length-self.length,by have := self.size; omega⟩
  have hpadding : ((List.range rest).map (self.length+·)).countP (readBit self.bytes) = 0 := by
    rw [List.countP_eq_zero]
    intro i hi
    obtain ⟨j,-,rfl⟩ := List.mem_map.mp hi
    simp [self.padding (self.length+j) (Nat.le_add_right _ _)]
  rw [RawBits.countOnes,raw,sum_onesIn,hrest,List.range_add,List.countP_append,hpadding,toList,
    List.count,List.countP_map]
  refine List.countP_congr fun i _ => ?_
  simp

theorem setAmong_eq {bytes : List UInt8} {indices : List Nat}
    (h : ∀ i ∈ indices, i/8 < bytes.length) :
    RawBits.setAmong bytes indices = some (indices.filter (readBit bytes)) := by
  induction indices with
  | nil => rfl
  | cons i rest ih =>
    have hbyte := getElem?_of_lt (h i List.mem_cons_self)
    rw [RawBits.setAmong,hbyte,ih fun j hj => h j (List.mem_cons_of_mem _ hj),List.filter_cons]
    rfl

theorem Bitlist.iterSetIndices_raw (self : Bitlist LIMIT) :
    self.raw.iterSetIndices = some self.iterSetIndices := by
  refine setAmong_eq fun i hi => ?_
  have hlt := List.mem_range.mp hi
  have hsize := self.size
  simp only [raw] at hlt ⊢
  omega

theorem Bitlist.iterSetIndices_eq (self : Bitlist LIMIT) :
    self.iterSetIndices =
      (List.range self.toList.length).filter fun i => self.toList[i]? == some true := by
  rw [iterSetIndices,length_toList]
  refine List.filter_congr fun i hi => ?_
  have hlt : i < self.length := List.mem_range.mp hi
  simp [toList,hlt]

/-- Everything the operations build is a bit list with the invariant. -/
theorem RawBits.Built.exists_bitlist {b : RawBits} (h : Built LIMIT b) :
    ∃ bl : Bitlist LIMIT, bl.raw = b := by
  have hmap : ∀ {x : Except TypesError (Bitlist LIMIT)} {b : RawBits},
      x.map Bitlist.raw = .ok b → ∃ bl : Bitlist LIMIT, bl.raw = b := by
    intro x b hx
    cases x with
    | error e => cases hx
    | ok bl => exact ⟨bl,Except.ok.inj hx⟩
  induction h with
  | new => exact ⟨Bitlist.new,rfl⟩
  | withLength h => exact hmap (withLength_raw _ ▸ h)
  | fromBytes h =>
    obtain ⟨bl,-,hraw⟩ := fromBytes_raw.mp h
    exact ⟨bl,hraw⟩
  | set _ h ih =>
    obtain ⟨bl,rfl⟩ := ih
    rw [bl.set_raw] at h
    exact hmap (Option.some.inj h)

/-- What the operations build behaves as a list of at most `LIMIT` booleans. -/
theorem bitlist_refines_list {b : RawBits} (h : RawBits.Built LIMIT b) :
    (b.bytes.length = (b.length+7)/8 ∧ b.length ≤ LIMIT ∧
        ∀ i, b.length ≤ i → readBit b.bytes i = false) ∧
      (b.len = b.bits.length ∧ b.countOnes = b.bits.count true ∧
        b.iterSetIndices =
          some ((List.range b.bits.length).filter fun i => b.bits[i]? == some true) ∧
        ∀ index, b.get index = some b.bits[index]?) ∧
      (∀ index value,
        (index < LIMIT → ∃ b', RawBits.set LIMIT b index value = some (.ok b') ∧
          b'.bits = (b.bits ++ List.replicate (index+1 - b.bits.length) false).set index value) ∧
        (LIMIT ≤ index → RawBits.set LIMIT b index value =
          some (.error (.bitlistLimitExceeded LIMIT index)))) ∧
      (∀ c, RawBits.Built LIMIT c → (b = c ↔ b.bits = c.bits)) ∧
      (∃ data, b.asBytes = some data ∧ RawBits.fromBytes LIMIT data = .ok b) ∧
      ∀ data c, RawBits.fromBytes LIMIT data = .ok c → c.asBytes = some data := by
  obtain ⟨bl,rfl⟩ := h.exists_bitlist
  refine ⟨⟨bl.size,bl.within,bl.padding⟩,⟨bl.length_toList.symm,bl.countOnes_raw,?_,
    fun index => ?_⟩,fun index value => ⟨fun hindex => ?_,fun hindex => ?_⟩,
    fun c hc => ⟨fun heq => by rw [heq],fun hbits => ?_⟩,
    ⟨bl.asBytes,bl.asBytes_raw,fromBytes_raw.mpr ⟨bl,rfl,rfl⟩⟩,fun data c hc => ?_⟩
  · rw [bl.iterSetIndices_raw,bl.iterSetIndices_eq,bl.bits_raw]
  · rw [bl.get_raw,bl.get_eq,bl.bits_raw]
  · obtain ⟨bl',hset⟩ := bl.set_ok value hindex
    refine ⟨bl'.raw,by rw [bl.set_raw,hset]; rfl,?_⟩
    rw [bl.bits_raw,bl'.bits_raw,Bitlist.toList_write hset,bl.length_toList]
  · rw [bl.set_raw,Bitlist.set,dif_pos hindex]
    rfl
  · obtain ⟨bl',rfl⟩ := hc.exists_bitlist
    rw [Bitlist.toList_injective hbits]
  · obtain ⟨bl',rfl,rfl⟩ := fromBytes_raw.mp hc
    exact bl'.asBytes_raw

/-- Bits 0 and 2 of at most 8. -/
theorem bitlist_refines_list_three : RawBits.fromBytes 8 [0x0d] = .ok ⟨[0x05],3⟩ ∧
    (⟨[0x05],3⟩ : RawBits).asBytes = some [0x0d] ∧ (⟨[0x05],3⟩ : RawBits).countOnes = 2 := by
  have hread : RawBits.fromBytes 8 [0x0d] = .ok ⟨[0x05],3⟩ := by decide
  obtain ⟨-,⟨-,hcount,-⟩,-,-,-,hbytes⟩ := bitlist_refines_list (.fromBytes hread)
  exact ⟨hread,hbytes _ _ hread,hcount.trans (by decide)⟩

end

end Devnet.Types
