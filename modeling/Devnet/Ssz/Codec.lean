import Devnet.Lib.Wire
import Devnet.Types.ByteArrays

/-!
The SSZ codec helpers: reading with a cursor, writing offsets, and the three list formats.
Encoders push onto the end of a buffer. A slice out of range is a panic in the source, so the
readers, which check nothing themselves, can panic here too; the containers built from them
are shown not to.
-/

set_option autoImplicit false

namespace Devnet.Ssz
open Machine Wire Devnet.Types

inductive DecodeError where
  | invalidByteLength (len expected : Nat)
  | offsetIntoFixedPortion (offset : Nat)
  | offsetsAreDecreasing (offset : Nat)
  | offsetOutOfBounds (offset : Nat)
  | zeroLengthItem
  | bytesInvalid (message : String)
  deriving DecidableEq, Repr

abbrev Decoded (α : Type) := Outcome DecodeError α

class Encode (α : Type) where
  sszBytesLen : α → Nat
  sszAppend : α → List UInt8 → List UInt8

export Encode (sszBytesLen sszAppend)

/-- A variable-length type takes the four bytes of an offset in a fixed portion. -/
class Decode (α : Type) where
  sszFixedLen : Nat := 4
  fromSszBytes : List UInt8 → Decoded α

export Decode (sszFixedLen fromSszBytes)

def encode {α : Type} [Encode α] (value : α) : List UInt8 := sszAppend value []

/-- What a codec for a type of fixed length owes: the values and the byte strings of that
length stand for each other. -/
class LawfulFixed (α : Type) [Encode α] [Decode α] : Prop where
  appends : ∀ (x : α) (buf : List UInt8), sszAppend x buf = buf ++ encode x
  bytesLen : ∀ x : α, sszBytesLen x = sszFixedLen α
  length : ∀ x : α, (encode x).length = sszFixedLen α
  positive : 0 < sszFixedLen α
  accepts : ∀ (bytes : List UInt8) (x : α), fromSszBytes bytes = .ok x ↔ encode x = bytes
  safe : ∀ bytes : List UInt8, Safe (fromSszBytes bytes : Decoded α)

/-- The same for a type of variable length: accepted are the encodings of the values within
the limits, and nothing else. -/
structure Lawful (α : Type) [Encode α] [Decode α] (Within : α → Prop) : Prop where
  appends : ∀ (x : α) (buf : List UInt8), sszAppend x buf = buf ++ encode x
  bytesLen : ∀ x : α, sszBytesLen x = (encode x).length
  accepts : ∀ (bytes : List UInt8) (x : α),
    fromSszBytes bytes = .ok x ↔ Within x ∧ encode x = bytes
  safe : ∀ bytes : List UInt8, Safe (fromSszBytes bytes : Decoded α)

instance : Encode UInt64 := ⟨fun _ => 8,fun value buf => buf ++ leBytes 8 value.toNat⟩

instance : Decode UInt64 where
  sszFixedLen := 8
  fromSszBytes bytes :=
    if bytes.length ≠ 8 then refuse (.invalidByteLength bytes.length 8)
    else .ok (UInt64.ofNat (ofLeBytes bytes))

theorem encode_u64 (value : UInt64) : encode value = leBytes 8 value.toNat := rfl

instance : LawfulFixed UInt64 where
  appends value buf := rfl
  bytesLen _ := rfl
  length value := by simp [encode_u64,sszFixedLen]
  positive := by decide
  accepts bytes value := by
    have hlt := value.toNat_lt
    simp only [fromSszBytes,refuse_guard_ok,not_not,Except.ok.injEq,encode_u64]
    constructor
    · rintro ⟨hlen,rfl⟩
      have hbytes := ofLeBytes_lt bytes
      rw [leBytes_eq_iff (by simpa using hlt) hlen,UInt64.toNat_ofNat']
      rw [hlen] at hbytes
      omega
    · rintro rfl
      refine ⟨by simp,?_⟩
      rw [ofLeBytes_leBytes (by simpa using hlt),UInt64.ofNat_toNat]
  safe bytes := Safe.guard fun _ => safe_ok _

def bytesPerLengthOffset : Nat := 4

@[simp] theorem bytesPerLengthOffset_eq : bytesPerLengthOffset = 4 := by decide

def ensureLen (bytes : List UInt8) (expected : Nat) : Decoded Unit :=
  if bytes.length = expected then .ok () else refuse (.invalidByteLength bytes.length expected)

/-- The caller has to see to it that the slice covers the read. -/
def readFixed {α : Type} [Decode α] (bytes : List UInt8) (cursor : Nat) : Decoded (α × Nat) := do
  let len := sszFixedLen α
  let value ← fromSszBytes (← slice bytes cursor (cursor+len))
  .ok (value,cursor+len)

/-- `copy_from_slice` into an array of `N` bytes panics on another length. -/
def copyFromSlice (N : Nat) (src : List UInt8) : Decoded (ByteVector N) :=
  if h : src.length = N then .ok ⟨src,h⟩ else panicked

def readByteArray (N : Nat) (bytes : List UInt8) (cursor : Nat) : Decoded (ByteVector N × Nat) := do
  let arr ← copyFromSlice N (← slice bytes cursor (cursor+N))
  .ok (arr,cursor+N)

/-- Saturates at `u32::MAX`. -/
def writeOffset (buf : List UInt8) (value : Nat) : List UInt8 :=
  buf ++ leBytes 4 (min value (2^32-1))

def decodeU32 (bytes : List UInt8) : Decoded Nat :=
  if bytes.length ≠ 4 then refuse (.invalidByteLength bytes.length 4) else .ok (ofLeBytes bytes)

def readOffset (bytes : List UInt8) (cursor : Nat) : Decoded (Nat × Nat) := do
  let value ← decodeU32 (← slice bytes cursor (cursor+bytesPerLengthOffset))
  .ok (value,cursor+bytesPerLengthOffset)

theorem ensureLen_ok {bytes : List UInt8} {expected : Nat} {u : Unit} :
    ensureLen bytes expected = .ok u ↔ bytes.length = expected := by
  by_cases h : bytes.length = expected
  · simp [ensureLen,h]
  · simp [ensureLen,h,refuse]

theorem safe_ensureLen (bytes : List UInt8) (expected : Nat) : Safe (ensureLen bytes expected) := by
  unfold ensureLen
  split
  · exact safe_ok ()
  · exact safe_refuse _

section Reading
variable {bytes : List UInt8} {cursor : Nat}

theorem readFixed_ok {α : Type} [Encode α] [Decode α] [LawfulFixed α] {x : α} {next : Nat} :
    readFixed bytes cursor = .ok (x,next) ↔ cursor + sszFixedLen α ≤ bytes.length ∧
      encode x = field bytes cursor (sszFixedLen α) ∧ cursor + sszFixedLen α = next := by
  simp [readFixed,slice_ok,except_bind_ok,LawfulFixed.accepts,and_assoc]

theorem safe_readFixed_bind {α β : Type} [Encode α] [Decode α] [LawfulFixed α]
    {f : α × Nat → Decoded β} (h : cursor + sszFixedLen α ≤ bytes.length)
    (hf : ∀ x : α, Safe (f (x,cursor + sszFixedLen α))) : Safe (readFixed bytes cursor >>= f) := by
  refine Safe.bind ?_ fun a ha => ?_
  · refine (safe_slice (Nat.le_add_right _ _) h).bind fun part _ => ?_
    exact (LawfulFixed.safe part).bind fun _ _ => safe_ok _
  · obtain ⟨-,-,hnext⟩ := readFixed_ok.mp ha
    rw [show a = (a.1,cursor + sszFixedLen α) from Prod.ext rfl hnext.symm]
    exact hf a.1

theorem copyFromSlice_ok {N : Nat} {src : List UInt8} {arr : ByteVector N} :
    copyFromSlice N src = .ok arr ↔ arr.bytes = src := by
  by_cases h : src.length = N
  · simp only [copyFromSlice,h,dite_true,Except.ok.injEq]
    exact ⟨fun harr => harr ▸ rfl,fun hbytes => ByteVector.ext_bytes hbytes.symm⟩
  · simp only [copyFromSlice,h,dite_false,panicked,reduceCtorEq,false_iff]
    rintro rfl
    exact h arr.size

theorem safe_copyFromSlice {N : Nat} {src : List UInt8} (h : src.length = N) :
    Safe (copyFromSlice N src) := by
  rw [copyFromSlice,dif_pos h]
  exact safe_ok _

theorem readByteArray_ok {N : Nat} {arr : ByteVector N} {next : Nat} :
    readByteArray N bytes cursor = .ok (arr,next) ↔ cursor+N ≤ bytes.length ∧
      arr.bytes = field bytes cursor N ∧ cursor+N = next := by
  simp [readByteArray,slice_ok,except_bind_ok,copyFromSlice_ok,and_assoc]

theorem safe_readByteArray_bind {N : Nat} {β : Type} {f : ByteVector N × Nat → Decoded β}
    (h : cursor+N ≤ bytes.length) (hf : ∀ arr, Safe (f (arr,cursor+N))) :
    Safe (readByteArray N bytes cursor >>= f) := by
  refine Safe.bind ?_ fun a ha => ?_
  · refine (safe_slice (Nat.le_add_right _ _) h).bind fun part hpart => ?_
    have hlen : part.length = N := by rw [length_of_slice hpart,Nat.add_sub_cancel_left]
    exact (safe_copyFromSlice hlen).bind fun _ _ => safe_ok _
  · obtain ⟨-,-,hnext⟩ := readByteArray_ok.mp ha
    rw [show a = (a.1,cursor+N) from Prod.ext rfl hnext.symm]
    exact hf a.1

theorem decodeU32_ok {b : List UInt8} {value : Nat} :
    decodeU32 b = .ok value ↔ value < 2^32 ∧ leBytes 4 value = b := by
  simp only [decodeU32,refuse_guard_ok,not_not,Except.ok.injEq]
  constructor
  · rintro ⟨hlen,rfl⟩
    have hlt := ofLeBytes_lt b
    have hback := leBytes_ofLeBytes b
    rw [hlen] at hlt hback
    exact ⟨hlt,hback⟩
  · rintro ⟨hlt,rfl⟩
    exact ⟨by simp,ofLeBytes_leBytes hlt⟩

theorem readOffset_ok {value next : Nat} :
    readOffset bytes cursor = .ok (value,next) ↔ cursor+4 ≤ bytes.length ∧ value < 2^32 ∧
      leBytes 4 value = field bytes cursor 4 ∧ cursor+4 = next := by
  simp [readOffset,slice_ok,except_bind_ok,decodeU32_ok,and_assoc,
    and_left_comm]

theorem safe_readOffset_bind {β : Type} {f : Nat × Nat → Decoded β} (h : cursor+4 ≤ bytes.length)
    (hf : ∀ value, Safe (f (value,cursor+4))) : Safe (readOffset bytes cursor >>= f) := by
  refine Safe.bind ?_ fun a ha => ?_
  · refine (safe_slice (Nat.le_add_right _ _) h).bind fun part _ => ?_
    exact (Safe.guard fun _ => safe_ok _ : Safe (decodeU32 part)).bind fun _ _ => safe_ok _
  · obtain ⟨-,-,-,hnext⟩ := readOffset_ok.mp ha
    rw [show a = (a.1,cursor+4) from Prod.ext rfl hnext.symm]
    exact hf a.1

end Reading

theorem writeOffset_eq {buf : List UInt8} {value : Nat} (h : value < 2^32) :
    writeOffset buf value = buf ++ leBytes 4 value := by
  rw [writeOffset,Nat.min_eq_left (Nat.le_sub_one_of_lt h)]

/-- A flat concatenation: whole elements only, and not more than `max` of them. -/
def decodeChunks {α : Type} (kind : String) (elemLen : Nat) (item : List UInt8 → Decoded α)
    (bytes : List UInt8) (max : Nat) : Decoded (List α) :=
  if elemLen = 0 then refuse .zeroLengthItem
  else if bytes.length % elemLen ≠ 0 then
    refuse (.bytesInvalid (kind ++ " bytes (" ++ toString bytes.length ++
      ") not divisible by element size (" ++ toString elemLen ++ ")"))
  else if max < bytes.length/elemLen then
    refuse (.bytesInvalid (kind ++ " length (" ++ toString (bytes.length/elemLen) ++
      ") exceeds max (" ++ toString max ++ ")"))
  else (List.range (bytes.length/elemLen)).mapM fun i => do
    item (← slice bytes (i*elemLen) (i*elemLen+elemLen))

def decodeFixedElementList (α : Type) [Decode α] : List UInt8 → Nat → Decoded (List α) :=
  decodeChunks "list" (sszFixedLen α) fromSszBytes

def encodeFixedElementList {α : Type} [Encode α] (items : List α) (buf : List UInt8) : List UInt8 :=
  items.foldl (fun buf item => sszAppend item buf) buf

def decodeByteVectorList (N : Nat) : List UInt8 → Nat → Decoded (List (ByteVector N)) :=
  decodeChunks "byte-vector list" N (copyFromSlice N)

def encodeByteVectorList {N : Nat} (items : List (ByteVector N)) (buf : List UInt8) : List UInt8 :=
  items.foldl (fun buf item => buf ++ item.bytes) buf

theorem foldl_append {α : Type} {push : List UInt8 → α → List UInt8} {part : α → List UInt8}
    (h : ∀ buf x, push buf x = buf ++ part x) (items : List α) (buf : List UInt8) :
    items.foldl push buf = buf ++ (items.map part).flatten := by
  induction items generalizing buf with
  | nil => simp
  | cons x items ih => simp [ih,h]

theorem encodeFixedElementList_eq {α : Type} [Encode α] [Decode α] [LawfulFixed α] (items : List α)
    (buf : List UInt8) :
    encodeFixedElementList items buf = buf ++ (items.map encode).flatten :=
  foldl_append (fun buf x => LawfulFixed.appends x buf) items buf

theorem encodeByteVectorList_eq {N : Nat} (items : List (ByteVector N)) (buf : List UInt8) :
    encodeByteVectorList items buf = buf ++ (items.map ByteVector.bytes).flatten :=
  foldl_append (fun _ _ => rfl) items buf

section Chunks
variable {α : Type} {kind : String} {elemLen max : Nat} {item : List UInt8 → Decoded α}
  {part : α → List UInt8} {bytes : List UInt8} {xs : List α}

theorem decodeChunks_ok (hpos : 0 < elemLen) (hlen : ∀ x, (part x).length = elemLen)
    (hitem : ∀ b x, item b = .ok x ↔ part x = b) :
    decodeChunks kind elemLen item bytes max = .ok xs ↔
      xs.length ≤ max ∧ (xs.map part).flatten = bytes := by
  have hparts : ∀ p ∈ xs.map part, p.length = elemLen := by simpa using fun x _ => hlen x
  simp only [decodeChunks,refuse_guard_ok,not_not,Nat.pos_iff_ne_zero.mp hpos,not_false_eq_true,
    true_and,Nat.not_lt]
  have hread : bytes.length % elemLen = 0 →
      ((List.range (bytes.length/elemLen)).mapM (fun i => do
        item (← slice bytes (i*elemLen) (i*elemLen+elemLen))) = .ok xs ↔
          (xs.map part).flatten = bytes) := by
    intro hmod
    have hbytes : bytes.length = bytes.length/elemLen*elemLen :=
      (Nat.div_mul_cancel (Nat.dvd_of_mod_eq_zero hmod)).symm
    rw [mapM_ok_iff (P := fun _ => True) (g := fun i => field bytes (i*elemLen) elemLen)]
    · simpa [chunks] using eq_chunks_iff hparts hbytes hpos
    · intro i hi x
      have hfits : i*elemLen+elemLen ≤ bytes.length := by
        rw [← Nat.succ_mul,hbytes]
        exact Nat.mul_le_mul_right _ (List.mem_range.mp hi)
      simp [slice_field hfits,bind,Except.bind,hitem]
  constructor
  · rintro ⟨hmod,hmax,hxs⟩
    have hflat := (hread hmod).mp hxs
    refine ⟨?_,hflat⟩
    rw [← hflat,length_flatten_eq hparts,List.length_map,Nat.mul_div_cancel _ hpos] at hmax
    exact hmax
  · rintro ⟨hmax,hflat⟩
    have hcount : bytes.length = xs.length*elemLen := by
      rw [← hflat,length_flatten_eq hparts,List.length_map]
    have hmod : bytes.length % elemLen = 0 := by rw [hcount,Nat.mul_mod_left]
    exact ⟨hmod,by rwa [hcount,Nat.mul_div_cancel _ hpos],(hread hmod).mpr hflat⟩

theorem safe_decodeChunks (hitem : ∀ b, b.length = elemLen → Safe (item b)) :
    Safe (decodeChunks kind elemLen item bytes max) := by
  refine Safe.guard fun _ => Safe.guard fun hmod => Safe.guard fun _ => Safe.mapM fun i hi => ?_
  have hfits : i*elemLen+elemLen ≤ bytes.length := by
    rw [← Nat.succ_mul,← Nat.div_mul_cancel (Nat.dvd_of_mod_eq_zero (not_not.mp hmod))]
    exact Nat.mul_le_mul_right _ (List.mem_range.mp hi)
  refine (safe_slice (Nat.le_add_right _ _) hfits).bind fun part hpart => hitem part ?_
  rw [length_of_slice hpart,Nat.add_sub_cancel_left]

end Chunks

theorem decodeFixedElementList_ok {α : Type} [Encode α] [Decode α] [LawfulFixed α]
    {bytes : List UInt8} {max : Nat} {xs : List α} :
    decodeFixedElementList α bytes max = .ok xs ↔
      xs.length ≤ max ∧ (xs.map encode).flatten = bytes :=
  decodeChunks_ok LawfulFixed.positive LawfulFixed.length LawfulFixed.accepts

theorem safe_decodeFixedElementList {α : Type} [Encode α] [Decode α] [LawfulFixed α]
    (bytes : List UInt8) (max : Nat) : Safe (decodeFixedElementList α bytes max) :=
  safe_decodeChunks fun b _ => LawfulFixed.safe b

theorem decodeByteVectorList_ok {N : Nat} (hpos : 0 < N) {bytes : List UInt8} {max : Nat}
    {xs : List (ByteVector N)} :
    decodeByteVectorList N bytes max = .ok xs ↔
      xs.length ≤ max ∧ (xs.map ByteVector.bytes).flatten = bytes :=
  decodeChunks_ok hpos ByteVector.size fun _ _ => copyFromSlice_ok

theorem length_flatten_bytes {N : Nat} (items : List (ByteVector N)) :
    (items.map ByteVector.bytes).flatten.length = items.length*N := by
  rw [@length_flatten_eq _ N _ (by simp [ByteVector.size]),List.length_map]

theorem safe_decodeByteVectorList (N : Nat) (bytes : List UInt8) (max : Nat) :
    Safe (decodeByteVectorList N bytes max) :=
  safe_decodeChunks fun _ h => safe_copyFromSlice h

end Devnet.Ssz
