import Devnet.Ssz.Codec

/-!
Lists whose elements vary in length: a table with the offset of every element, then the
elements. The encoder fills the table in as it goes and panics at an offset that does not fit
in 32 bits; the decoder wants the offsets ordered and the first one right behind the table.
-/

set_option autoImplicit false

namespace Devnet.Ssz
open Machine Wire Devnet.Types

abbrev Encoded := Outcome Empty (List UInt8)

def copyInto (buf : List UInt8) (pos : Nat) (src : List UInt8) : Encoded :=
  if pos+src.length ≤ buf.length then .ok (buf.take pos ++ src ++ buf.drop (pos+src.length))
  else panicked

def appendElements {α : Type} [Encode α] (prefixStart : Nat) :
    Nat → Nat → List α → List UInt8 → Encoded
  | _, _, [], buf => .ok buf
  | i, currentOffset, item :: items, buf =>
    if currentOffset < 2^32 then do
      let offsetPos := prefixStart+i*bytesPerLengthOffset
      let buf ← copyInto buf offsetPos (leBytes 4 currentOffset)
      let before := buf.length
      let buf := sszAppend item buf
      appendElements prefixStart (i+1) (currentOffset+(buf.length - before)) items buf
    else panicked

def encodeVariableElementList {α : Type} [Encode α] (items : List α) (buf : List UInt8) :
    Encoded :=
  let n := items.length
  if n = 0 then .ok buf
  else
    let prefixStart := buf.length
    let prefixLen := n*bytesPerLengthOffset
    appendElements prefixStart 0 prefixLen items (buf ++ List.replicate prefixLen 0)

/-- The helper of the list decoder, which takes a position instead of a cursor. -/
def Lists.readOffset (bytes : List UInt8) (pos : Nat) : Decoded Nat :=
  let stop := pos+bytesPerLengthOffset
  if 2^64 ≤ stop then refuse (.bytesInvalid s!"offset position {pos} overflows")
  else if bytes.length < stop then
    refuse (.bytesInvalid s!"offset read out of bounds at {pos}")
  else do
    let arr ← copyFromSlice bytesPerLengthOffset (← slice bytes pos stop)
    .ok (ofLeBytes arr.bytes)

def Lists.readOffsets (bytes : List UInt8) (prev : Nat) : List Nat → Decoded (List Nat)
  | [] => .ok []
  | i :: rest => do
    let off ← Lists.readOffset bytes (i*bytesPerLengthOffset)
    if off < prev ∨ bytes.length < off then
      refuse (.bytesInvalid s!"variable-element list: non-monotonic offset {off} at index {i}")
    else do
      let offsets ← Lists.readOffsets bytes off rest
      .ok (off :: offsets)

def decodeVariableElementList (α : Type) [Decode α] (bytes : List UInt8) (max : Nat) :
    Decoded (List α) :=
  let len := bytes.length
  if len = 0 then .ok []
  else if len < bytesPerLengthOffset then
    refuse (.bytesInvalid s!"variable-element list too short for first offset: {len}")
  else do
    let firstOffset ← Lists.readOffset bytes 0
    if firstOffset = 0 ∨ firstOffset % bytesPerLengthOffset ≠ 0 then
      refuse (.bytesInvalid s!"variable-element list: malformed first offset {firstOffset}")
    else if len < firstOffset then
      refuse (.bytesInvalid
        s!"variable-element list: first offset {firstOffset} exceeds bytes ({len})")
    else
      let count := firstOffset/bytesPerLengthOffset
      if max < count then
        refuse (.bytesInvalid s!"variable-element list length ({count}) exceeds max ({max})")
      else do
        let offsets ← Lists.readOffsets bytes firstOffset (List.range' 1 (count - 1))
        (windows (firstOffset :: (offsets ++ [len]))).mapM fun window => do
          fromSszBytes (← slice bytes window.1 window.2)

section Encoding
variable {α : Type} [Encode α]

theorem copyInto_middle (front src old back : List UInt8) (h : old.length = src.length) :
    copyInto (front ++ (old ++ back)) front.length src = .ok (front ++ (src ++ back)) := by
  rw [copyInto,if_pos (by simp; omega),List.take_left,← h,← List.drop_drop,List.drop_left,
    List.drop_left,List.append_assoc]

theorem appendElements_cons (happend : ∀ (x : α) buf, sszAppend x buf = buf ++ encode x)
    {prefixStart i offset : Nat} {front : List UInt8} (hfront : front.length = prefixStart+i*4)
    (hoffset : offset < 2^32) (item : α) (items : List α) (back : List UInt8) :
    appendElements prefixStart i offset (item :: items) (front ++ (List.replicate 4 0 ++ back)) =
      appendElements prefixStart (i+1) (offset+(encode item).length) items
        (front ++ leBytes 4 offset ++ (back ++ encode item)) := by
  have hcopy := copyInto_middle front (leBytes 4 offset) (List.replicate 4 0) back (by simp)
  rw [hfront] at hcopy
  rw [appendElements,if_pos hoffset]
  change (copyInto _ (prefixStart+i*4) _ >>= _) = _
  rw [hcopy]
  change appendElements prefixStart (i+1) _ items (sszAppend item _) = _
  rw [happend,List.length_append,Nat.add_sub_cancel_left]
  simp only [List.append_assoc]

/-- What the loop has written so far stands in front of the part of the table that is still
zero, and the payloads behind it. -/
theorem appendElements_eq (happend : ∀ (x : α) buf, sszAppend x buf = buf ++ encode x)
    {prefixStart i : Nat} {front : List UInt8} (hfront : front.length = prefixStart+i*4)
    (offset : Nat) (items : List α) (payloads : List UInt8) :
    appendElements prefixStart i offset items
        (front ++ (List.replicate (items.length*4) 0 ++ payloads)) =
      if ∀ o ∈ offsetsFrom offset (items.map encode), o < 2^32 then
        .ok (front ++ (table 4 offset (items.map encode) ++
          (payloads ++ (items.map encode).flatten)))
      else panicked := by
  induction items generalizing i front offset payloads with
  | nil => simp [appendElements,offsetsFrom,table]
  | cons item items ih =>
    by_cases hoffset : offset < 2^32
    · have hzeros : List.replicate ((item :: items).length*4) (0 : UInt8) =
          List.replicate 4 0 ++ List.replicate (items.length*4) 0 := by
        rw [List.replicate_append_replicate,List.length_cons,Nat.succ_mul,Nat.add_comm]
      have hnext : (front ++ leBytes 4 offset).length = prefixStart+(i+1)*4 := by
        simp [hfront]
        omega
      rw [hzeros,List.append_assoc,appendElements_cons happend hfront hoffset,
        List.append_assoc (List.replicate _ _),ih hnext]
      have hall : (∀ o ∈ offsetsFrom offset ((item :: items).map encode), o < 2^32) ↔
          ∀ o ∈ offsetsFrom (offset+(encode item).length) (items.map encode), o < 2^32 :=
        List.forall_mem_cons.trans (and_iff_right hoffset)
      simp only [hall]
      simp [offsetsFrom,table]
    · rw [appendElements,if_neg hoffset,if_neg]
      exact fun h => hoffset (h offset (by simp [offsetsFrom]))

theorem encodeVariableElementList_eq (happend : ∀ (x : α) buf, sszAppend x buf = buf ++ encode x)
    (items : List α) (buf : List UInt8) :
    encodeVariableElementList items buf =
      if ∀ o ∈ offsetsFrom (items.length*4) (items.map encode), o < 2^32 then
        .ok (buf ++ (table 4 (items.length*4) (items.map encode) ++ (items.map encode).flatten))
      else panicked := by
  have hloop := appendElements_eq happend (show buf.length = buf.length+0*4 by omega)
    (items.length*4) items []
  rw [List.append_nil,List.nil_append] at hloop
  rw [← hloop,encodeVariableElementList]
  cases items with
  | nil => simp [appendElements]
  | cons item items => rfl

end Encoding

section Decoding
variable {bytes : List UInt8}

theorem Lists.readOffset_ok {pos value : Nat} :
    Lists.readOffset bytes pos = .ok value ↔ pos+4 < 2^64 ∧ pos+4 ≤ bytes.length ∧
      value < 2^32 ∧ leBytes 4 value = field bytes pos 4 := by
  simp only [Lists.readOffset,bytesPerLengthOffset_eq,refuse_guard_ok,except_bind_ok,slice_ok,
    copyFromSlice_ok,Nat.add_sub_cancel_left,Nat.not_le,Nat.not_lt,Except.ok.injEq]
  constructor
  · rintro ⟨hpos,hlen,_,⟨-,-,rfl⟩,arr,harr,rfl⟩
    have hsize : arr.bytes.length = 4 := arr.size
    refine ⟨hpos,hlen,?_,?_⟩
    · simpa [hsize] using ofLeBytes_lt arr.bytes
    · have hback := leBytes_ofLeBytes arr.bytes
      rw [hsize] at hback
      exact hback.trans harr
  · rintro ⟨hpos,hlen,hlt,hvalue⟩
    refine ⟨hpos,hlen,_,⟨Nat.le_add_right _ _,hlen,rfl⟩,⟨leBytes 4 value,length_leBytes 4 value⟩,
      hvalue,ofLeBytes_leBytes hlt⟩

theorem Lists.safe_readOffset (pos : Nat) : Safe (Lists.readOffset bytes pos) := by
  refine Safe.guard fun _ => Safe.guard fun hlen => ?_
  refine (safe_slice (Nat.le_add_right _ _) (Nat.not_lt.mp hlen)).bind fun part hpart => ?_
  have hsize : part.length = 4 := by simp [length_of_slice hpart,bytesPerLengthOffset]
  exact (safe_copyFromSlice hsize).bind fun arr _ => safe_ok _

theorem Lists.readOffsets_ok {prev i count : Nat} {offsets : List Nat}
    (hfits : (i+count)*4 ≤ bytes.length) (hsmall : (i+count)*4 < 2^64)
    (hprev : prev ≤ bytes.length) :
    Lists.readOffsets bytes prev (List.range' i count) = .ok offsets ↔
      offsets.length = count ∧ Ascends prev offsets bytes.length ∧ (∀ o ∈ offsets, o < 2^32) ∧
        (offsets.map (leBytes 4)).flatten = field bytes (i*4) (count*4) := by
  induction count generalizing prev i offsets with
  | zero =>
    cases offsets with
    | nil => simpa [Lists.readOffsets,Ascends,field] using hprev
    | cons o offsets => simp [Lists.readOffsets]
  | succ count ih =>
    have hpos : i*4+4 ≤ bytes.length ∧ i*4+4 < 2^64 := by constructor <;> omega
    have hfield : field bytes (i*4) ((count+1)*4) =
        field bytes (i*4) 4 ++ field bytes ((i+1)*4) (count*4) := by
      rw [Nat.succ_mul,Nat.add_comm (count*4),field_add,Nat.succ_mul]
    have hentry : (field bytes (i*4) 4).length = 4 := length_field hpos.1
    rw [List.range'_succ,hfield]
    simp only [Lists.readOffsets,bytesPerLengthOffset_eq,except_bind_ok,Lists.readOffset_ok,
      refuse_guard_ok,not_or,Nat.not_lt,Except.ok.injEq]
    constructor
    · rintro ⟨o,⟨-,-,hlt,ho⟩,⟨hge,hle⟩,rest,hrest,rfl⟩
      obtain ⟨hlen,hascends,hlts,hflatten⟩ :=
        (ih (by omega) (by omega) hle).mp hrest
      refine ⟨by rw [List.length_cons,hlen],⟨hge,hascends⟩,List.forall_mem_cons.mpr ⟨hlt,hlts⟩,?_⟩
      rw [List.map_cons,List.flatten_cons,ho,hflatten]
    · rintro ⟨hlen,hascends,hlts,hflatten⟩
      cases offsets with
      | nil => simp at hlen
      | cons o rest =>
        obtain ⟨hlt,hlts⟩ := List.forall_mem_cons.mp hlts
        obtain ⟨ho,hflatten⟩ := List.append_inj hflatten (by rw [length_leBytes,hentry])
        have hle := hascends.2.le
        have hrest := (ih (by omega) (by omega) hle).mpr
          ⟨Nat.succ.inj hlen,hascends.2,hlts,hflatten⟩
        exact ⟨o,⟨hpos.2,hpos.1,hlt,ho⟩,⟨hascends.1,hle⟩,rest,hrest,rfl⟩

theorem Lists.safe_readOffsets (prev : Nat) (indices : List Nat) :
    Safe (Lists.readOffsets bytes prev indices) := by
  induction indices generalizing prev with
  | nil => exact safe_ok []
  | cons i indices ih =>
    refine (Lists.safe_readOffset _).bind fun off _ => Safe.guard fun _ => ?_
    exact (ih off).bind fun offsets _ => safe_ok _

/-- The offsets of a list the decoder accepts. -/
structure Lists.Indexed (bytes : List UInt8) (first : Nat) (rest : List Nat) : Prop where
  first_pos : 0 < first
  first_eq : first = (rest.length+1)*4
  first_le : first ≤ bytes.length
  ascends : Ascends first rest bytes.length
  small : ∀ o ∈ first :: rest, o < 2^32
  entries : ((first :: rest).map (leBytes 4)).flatten = field bytes 0 first

variable {α : Type} [Encode α] [Decode α] {Within : α → Prop} {max : Nat} {xs : List α}

theorem decodeVariableElementList_cases (h : Lawful α Within) (hbytes : bytes ≠ []) :
    decodeVariableElementList α bytes max = .ok xs ↔ ∃ first rest,
      Lists.Indexed bytes first rest ∧ rest.length+1 ≤ max ∧ (∀ x ∈ xs, Within x) ∧
        xs.map encode = pieces bytes (first :: rest) := by
  have hlen : bytes.length ≠ 0 := by simpa using hbytes
  have hitems : ∀ first rest, Ascends first rest bytes.length →
      ((windows (first :: (rest ++ [bytes.length]))).mapM (fun window => do
          fromSszBytes (← slice bytes window.1 window.2)) = .ok xs ↔
        (∀ x ∈ xs, Within x) ∧ xs.map encode = pieces bytes (first :: rest)) := by
    intro first rest hascends
    rw [← map_windows]
    refine mapM_ok_iff fun window hwindow x => ?_
    obtain ⟨hle,hstop⟩ := windows_in_range hascends window hwindow
    rw [slice_of_le hle hstop]
    exact h.accepts _ x
  simp only [decodeVariableElementList,if_neg hlen,bytesPerLengthOffset_eq,refuse_guard_ok,
    except_bind_ok,Lists.readOffset_ok,not_or,not_not,Nat.not_lt]
  constructor
  · rintro ⟨hshort,first,⟨-,-,hlt,hfirst⟩,⟨hpos,hmod⟩,hle,hmax,rest,hrest,hxs⟩
    have hcount : 1+(first/4-1) = first/4 := by omega
    rw [Lists.readOffsets_ok (by omega) (by omega) hle] at hrest
    obtain ⟨hcount,hascends,hlts,hflatten⟩ := hrest
    have heq : first = (rest.length+1)*4 := by omega
    refine ⟨first,rest,⟨by omega,heq,hle,hascends,List.forall_mem_cons.mpr ⟨hlt,hlts⟩,?_⟩,
      by omega,(hitems first rest hascends).mp hxs⟩
    rw [List.map_cons,List.flatten_cons,hfirst,hflatten,← field_add]
    congr 1
    omega
  · rintro ⟨first,rest,hindexed,hmax,hxs⟩
    have heq := hindexed.first_eq
    have hle := hindexed.first_le
    obtain ⟨hlt,hlts⟩ := List.forall_mem_cons.mp hindexed.small
    have hascends := hindexed.ascends
    have hentries := hindexed.entries
    have hsplit : field bytes 0 first = field bytes 0 4 ++ field bytes (1*4) ((first/4-1)*4) := by
      rw [Nat.one_mul,← Nat.zero_add 4,← field_add]
      congr 1
      omega
    have hentry : (field bytes 0 4).length = 4 := length_field (by omega)
    rw [List.map_cons,List.flatten_cons,hsplit] at hentries
    obtain ⟨hfirst,hflatten⟩ := List.append_inj hentries (by rw [length_leBytes,hentry])
    have hrest : Lists.readOffsets bytes first (List.range' 1 (first/4-1)) = .ok rest :=
      (Lists.readOffsets_ok (by omega) (by omega) hle).mpr ⟨by omega,hascends,hlts,hflatten⟩
    exact ⟨by omega,first,⟨by decide,by omega,hlt,hfirst⟩,⟨by omega,by omega⟩,hle,by omega,rest,
      hrest,(hitems first rest hascends).mpr hxs⟩

theorem Lists.Indexed.layout {first : Nat} {rest : List Nat} {parts : List (List UInt8)}
    (h : Lists.Indexed bytes first rest) (hparts : parts = pieces bytes (first :: rest)) :
    parts.length*4 = first ∧ (∀ o ∈ offsetsFrom first parts, o < 2^32) ∧
      table 4 first parts ++ parts.flatten = bytes := by
  obtain ⟨hoffsets,hflatten⟩ := offsetsFrom_pieces h.ascends
  rw [← hparts] at hoffsets hflatten
  refine ⟨?_,hoffsets ▸ h.small,?_⟩
  · rw [hparts,length_pieces,List.length_cons,← h.first_eq]
  · rw [table,hoffsets,h.entries,hflatten]
    exact List.take_append_drop first bytes

theorem Lists.Indexed.of_layout {parts : List (List UInt8)} (hparts : parts ≠ [])
    (hsmall : ∀ o ∈ offsetsFrom (parts.length*4) parts, o < 2^32)
    (hbytes : table 4 (parts.length*4) parts ++ parts.flatten = bytes) :
    ∃ rest, Lists.Indexed bytes (parts.length*4) rest ∧ rest.length+1 = parts.length ∧
      parts = pieces bytes (parts.length*4 :: rest) := by
  have hpos : 0 < parts.length := List.length_pos_iff.mpr hparts
  have hle : parts.length*4 ≤ bytes.length := by simp [← hbytes]
  obtain ⟨htable,hflatten⟩ := append_eq_iff.mp hbytes
  rw [length_table] at htable hflatten
  obtain ⟨rest,hoffsets,hascends,hpieces⟩ := (pieces_iff hparts hle).mp ⟨rfl,hflatten⟩
  rw [hoffsets] at hpieces hsmall
  have hlen := congrArg List.length hoffsets
  rw [length_offsetsFrom,List.length_cons] at hlen
  rw [table,hoffsets] at htable
  exact ⟨rest,⟨by omega,by rw [hlen],hle,hascends,hsmall,htable⟩,hlen.symm,hpieces.symm⟩

/-- The decoder accepts the encodings of the lists within the limits, and nothing else. -/
theorem decodeVariableElementList_ok (h : Lawful α Within) :
    decodeVariableElementList α bytes max = .ok xs ↔
      (xs.length ≤ max ∧ ∀ x ∈ xs, Within x) ∧ encodeVariableElementList xs [] = .ok bytes := by
  have hencode : encodeVariableElementList xs [] = .ok bytes ↔
      (∀ o ∈ offsetsFrom (xs.length*4) (xs.map encode), o < 2^32) ∧
        table 4 (xs.length*4) (xs.map encode) ++ (xs.map encode).flatten = bytes := by
    rw [encodeVariableElementList_eq h.appends]
    split <;> simp_all [panicked]
  rw [hencode]
  by_cases hbytes : bytes = []
  · subst hbytes
    cases xs with
    | nil => simp [decodeVariableElementList,offsetsFrom,table]
    | cons x xs => simp [decodeVariableElementList,offsetsFrom,table,leBytes]
  rw [decodeVariableElementList_cases h hbytes]
  constructor
  · rintro ⟨first,rest,hindexed,hmax,hwithin,hparts⟩
    obtain ⟨hlen,hsmall,hlayout⟩ := hindexed.layout hparts
    rw [List.length_map] at hlen
    have heq := hindexed.first_eq
    rw [hlen]
    exact ⟨⟨by omega,hwithin⟩,hsmall,hlayout⟩
  · rintro ⟨⟨hmax,hwithin⟩,hsmall,hlayout⟩
    have hne : xs.map encode ≠ [] := by
      intro hnil
      simp_all [offsetsFrom,table]
    rw [← List.length_map encode] at hsmall hlayout
    obtain ⟨rest,hindexed,hlen,hparts⟩ := Lists.Indexed.of_layout hne hsmall hlayout
    rw [List.length_map] at hlen
    exact ⟨_,rest,hindexed,by omega,hwithin,hparts⟩

theorem safe_decodeVariableElementList (h : Lawful α Within) (max : Nat) :
    Safe (decodeVariableElementList α bytes max) := by
  rw [decodeVariableElementList]
  simp only [bytesPerLengthOffset_eq]
  split
  · exact safe_ok []
  refine Safe.guard fun hshort => (Lists.safe_readOffset 0).bind fun first hfirst => ?_
  obtain ⟨-,-,hlt,-⟩ := Lists.readOffset_ok.mp hfirst
  refine Safe.guard fun hform => Safe.guard fun hle => Safe.guard fun _ => ?_
  refine (Lists.safe_readOffsets first _).bind fun rest hrest => Safe.mapM fun window hwindow => ?_
  obtain ⟨-,hascends,-⟩ :=
    (Lists.readOffsets_ok (by omega) (by omega) (Nat.not_lt.mp hle)).mp hrest
  obtain ⟨hstart,hstop⟩ := windows_in_range hascends window hwindow
  exact (safe_slice hstart hstop).bind fun part _ => h.safe part

end Decoding

end Devnet.Ssz
