import Devnet.Lib.Effects

/-!
Byte strings on a wire: cutting them up, laying parts out one after another, little-endian
numbers, and the tables of offsets that stand in front of parts of varying length. A decoder
returns a value, turns its input down, or reads where there is nothing; the last is a panic,
and `Safe` says that it does not happen.
-/

set_option autoImplicit false

namespace Wire
open Machine

inductive Failure (ε : Type) where
  | refused (e : ε)
  | panicked
  deriving DecidableEq, Repr

abbrev Outcome (ε α : Type) := Except (Failure ε) α

def refuse {ε α : Type} (e : ε) : Outcome ε α := .error (.refused e)

def panicked {ε α : Type} : Outcome ε α := .error .panicked

def Safe {ε α : Type} (x : Outcome ε α) : Prop := x ≠ panicked

def Failure.map {ε ε' : Type} (f : ε → ε') : Failure ε → Failure ε'
  | .refused e => .refused (f e)
  | .panicked => .panicked

theorem safe_ok {ε α : Type} (a : α) : Safe (.ok a : Outcome ε α) := by simp [Safe,panicked]

theorem safe_refuse {ε α : Type} (e : ε) : Safe (refuse e : Outcome ε α) := by
  simp [Safe,panicked,refuse]

theorem Safe.bind {ε α β : Type} {x : Outcome ε α} {f : α → Outcome ε β} (h : Safe x)
    (hf : ∀ a, x = .ok a → Safe (f a)) : Safe (x >>= f) := by
  intro hpanic
  rcases except_bind_error.mp hpanic with hx | ⟨a,ha,hfa⟩
  · exact h hx
  · exact hf a ha hfa

theorem Safe.guard {ε α : Type} {p : Prop} [Decidable p] {e : ε} {x : Outcome ε α}
    (h : ¬p → Safe x) : Safe (if p then refuse e else x) := by
  split
  · exact safe_refuse e
  · next hp => exact h hp

theorem Safe.map {ε α β : Type} {x : Outcome ε α} (f : α → β) (h : Safe x) : Safe (x.map f) := by
  cases x with
  | ok a => exact safe_ok (f a)
  | error e => simpa [Safe,panicked,Except.map] using h

theorem Safe.wrapped {ε ε' α : Type} {x : Outcome ε α} (f : ε → ε') (h : Safe x) :
    Safe (x.mapError (Failure.map f)) := by
  cases x with
  | ok a => exact safe_ok a
  | error e =>
    cases e with
    | refused e => exact safe_refuse (f e)
    | panicked => exact absurd rfl h

theorem Safe.mapM {ε ι α : Type} {f : ι → Outcome ε α} {is : List ι} (h : ∀ i ∈ is, Safe (f i)) :
    Safe (is.mapM f) := by
  induction is with
  | nil => exact safe_ok []
  | cons i is ih =>
    rw [List.mapM_cons]
    refine (h i List.mem_cons_self).bind fun a _ => ?_
    exact (ih fun j hj => h j (List.mem_cons_of_mem _ hj)).bind fun as _ => safe_ok (a :: as)

theorem Safe.forM {ε ι : Type} {f : ι → Outcome ε PUnit} {is : List ι} (h : ∀ i ∈ is, Safe (f i)) :
    Safe (is.forM f) := by
  induction is with
  | nil => exact safe_ok ()
  | cons i is ih =>
    rw [List.forM_eq_forM,List.forM_cons,← List.forM_eq_forM]
    exact (h i List.mem_cons_self).bind fun _ _ => ih fun j hj => h j (List.mem_cons_of_mem _ hj)

theorem refuse_ne_ok {ε α : Type} {e : ε} {a : α} : (refuse e : Outcome ε α) = .ok a ↔ False := by
  simp [refuse]

theorem refuse_guard_ok {ε α : Type} {p : Prop} [Decidable p] {e : ε} {x : Outcome ε α} {a : α} :
    (if p then refuse e else x) = .ok a ↔ ¬p ∧ x = .ok a := guard_ok

theorem mapM_ok_iff {ε ι α β : Type} {f : ι → Except ε α} {g : ι → β} {encode : α → β}
    {P : α → Prop} {is : List ι} {xs : List α}
    (h : ∀ i ∈ is, ∀ x, f i = .ok x ↔ P x ∧ encode x = g i) :
    is.mapM f = .ok xs ↔ (∀ x ∈ xs, P x) ∧ xs.map encode = is.map g := by
  induction is generalizing xs with
  | nil => cases xs <;> simp [pure,Except.pure]
  | cons i is ih =>
    have hrest := fun ys => @ih ys fun j hj => h j (List.mem_cons_of_mem _ hj)
    simp only [List.mapM_cons,except_bind_ok,except_pure_ok,hrest,h i List.mem_cons_self]
    cases xs with
    | nil => simp
    | cons x xs =>
      simp only [List.cons.injEq,List.forall_mem_cons,List.map_cons]
      constructor
      · rintro ⟨_,⟨hP,hx⟩,_,⟨hPs,hxs⟩,rfl,rfl⟩
        exact ⟨⟨hP,hPs⟩,hx,hxs⟩
      · rintro ⟨⟨hP,hPs⟩,hx,hxs⟩
        exact ⟨x,⟨hP,hx⟩,xs,⟨hPs,hxs⟩,rfl,rfl⟩

section Cutting
variable {β : Type}

/-- The `len` entries from `start` on, as far as there are any. -/
def field (bytes : List β) (start len : Nat) : List β := (bytes.drop start).take len

theorem length_field {bytes : List β} {start len : Nat} (h : start+len ≤ bytes.length) :
    (field bytes start len).length = len := by
  simp [field]
  omega

theorem field_add (bytes : List β) (start len more : Nat) :
    field bytes start (len+more) = field bytes start len ++ field bytes (start+len) more := by
  rw [field,List.take_add,List.drop_drop]
  rfl

/-- `bytes[start..stop]`, which panics out of range. -/
def slice {ε : Type} (bytes : List β) (start stop : Nat) : Outcome ε (List β) :=
  if start ≤ stop ∧ stop ≤ bytes.length then .ok (field bytes start (stop - start)) else panicked

theorem slice_of_le {ε : Type} {bytes : List β} {start stop : Nat} (h : start ≤ stop)
    (h' : stop ≤ bytes.length) :
    (slice bytes start stop : Outcome ε (List β)) = .ok (field bytes start (stop - start)) :=
  if_pos ⟨h,h'⟩

theorem slice_field {ε : Type} {bytes : List β} {start len : Nat} (h : start+len ≤ bytes.length) :
    (slice bytes start (start+len) : Outcome ε (List β)) = .ok (field bytes start len) := by
  rw [slice_of_le (Nat.le_add_right _ _) h,Nat.add_sub_cancel_left]

theorem slice_ok {ε : Type} {bytes part : List β} {start stop : Nat} :
    (slice bytes start stop : Outcome ε (List β)) = .ok part ↔
      start ≤ stop ∧ stop ≤ bytes.length ∧ part = field bytes start (stop - start) := by
  by_cases h : start ≤ stop ∧ stop ≤ bytes.length
  · simp [slice_of_le h.1 h.2,h,eq_comm]
  · simp only [slice,if_neg h,panicked,reduceCtorEq,false_iff]
    exact fun hok => h ⟨hok.1,hok.2.1⟩

theorem safe_slice {ε : Type} {bytes : List β} {start stop : Nat} (h : start ≤ stop)
    (h' : stop ≤ bytes.length) : Safe (slice bytes start stop : Outcome ε (List β)) := by
  rw [slice_of_le h h']
  exact safe_ok _

theorem length_of_slice {ε : Type} {bytes part : List β} {start stop : Nat}
    (h : (slice bytes start stop : Outcome ε (List β)) = .ok part) :
    part.length = stop - start := by
  obtain ⟨hle,hstop,rfl⟩ := slice_ok.mp h
  exact length_field (by omega)

theorem field_rest (bytes : List β) (start : Nat) :
    field bytes start (bytes.length - start) = bytes.drop start :=
  List.take_of_length_le (by simp)

theorem slice_rest {ε : Type} {bytes : List β} {start : Nat} (h : start ≤ bytes.length) :
    (slice bytes start bytes.length : Outcome ε (List β)) = .ok (bytes.drop start) := by
  rw [slice_of_le h le_rfl,field_rest]

theorem slice_rest_ok {ε : Type} {bytes part : List β} {start : Nat} :
    (slice bytes start bytes.length : Outcome ε (List β)) = .ok part ↔
      start ≤ bytes.length ∧ part = bytes.drop start := by
  simp [slice_ok,field_rest]

theorem append_eq_drop {front rest bytes : List β} {start : Nat} :
    front ++ rest = bytes.drop start ↔
      front = field bytes start front.length ∧ rest = bytes.drop (start+front.length) := by
  rw [field,← List.drop_drop]
  constructor
  · intro h
    simp [← h]
  · rintro ⟨hfront,hrest⟩
    conv_lhs => rw [hfront,hrest]
    exact List.take_append_drop _ _

theorem append_eq_iff {front rest bytes : List β} : front ++ rest = bytes ↔
    front = field bytes 0 front.length ∧ rest = bytes.drop front.length := by
  simpa using @append_eq_drop β front rest bytes 0

/-- The parts stand in `bytes` one after another, from `start` on. -/
def Tiles (bytes : List β) : Nat → List (List β) → Prop
  | _, [] => True
  | start, part :: rest =>
    part = field bytes start part.length ∧ Tiles bytes (start+part.length) rest

def extent (parts : List (List β)) : Nat := (parts.map List.length).sum

theorem length_flatten_parts (parts : List (List β)) : parts.flatten.length = extent parts := by
  simp [extent,List.length_flatten]

theorem flatten_append_eq_drop {parts : List (List β)} {rest bytes : List β} {start : Nat} :
    parts.flatten ++ rest = bytes.drop start ↔
      Tiles bytes start parts ∧ rest = bytes.drop (start+extent parts) := by
  induction parts generalizing start with
  | nil => simp [Tiles,extent]
  | cons part parts ih =>
    simp only [List.flatten_cons,List.append_assoc,append_eq_drop,ih,Tiles,extent,List.map_cons,
      List.sum_cons,Nat.add_assoc,and_assoc]

theorem flatten_append_eq {parts : List (List β)} {rest bytes : List β} :
    parts.flatten ++ rest = bytes ↔ Tiles bytes 0 parts ∧ rest = bytes.drop (extent parts) := by
  simpa using @flatten_append_eq_drop β parts rest bytes 0

theorem flatten_eq {parts : List (List β)} {bytes : List β} :
    parts.flatten = bytes ↔ bytes.length = extent parts ∧ Tiles bytes 0 parts := by
  have h := @flatten_append_eq β parts [] bytes
  rw [List.append_nil] at h
  rw [h]
  constructor
  · rintro ⟨htiles,hrest⟩
    have hall := h.mpr ⟨htiles,hrest⟩
    exact ⟨by rw [← hall,length_flatten_parts],htiles⟩
  · rintro ⟨hlen,htiles⟩
    exact ⟨htiles,by rw [← hlen,List.drop_length]⟩

def chunks (len count : Nat) (bytes : List β) : List (List β) :=
  (List.range count).map fun i => field bytes (i*len) len

theorem chunks_succ (len count : Nat) (bytes : List β) :
    chunks len (count+1) bytes = bytes.take len :: chunks len count (bytes.drop len) := by
  have hrest : ∀ i, field bytes ((i+1)*len) len = field (bytes.drop len) (i*len) len := by
    intro i
    rw [field,field,List.drop_drop,Nat.succ_mul,Nat.add_comm]
  have hfirst : field bytes 0 len = bytes.take len := rfl
  simp [chunks,List.range_succ_eq_map,hfirst,hrest]

theorem flatten_chunks {len count : Nat} {bytes : List β} (h : bytes.length = count*len) :
    (chunks len count bytes).flatten = bytes := by
  induction count generalizing bytes with
  | zero => simpa [chunks,eq_comm] using h
  | succ count ih =>
    have hrest : (bytes.drop len).length = count*len := by
      rw [List.length_drop,h,Nat.succ_mul,Nat.add_sub_cancel]
    rw [chunks_succ,List.flatten_cons,ih hrest,List.take_append_drop]

theorem chunks_flatten {len : Nat} {parts : List (List β)} (h : ∀ part ∈ parts, part.length = len) :
    chunks len parts.length parts.flatten = parts := by
  induction parts with
  | nil => rfl
  | cons part parts ih =>
    have hpart := h part List.mem_cons_self
    rw [List.length_cons,chunks_succ,List.flatten_cons,List.take_left' hpart,
      List.drop_left' hpart,ih fun p hp => h p (List.mem_cons_of_mem _ hp)]

theorem length_flatten_eq {len : Nat} {parts : List (List β)} (h : ∀ part ∈ parts, part.length = len) :
    parts.flatten.length = parts.length*len := by
  induction parts with
  | nil => simp
  | cons part parts ih =>
    rw [List.flatten_cons,List.length_append,h part List.mem_cons_self,
      ih fun p hp => h p (List.mem_cons_of_mem _ hp),List.length_cons]
    ring

/-- Parts of one length fill `bytes` exactly when they are its pieces. -/
theorem eq_chunks_iff {len count : Nat} {parts : List (List β)} {bytes : List β}
    (hparts : ∀ part ∈ parts, part.length = len) (hbytes : bytes.length = count*len)
    (hlen : 0 < len) : parts = chunks len count bytes ↔ parts.flatten = bytes := by
  constructor
  · rintro rfl
    exact flatten_chunks hbytes
  · rintro rfl
    rw [length_flatten_eq hparts] at hbytes
    rw [← Nat.eq_of_mul_eq_mul_right hlen hbytes,chunks_flatten hparts]

/-- Where each part starts, the first at `start`. -/
def offsetsFrom (start : Nat) : List (List β) → List Nat
  | [] => []
  | part :: rest => start :: offsetsFrom (start+part.length) rest

/-- What lies between one offset and the next; the last reaches to the end. -/
def pieces (bytes : List β) : List Nat → List (List β)
  | [] => []
  | [start] => [bytes.drop start]
  | start :: stop :: rest => field bytes start (stop - start) :: pieces bytes (stop :: rest)

def Ascends (start : Nat) : List Nat → Nat → Prop
  | [], stop => start ≤ stop
  | offset :: rest, stop => start ≤ offset ∧ Ascends offset rest stop

theorem Ascends.le {start stop : Nat} {offsets : List Nat} (h : Ascends start offsets stop) :
    start ≤ stop := by
  induction offsets generalizing start with
  | nil => exact h
  | cons offset rest ih => exact h.1.trans (ih h.2)

theorem Ascends.mem_le {start stop : Nat} {offsets : List Nat} (h : Ascends start offsets stop) :
    ∀ o ∈ offsets, o ≤ stop := by
  induction offsets generalizing start with
  | nil => simp
  | cons offset rest ih => exact List.forall_mem_cons.mpr ⟨h.2.le,ih h.2⟩

@[simp] theorem length_offsetsFrom (start : Nat) (parts : List (List β)) :
    (offsetsFrom start parts).length = parts.length := by
  induction parts generalizing start with
  | nil => rfl
  | cons part parts ih => simp [offsetsFrom,ih]

theorem ascends_offsetsFrom (start : Nat) (parts : List (List β)) :
    Ascends start (offsetsFrom start parts) (start+extent parts) := by
  induction parts generalizing start with
  | nil => simp [offsetsFrom,Ascends,extent]
  | cons part parts ih =>
    refine ⟨le_rfl,?_⟩
    have hrest := ih (start+part.length)
    cases parts with
    | nil => simp [offsetsFrom,Ascends,extent]
    | cons next parts =>
      simp only [offsetsFrom,Ascends,extent,List.map_cons,List.sum_cons,Nat.add_assoc] at hrest ⊢
      exact ⟨Nat.le_add_right _ _,hrest.2⟩

theorem offsetsFrom_lt_iff {start bound : Nat} {parts : List (List β)} (h : parts ≠ []) :
    (∀ o ∈ offsetsFrom start parts, o < bound) ↔ start+extent parts.dropLast < bound := by
  induction parts generalizing start with
  | nil => exact absurd rfl h
  | cons part parts ih =>
    cases parts with
    | nil => simp [offsetsFrom,extent]
    | cons next parts =>
      have hrest := @ih (start+part.length) (by simp)
      rw [offsetsFrom,List.forall_mem_cons,hrest,List.dropLast_cons_cons]
      simp only [extent,List.map_cons,List.sum_cons]
      omega

theorem pieces_offsetsFrom (front : List β) {parts : List (List β)} (h : parts ≠ []) :
    pieces (front ++ parts.flatten) (offsetsFrom front.length parts) = parts := by
  induction parts generalizing front with
  | nil => exact absurd rfl h
  | cons part parts ih =>
    cases parts with
    | nil => simp [offsetsFrom,pieces]
    | cons next parts =>
      have hrest := ih (front ++ part) (by simp)
      rw [List.length_append,List.append_assoc] at hrest
      simp only [offsetsFrom,pieces] at hrest ⊢
      rw [List.flatten_cons,hrest]
      simp [field]

/-- Ordered offsets cut the bytes into parts that have just these offsets. -/
theorem offsetsFrom_pieces {bytes : List β} {start : Nat} {rest : List Nat}
    (h : Ascends start rest bytes.length) :
    offsetsFrom start (pieces bytes (start :: rest)) = start :: rest ∧
      (pieces bytes (start :: rest)).flatten = bytes.drop start := by
  induction rest generalizing start with
  | nil => simp [pieces,offsetsFrom]
  | cons stop rest ih =>
    obtain ⟨hoffsets,hflatten⟩ := ih h.2
    have hle := h.2.le
    have hlen : (field bytes start (stop - start)).length = stop - start :=
      length_field (by have := h.1; omega)
    have hstop : start + (stop - start) = stop := Nat.add_sub_cancel' h.1
    constructor
    · simp only [pieces,offsetsFrom,hlen,hstop,hoffsets]
    · rw [pieces,List.flatten_cons,hflatten,field]
      conv_lhs => rw [← hstop,← List.drop_drop]
      rw [Nat.add_sub_cancel_left,List.take_append_drop]

theorem pieces_iff {bytes : List β} {start : Nat} {parts : List (List β)} {offsets : List Nat}
    (hparts : parts ≠ []) (hstart : start ≤ bytes.length) :
    offsetsFrom start parts = offsets ∧ parts.flatten = bytes.drop start ↔
      ∃ rest, offsets = start :: rest ∧ Ascends start rest bytes.length ∧
        pieces bytes offsets = parts := by
  constructor
  · rintro ⟨rfl,hflatten⟩
    have hascends := ascends_offsetsFrom start parts
    rw [← length_flatten_parts,hflatten,List.length_drop,Nat.add_sub_cancel' hstart] at hascends
    have hpieces := pieces_offsetsFrom (bytes.take start) hparts
    rw [hflatten,List.take_append_drop,List.length_take,Nat.min_eq_left hstart] at hpieces
    cases parts with
    | nil => exact absurd rfl hparts
    | cons part parts => exact ⟨_,rfl,hascends.2,hpieces⟩
  · rintro ⟨rest,rfl,hascends,rfl⟩
    exact offsetsFrom_pieces hascends

theorem length_pieces (bytes : List β) (offsets : List Nat) :
    (pieces bytes offsets).length = offsets.length := by
  induction offsets with
  | nil => rfl
  | cons start rest ih =>
    cases rest with
    | nil => rfl
    | cons stop rest => simp [pieces,ih]

theorem slice_pieces {ε : Type} {bytes : List β} {start : Nat} {rest : List Nat}
    (h : Ascends start rest bytes.length) {idx : Nat} (hidx : idx < rest.length+1) :
    (slice bytes ((start :: rest).getD idx 0) (if idx+1 < rest.length+1 then
      (start :: rest).getD (idx+1) 0 else bytes.length) : Outcome ε (List β)) =
      .ok ((pieces bytes (start :: rest)).getD idx []) := by
  induction rest generalizing start idx with
  | nil =>
    obtain rfl : idx = 0 := by simpa using hidx
    simpa [pieces] using slice_rest h.le
  | cons stop rest ih =>
    cases idx with
    | zero => simpa [pieces] using slice_of_le h.1 h.2.le
    | succ idx =>
      have hrest := ih h.2 (by simpa using hidx)
      simpa [pieces] using hrest

def windows (offsets : List Nat) : List (Nat × Nat) := offsets.zip offsets.tail

theorem windows_cons (start stop : Nat) (rest : List Nat) :
    windows (start :: stop :: rest) = (start,stop) :: windows (stop :: rest) := rfl

theorem ascends_iff {start stop last : Nat} {rest : List Nat} : Ascends start rest stop ↔
    (∀ pair ∈ windows (start :: rest), ¬ pair.2 < pair.1) ∧
      ¬ stop < (start :: rest).getLastD last := by
  induction rest generalizing start with
  | nil => simp [Ascends,windows]
  | cons next rest ih =>
    rw [Ascends,ih,windows_cons,List.forall_mem_cons,and_assoc]
    simp

theorem windows_in_range {bytes : List β} {start : Nat} {rest : List Nat}
    (h : Ascends start rest bytes.length) :
    ∀ w ∈ windows (start :: (rest ++ [bytes.length])), w.1 ≤ w.2 ∧ w.2 ≤ bytes.length := by
  induction rest generalizing start with
  | nil => simpa [windows] using h.le
  | cons stop rest ih =>
    rw [List.cons_append,windows_cons,List.forall_mem_cons]
    exact ⟨⟨h.1,h.2.le⟩,ih h.2⟩

theorem map_windows {bytes : List β} {start : Nat} (rest : List Nat) :
    (windows (start :: (rest ++ [bytes.length]))).map (fun w => field bytes w.1 (w.2 - w.1)) =
      pieces bytes (start :: rest) := by
  induction rest generalizing start with
  | nil => simp [windows,pieces,field,List.take_of_length_le]
  | cons stop rest ih => rw [List.cons_append,windows_cons,List.map_cons,ih,pieces]

end Cutting

section LittleEndian

/-- The low `width` bytes of `n`, the lowest first. -/
def leBytes (width n : Nat) : List UInt8 := (List.range width).map fun i => UInt8.ofNat (n/256^i)

def ofLeBytes (bytes : List UInt8) : Nat := bytes.foldr (fun byte high => byte.toNat+256*high) 0

@[simp] theorem length_leBytes (width n : Nat) : (leBytes width n).length = width := by
  simp [leBytes]

theorem leBytes_succ (width n : Nat) :
    leBytes (width+1) n = UInt8.ofNat n :: leBytes width (n/256) := by
  simp [leBytes,List.range_succ_eq_map,Function.comp_def,pow_succ',Nat.div_div_eq_div_mul]

theorem ofLeBytes_leBytes {width n : Nat} (h : n < 256^width) : ofLeBytes (leBytes width n) = n := by
  induction width generalizing n with
  | zero => simp [leBytes,ofLeBytes]; omega
  | succ width ih =>
    rw [pow_succ'] at h
    have hrest := ih (Nat.div_lt_of_lt_mul h)
    simp only [ofLeBytes] at hrest
    simp only [leBytes_succ,ofLeBytes,List.foldr_cons,hrest,UInt8.toNat_ofNat']
    omega

theorem ofLeBytes_lt (bytes : List UInt8) : ofLeBytes bytes < 256^bytes.length := by
  induction bytes with
  | nil => simp [ofLeBytes]
  | cons byte bytes ih =>
    have hbyte := byte.toNat_lt
    simp only [ofLeBytes,List.foldr_cons,List.length_cons,pow_succ'] at ih ⊢
    omega

theorem leBytes_ofLeBytes (bytes : List UInt8) : leBytes bytes.length (ofLeBytes bytes) = bytes := by
  induction bytes with
  | nil => rfl
  | cons byte bytes ih =>
    have hbyte := byte.toNat_lt
    have hlow : UInt8.ofNat (ofLeBytes (byte :: bytes)) = byte := by
      apply UInt8.toNat.inj
      simp only [ofLeBytes,List.foldr_cons,UInt8.toNat_ofNat']
      omega
    have hhigh : ofLeBytes (byte :: bytes)/256 = ofLeBytes bytes := by
      simp only [ofLeBytes,List.foldr_cons]
      omega
    rw [List.length_cons,leBytes_succ,hlow,hhigh,ih]

theorem leBytes_eq_iff {width n : Nat} {bytes : List UInt8} (h : n < 256^width)
    (hbytes : bytes.length = width) : leBytes width n = bytes ↔ ofLeBytes bytes = n := by
  constructor
  · rintro rfl
    exact ofLeBytes_leBytes h
  · rintro rfl
    rw [← hbytes,leBytes_ofLeBytes]

def table (width start : Nat) (parts : List (List UInt8)) : List UInt8 :=
  ((offsetsFrom start parts).map (leBytes width)).flatten

@[simp] theorem length_table (width start : Nat) (parts : List (List UInt8)) :
    (table width start parts).length = parts.length*width := by
  have hall : ∀ part ∈ (offsetsFrom start parts).map (leBytes width), part.length = width := by
    simp
  rw [table,length_flatten_eq hall,List.length_map,length_offsetsFrom]

end LittleEndian

end Wire
