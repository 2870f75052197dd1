import Mathlib

/-!
Tables of equal-width boolean rows: a finite map from keys to rows, its row-major
form (the sorted keys and one flat list of bits), and the set of columns a row marks.
Reading the row-major form back gives the map. Also the values of a map as a list, and
a list of pairs grouped by key.
-/

set_option autoImplicit false

namespace Tables

theorem length_flatten_rows {α : Type} {n : Nat} {rows : List (List α)}
    (h : ∀ r ∈ rows, r.length = n) : rows.flatten.length = rows.length*n := by
  induction rows with
  | nil => simp
  | cons r rows ih =>
    have hr : r.length = n := h r (by simp)
    have htail := ih (fun r' hr' => h r' (by simp [hr']))
    simp only [List.flatten_cons,List.length_append,List.length_cons,hr,htail]
    ring

theorem getElem?_flatten_rows {α : Type} {n : Nat} {rows : List (List α)}
    (h : ∀ r ∈ rows, r.length = n) (i : Nat) {j : Nat} (hj : j < n) :
    rows.flatten[i*n+j]? = rows[i]?.bind (·[j]?) := by
  induction rows generalizing i with
  | nil => simp
  | cons r rows ih =>
    have hr : r.length = n := h r (by simp)
    have htail : ∀ r' ∈ rows, r'.length = n := fun r' hr' => h r' (by simp [hr'])
    cases i with
    | zero =>
      rw [List.flatten_cons,List.getElem?_append_left (by omega)]
      simp
    | succ i =>
      have hidx : (i+1)*n+j = n+(i*n+j) := by ring
      rw [List.flatten_cons,List.getElem?_append_right (by rw [hr,hidx]; omega),hr,hidx,
        Nat.add_sub_cancel_left,ih htail i]
      simp

section Maps
variable {κ ν : Type} [Ord κ] [Std.TransOrd κ]

theorem ofList_toList [Std.LawfulEqOrd κ] (t : Std.ExtTreeMap κ ν compare) :
    Std.ExtTreeMap.ofList t.toList compare = t := by
  apply Std.ExtTreeMap.ext_getElem?
  intro k
  cases hk : t[k]? with
  | some v =>
    exact Std.ExtTreeMap.getElem?_ofList_of_mem Std.ReflCmp.compare_self
      Std.ExtTreeMap.distinct_keys_toList (Std.ExtTreeMap.mem_toList_iff_getElem?_eq_some.mpr hk)
  | none =>
    classical
    have : Std.LawfulBEqCmp (compare : κ → κ → Ordering) := ⟨by simp⟩
    apply Std.ExtTreeMap.getElem?_ofList_of_contains_eq_false
    rw [Std.ExtTreeMap.map_fst_toList_eq_keys]
    simpa using hk

def rowsOf (t : Std.ExtTreeMap κ ν compare) : List ν := t.toList.map Prod.snd

theorem mem_rowsOf [Std.LawfulEqOrd κ] {t : Std.ExtTreeMap κ ν compare} {v : ν} :
    v ∈ rowsOf t ↔ ∃ k : κ, t[k]? = some v := by
  simp [rowsOf,Std.ExtTreeMap.mem_toList_iff_getElem?_eq_some]

theorem length_rowsOf (t : Std.ExtTreeMap κ ν compare) : (rowsOf t).length = t.keys.length := by
  simp [rowsOf,← Std.ExtTreeMap.map_fst_toList_eq_keys]

theorem getElem?_rowsOf [Std.LawfulEqOrd κ] {t : Std.ExtTreeMap κ ν compare} {i : Nat} {k : κ}
    (h : t.keys[i]? = some k) : ∃ v, t[k]? = some v ∧ (rowsOf t)[i]? = some v := by
  rw [← Std.ExtTreeMap.map_fst_toList_eq_keys,List.getElem?_map,Option.map_eq_some_iff] at h
  obtain ⟨⟨k',v⟩,hi,rfl⟩ := h
  exact ⟨v,Std.ExtTreeMap.mem_toList_iff_getElem?_eq_some.mp (List.mem_of_getElem? hi),
    by simp [rowsOf,hi]⟩

def rowAt (n : Nat) (bits : List Bool) (i : Nat) : List Bool :=
  (List.range n).map fun j => bits[i*n+j]?.getD false

def unpack (n : Nat) (keys : List κ) (bits : List Bool) : Std.ExtTreeMap κ (List Bool) compare :=
  keys.zipIdx.foldl (fun t e => t.insert e.1 (rowAt n bits e.2)) ∅

theorem foldl_insert_rows {ι : Type} [Std.LawfulEqOrd κ] {p : ν → Prop} {f : ι → ν}
    (hrow : ∀ i, p (f i)) (entries : List (κ × ι)) {t : Std.ExtTreeMap κ ν compare}
    (ht : ∀ (k : κ) (v : ν), t[k]? = some v → p v) :
    (∀ (k : κ) (v : ν), (entries.foldl (fun t e => t.insert e.1 (f e.2)) t)[k]? = some v → p v) ∧
      (entries.foldl (fun t e => t.insert e.1 (f e.2)) t).size ≤ t.size+entries.length := by
  induction entries generalizing t with
  | nil => exact ⟨ht,Nat.le_refl _⟩
  | cons e entries ih =>
    have hinsert : ∀ (k : κ) (v : ν), (t.insert e.1 (f e.2))[k]? = some v → p v := by
      intro k v hv
      rw [Std.ExtTreeMap.getElem?_insert] at hv
      split at hv
      · exact Option.some.inj hv ▸ hrow e.2
      · exact ht k v hv
    obtain ⟨hall,hsize⟩ := ih hinsert
    have hone := Std.ExtTreeMap.size_insert_le (t := t) (k := e.1) (v := f e.2)
    refine ⟨hall,hsize.trans ?_⟩
    simp only [List.length_cons]
    omega

theorem mem_foldl_insert {ι : Type} [Std.LawfulEqOrd κ] {f : ι → ν} (entries : List (κ × ι))
    (t : Std.ExtTreeMap κ ν compare) (k : κ) :
    k ∈ entries.foldl (fun t e => t.insert e.1 (f e.2)) t ↔ k ∈ entries.map Prod.fst ∨ k ∈ t := by
  induction entries generalizing t with
  | nil => simp
  | cons e entries ih =>
    rw [List.foldl_cons,ih,Std.ExtTreeMap.mem_insert,Std.compare_eq_iff_eq,List.map_cons,
      List.mem_cons]
    tauto

theorem rowAt_flatten {n : Nat} {rows : List (List Bool)} (h : ∀ r ∈ rows, r.length = n)
    {i : Nat} {r : List Bool} (hi : rows[i]? = some r) : rowAt n rows.flatten i = r := by
  have hr : r.length = n := h r (List.mem_of_getElem? hi)
  apply List.ext_getElem
  · simp [rowAt,hr]
  · intro j _ hj
    simp [rowAt,getElem?_flatten_rows h i (hr ▸ hj),hi,hj]

theorem unpack_rowsOf [Std.LawfulEqOrd κ] {n : Nat} {t : Std.ExtTreeMap κ (List Bool) compare}
    (h : ∀ (k : κ) (r : List Bool), t[k]? = some r → r.length = n) :
    unpack n t.keys (rowsOf t).flatten = t := by
  have hrows : ∀ r ∈ rowsOf t, r.length = n := by
    intro r hr
    obtain ⟨k,hk⟩ := mem_rowsOf.mp hr
    exact h k r hk
  have hpairs : t.keys.zipIdx.map (fun e => (e.1,rowAt n (rowsOf t).flatten e.2)) = t.toList := by
    apply List.ext_getElem
    · simp [← Std.ExtTreeMap.map_fst_toList_eq_keys]
    · intro i h1 h2
      have hrow : (rowsOf t)[i]? = some t.toList[i].2 := by
        rw [rowsOf,List.getElem?_map,List.getElem?_eq_getElem h2,Option.map_some]
      simp [rowAt_flatten hrows hrow,← Std.ExtTreeMap.map_fst_toList_eq_keys]
  have hfold : unpack n t.keys (rowsOf t).flatten = Std.ExtTreeMap.ofList t.toList compare := by
    rw [Std.ExtTreeMap.ofList_eq_foldl,← hpairs,List.foldl_map,unpack]
  rw [hfold,ofList_toList]

end Maps

def marked (row : List Bool) : Finset Nat :=
  (Finset.range row.length).filter fun j => row[j]? = some true

theorem mem_marked {row : List Bool} {j : Nat} : j ∈ marked row ↔ row[j]? = some true := by
  simp only [marked,Finset.mem_filter,Finset.mem_range,and_iff_right_iff_imp]
  intro h
  exact (List.getElem?_eq_some_iff.mp h).1

theorem marked_replicate (n : Nat) : marked (List.replicate n false) = ∅ := by
  ext j
  simp [mem_marked,List.getElem?_replicate]

theorem marked_set {row : List Bool} {j : Nat} (hj : j < row.length) :
    marked (row.set j true) = insert j (marked row) := by
  ext k
  rw [mem_marked,Finset.mem_insert,mem_marked,List.getElem?_set]
  by_cases h : j = k
  · simp [h,h ▸ hj]
  · simp [h,Ne.symm h]

theorem card_marked (row : List Bool) : (marked row).card = row.count true := by
  induction row using List.reverseRecOn with
  | nil => rfl
  | append_singleton row b ih =>
    cases b with
    | false =>
      have hsame : marked (row ++ [false]) = marked row := by
        ext j
        simp only [mem_marked,List.getElem?_append]
        split
        · rfl
        · next hj => simp [List.getElem?_eq_none (Nat.le_of_not_lt hj),List.getElem?_singleton]
      simp [hsame,ih]
    | true =>
      have hinsert : marked (row ++ [true]) = insert row.length (marked row) := by
        ext j
        rw [Finset.mem_insert,mem_marked,mem_marked]
        rcases Nat.lt_trichotomy j row.length with hj | rfl | hj
        · rw [List.getElem?_append_left hj]
          simp [Nat.ne_of_lt hj]
        · simp
        · rw [List.getElem?_append_right (Nat.le_of_lt hj),List.getElem?_eq_none (l := row) (by omega)]
          simp [List.getElem?_singleton]
          omega
      have hnew : row.length ∉ marked row := by simp [mem_marked]
      rw [hinsert,Finset.card_insert_of_notMem hnew,ih]
      simp

def group {κ α : Type} [Ord κ] [Std.TransOrd κ] (entries : List (κ × α)) :
    Std.ExtTreeMap κ (List α) compare :=
  entries.foldl (fun table entry =>
    table.insert entry.1 (table.getD entry.1 [] ++ [entry.2])) ∅

theorem mem_group {κ α : Type} [Ord κ] [Std.TransOrd κ] [Std.LawfulEqOrd κ]
    {entries : List (κ × α)} {key : κ} {a : α} :
    a ∈ (group entries).getD key [] ↔ (key,a) ∈ entries := by
  have hfold : ∀ (entries : List (κ × α)) (table : Std.ExtTreeMap κ (List α) compare),
      a ∈ (entries.foldl (fun table entry =>
        table.insert entry.1 (table.getD entry.1 [] ++ [entry.2])) table).getD key [] ↔
      a ∈ table.getD key [] ∨ (key,a) ∈ entries := by
    intro entries
    induction entries with
    | nil => simp
    | cons entry rest ih =>
      intro table
      rw [List.foldl_cons,ih,Std.ExtTreeMap.getD_insert]
      by_cases hk : entry.1 = key
      · subst hk
        simp [Prod.ext_iff,or_assoc]
      · simp [Prod.ext_iff,hk,Ne.symm hk]
  simp [group,hfold]

def values {κ α : Type} [Ord κ] [Std.TransOrd κ] (table : Std.ExtTreeMap κ α compare) : List α :=
  table.toList.map (·.2)

theorem mem_values {κ α : Type} [Ord κ] [Std.TransOrd κ] [Std.LawfulEqOrd κ]
    {table : Std.ExtTreeMap κ α compare} {a : α} :
    a ∈ values table ↔ ∃ k : κ, table[k]? = some a := by
  simp [values,Std.ExtTreeMap.mem_toList_iff_getElem?_eq_some]

end Tables
