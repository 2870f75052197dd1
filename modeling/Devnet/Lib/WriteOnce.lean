import Mathlib.Logic.Function.Basic

/-!
Stores in which an entry is made once: a write needs the key to be free. What a list of such
writes leaves is then the old store with the list added to it, and nothing was lost on the way.
-/

set_option autoImplicit false

namespace WriteOnce
variable {κ β : Type} [DecidableEq κ]

def put (store : κ → Option β) (key : κ) (value : β) : κ → Option β :=
  Function.update store key (some value)

theorem put_self (store : κ → Option β) (key : κ) (value : β) : put store key value key = some value :=
  Function.update_self ..

theorem put_other (store : κ → Option β) {key other : κ} (value : β) (h : other ≠ key) :
    put store key value other = store other := Function.update_of_ne h ..

/-- The writes of a list, each to a key that is free by then. -/
inductive Lays (store : κ → Option β) : List (κ × β) → (κ → Option β) → Prop where
  | nil : Lays store [] store
  | snoc {m : κ → Option β} {writes : List (κ × β)} {key : κ} {value : β}
      (h : Lays store writes m) (free : m key = none) :
      Lays store (writes ++ [(key,value)]) (put m key value)

theorem Lays.single {store : κ → Option β} {key : κ} {value : β} (free : store key = none) :
    Lays store [(key,value)] (put store key value) := .snoc .nil free

theorem Lays.append {store m t : κ → Option β} {writes later : List (κ × β)}
    (h : Lays store writes m) (h' : Lays m later t) : Lays store (writes ++ later) t := by
  induction h' with
  | nil => rwa [List.append_nil]
  | snoc _ free ih =>
    rw [← List.append_assoc]
    exact .snoc ih free

theorem Lays.keeps {store t : κ → Option β} {writes : List (κ × β)} (h : Lays store writes t)
    {key : κ} {value : β} (hkey : store key = some value) : t key = some value := by
  induction h with
  | nil => exact hkey
  | snoc _ free ih =>
    rw [put_other _ _ fun heq => ?_]
    · exact ih
    · rw [heq,free] at ih
      cases ih

theorem Lays.written {store t : κ → Option β} {writes : List (κ × β)} (h : Lays store writes t)
    {write : κ × β} (hwrite : write ∈ writes) :
    store write.1 = none ∧ t write.1 = some write.2 := by
  induction h with
  | nil => cases hwrite
  | @snoc m writes key value h free ih =>
    rcases List.mem_append.mp hwrite with hold | hnew
    · obtain ⟨habsent,hthere⟩ := ih hold
      refine ⟨habsent,?_⟩
      rw [put_other _ _ fun heq => ?_]
      · exact hthere
      · rw [heq,free] at hthere
        cases hthere
    · obtain rfl := List.mem_singleton.mp hnew
      refine ⟨?_,put_self m key value⟩
      cases hstore : store key with
      | none => rfl
      | some old => cases free.symm.trans (h.keeps hstore)

theorem Lays.other {store t : κ → Option β} {writes : List (κ × β)} (h : Lays store writes t)
    {key : κ} (hkey : ∀ write ∈ writes, write.1 ≠ key) : t key = store key := by
  induction h with
  | nil => rfl
  | snoc _ free ih =>
    rw [put_other _ _ (hkey _ (List.mem_append_right _ (List.mem_singleton_self _))).symm]
    exact ih fun write hwrite => hkey write (List.mem_append_left _ hwrite)

end WriteOnce
