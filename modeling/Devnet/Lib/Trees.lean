import Mathlib

/-!
Finite trees given by parent pointers, as a table of nodes stores them. Each node
points at its parent; the root points outside the table. A rank that drops along
every pointer makes walks end, upwards and downwards: the nodes of smaller rank
bound a walk to the root, those of greater rank a walk away from it.
-/

set_option autoImplicit false

namespace Trees

/-- `a` is the node `b` or one of its ancestors. -/
inductive AncestorOrSelf {α : Type} (parent : α → Option α) : α → α → Prop where
  | self {a p : α} : parent a = some p → AncestorOrSelf parent a a
  | up {a b p : α} : parent b = some p → AncestorOrSelf parent a p → AncestorOrSelf parent a b

theorem AncestorOrSelf.trans {α : Type} {parent : α → Option α} {a b c : α}
    (hab : AncestorOrSelf parent a b) (hbc : AncestorOrSelf parent b c) :
    AncestorOrSelf parent a c := by
  induction hbc with
  | self => exact hab
  | up hp _ ih => exact .up hp ih

theorem AncestorOrSelf.mono {α : Type} {parent parent' : α → Option α} {a b : α}
    (hsub : ∀ {c p}, parent c = some p → parent' c = some p)
    (h : AncestorOrSelf parent a b) : AncestorOrSelf parent' a b := by
  induction h with
  | self hp => exact .self (hsub hp)
  | up hp _ ih => exact .up (hsub hp) ih

theorem AncestorOrSelf.descendant {α : Type} {parent : α → Option α} {a b : α}
    (h : AncestorOrSelf parent a b) : ∃ p, parent b = some p := by
  cases h with
  | self hp => exact ⟨_,hp⟩
  | up hp _ => exact ⟨_,hp⟩

theorem ancestorOrSelf_iff {α : Type} {parent : α → Option α} {a b : α} :
    AncestorOrSelf parent a b ↔ ∃ p, parent b = some p ∧ (a = b ∨ AncestorOrSelf parent a p) := by
  constructor
  · intro h
    cases h with
    | self hp => exact ⟨_,hp,.inl rfl⟩
    | up hp h => exact ⟨_,hp,.inr h⟩
  · rintro ⟨p,hp,rfl | h⟩
    · exact .self hp
    · exact .up hp h

theorem AncestorOrSelf.total {α : Type} {parent : α → Option α} {a b c : α}
    (ha : AncestorOrSelf parent a c) (hb : AncestorOrSelf parent b c) :
    AncestorOrSelf parent a b ∨ AncestorOrSelf parent b a := by
  induction ha with
  | self => exact .inr hb
  | up hp ha ih =>
    obtain ⟨q,hq,rfl | hb'⟩ := ancestorOrSelf_iff.mp hb
    · exact .inl (.up hp ha)
    · obtain rfl := Option.some.inj (hp.symm.trans hq)
      exact ih hb'

/-- How many nodes come before `a`; the variant of a walk that only moves backwards. -/
def remaining {α : Type} (nodes : Finset α) (before : α → α → Prop) [DecidableRel before]
    (a : α) : Nat := (nodes.filter fun b => before b a).card

theorem remaining_lt {α : Type} {nodes : Finset α} (before : α → α → Prop) [DecidableRel before]
    (htrans : ∀ {a b c}, before a b → before b c → before a c) (hirrefl : ∀ a, ¬ before a a)
    {a b : α} (hb : b ∈ nodes) (hba : before b a) :
    remaining nodes before b < remaining nodes before a := by
  apply Finset.card_lt_card
  refine Finset.ssubset_iff_subset_ne.mpr ⟨?_,?_⟩
  · intro c hc
    simp only [Finset.mem_filter] at hc ⊢
    exact ⟨hc.1,htrans hc.2 hba⟩
  · intro heq
    have hmem : b ∈ nodes.filter fun c => before c a := by simp [hb,hba]
    rw [← heq] at hmem
    exact hirrefl b (Finset.mem_filter.mp hmem).2

theorem remaining_lt_card {α : Type} {nodes : Finset α} (before : α → α → Prop)
    [DecidableRel before] (hirrefl : ∀ a, ¬ before a a) {a : α} (ha : a ∈ nodes) :
    remaining nodes before a < nodes.card := by
  apply Finset.card_lt_card
  refine Finset.ssubset_iff_subset_ne.mpr ⟨Finset.filter_subset _ _,?_⟩
  intro heq
  rw [← heq] at ha
  exact hirrefl a (Finset.mem_filter.mp ha).2

structure Rooted (α : Type) where
  parent : α → Option α
  nodes : Finset α
  mem_nodes : ∀ {a}, a ∈ nodes ↔ (parent a).isSome = true
  rank : α → Nat
  root : α
  root_mem : root ∈ nodes
  root_parent : ∀ {p}, parent root = some p → p ∉ nodes
  parent_mem : ∀ {a p}, parent a = some p → a ≠ root → p ∈ nodes
  parent_rank : ∀ {a p}, parent a = some p → a ≠ root → rank p < rank a

namespace Rooted

theorem mem_of_parent {α : Type} {T : Rooted α} {a p : α} (h : T.parent a = some p) :
    a ∈ T.nodes := T.mem_nodes.mpr (by simp [h])

theorem ne_root_of_parent_mem {α : Type} {T : Rooted α} {a p : α} (h : T.parent a = some p)
    (hp : p ∈ T.nodes) : a ≠ T.root := by
  rintro rfl
  exact T.root_parent h hp

theorem rank_lt_of_parent_mem {α : Type} {T : Rooted α} {a p : α} (h : T.parent a = some p)
    (hp : p ∈ T.nodes) : T.rank p < T.rank a :=
  T.parent_rank h (ne_root_of_parent_mem h hp)

theorem rank_root_le {α : Type} (T : Rooted α) {a : α} (ha : a ∈ T.nodes) :
    T.rank T.root ≤ T.rank a := by
  -- Strong induction on the rank: the parent ranks lower.
  induction hn : T.rank a using Nat.strong_induction_on generalizing a with
  | _ n ih =>
    by_cases hroot : a = T.root
    · exact Nat.le_of_eq (by rw [← hn,hroot])
    · obtain ⟨p,hp⟩ := Option.isSome_iff_exists.mp (T.mem_nodes.mp ha)
      have hlt := T.parent_rank hp hroot
      have hle := ih (T.rank p) (hn ▸ hlt) (T.parent_mem hp hroot) rfl
      omega

theorem rank_le_of_ancestor {α : Type} {T : Rooted α} {a b : α}
    (h : AncestorOrSelf T.parent a b) : T.rank a ≤ T.rank b ∧ b ∈ T.nodes := by
  induction h with
  | self hp => exact ⟨Nat.le_refl _,mem_of_parent hp⟩
  | up hp _ ih =>
    have hlt := rank_lt_of_parent_mem hp ih.2
    exact ⟨by omega,mem_of_parent hp⟩

theorem ancestor_of_rank_le {α : Type} {T : Rooted α} {a b c : α}
    (ha : AncestorOrSelf T.parent a c) (hb : AncestorOrSelf T.parent b c)
    (hle : T.rank a ≤ T.rank b) : AncestorOrSelf T.parent a b := by
  rcases ha.total hb with hab | hba
  · exact hab
  · cases hba with
    | self hp => exact .self hp
    | up hp hbp =>
      obtain ⟨hrank,hmem⟩ := rank_le_of_ancestor hbp
      have hlt := rank_lt_of_parent_mem hp hmem
      omega

def lower {α : Type} (T : Rooted α) (a : α) : Nat :=
  remaining T.nodes (fun b a => T.rank b < T.rank a) a

def higher {α : Type} (T : Rooted α) (a : α) : Nat :=
  remaining T.nodes (fun b a => T.rank a < T.rank b) a

theorem lower_lt {α : Type} {T : Rooted α} {a p : α} (hp : p ∈ T.nodes)
    (hlt : T.rank p < T.rank a) : T.lower p < T.lower a :=
  remaining_lt (fun b a => T.rank b < T.rank a) Nat.lt_trans (fun _ => Nat.lt_irrefl _) hp hlt

theorem higher_lt {α : Type} {T : Rooted α} {a c : α} (hc : c ∈ T.nodes)
    (hlt : T.rank a < T.rank c) : T.higher c < T.higher a :=
  remaining_lt (fun b a => T.rank a < T.rank b) (fun h h' => Nat.lt_trans h' h)
    (fun _ => Nat.lt_irrefl _) hc hlt

theorem lower_lt_card {α : Type} {T : Rooted α} {a : α} (ha : a ∈ T.nodes) :
    T.lower a < T.nodes.card :=
  remaining_lt_card (fun b a => T.rank b < T.rank a) (fun _ => Nat.lt_irrefl _) ha

theorem higher_lt_card {α : Type} {T : Rooted α} {a : α} (ha : a ∈ T.nodes) :
    T.higher a < T.nodes.card :=
  remaining_lt_card (fun b a => T.rank a < T.rank b) (fun _ => Nat.lt_irrefl _) ha

end Rooted

end Trees
