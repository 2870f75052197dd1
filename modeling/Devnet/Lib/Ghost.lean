import Devnet.Lib.Trees

/-!
The greedy heaviest subtree rule on a tree of parent pointers. The score of a node is the
number of votes for it and its descendants. From a node the rule moves to the child with the
greatest key among the eligible ones, as long as there is one. Subtrees of siblings are
disjoint, so what one sibling scores is lost to the others.
-/

set_option autoImplicit false

namespace Trees

section Descent
variable {α κ : Type} [LE κ] (parent : α → Option α) (eligible : α → Prop) (key : α → κ)

/-- The child the rule moves to. -/
structure Picks (a kid : α) : Prop where
  child : parent kid = some a
  reached : eligible kid
  greatest : ∀ other, parent other = some a → eligible other → key other ≤ key kid

inductive Ghost : α → α → Prop where
  | stop {a : α} : (∀ kid, parent kid = some a → ¬eligible kid) → Ghost a a
  | move {a kid head : α} : Picks parent eligible key a kid → Ghost kid head → Ghost a head

variable {parent eligible key}

theorem Picks.unique (hkey : ∀ a b, key a ≤ key b → key b ≤ key a → a = b) {a kid kid' : α}
    (h : Picks parent eligible key a kid) (h' : Picks parent eligible key a kid') : kid = kid' :=
  hkey kid kid' (h'.greatest kid h.child h.reached) (h.greatest kid' h'.child h'.reached)

theorem Ghost.unique (hkey : ∀ a b, key a ≤ key b → key b ≤ key a → a = b) {a head head' : α}
    (h : Ghost parent eligible key a head) (h' : Ghost parent eligible key a head') :
    head = head' := by
  induction h with
  | stop hnone =>
    cases h' with
    | stop => rfl
    | move hpick _ => exact absurd hpick.reached (hnone _ hpick.child)
  | move hpick _ ih =>
    cases h' with
    | stop hnone => exact absurd hpick.reached (hnone _ hpick.child)
    | move hpick' hrest => exact ih (hpick.unique hkey hpick' ▸ hrest)

theorem Ghost.descends {a head : α} (h : Ghost parent eligible key a head)
    (ha : (parent a).isSome = true) : AncestorOrSelf parent a head := by
  induction h with
  | stop =>
    obtain ⟨p,hp⟩ := Option.isSome_iff_exists.mp ha
    exact .self hp
  | move hpick _ ih =>
    obtain ⟨p,hp⟩ := Option.isSome_iff_exists.mp ha
    have hkid : AncestorOrSelf parent _ _ := .up hpick.child (.self hp)
    exact hkid.trans (ih (by rw [hpick.child]; rfl))

theorem Ghost.ends {a head kid : α} (h : Ghost parent eligible key a head)
    (hkid : parent kid = some head) : ¬eligible kid := by
  induction h with
  | stop hnone => exact hnone kid hkid
  | move _ _ ih => exact ih hkid

end Descent

section Rooted
variable {α : Type} {T : Rooted α}

theorem Rooted.ancestor_antisymm {a b : α} (h : AncestorOrSelf T.parent a b)
    (h' : AncestorOrSelf T.parent b a) : a = b := by
  cases h with
  | self => rfl
  | up hp hap =>
    obtain ⟨hle,hmem⟩ := Rooted.rank_le_of_ancestor hap
    have hlt := Rooted.rank_lt_of_parent_mem hp hmem
    have hle' := (Rooted.rank_le_of_ancestor h').1
    omega

theorem Ghost.picked {κ : Type} [LE κ] {eligible : α → Prop} {key : α → κ} {a head b : α}
    (h : Ghost T.parent eligible key a head) (hab : AncestorOrSelf T.parent a b)
    (hbh : AncestorOrSelf T.parent b head) (hne : b ≠ a) :
    ∃ p, Picks T.parent eligible key p b := by
  induction h with
  | stop => exact absurd (Rooted.ancestor_antisymm hbh hab) hne
  | @move a kid head hpick hrest ih =>
    by_cases hkid : b = kid
    · exact ⟨a,hkid ▸ hpick⟩
    · refine ih ?_ hbh hkid
      have hkh : AncestorOrSelf T.parent kid head := hrest.descends (by rw [hpick.child]; rfl)
      rcases hkh.total hbh with hkb | hbk
      · exact hkb
      · -- above the picked child there is only the way to `a`
        obtain ⟨p,hp,rfl | hbp⟩ := ancestorOrSelf_iff.mp hbk
        · exact absurd rfl hkid
        · obtain rfl := Option.some.inj (hp.symm.trans hpick.child)
          exact absurd (Rooted.ancestor_antisymm hbp hab) hne

open Classical in
noncomputable def score (parent : α → Option α) (votes : List α) (a : α) : Nat :=
  votes.countP fun v => decide (AncestorOrSelf parent a v)

theorem countP_add_countP_le {β : Type} {p q : β → Bool} (l : List β)
    (hpq : ∀ b ∈ l, p b = true → q b = false) : l.countP p+l.countP q ≤ l.length := by
  induction l with
  | nil => simp
  | cons b l ih =>
    have hrest := ih fun c hc => hpq c (List.mem_cons_of_mem b hc)
    have hb := hpq b List.mem_cons_self
    rw [List.countP_cons,List.countP_cons,List.length_cons]
    cases hp : p b with
    | true =>
      simp only [hb hp,if_true]
      simp
      omega
    | false => cases q b <;> simp <;> omega

theorem Rooted.siblings_disjoint {a kid kid' v : α} (ha : a ∈ T.nodes)
    (hkid : T.parent kid = some a) (hkid' : T.parent kid' = some a) (hne : kid ≠ kid')
    (hv : AncestorOrSelf T.parent kid v) : ¬AncestorOrSelf T.parent kid' v := by
  intro hv'
  have hbelow : ∀ {b c : α}, T.parent b = some a → T.parent c = some a → b ≠ c →
      ¬AncestorOrSelf T.parent b c := by
    intro b c hb hc hbc h
    obtain ⟨p,hp,rfl | hbp⟩ := ancestorOrSelf_iff.mp h
    · exact hbc rfl
    · obtain rfl := Option.some.inj (hp.symm.trans hc)
      have hle := (Rooted.rank_le_of_ancestor hbp).1
      have hlt := Rooted.rank_lt_of_parent_mem hb ha
      omega
  rcases hv.total hv' with h | h
  · exact hbelow hkid hkid' hne h
  · exact hbelow hkid' hkid hne.symm h

theorem Rooted.score_siblings_le {a kid kid' : α} (ha : a ∈ T.nodes)
    (hkid : T.parent kid = some a) (hkid' : T.parent kid' = some a) (hne : kid ≠ kid')
    (votes : List α) :
    score T.parent votes kid+score T.parent votes kid' ≤ votes.length := by
  refine countP_add_countP_le votes fun v _ hv => ?_
  simpa using Rooted.siblings_disjoint ha hkid hkid' hne (by simpa using hv)

end Rooted

end Trees
