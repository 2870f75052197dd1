import Mathlib

/-!
Histories in which things are opened and closed. A history is nested when what is opened was
not open, and what is closed is always the last of what is open. A stack recognises it; what
the stack says is stated here in terms of the history alone.
-/

set_option autoImplicit false

namespace Machine

inductive Bracket (α : Type) where
  | push (a : α)
  | pop (a : α)
  deriving DecidableEq

section Nesting
variable {α : Type} [DecidableEq α]

def Bracket.name : Bracket α → α
  | .push a => a
  | .pop a => a

def Bracket.apply (up : List α) : Bracket α → Option (List α)
  | .push a => if a ∈ up then none else some (a :: up)
  | .pop a => if up.head? = some a then some up.tail else none

/-- What is open after the history, the last opened first. -/
def nesting (l : List (Bracket α)) : Option (List α) := l.foldlM Bracket.apply []

def Pending (l : List (Bracket α)) (a : α) : Prop :=
  (l.filter fun b => b.name = a).getLast? = some (.push a)

instance (l : List (Bracket α)) (a : α) : Decidable (Pending l a) :=
  inferInstanceAs (Decidable (_ = _))

structure Nested (l : List (Bracket α)) : Prop where
  opens : ∀ {x y : List (Bracket α)} {a : α}, l = x ++ .push a :: y → ¬Pending x a
  closes : ∀ {x y : List (Bracket α)} {a : α}, l = x ++ .pop a :: y → Pending x a
  lifo : ∀ {x y : List (Bracket α)} {a : α}, l = x ++ .pop a :: y →
    ∃ u v, x = u ++ .push a :: v ∧ ∀ b, .push b ∈ v → ¬Pending x b

theorem nesting_concat (l : List (Bracket α)) (b : Bracket α) :
    nesting (l ++ [b]) = (nesting l).bind fun up => b.apply up := by
  simp [nesting,List.foldlM_append]

theorem apply_push {up next : List α} {a : α} (h : Bracket.apply up (.push a) = some next) :
    a ∉ up ∧ next = a :: up := by
  by_cases ha : a ∈ up
  · simp [Bracket.apply,ha] at h
  · simp only [Bracket.apply,if_neg ha,Option.some.injEq] at h
    exact ⟨ha,h.symm⟩

theorem apply_pop {up next : List α} {a : α} (h : Bracket.apply up (.pop a) = some next) :
    up = a :: next := by
  cases up with
  | nil => simp [Bracket.apply] at h
  | cons b rest =>
    by_cases hb : b = a
    · subst hb
      simpa [Bracket.apply] using h
    · simp [Bracket.apply,hb] at h

theorem pending_concat (l : List (Bracket α)) (b : Bracket α) (a : α) :
    Pending (l ++ [b]) a ↔ if b.name = a then b = .push a else Pending l a := by
  by_cases hb : b.name = a <;> simp [Pending,List.filter_append,hb]

theorem mem_nesting {l : List (Bracket α)} {up : List α} (h : nesting l = some up) :
    up.Nodup ∧ ∀ a, a ∈ up ↔ Pending l a := by
  induction l using List.reverseRecOn generalizing up with
  | nil =>
    obtain rfl : [] = up := by simpa [nesting] using h
    simp [Pending]
  | append_singleton l b ih =>
    rw [nesting_concat,Option.bind_eq_some_iff] at h
    obtain ⟨mid,hmid,hstep⟩ := h
    obtain ⟨hnodup,hmem⟩ := ih hmid
    cases b with
    | push c =>
      obtain ⟨hc,rfl⟩ := apply_push hstep
      refine ⟨List.nodup_cons.mpr ⟨hc,hnodup⟩,fun a => ?_⟩
      rw [pending_concat]
      by_cases hac : c = a
      · simp [Bracket.name,hac]
      · simp [Bracket.name,hac,Ne.symm hac,hmem]
    | pop c =>
      obtain rfl := apply_pop hstep
      obtain ⟨hc,hnodup'⟩ := List.nodup_cons.mp hnodup
      refine ⟨hnodup',fun a => ?_⟩
      rw [pending_concat]
      by_cases hac : c = a
      · subst hac
        simp [Bracket.name,hc]
      · rw [if_neg (by simpa [Bracket.name] using hac),← hmem a]
        simp [Ne.symm hac]

theorem opened_of_nesting {l : List (Bracket α)} {top rest : List α} {a : α}
    (h : nesting l = some (top ++ a :: rest)) :
    ∃ u v, l = u ++ .push a :: v ∧ ∀ b, .push b ∈ v → b ∉ a :: rest := by
  induction l using List.reverseRecOn generalizing top with
  | nil => simp [nesting] at h
  | append_singleton l b ih =>
    rw [nesting_concat,Option.bind_eq_some_iff] at h
    obtain ⟨mid,hmid,hstep⟩ := h
    cases b with
    | push c =>
      obtain ⟨hc,hup⟩ := apply_push hstep
      cases top with
      | nil =>
        obtain ⟨rfl,rfl⟩ : a = c ∧ rest = mid := by simpa using hup
        exact ⟨l,[],rfl,by simp⟩
      | cons d top =>
        obtain ⟨rfl,rfl⟩ : d = c ∧ top ++ a :: rest = mid := by simpa using hup
        obtain ⟨u,v,rfl,hv⟩ := ih hmid
        refine ⟨u,v ++ [.push d],by simp,fun b hb => ?_⟩
        rcases List.mem_append.mp hb with hb | hb
        · exact hv b hb
        · obtain rfl : b = d := by simpa using hb
          exact fun hin => hc (List.mem_append_right top hin)
    | pop c =>
      obtain rfl := apply_pop hstep
      obtain ⟨u,v,rfl,hv⟩ := @ih (c :: top) hmid
      refine ⟨u,v ++ [.pop c],by simp,fun b hb => hv b ?_⟩
      simpa using hb

theorem applied_of_nesting {x y : List (Bracket α)} {b : Bracket α} {up : List α}
    (h : nesting (x ++ b :: y) = some up) :
    ∃ mid next, nesting x = some mid ∧ b.apply mid = some next := by
  rw [nesting,List.foldlM_append] at h
  obtain ⟨mid,hmid,hrest⟩ := Option.bind_eq_some_iff.mp h
  rw [List.foldlM_cons] at hrest
  obtain ⟨next,hnext,-⟩ := Option.bind_eq_some_iff.mp hrest
  exact ⟨mid,next,hmid,hnext⟩

theorem nested_of_nesting {l : List (Bracket α)} {up : List α} (h : nesting l = some up) :
    Nested l := by
  constructor
  · rintro x y a rfl
    obtain ⟨mid,next,hmid,hstep⟩ := applied_of_nesting h
    exact mt ((mem_nesting hmid).2 a).mpr (apply_push hstep).1
  · rintro x y a rfl
    obtain ⟨mid,next,hmid,hstep⟩ := applied_of_nesting h
    obtain rfl := apply_pop hstep
    exact ((mem_nesting hmid).2 a).mp List.mem_cons_self
  · rintro x y a rfl
    obtain ⟨mid,next,hmid,hstep⟩ := applied_of_nesting h
    obtain rfl := apply_pop hstep
    obtain ⟨u,v,hx,hv⟩ := @opened_of_nesting α _ x [] next a hmid
    exact ⟨u,v,hx,fun b hb hpending => hv b hb (((mem_nesting hmid).2 b).mpr hpending)⟩

end Nesting

end Machine
