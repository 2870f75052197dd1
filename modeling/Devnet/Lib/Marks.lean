import Devnet.Lib.Run

/-!
Indices that may be used once each, handed out by a process that can die at any moment. A
mark says up to where indices are spent: one copy is durable, one lives in the process. An
index is released after the durable mark has passed it; a process resumes at the durable
mark or beyond. Then no index is released twice, however often the process dies.
-/

set_option autoImplicit false

namespace Marks
open Machine

/-- All indices below a mark are spent. -/
structure Mark where
  durable : Nat
  live : Option Nat

inductive Turn where
  | stop
  | resume (next : Nat)
  | burn (index : Nat)
  | store (index : Nat)
  | release (index : Nat)

inductive Step : Mark → Turn → List Nat → Mark → Prop where
  | stop (m : Mark) : Step m .stop [] ⟨m.durable,none⟩
  | resume {m : Mark} {next : Nat} (h : m.durable ≤ next) :
      Step m (.resume next) [] ⟨m.durable,some next⟩
  | burn {m : Mark} {next index : Nat} (hlive : m.live = some next) (h : next ≤ index) :
      Step m (.burn index) [] ⟨m.durable,some (index+1)⟩
  | store {m : Mark} {next index : Nat} (hlive : m.live = some next) (h : next ≤ index) :
      Step m (.store index) [] ⟨index+1,some (index+1)⟩
  | release {m : Mark} {next index : Nat} (hlive : m.live = some next) (h : next ≤ index) :
      Step m (.release index) [index] ⟨index+1,some (index+1)⟩

/-- The process is not behind the durable mark, and the mark is beyond what was released. -/
structure Guarded (m : Mark) (released : List Nat) : Prop where
  ahead : ∀ next, m.live = some next → m.durable ≤ next
  spent : ∀ index ∈ released, index < m.durable
  increasing : released.Pairwise (· < ·)

theorem Guarded.step {m n : Mark} {released out : List Nat} {turn : Turn}
    (h : Guarded m released) (hstep : Step m turn out n) :
    Guarded n (released ++ out) ∧ m.durable ≤ n.durable := by
  cases hstep with
  | stop => exact ⟨⟨by simp,by simpa using h.spent,by simpa using h.increasing⟩,le_rfl⟩
  | resume hnext =>
    exact ⟨⟨by simpa using hnext,by simpa using h.spent,by simpa using h.increasing⟩,le_rfl⟩
  | @burn next index hlive hindex =>
    have hahead := h.ahead next hlive
    refine ⟨⟨?_,by simpa using h.spent,by simpa using h.increasing⟩,le_rfl⟩
    intro n hn
    obtain rfl : index+1 = n := by simpa using hn
    dsimp only
    omega
  | @store next index hlive hindex =>
    have hahead := h.ahead next hlive
    refine ⟨⟨by simp,?_,by simpa using h.increasing⟩,by dsimp only; omega⟩
    intro i hi
    have hspent := h.spent i (by simpa using hi)
    dsimp only
    omega
  | @release next index hlive hindex =>
    have hahead := h.ahead next hlive
    refine ⟨⟨by simp,?_,?_⟩,by dsimp only; omega⟩
    · intro i hi
      rcases List.mem_append.mp hi with hi | hi
      · have hspent := h.spent i hi
        dsimp only
        omega
      · obtain rfl : i = index := by simpa using hi
        dsimp only
        omega
    · rw [List.pairwise_append]
      refine ⟨h.increasing,by simp,?_⟩
      intro i hi j hj
      obtain rfl : j = index := by simpa using hj
      have hspent := h.spent i hi
      omega

theorem Guarded.run {m n : Mark} {released : List Nat} {turns : List Turn}
    {outs : List (List Nat)} (h : Guarded m released) (hrun : Run Step m turns outs n) :
    Guarded n (released ++ outs.flatten) ∧ m.durable ≤ n.durable := by
  refine hrun.invariant (fun _ outs n => Guarded n (released ++ outs.flatten) ∧
    m.durable ≤ n.durable) ⟨by simpa using h,le_rfl⟩ ?_
  intro js ps k turn out k' _ ih hstep
  obtain ⟨hguarded,hle⟩ := ih.1.step hstep
  refine ⟨?_,ih.2.trans hle⟩
  simpa [List.append_assoc] using hguarded

def Reaches (m : Mark) (released : List Nat) (n : Mark) : Prop :=
  ∃ turns outs, Run Step m turns outs n ∧ outs.flatten = released

theorem Reaches.refl (m : Mark) : Reaches m [] m := ⟨[],[],.nil m,rfl⟩

theorem Reaches.step {m n : Mark} {turn : Turn} {released : List Nat}
    (h : Step m turn released n) : Reaches m released n :=
  ⟨[turn],[released],.single h,by simp⟩

theorem Reaches.trans {m n k : Mark} {xs ys : List Nat} (h : Reaches m xs n)
    (h' : Reaches n ys k) : Reaches m (xs ++ ys) k := by
  obtain ⟨turns,outs,hrun,rfl⟩ := h
  obtain ⟨turns',outs',hrun',rfl⟩ := h'
  exact ⟨turns ++ turns',outs ++ outs',hrun.append hrun',by simp⟩

theorem Reaches.stop {m n : Mark} {released : List Nat} (h : Reaches m released n) :
    Reaches m released ⟨n.durable,none⟩ := by
  simpa using h.trans (.step (.stop n))

theorem Guarded.reaches {m n : Mark} {released out : List Nat} (h : Guarded m released)
    (hreaches : Reaches m out n) : Guarded n (released ++ out) ∧ m.durable ≤ n.durable := by
  obtain ⟨turns,outs,hrun,rfl⟩ := hreaches
  exact h.run hrun

theorem nodup_of_columns {α β γ : Type} [DecidableEq β] (column : α → β) (entry : α → γ)
    {xs : List α} (h : ∀ b, ((xs.filter fun x => column x = b).map entry).Nodup) :
    (xs.map fun x => (column x,entry x)).Nodup := by
  induction xs with
  | nil => simp
  | cons x xs ih =>
    have hrest : ∀ b, ((xs.filter fun y => column y = b).map entry).Nodup := fun b =>
      (h b).sublist (((List.sublist_cons_self x xs).filter _).map entry)
    have hx := h (column x)
    rw [List.filter_cons_of_pos (by simp),List.map_cons,List.nodup_cons] at hx
    rw [List.map_cons,List.nodup_cons]
    refine ⟨?_,ih hrest⟩
    intro hmem
    obtain ⟨y,hy,heq⟩ := List.mem_map.mp hmem
    obtain ⟨hcolumn,hentry⟩ := Prod.mk.inj heq
    exact hx.1 (List.mem_map.mpr ⟨y,List.mem_filter.mpr ⟨hy,by simpa using hcolumn⟩,hentry⟩)

end Marks
