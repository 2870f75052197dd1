import Mathlib

/-!
Runs of a step relation that reads one input and emits one output at a time.
A loop over a list, a chain of accepted messages and a server handling requests
are all runs; the output list is the history that an invariant may talk about.
-/

set_option autoImplicit false

namespace Machine

inductive Run {σ ι ω : Type} (step : σ → ι → ω → σ → Prop) :
    σ → List ι → List ω → σ → Prop where
  | nil (s : σ) : Run step s [] [] s
  | snoc {s m t : σ} {is : List ι} {os : List ω} {i : ι} {o : ω} :
      Run step s is os m → step m i o t → Run step s (is ++ [i]) (os ++ [o]) t

theorem Run.single {σ ι ω : Type} {step : σ → ι → ω → σ → Prop} {s t : σ} {i : ι} {o : ω}
    (h : step s i o t) : Run step s [i] [o] t :=
  Run.snoc (Run.nil s) h

theorem Run.append {σ ι ω : Type} {step : σ → ι → ω → σ → Prop} {s m t : σ}
    {is js : List ι} {os ps : List ω}
    (h₁ : Run step s is os m) (h₂ : Run step m js ps t) :
    Run step s (is ++ js) (os ++ ps) t := by
  induction h₂ with
  | nil => simpa using h₁
  | snoc _ hstep ih =>
    rw [← List.append_assoc,← List.append_assoc]
    exact ih.snoc hstep

theorem Run.length_eq {σ ι ω : Type} {step : σ → ι → ω → σ → Prop} {s t : σ}
    {is : List ι} {os : List ω} (h : Run step s is os t) : is.length = os.length := by
  induction h with
  | nil => rfl
  | snoc _ _ ih => simp [ih]

theorem Run.nil_inv {σ ι ω : Type} {step : σ → ι → ω → σ → Prop} {s t : σ} {os : List ω}
    (h : Run step s [] os t) : t = s ∧ os = [] := by
  generalize hl : ([] : List ι) = l at h
  cases h with
  | nil => exact ⟨rfl,rfl⟩
  | snoc _ _ => simp at hl

theorem Run.snoc_inv {σ ι ω : Type} {step : σ → ι → ω → σ → Prop} {s t : σ}
    {is : List ι} {i : ι} {os : List ω} (h : Run step s (is ++ [i]) os t) :
    ∃ m ps o, Run step s is ps m ∧ step m i o t ∧ os = ps ++ [o] := by
  generalize hl : is ++ [i] = l at h
  cases h with
  | nil => simp at hl
  | @snoc m _ js ps j o hr hs =>
    obtain ⟨rfl,hj⟩ := List.append_inj' hl rfl
    obtain rfl : i = j := by simpa using hj
    exact ⟨m,ps,o,hr,hs,rfl⟩

theorem Run.split {σ ι ω : Type} {step : σ → ι → ω → σ → Prop} {s t : σ}
    {is js : List ι} {os : List ω} (h : Run step s (is ++ js) os t) :
    ∃ m ps qs, Run step s is ps m ∧ Run step m js qs t ∧ os = ps ++ qs := by
  induction js using List.reverseRecOn generalizing os t with
  | nil => exact ⟨t,os,[],by simpa using h,Run.nil t,by simp⟩
  | append_singleton js j ih =>
    rw [← List.append_assoc] at h
    obtain ⟨m,ps,o,hr,hs,rfl⟩ := h.snoc_inv
    obtain ⟨k,qs,rs,hk,hj,rfl⟩ := ih hr
    exact ⟨k,qs,rs ++ [o],hk,hj.snoc hs,by simp⟩

/-- The invariant rule. The invariant may mention everything read and emitted so far. -/
theorem Run.invariant {σ ι ω : Type} {step : σ → ι → ω → σ → Prop}
    (I : List ι → List ω → σ → Prop) {s t : σ} {is : List ι} {os : List ω}
    (h : Run step s is os t) (hinit : I [] [] s)
    (hstep : ∀ {js ps m i o n}, Run step s js ps m → I js ps m → step m i o n →
      I (js ++ [i]) (ps ++ [o]) n) : I is os t := by
  induction h with
  | nil => exact hinit
  | snoc hr hs ih => exact hstep hr ih hs

theorem Run.preserves {σ ι ω : Type} {step : σ → ι → ω → σ → Prop} (I : σ → Prop) {s t : σ}
    {is : List ι} {os : List ω} (h : Run step s is os t) (hinit : I s)
    (hstep : ∀ {m i o n}, I m → step m i o n → I n) : I t :=
  h.invariant (fun _ _ => I) hinit (fun _ hi hs => hstep hi hs)

theorem Run.imp {σ ι ω : Type} {step step' : σ → ι → ω → σ → Prop}
    (himp : ∀ {m i o n}, step m i o n → step' m i o n) {s t : σ} {is : List ι} {os : List ω}
    (h : Run step s is os t) : Run step' s is os t := by
  induction h with
  | nil => exact .nil s
  | snoc _ hs ih => exact ih.snoc (himp hs)

theorem Run.mono {σ ι ω β : Type} [Preorder β] {step : σ → ι → ω → σ → Prop}
    (I : σ → Prop) (μ : σ → β) {s t : σ} {is : List ι} {os : List ω}
    (h : Run step s is os t) (hinit : I s)
    (hkeep : ∀ {m i o n}, I m → step m i o n → I n)
    (hstep : ∀ {m i o n}, I m → step m i o n → μ m ≤ μ n) : μ s ≤ μ t := by
  have hh : I t ∧ μ s ≤ μ t := by
    refine h.preserves (fun m => I m ∧ μ s ≤ μ m) ⟨hinit,le_rfl⟩ ?_
    intro m i o n hm hs
    exact ⟨hkeep hm.1 hs,hm.2.trans (hstep hm.1 hs)⟩
  exact hh.2

/-- Simulation: when each concrete step is matched by an abstract run that emits the
same entries, so is every concrete run. -/
theorem Run.simulates {σ ι σ' ι' α : Type} {step : σ → ι → List α → σ → Prop}
    {step' : σ' → ι' → List α → σ' → Prop} (R : σ → σ' → Prop) {s t : σ} {s' : σ'}
    {is : List ι} {os : List (List α)} (h : Run step s is os t) (hinit : R s s')
    (hsim : ∀ {m i o n m'}, R m m' → step m i o n →
      ∃ js ps n', Run step' m' js ps n' ∧ ps.flatten = o ∧ R n n') :
    ∃ js ps t', Run step' s' js ps t' ∧ ps.flatten = os.flatten ∧ R t t' := by
  induction h with
  | nil => exact ⟨[],[],s',Run.nil s',rfl,hinit⟩
  | snoc _ hs ih =>
    obtain ⟨js,ps,m',hr,hflat,hR⟩ := ih
    obtain ⟨ks,qs,t',hr',hflat',hR'⟩ := hsim hR hs
    exact ⟨js ++ ks,ps ++ qs,t',hr.append hr',by simp [hflat,hflat'],hR'⟩

def trace {σ ι ω : Type} (f : ι → σ → ω × σ) : List ι → σ → List ω × σ
  | [], s => ([],s)
  | i :: is, s => ((f i s).1 :: (trace f is (f i s).2).1,(trace f is (f i s).2).2)

theorem run_trace {σ ι ω : Type} (f : ι → σ → ω × σ) (is : List ι) (s : σ) :
    Run (fun m i o n => f i m = (o,n)) s is (trace f is s).1 (trace f is s).2 := by
  induction is generalizing s with
  | nil => exact Run.nil s
  | cons i is ih => exact Run.append (Run.single rfl) (ih (f i s).2)

/-- Each input meets `p` in the state it comes in. -/
def Meets {σ ι ω : Type} (p : σ → ι → Prop) (f : ι → σ → ω × σ) : List ι → σ → Prop
  | [], _ => True
  | i :: is, s => p s i ∧ Meets p f is (f i s).2

instance decidableMeets {σ ι ω : Type} (p : σ → ι → Prop) [∀ s i, Decidable (p s i)]
    (f : ι → σ → ω × σ) : (is : List ι) → (s : σ) → Decidable (Meets p f is s)
  | [], _ => isTrue trivial
  | i :: is, s =>
    have := decidableMeets p f is (f i s).2
    inferInstanceAs (Decidable (p s i ∧ Meets p f is (f i s).2))

theorem run_meets {σ ι ω : Type} {p : σ → ι → Prop} {f : ι → σ → ω × σ} {is : List ι} {s : σ}
    (h : Meets p f is s) :
    Run (fun m i o n => p m i ∧ f i m = (o,n)) s is (trace f is s).1 (trace f is s).2 := by
  induction is generalizing s with
  | nil => exact Run.nil s
  | cons i is ih => exact Run.append (Run.single ⟨h.1,rfl⟩) (ih h.2)

theorem foldlM_ok_iff {σ ι ε : Type} (f : σ → ι → Except ε σ) (is : List ι) (s t : σ) :
    is.foldlM f s = .ok t ↔
      ∃ os, Run (fun m i (_ : Unit) n => f m i = .ok n) s is os t := by
  induction is using List.reverseRecOn generalizing t with
  | nil =>
    constructor
    · intro h
      obtain rfl : s = t := by simpa [pure,Except.pure] using h
      exact ⟨[],Run.nil s⟩
    · rintro ⟨os,h⟩
      rw [h.nil_inv.1]
      rfl
  | append_singleton is i ih =>
    rw [List.foldlM_append]
    constructor
    · intro h
      cases hf : is.foldlM f s with
      | error e => simp [hf,bind,Except.bind] at h
      | ok m =>
        obtain ⟨os,hr⟩ := (ih m).mp hf
        have hm : f m i = .ok t := by
          cases hfi : f m i with
          | error e => simp [hf,hfi,bind,Except.bind] at h
          | ok n => simpa [hf,hfi,bind,Except.bind,pure,Except.pure] using h
        exact ⟨os ++ [()],hr.snoc hm⟩
    · rintro ⟨os,h⟩
      obtain ⟨m,ps,o,hr,hs,-⟩ := h.snoc_inv
      have hf := (ih m).mpr ⟨ps,hr⟩
      simp [hf,hs,bind,Except.bind,pure,Except.pure]

end Machine
