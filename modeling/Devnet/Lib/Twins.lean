import Devnet.Lib.Effects

/-!
Two runs side by side. A relation between the states of two computations is kept by what
both do to them; errors are equal, and what is returned is related. The rules follow the
shape of a computation, so that a program is compared with itself, or with a variant of
itself, step by step.
-/

set_option autoImplicit false

namespace Machine

/-- Both fail, with one error, or both return related values. -/
inductive Matches {ε α β : Type} (Q : α → β → Prop) : Except ε α → Except ε β → Prop where
  | ok {a : α} {b : β} (h : Q a b) : Matches Q (.ok a) (.ok b)
  | error (e : ε) : Matches Q (.error e) (.error e)

theorem Matches.refl {ε α : Type} (x : Except ε α) : Matches Eq x x := by
  cases x with
  | ok a => exact .ok rfl
  | error e => exact .error e

/-- The results of two updates match, and so do the states they leave. -/
inductive Twin {ε σ α β : Type} (R : σ → σ → Prop) (Q : α → β → Prop) :
    EStateM.Result ε σ α → EStateM.Result ε σ β → Prop where
  | ok {a : α} {b : β} {s t : σ} (h : Q a b) (hstate : R s t) : Twin R Q (.ok a s) (.ok b t)
  | error (e : ε) {s t : σ} (hstate : R s t) : Twin R Q (.error e s) (.error e t)

theorem Twin.inv {ε σ α β : Type} {R : σ → σ → Prop} {Q : α → β → Prop}
    {x : EStateM.Result ε σ α} {y : EStateM.Result ε σ β} (h : Twin R Q x y) :
    (∃ a b s t, x = .ok a s ∧ y = .ok b t ∧ Q a b ∧ R s t) ∨
      ∃ e s t, x = .error e s ∧ y = .error e t ∧ R s t := by
  cases h with
  | ok hab hst => exact .inl ⟨_,_,_,_,rfl,rfl,hab,hst⟩
  | error e hst => exact .inr ⟨e,_,_,rfl,rfl,hst⟩

/-- From related states two updates have twin results. -/
def Agree {ε σ α β : Type} (R : σ → σ → Prop) (Q : α → β → Prop) (x : EStateM ε σ α)
    (y : EStateM ε σ β) : Prop := ∀ s t, R s t → Twin R Q (x s) (y t)

section
variable {ε σ α β γ δ : Type} {R : σ → σ → Prop}

theorem agree_pure {Q : α → β → Prop} {a : α} {b : β} (h : Q a b) :
    Agree R Q (pure a : EStateM ε σ α) (pure b) := fun _ _ hst => .ok h hst

theorem agree_throw {Q : α → β → Prop} (e : ε) :
    Agree R Q (throw e : EStateM ε σ α) (throw e) := fun _ _ hst => .error e hst

theorem agree_bind {P : α → β → Prop} {Q : γ → δ → Prop} {x : EStateM ε σ α} {y : EStateM ε σ β}
    {f : α → EStateM ε σ γ} {g : β → EStateM ε σ δ} (hx : Agree R P x y)
    (hf : ∀ a b, P a b → Agree R Q (f a) (g b)) : Agree R Q (x >>= f) (y >>= g) := by
  intro s t hst
  rcases (hx s t hst).inv with ⟨a,b,m,n,hs,ht,hab,hmn⟩ | ⟨e,m,n,hs,ht,hmn⟩
  · rw [estate_bind_of_ok hs,estate_bind_of_ok ht]
    exact hf a b hab m n hmn
  · rw [estate_bind_error.mpr (.inl hs),estate_bind_error.mpr (.inl ht)]
    exact .error e hmn

theorem agree_get {Q : α → β → Prop} {f : σ → EStateM ε σ α} {g : σ → EStateM ε σ β}
    (h : ∀ s t, R s t → Agree R Q (f s) (g t)) : Agree R Q (get >>= f) (get >>= g) :=
  fun s t hst => h s t hst s t hst

theorem agree_set {s t : σ} (h : R s t) :
    Agree R Eq (set s : EStateM ε σ PUnit) (set t) := fun _ _ _ => .ok rfl h

theorem agree_modify {f g : σ → σ} (h : ∀ s t, R s t → R (f s) (g t)) :
    Agree R Eq (modify f : EStateM ε σ PUnit) (modify g) := fun s t hst => .ok rfl (h s t hst)

theorem agree_check {Q : α → β → Prop} {x : Except ε α} {y : Except ε β} (h : Matches Q x y) :
    Agree R Q (check x) (check y) := by
  intro s t hst
  cases h with
  | ok hab => exact .ok hab hst
  | error e => exact .error e hst

theorem agree_adaptExcept {ε' : Type} {Q : α → β → Prop} {x : EStateM ε σ α} {y : EStateM ε σ β}
    (h : Agree R Q x y) (f : ε → ε') : Agree R Q (x.adaptExcept f) (y.adaptExcept f) := by
  intro s t hst
  rcases (h s t hst).inv with ⟨a,b,m,n,hs,ht,hab,hmn⟩ | ⟨e,m,n,hs,ht,hmn⟩
  · rw [adaptExcept_ok.mpr hs,adaptExcept_ok.mpr ht]
    exact .ok hab hmn
  · rw [adaptExcept_of_error hs,adaptExcept_of_error ht]
    exact .error _ hmn

theorem Agree.after_rel {Q : α → β → Prop} {x : EStateM ε σ α} {y : EStateM ε σ β}
    (h : Agree R Q x y) {s t : σ} (hst : R s t) : R (after x s) (after y t) := by
  rcases (h s t hst).inv with ⟨a,b,m,n,hs,ht,-,hmn⟩ | ⟨e,m,n,hs,ht,hmn⟩
  · rwa [after_of_ok hs,after_of_ok ht]
  · rwa [after_of_error hs,after_of_error ht]

theorem Agree.returned_eq {x y : EStateM ε σ α} (h : Agree R Eq x y) {s t : σ} (hst : R s t) :
    returned x s = returned y t := by
  rcases (h s t hst).inv with ⟨a,_,m,n,hs,ht,rfl,-⟩ | ⟨e,m,n,hs,ht,-⟩
  · simp [returned,hs,ht]
  · simp [returned,hs,ht]

end

inductive SameFlow {σ ρ : Type} (I : σ → σ → Prop) (Q : ρ → ρ → Prop) :
    Flow σ ρ → Flow σ ρ → Prop where
  | next {s t : σ} (h : I s t) : SameFlow I Q (.next s) (.next t)
  | stop {r r' : ρ} (h : Q r r') : SameFlow I Q (.stop r) (.stop r')

theorem loop_matches {σ ρ ε : Type} {body body' : σ → Except ε (Flow σ ρ)} {spent : ε}
    {I : σ → σ → Prop} {Q : ρ → ρ → Prop}
    (hbody : ∀ s t, I s t → Matches (SameFlow I Q) (body s) (body' t)) (n : Nat) {s t : σ}
    (hst : I s t) : Matches Q (loop body spent n s) (loop body' spent n t) := by
  induction n generalizing s t with
  | zero => exact .error spent
  | succ n ih =>
    have h := hbody s t hst
    simp only [loop]
    generalize body s = x at h ⊢
    generalize body' t = y at h ⊢
    cases h with
    | error e => exact .error e
    | ok hflow =>
      cases hflow with
      | next hnext => exact ih hnext
      | stop hstop => exact .ok hstop

end Machine
