import Devnet.Lib.Run

/-!
Inversion rules for fallible computations, for updates in place that survive a
failure, and for loops. A loop is run on a budget of iterations and reports its
own error when the budget is spent; `loop_total` is the variant rule that rules
this out, so a loop proved total is one that really returns.
-/

set_option autoImplicit false

namespace Machine

theorem except_bind_ok {ε α β : Type} {x : Except ε α} {f : α → Except ε β} {b : β} :
    (x >>= f) = .ok b ↔ ∃ a, x = .ok a ∧ f a = .ok b := by
  cases x with
  | error e => simp [bind,Except.bind]
  | ok a => simp [bind,Except.bind]

theorem except_bind_error {ε α β : Type} {x : Except ε α} {f : α → Except ε β} {e : ε} :
    (x >>= f) = .error e ↔ x = .error e ∨ ∃ a, x = .ok a ∧ f a = .error e := by
  cases x with
  | error e' => simp [bind,Except.bind]
  | ok a => simp [bind,Except.bind]

theorem except_pure_ok {ε α : Type} {a b : α} :
    (pure a : Except ε α) = .ok b ↔ a = b := by
  simp [pure,Except.pure]

theorem guard_ok {ε α : Type} {p : Prop} [Decidable p] {e : ε} {x : Except ε α} {a : α} :
    (if p then .error e else x) = .ok a ↔ ¬p ∧ x = .ok a := by
  by_cases hp : p
  · simp [hp]
  · simp [hp]

theorem mapError_ok {ε ε' α : Type} {f : ε → ε'} {x : Except ε α} {a : α} :
    x.mapError f = .ok a ↔ x = .ok a := by
  cases x with
  | error e => simp [Except.mapError]
  | ok b => simp [Except.mapError]

theorem forM_ok {ε α : Type} {f : α → Except ε PUnit} {xs : List α} :
    xs.forM f = .ok () ↔ ∀ x ∈ xs, f x = .ok () := by
  induction xs with
  | nil => simp [except_pure_ok]
  | cons x xs ih =>
    rw [List.forM_eq_forM] at ih ⊢
    simp only [List.forM_cons,except_bind_ok,ih,List.forall_mem_cons]
    exact ⟨fun ⟨_,hx,hxs⟩ => ⟨hx,hxs⟩,fun ⟨hx,hxs⟩ => ⟨(),hx,hxs⟩⟩

theorem estate_bind_ok {ε σ α β : Type} {x : EStateM ε σ α} {f : α → EStateM ε σ β}
    {s t : σ} {b : β} :
    (x >>= f) s = .ok b t ↔ ∃ a m, x s = .ok a m ∧ f a m = .ok b t := by
  cases hx : x s with
  | error e m => simp [bind,EStateM.bind,hx]
  | ok a m => simp [bind,EStateM.bind,hx]

theorem estate_bind_of_ok {ε σ α β : Type} {x : EStateM ε σ α} {f : α → EStateM ε σ β}
    {s m : σ} {a : α} (h : x s = .ok a m) : (x >>= f) s = f a m := by
  simp [bind,EStateM.bind,h]

theorem estate_bind_error {ε σ α β : Type} {x : EStateM ε σ α} {f : α → EStateM ε σ β}
    {s t : σ} {e : ε} :
    (x >>= f) s = .error e t ↔
      x s = .error e t ∨ ∃ a m, x s = .ok a m ∧ f a m = .error e t := by
  cases hx : x s with
  | error e m => simp [bind,EStateM.bind,hx]
  | ok a m => simp [bind,EStateM.bind,hx]

theorem estate_pure_ok {ε σ α : Type} {a b : α} {s t : σ} :
    (pure a : EStateM ε σ α) s = .ok b t ↔ a = b ∧ s = t := by
  simp [pure,EStateM.pure]

@[simp] theorem estate_get_bind {ε σ α : Type} (f : σ → EStateM ε σ α) (s : σ) :
    ((get : EStateM ε σ σ) >>= f) s = f s s := rfl

@[simp] theorem estate_set {ε σ : Type} (s t : σ) :
    (set t : EStateM ε σ PUnit) s = .ok () t := rfl

@[simp] theorem estate_modify {ε σ : Type} (f : σ → σ) (s : σ) :
    (modify f : EStateM ε σ PUnit) s = .ok () (f s) := rfl

@[simp] theorem estate_modify_bind {ε σ α : Type} (f : σ → σ) (g : PUnit → EStateM ε σ α) (s : σ) :
    ((modify f : EStateM ε σ PUnit) >>= g) s = g () (f s) := rfl

@[simp] theorem estate_throw {ε σ α : Type} (e : ε) (s : σ) :
    (throw e : EStateM ε σ α) s = .error e s := rfl

def check {ε σ α : Type} (x : Except ε α) : EStateM ε σ α := fun s =>
  match x with
  | .ok a => .ok a s
  | .error e => .error e s

theorem check_ok {ε σ α : Type} {x : Except ε α} {a : α} {s t : σ} :
    check x s = .ok a t ↔ x = .ok a ∧ s = t := by
  cases x with
  | error e => simp [check]
  | ok b => simp [check]

theorem check_error {ε σ α : Type} {x : Except ε α} {e : ε} {s t : σ} :
    (check x : EStateM ε σ α) s = .error e t ↔ x = .error e ∧ s = t := by
  cases x with
  | error e => simp [check]
  | ok b => simp [check]

@[simp] theorem check_bind_ok {ε σ α β : Type} (a : α) (f : α → EStateM ε σ β) (s : σ) :
    (check (.ok a) >>= f) s = f a s := rfl

@[simp] theorem check_bind_error {ε σ α β : Type} (e : ε) (f : α → EStateM ε σ β) (s : σ) :
    (check (.error e) >>= f) s = .error e s := rfl

/-- Run an update on a copy and hand the copy out only when it succeeds. -/
def onCopy {ε σ α : Type} (x : EStateM ε σ α) (s : σ) : Except ε σ :=
  match x s with
  | .ok _ t => .ok t
  | .error e _ => .error e

theorem onCopy_ok {ε σ α : Type} {x : EStateM ε σ α} {s t : σ} :
    onCopy x s = .ok t ↔ ∃ a, x s = .ok a t := by
  cases hx : x s with
  | error e m => simp [onCopy,hx]
  | ok a m => simp [onCopy,hx]

/-- The state an update leaves behind, whether or not it fails. -/
def after {ε σ α : Type} (x : EStateM ε σ α) (s : σ) : σ :=
  match x s with
  | .ok _ t => t
  | .error _ t => t

theorem after_of_ok {ε σ α : Type} {x : EStateM ε σ α} {s t : σ} {a : α} (h : x s = .ok a t) :
    after x s = t := by
  simp [after,h]

theorem after_of_error {ε σ α : Type} {x : EStateM ε σ α} {s t : σ} {e : ε}
    (h : x s = .error e t) : after x s = t := by
  simp [after,h]

def returned {ε σ α : Type} (x : EStateM ε σ α) (s : σ) : Except ε α :=
  match x s with
  | .ok a _ => .ok a
  | .error e _ => .error e

def success {ε σ α : Type} (x : EStateM ε σ α) (s : σ) : Option (α × σ) :=
  match x s with
  | .ok a t => some (a,t)
  | .error _ _ => none

theorem success_eq_some {ε σ α : Type} {x : EStateM ε σ α} {s : σ} {p : α × σ} :
    success x s = some p ↔ x s = .ok p.1 p.2 := by
  cases h : x s with
  | ok a t => simp [success,h,Prod.ext_iff]
  | error e t => simp [success,h]

theorem toOption_eq_some {ε α : Type} {x : Except ε α} {a : α} :
    x.toOption = some a ↔ x = .ok a := by
  cases x with
  | ok b => simp [Except.toOption]
  | error e => simp [Except.toOption]

def failure {ε σ α : Type} (x : EStateM ε σ α) (s : σ) : Option ε :=
  match x s with
  | .ok _ _ => none
  | .error e _ => some e

theorem failure_eq_some {ε σ α : Type} {x : EStateM ε σ α} {s : σ} {e : ε} :
    failure x s = some e ↔ ∃ t, x s = .error e t := by
  cases h : x s with
  | ok a t => simp [failure,h]
  | error e' t => simp [failure,h]

theorem failure_eq_none {ε σ α : Type} {x : EStateM ε σ α} {s : σ} :
    failure x s = none ↔ ∃ a t, x s = .ok a t := by
  cases h : x s with
  | ok a t => simp [failure,h]
  | error e t => simp [failure,h]

theorem after_bind_of_ok {ε σ α β : Type} {x : EStateM ε σ α} {f : α → EStateM ε σ β} {s m : σ}
    {a : α} (h : x s = .ok a m) : after (x >>= f) s = after (f a) m := by
  simp only [after,estate_bind_of_ok h]

theorem after_bind_of_error {ε σ α β : Type} {x : EStateM ε σ α} {f : α → EStateM ε σ β}
    {s m : σ} {e : ε} (h : x s = .error e m) : after (x >>= f) s = m :=
  after_of_error (estate_bind_error.mpr (.inl h))

theorem after_bind_pure {ε σ α β : Type} {x : EStateM ε σ α} {g : α → β} {s : σ} :
    after (x >>= fun a => pure (g a)) s = after x s := by
  cases h : x s with
  | error e m => rw [after_bind_of_error h,after_of_error h]
  | ok a m =>
    rw [after_bind_of_ok h,after_of_ok h]
    rfl

theorem adaptExcept_ok {ε ε' σ α : Type} {f : ε → ε'} {x : EStateM ε σ α} {s t : σ} {a : α} :
    x.adaptExcept f s = .ok a t ↔ x s = .ok a t := by
  cases h : x s with
  | error e m => simp [EStateM.adaptExcept,h]
  | ok b m => simp [EStateM.adaptExcept,h]

theorem adaptExcept_of_error {ε ε' σ α : Type} {f : ε → ε'} {x : EStateM ε σ α} {s t : σ} {e : ε}
    (h : x s = .error e t) : x.adaptExcept f s = .error (f e) t := by
  simp [EStateM.adaptExcept,h]

theorem after_adaptExcept {ε ε' σ α : Type} {f : ε → ε'} {x : EStateM ε σ α} {s : σ} :
    after (x.adaptExcept f) s = after x s := by
  cases h : x s with
  | error e m => simp [after,EStateM.adaptExcept,h]
  | ok b m => simp [after,EStateM.adaptExcept,h]

theorem after_bind {ε σ α β : Type} {R : σ → σ → Prop}
    (htrans : ∀ {s m t}, R s m → R m t → R s t) {x : EStateM ε σ α} {f : α → EStateM ε σ β}
    {s : σ} (hx : R s (after x s)) (hf : ∀ {a m}, x s = .ok a m → R m (after (f a) m)) :
    R s (after (x >>= f) s) := by
  cases h : x s with
  | error e m => rwa [after_bind_of_error h,← after_of_error h]
  | ok a m =>
    rw [after_of_ok h] at hx
    rw [after_bind_of_ok h]
    exact htrans hx (hf h)

theorem after_check_bind {ε σ α β : Type} {R : σ → σ → Prop} (hrefl : ∀ s, R s s)
    {x : Except ε α} {f : α → EStateM ε σ β} {s : σ}
    (hf : ∀ {a}, x = .ok a → R s (after (f a) s)) : R s (after (check x >>= f) s) := by
  cases x with
  | error e => exact hrefl s
  | ok a => exact hf rfl

/-- `for _ in 0..n`. -/
def times {ε σ : Type} (x : EStateM ε σ Unit) : Nat → EStateM ε σ Unit
  | 0 => pure ()
  | n+1 => do
    x
    times x n

theorem times_sound {ε σ : Type} {x : EStateM ε σ Unit} (I : Nat → σ → Prop)
    (hround : ∀ {n s t}, I (n+1) s → x s = .ok () t → I n t) {n : Nat} {s t : σ}
    (hs : I n s) (h : times x n s = .ok () t) : I 0 t := by
  induction n generalizing s with
  | zero =>
    obtain ⟨-,rfl⟩ := estate_pure_ok.mp h
    exact hs
  | succ n ih =>
    obtain ⟨_,m,hx,hrest⟩ := estate_bind_ok.mp h
    exact ih (hround hs hx) hrest

theorem times_total {ε σ : Type} {x : EStateM ε σ Unit} (I : Nat → σ → Prop)
    (hround : ∀ {n s}, I (n+1) s → ∃ t, x s = .ok () t ∧ I n t) {n : Nat} {s : σ}
    (hs : I n s) : ∃ t, times x n s = .ok () t := by
  induction n generalizing s with
  | zero => exact ⟨s,rfl⟩
  | succ n ih =>
    obtain ⟨m,hx,hm⟩ := hround hs
    obtain ⟨t,ht⟩ := ih hm
    exact ⟨t,estate_bind_ok.mpr ⟨(),m,hx,ht⟩⟩

theorem foldlM_total {ε σ ι : Type} {f : σ → ι → Except ε σ} (hf : ∀ s i, ∃ t, f s i = .ok t)
    (is : List ι) (s : σ) : ∃ t, is.foldlM f s = .ok t := by
  induction is generalizing s with
  | nil => exact ⟨s,rfl⟩
  | cons i is ih =>
    obtain ⟨m,hm⟩ := hf s i
    obtain ⟨t,ht⟩ := ih m
    exact ⟨t,by rw [List.foldlM_cons,except_bind_ok]; exact ⟨m,hm,ht⟩⟩

/-- A fold that takes the next item exactly if what it has taken stays in order takes a list
exactly if the list is in order. -/
theorem foldlM_accepts {ε σ ι : Type} {f : σ → ι → Except ε σ} {Holds : σ → List ι → Prop}
    {InOrder : List ι → Prop} (hfront : ∀ {front rest}, InOrder (front ++ rest) → InOrder front)
    (hstep : ∀ {s done} i, Holds s done → (∃ t, f s i = .ok t ∧ Holds t (done ++ [i])) ∨
      ¬ InOrder (done ++ [i]) ∧ ∃ e, f s i = .error e) (is : List ι) {s : σ} {done : List ι}
    (hs : Holds s done) : (∃ t, is.foldlM f s = .ok t ∧ Holds t (done ++ is)) ∨
      ¬ InOrder (done ++ is) ∧ ∃ e, is.foldlM f s = .error e := by
  induction is generalizing s done with
  | nil => exact .inl ⟨s,rfl,by rwa [List.append_nil]⟩
  | cons i is ih =>
    rw [List.append_cons,List.foldlM_cons]
    rcases hstep i hs with ⟨m,hm,hdone⟩ | ⟨hnot,e,he⟩
    · rw [hm]
      exact ih hdone
    · rw [he]
      exact .inr ⟨fun hall => hnot (hfront hall),e,rfl⟩

/-- Either another round from a new state, or the value the loop returns. -/
inductive Flow (σ ρ : Type) where
  | next : σ → Flow σ ρ
  | stop : ρ → Flow σ ρ
  deriving DecidableEq

def loop {σ ρ ε : Type} (body : σ → Except ε (Flow σ ρ)) (spent : ε) :
    Nat → σ → Except ε ρ
  | 0, _ => .error spent
  | n+1, s =>
    match body s with
    | .error e => .error e
    | .ok (.next t) => loop body spent n t
    | .ok (.stop r) => .ok r

/-- Partial correctness: what the body keeps holds of the value it stops with. -/
theorem loop_sound {σ ρ ε : Type} {body : σ → Except ε (Flow σ ρ)} {spent : ε}
    (I : σ → Prop) (Q : ρ → Prop) {n : Nat} {s : σ} {r : ρ}
    (hkeep : ∀ {s t}, I s → body s = .ok (.next t) → I t)
    (hstop : ∀ {s r}, I s → body s = .ok (.stop r) → Q r)
    (hs : I s) (h : loop body spent n s = .ok r) : Q r := by
  induction n generalizing s with
  | zero => simp [loop] at h
  | succ n ih =>
    cases hb : body s with
    | error e => simp [loop,hb] at h
    | ok f =>
      cases f with
      | next t => exact ih (hkeep hs hb) (by simpa [loop,hb] using h)
      | stop r' =>
        obtain rfl : r' = r := by simpa [loop,hb] using h
        exact hstop hs hb

/-- Total correctness: a body that cannot fail and decreases a measure below the budget returns
a value, with what every stop establishes. -/
theorem loop_correct {σ ρ ε : Type} {body : σ → Except ε (Flow σ ρ)} {spent : ε}
    (I : σ → Prop) (Q : ρ → Prop) (μ : σ → Nat) {n : Nat} {s : σ}
    (hbody : ∀ {s}, I s → (∃ r, body s = .ok (.stop r) ∧ Q r) ∨
      ∃ t, body s = .ok (.next t) ∧ I t ∧ μ t < μ s)
    (hs : I s) (hn : μ s < n) : ∃ r, loop body spent n s = .ok r ∧ Q r := by
  induction n generalizing s with
  | zero => omega
  | succ n ih =>
    rcases hbody hs with ⟨r,hr,hQ⟩ | ⟨t,ht,hI,hlt⟩
    · exact ⟨r,by simp [loop,hr],hQ⟩
    · obtain ⟨r,hr,hQ⟩ := ih hI (by omega)
      exact ⟨r,by simp [loop,ht,hr],hQ⟩

theorem loop_total {σ ρ ε : Type} {body : σ → Except ε (Flow σ ρ)} {spent : ε}
    (I : σ → Prop) (μ : σ → Nat) {n : Nat} {s : σ}
    (hbody : ∀ {s}, I s → (∃ r, body s = .ok (.stop r)) ∨
      ∃ t, body s = .ok (.next t) ∧ I t ∧ μ t < μ s)
    (hs : I s) (hn : μ s < n) : ∃ r, loop body spent n s = .ok r := by
  have hround : ∀ {s}, I s → (∃ r, body s = .ok (.stop r) ∧ True) ∨
      ∃ t, body s = .ok (.next t) ∧ I t ∧ μ t < μ s := by
    intro s hI
    simpa only [and_true] using hbody hI
  obtain ⟨r,hr,-⟩ := loop_correct I (fun _ => True) μ hround hs hn
  exact ⟨r,hr⟩

theorem loop_ends {σ ρ ε : Type} {body : σ → Except ε (Flow σ ρ)} {spent : ε} (I : σ → Prop)
    (μ : σ → Nat) {n : Nat} {s : σ} (hfail : ∀ {s}, body s ≠ .error spent)
    (hbody : ∀ {s t}, I s → body s = .ok (.next t) → I t ∧ μ t < μ s)
    (hs : I s) (hn : μ s < n) : loop body spent n s ≠ .error spent := by
  induction n generalizing s with
  | zero => omega
  | succ n ih =>
    cases hb : body s with
    | error e =>
      have hne : e ≠ spent := fun he => hfail (he ▸ hb)
      simp [loop,hb,hne]
    | ok flow =>
      cases flow with
      | next t =>
        obtain ⟨ht,hlt⟩ := hbody hs hb
        simpa [loop,hb] using ih ht (by omega)
      | stop r => simp [loop,hb]

theorem getElem?_set_cases {α : Type} {l : List α} {i j : Nat} {a b : α}
    (h : (l.set i a)[j]? = some b) : j = i ∧ b = a ∨ j ≠ i ∧ l[j]? = some b := by
  rw [List.getElem?_set] at h
  split at h
  · next heq =>
    split at h
    · exact .inl ⟨heq.symm,(Option.some.inj h).symm⟩
    · cases h
  · next hne => exact .inr ⟨Ne.symm hne,h⟩

end Machine
