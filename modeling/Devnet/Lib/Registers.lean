import Devnet.Lib.Run

/-!
A register that is written late. Values are taken in turn, each by a caller that writes it
some time afterwards. If no write overtakes an older one that is still pending, the register
ends up with the value taken last.
-/

set_option autoImplicit false

namespace Registers
open Machine

/-- What the register holds, and the values taken but not yet written, oldest first. -/
structure Register (α : Type) where
  value : Option α
  pending : List α

inductive Turn where
  | take
  | write (i : Nat)

def Turn.InOrder : Turn → Prop
  | .take => True
  | .write i => i = 0

inductive Step {α : Type} : Register α → Turn → List α → Register α → Prop where
  | take (r : Register α) (a : α) : Step r .take [a] ⟨r.value,r.pending ++ [a]⟩
  | write {r : Register α} {a : α} {i : Nat} (isPending : r.pending[i]? = some a) :
      Step r (.write i) [] ⟨some a,r.pending.eraseIdx i⟩

def OrderedStep {α : Type} (r : Register α) (turn : Turn) (out : List α) (s : Register α) : Prop :=
  turn.InOrder ∧ Step r turn out s

/-- What was taken is written up to a point and pending from there on. -/
structure Written {α : Type} (first : Option α) (taken : List α) (r : Register α) : Prop where
  split : ∃ done, taken = done ++ r.pending ∧ r.value = (first.toList ++ done).getLast?

theorem Written.step {α : Type} {first : Option α} {taken out : List α} {r s : Register α}
    {turn : Turn} (h : Written first taken r) (hstep : OrderedStep r turn out s) :
    Written first (taken ++ out) s := by
  obtain ⟨done,htaken,hvalue⟩ := h.split
  obtain ⟨horder,hstep⟩ := hstep
  cases hstep with
  | take a => exact ⟨done,by simp [htaken],hvalue⟩
  | @write a i hpending =>
    obtain rfl : i = 0 := horder
    obtain ⟨value,_ | ⟨b,rest⟩⟩ := r
    · simp at hpending
    · obtain rfl : b = a := by simpa using hpending
      refine ⟨done ++ [b],by simp [htaken],?_⟩
      rw [← List.append_assoc,List.getLast?_concat]

theorem last_wins {α : Type} {r s : Register α} {turns : List Turn} {outs : List (List α)}
    (hrun : Run OrderedStep r turns outs s) (hstart : r.pending = []) (hend : s.pending = []) :
    s.value = (r.value.toList ++ outs.flatten).getLast? := by
  have hwritten : Written r.value outs.flatten s := by
    refine hrun.invariant (fun _ outs s => Written r.value outs.flatten s) ?_ ?_
    · exact ⟨[],by simp [hstart],by cases r.value <;> simp⟩
    · intro _ earlier m turn out n _ ih hstep
      rw [List.flatten_append,List.flatten_singleton]
      exact ih.step hstep
  obtain ⟨done,htaken,hvalue⟩ := hwritten.split
  rw [hvalue,htaken,hend,List.append_nil]

end Registers
