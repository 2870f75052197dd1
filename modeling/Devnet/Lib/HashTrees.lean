import Mathlib.Data.List.Forall2
import Mathlib.Tactic.Ring

/-!
Computations that hash pairs, as trees: a leaf is a value the computation starts from and a
node one call of the hash. What two computations with the same result have in common is what
the hash lets one conclude: they agree as far as both go down, or two of their calls collide.
-/

set_option autoImplicit false

inductive HashTree (β : Type) where
  | leaf (value : β)
  | node (left right : HashTree β)

namespace HashTree
variable {β : Type}

section Evaluation
variable (hash : β → β → β)

def root : HashTree β → β
  | leaf value => value
  | node left right => hash left.root right.root

def calls : HashTree β → List (β × β)
  | leaf _ => []
  | node left right => (left.root hash,right.root hash) :: (left.calls ++ right.calls)

/-- A call of one computation and a call of the other that differ and give the same. -/
def Clash (t t' : HashTree β) : Prop :=
  ∃ call ∈ t.calls hash, ∃ call' ∈ t'.calls hash,
    call ≠ call' ∧ hash call.1 call.2 = hash call'.1 call'.2

end Evaluation

def Agree : HashTree β → HashTree β → Prop
  | leaf value, leaf value' => value = value'
  | node left right, node left' right' => Agree left left' ∧ Agree right right'
  | _, _ => True

@[simp] theorem agree_leaf (a b : β) : Agree (leaf a) (leaf b) ↔ a = b := Iff.rfl

@[simp] theorem agree_node (l r l' r' : HashTree β) :
    Agree (node l r) (node l' r') ↔ Agree l l' ∧ Agree r r' := Iff.rfl

theorem Clash.left {hash : β → β → β} {l r l' r' : HashTree β} (h : Clash hash l l') :
    Clash hash (node l r) (node l' r') := by
  obtain ⟨call,hcall,call',hcall',hclash⟩ := h
  exact ⟨call,by simp [calls,hcall],call',by simp [calls,hcall'],hclash⟩

theorem Clash.right {hash : β → β → β} {l r l' r' : HashTree β} (h : Clash hash r r') :
    Clash hash (node l r) (node l' r') := by
  obtain ⟨call,hcall,call',hcall',hclash⟩ := h
  exact ⟨call,by simp [calls,hcall],call',by simp [calls,hcall'],hclash⟩

theorem agree_or_clash {hash : β → β → β} {t t' : HashTree β} (h : t.root hash = t'.root hash) :
    Agree t t' ∨ Clash hash t t' := by
  induction t generalizing t' with
  | leaf value =>
    cases t' with
    | leaf value' => exact .inl h
    | node l' r' => exact .inl trivial
  | node l r ihl ihr =>
    cases t' with
    | leaf value' => exact .inl trivial
    | node l' r' =>
      by_cases hsame : (l.root hash,r.root hash) = (l'.root hash,r'.root hash)
      · obtain ⟨hl,hr⟩ := Prod.mk.inj hsame
        rcases ihl hl with hleft | hclash
        · rcases ihr hr with hright | hclash
          · exact .inl ⟨hleft,hright⟩
          · exact .inr hclash.right
        · exact .inr hclash.left
      · exact .inr ⟨_,List.mem_cons_self,_,List.mem_cons_self,hsame,h⟩

/-- `2^depth` trees under one root, paired off from below. -/
def perfect : Nat → (Nat → HashTree β) → HashTree β
  | 0, f => f 0
  | depth+1, f => perfect depth fun i => node (f (2*i)) (f (2*i+1))

theorem perfect_congr {depth : Nat} {f g : Nat → HashTree β} (h : ∀ i < 2^depth, f i = g i) :
    perfect depth f = perfect depth g := by
  induction depth generalizing f g with
  | zero => exact h 0 (by decide)
  | succ depth ih =>
    apply ih
    intro i hi
    rw [pow_succ] at h
    rw [h (2*i) (by omega),h (2*i+1) (by omega)]

theorem Agree.of_perfect {depth : Nat} {f g : Nat → HashTree β}
    (h : Agree (perfect depth f) (perfect depth g)) : ∀ i < 2^depth, Agree (f i) (g i) := by
  induction depth generalizing f g with
  | zero =>
    intro i hi
    obtain rfl : i = 0 := by omega
    exact h
  | succ depth ih =>
    intro i hi
    rw [pow_succ] at hi
    obtain ⟨heven,hodd⟩ := ih h (i/2) (by omega)
    rcases Nat.mod_two_eq_zero_or_one i with hmod | hmod
    · rwa [show 2*(i/2) = i by omega] at heven
    · rwa [show 2*(i/2)+1 = i by omega] at hodd

theorem perfect_add (low high : Nat) (f : Nat → HashTree β) :
    perfect (low+high) f = perfect high fun i => perfect low fun j => f (i*2^low+j) := by
  induction low generalizing f with
  | zero => simp [perfect]
  | succ low ih =>
    rw [show low+1+high = low+high+1 by omega,perfect,ih]
    congr
    funext i
    rw [perfect]
    congr
    funext j
    rw [pow_succ,show 2*(i*2^low+j) = i*(2^low*2)+2*j by ring,
      show i*(2^low*2)+2*j+1 = i*(2^low*2)+(2*j+1) by ring]

theorem perfect_halves (depth : Nat) (f : Nat → HashTree β) :
    perfect (depth+1) f = node (perfect depth f) (perfect depth fun i => f (2^depth+i)) := by
  rw [perfect_add depth 1]
  simp [perfect]

end HashTree
