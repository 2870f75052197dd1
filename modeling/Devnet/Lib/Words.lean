import Mathlib
import Devnet.Lib.Effects

/-!
Arithmetic on 64-bit words with everything that stops a program made visible: a result out of
range, a shift by the width or more, a division by zero. A loop that has not returned within its
budget is reported the same way, so that a value says the loop has ended. Then the step of
Newton's iteration for the integer square root.
-/

set_option autoImplicit false

namespace Words
open Machine

inductive Trap where
  | overflow
  | divisionByZero
  | unending
  deriving DecidableEq, Repr

def add (a b : UInt64) : Except Trap UInt64 :=
  if a.toNat+b.toNat < 2^64 then .ok (a+b) else .error .overflow

def sub (a b : UInt64) : Except Trap UInt64 :=
  if b.toNat ≤ a.toNat then .ok (a-b) else .error .overflow

def mul (a b : UInt64) : Except Trap UInt64 :=
  if a.toNat*b.toNat < 2^64 then .ok (a*b) else .error .overflow

def div (a b : UInt64) : Except Trap UInt64 :=
  if b = 0 then .error .divisionByZero else .ok (a/b)

def bit (k : Nat) : Except Trap UInt64 :=
  if k < 64 then .ok (UInt64.ofNat (2^k)) else .error .overflow

/-- `u64::midpoint`, the mean rounded down as if computed in a wider type. -/
def midpoint (a b : UInt64) : UInt64 := UInt64.ofNat ((a.toNat+b.toNat)/2)

theorem toNat_ofNat_of_lt {n : Nat} (h : n < 2^64) : (UInt64.ofNat n).toNat = n := by
  rw [UInt64.toNat_ofNat',Nat.mod_eq_of_lt h]

theorem ofNat_inj_of_lt {m n : Nat} (hm : m < 2^64) (hn : n < 2^64) :
    UInt64.ofNat m = UInt64.ofNat n ↔ m = n := by
  constructor
  · intro h
    rw [← toNat_ofNat_of_lt hm,h,toNat_ofNat_of_lt hn]
  · rintro rfl
    rfl

theorem add_of_lt {a b : UInt64} (h : a.toNat+b.toNat < 2^64) :
    add a b = .ok (UInt64.ofNat (a.toNat+b.toNat)) := by
  rw [add,if_pos h,UInt64.ofNat_add,UInt64.ofNat_toNat,UInt64.ofNat_toNat]

theorem sub_of_le {a b : UInt64} (h : b.toNat ≤ a.toNat) :
    sub a b = .ok (UInt64.ofNat (a.toNat - b.toNat)) := by
  rw [sub,if_pos h,← UInt64.toNat_sub_of_le _ _ (UInt64.le_iff_toNat_le.mpr h),UInt64.ofNat_toNat]

theorem mul_of_lt {a b : UInt64} (h : a.toNat*b.toNat < 2^64) :
    mul a b = .ok (UInt64.ofNat (a.toNat*b.toNat)) := by
  rw [mul,if_pos h,UInt64.ofNat_mul,UInt64.ofNat_toNat,UInt64.ofNat_toNat]

theorem div_of_pos {a b : UInt64} (h : 0 < b.toNat) :
    div a b = .ok (UInt64.ofNat (a.toNat/b.toNat)) := by
  have hne : b ≠ 0 := by
    rintro rfl
    exact absurd h (by decide)
  rw [div,if_neg hne,← UInt64.toNat_div,UInt64.ofNat_toNat]

theorem toNat_midpoint (a b : UInt64) : (midpoint a b).toNat = (a.toNat+b.toNat)/2 := by
  have ha := a.toNat_lt
  have hb := b.toNat_lt
  exact toNat_ofNat_of_lt (by omega)

section Newton

theorem sqrt_le_mean (n : Nat) {x : Nat} (h : 0 < x) : Nat.sqrt n ≤ (x + n/x)/2 := by
  have hroot := Nat.sqrt_le n
  generalize Nat.sqrt n = r at hroot
  rw [Nat.le_div_iff_mul_le (by decide)]
  by_cases hx : 2*r ≤ x
  · exact le_add_right (by omega)
  · have hpart : (2*r - x)*x ≤ n := by
      obtain ⟨d,hd⟩ : ∃ d, 2*r = x+d := ⟨2*r - x,by omega⟩
      rw [hd,Nat.add_sub_cancel_left]
      nlinarith [sq_nonneg ((x : Int) - d)]
    have hdiv : 2*r - x ≤ n/x := (Nat.le_div_iff_mul_le h).mpr hpart
    omega

/-- Where the iteration stops decreasing, it is at the root. -/
theorem eq_sqrt_of_le_mean {n x : Nat} (h : 0 < x) (hroot : Nat.sqrt n ≤ x)
    (hstop : x ≤ (x + n/x)/2) : x = Nat.sqrt n := by
  have hdiv : x ≤ n/x := by omega
  have hsquare : x*x ≤ n := (Nat.le_div_iff_mul_le h).mp hdiv
  exact le_antisymm (Nat.le_sqrt.mpr hsquare) hroot

end Newton

end Words
