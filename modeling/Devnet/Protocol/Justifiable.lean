import Devnet.Lib.Words
import Devnet.Protocol.Slot

/-!
The rule for justifiable distances on the words it is computed with. The square root comes out of
Newton's iteration, started from a power of two that the bit length of its argument gives; it is
the exact root, and with it the rule decides squares and products of neighbours.
-/

set_option autoImplicit false

namespace Devnet.Protocol
open Machine Words

section Root

def leadingZeros (n : UInt64) : Nat := if n = 0 then 64 else 63 - Nat.log2 n.toNat

def isqrtRound (n x : UInt64) : Except Trap (Flow UInt64 UInt64) := do
  let next := midpoint x (← div n x)
  if x ≤ next then .ok (.stop x) else .ok (.next next)

/-- `isqrt_u64`, given up after `budget` rounds. -/
def isqrtWords (budget : Nat) (n : UInt64) : Except Trap UInt64 :=
  if n < 2 then .ok n
  else do
    let bits := 64 - leadingZeros n
    let x ← bit ((bits+1)/2)
    loop (isqrtRound n) .unending budget x

theorem isqrtRound_of_pos (n : UInt64) {x : UInt64} (h : 0 < x.toNat) :
    ∃ next : UInt64, next.toNat = (x.toNat + n.toNat/x.toNat)/2 ∧
      isqrtRound n x = if x ≤ next then .ok (.stop x) else .ok (.next next) := by
  refine ⟨midpoint x (UInt64.ofNat (n.toNat/x.toNat)),?_,?_⟩
  · rw [toNat_midpoint,toNat_ofNat_of_lt ((Nat.div_le_self _ _).trans_lt n.toNat_lt)]
  · simp only [isqrtRound,div_of_pos h]
    rfl

theorem isqrtRound_cases {n x : UInt64} (hpos : 0 < n.toNat) (hroot : Nat.sqrt n.toNat ≤ x.toNat) :
    (∃ r, isqrtRound n x = .ok (.stop r) ∧ r.toNat = Nat.sqrt n.toNat) ∨
      ∃ next, isqrtRound n x = .ok (.next next) ∧ Nat.sqrt n.toNat ≤ next.toNat ∧
        next.toNat < x.toNat := by
  have hx : 0 < x.toNat := (Nat.sqrt_pos.mpr hpos).trans_le hroot
  obtain ⟨next,hnext,hround⟩ := isqrtRound_of_pos n hx
  rw [hround]
  by_cases hstop : x ≤ next
  · have hle : x.toNat ≤ next.toNat := UInt64.le_iff_toNat_le.mp hstop
    rw [hnext] at hle
    exact .inl ⟨x,if_pos hstop,eq_sqrt_of_le_mean hx hroot hle⟩
  · have hlt : next.toNat < x.toNat := Nat.lt_of_not_le fun h => hstop (UInt64.le_iff_toNat_le.mpr h)
    refine .inr ⟨next,if_neg hstop,?_,hlt⟩
    rw [hnext]
    exact sqrt_le_mean _ hx

theorem toNat_lt_two {n : UInt64} : n < 2 ↔ n.toNat < 2 := UInt64.lt_iff_toNat_lt

theorem bits_eq {n : UInt64} (h : 0 < n.toNat) : 64 - leadingZeros n = Nat.log2 n.toNat+1 := by
  have hne : n ≠ 0 := by
    rintro rfl
    exact absurd h (by decide)
  have hlt : Nat.log2 n.toNat < 64 := (Nat.log2_lt h.ne').mpr n.toNat_lt
  rw [leadingZeros,if_neg hne]
  omega

theorem sqrt_le_seed (n : Nat) : Nat.sqrt n ≤ 2^((Nat.log2 n+1+1)/2) := by
  have hsquare : n < 2^((Nat.log2 n+1+1)/2)*2^((Nat.log2 n+1+1)/2) := by
    rw [← Nat.pow_add]
    exact Nat.lt_log2_self.trans_le (Nat.pow_le_pow_right (by decide) (by omega))
  exact (Nat.sqrt_lt.mpr hsquare).le

theorem isqrtWords_eq (n : UInt64) (more : Nat) :
    ∃ r : UInt64, r.toNat = Nat.sqrt n.toNat ∧ isqrtWords (2^32+1+more) n = .ok r := by
  by_cases hsmall : n < 2
  · refine ⟨n,?_,if_pos hsmall⟩
    have hn : n.toNat < 2 := toNat_lt_two.mp hsmall
    interval_cases n.toNat <;> decide
  · have hn : ¬ n.toNat < 2 := fun h => hsmall (toNat_lt_two.mpr h)
    have hroot := sqrt_le_seed n.toNat
    have hlog : Nat.log2 n.toNat < 64 := (Nat.log2_lt (by omega)).mpr n.toNat_lt
    have hexp : (Nat.log2 n.toNat+1+1)/2 ≤ 32 := by omega
    have hle : 2^((Nat.log2 n.toNat+1+1)/2) ≤ 2^32 := Nat.pow_le_pow_right (by decide) hexp
    have hseed : (UInt64.ofNat (2^((Nat.log2 n.toNat+1+1)/2))).toNat = _ :=
      toNat_ofNat_of_lt (hle.trans_lt (by decide))
    rw [← hseed] at hroot hle
    obtain ⟨r,hr,hr'⟩ := @loop_correct _ _ _ (isqrtRound n) Trap.unending
      (fun x => Nat.sqrt n.toNat ≤ x.toNat) (fun r => r.toNat = Nat.sqrt n.toNat) UInt64.toNat
      (2^32+1+more) _ (isqrtRound_cases (by omega)) hroot (by omega)
    refine ⟨r,hr',?_⟩
    simp only [isqrtWords,if_neg hsmall,bits_eq (show 0 < n.toNat by omega),bit,
      if_pos (show (Nat.log2 n.toNat+1+1)/2 < 64 by omega)]
    exact hr

theorem isqrtLoop_eq {n fuel x : Nat} (hpos : 0 < n) (hroot : Nat.sqrt n ≤ x) (hfuel : x ≤ fuel) :
    isqrtLoop n fuel x = Nat.sqrt n := by
  induction fuel generalizing x with
  | zero =>
    have hone : 0 < Nat.sqrt n := Nat.sqrt_pos.mpr hpos
    omega
  | succ fuel ih =>
    have hx : 0 < x := (Nat.sqrt_pos.mpr hpos).trans_le hroot
    by_cases hstop : x ≤ (x + n/x)/2
    · rw [isqrtLoop,if_pos hstop]
      exact eq_sqrt_of_le_mean hx hroot hstop
    · rw [isqrtLoop,if_neg hstop]
      exact ih (sqrt_le_mean n hx) (by omega)

theorem isqrtU64_eq (n : Nat) : isqrtU64 n = Nat.sqrt n := by
  by_cases hsmall : n < 2
  · rw [isqrtU64,if_pos hsmall]
    interval_cases n <;> decide
  · rw [isqrtU64,if_neg hsmall]
    exact isqrtLoop_eq (by omega) (sqrt_le_seed n) le_rfl

end Root

section Distances

/-- `is_justifiable_after`, with the products and the sum as they are computed. -/
def Slot.justifiableWords (budget : Nat) (self finalized : Slot) : Except Trap Bool :=
  if self.get < finalized.get then .ok false
  else do
    let delta ← sub (UInt64.ofNat self.get) (UInt64.ofNat finalized.get)
    if delta ≤ 5 then .ok true
    else do
      let s ← isqrtWords budget delta
      if delta = (← mul s s) then .ok true
      else do
        .ok (delta == (← mul s (← add s 1)))

def Pronic (d : Nat) : Prop := ∃ k, d = k*(k+1)

theorem isSquare_iff_sqrt {d : Nat} : IsSquare d ↔ d = Nat.sqrt d*Nat.sqrt d := by
  constructor
  · rintro ⟨k,rfl⟩
    rw [Nat.sqrt_eq]
  · exact fun h => ⟨_,h⟩

/-- The root alone decides the products, too: between `k²` and `(k+1)²` it is `k`. -/
theorem pronic_iff_sqrt {d : Nat} : Pronic d ↔ d = Nat.sqrt d*(Nat.sqrt d+1) := by
  constructor
  · rintro ⟨k,rfl⟩
    have hroot : Nat.sqrt (k*(k+1)) = k := by
      rw [Nat.mul_succ]
      exact Nat.sqrt_add_eq k (Nat.le_add_left k k)
    rw [hroot]
  · exact fun h => ⟨_,h⟩

theorem Slot.isJustifiableAfter_iff (c f : Slot) : c.isJustifiableAfter f = true ↔
    f.get ≤ c.get ∧
      (c.get - f.get ≤ 5 ∨ IsSquare (c.get - f.get) ∨ Pronic (c.get - f.get)) := by
  rw [isSquare_iff_sqrt,pronic_iff_sqrt]
  by_cases hlt : c.get < f.get
  · simp [isJustifiableAfter,hlt]
  · by_cases hsmall : c.get - f.get ≤ 5
    · simp [isJustifiableAfter,hlt,hsmall,Nat.le_of_not_lt hlt]
    · simp only [isJustifiableAfter,if_neg hlt,if_false,isqrtU64_eq,Bool.or_eq_true,
        beq_iff_eq,hsmall,false_or,Nat.le_of_not_lt hlt,true_and]

theorem Slot.justifiableWords_eq (c f : Slot) (more : Nat) :
    c.justifiableWords (2^32+1+more) f = .ok (c.isJustifiableAfter f) := by
  by_cases hlt : c.get < f.get
  · simp [justifiableWords,isJustifiableAfter,hlt]
  · have hle : f.get ≤ c.get := Nat.le_of_not_lt hlt
    have hsub : sub (UInt64.ofNat c.get) (UInt64.ofNat f.get) =
        .ok (UInt64.ofNat (c.get - f.get)) := by
      rw [sub_of_le (by rwa [toNat_ofNat_of_lt c.isLt,toNat_ofNat_of_lt f.isLt]),
        toNat_ofNat_of_lt c.isLt,toNat_ofNat_of_lt f.isLt]
    have hd : c.get - f.get < 2^64 := (Nat.sub_le _ _).trans_lt c.isLt
    have hfive : UInt64.ofNat (c.get - f.get) ≤ 5 ↔ c.get - f.get ≤ 5 := by
      rw [UInt64.le_iff_toNat_le,toNat_ofNat_of_lt hd]
      rfl
    obtain ⟨s,hs,hroot⟩ := isqrtWords_eq (UInt64.ofNat (c.get - f.get)) more
    rw [toNat_ofNat_of_lt hd] at hs
    -- The root has 32 bits, so its product with its successor still fits.
    have hword : s.toNat < 2^32 := hs ▸ Nat.sqrt_lt.mpr hd
    have hpronic : s.toNat*(s.toNat+1) < 2^64 := by nlinarith
    have hsquare : s.toNat*s.toNat < 2^64 := by nlinarith
    have hsucc : add s 1 = .ok (UInt64.ofNat (s.toNat+1)) := add_of_lt (b := 1) (by change _+1 < _; omega)
    have hsucc' : (UInt64.ofNat (s.toNat+1)).toNat = s.toNat+1 := toNat_ofNat_of_lt (by omega)
    have hmul : mul s (UInt64.ofNat (s.toNat+1)) = .ok (UInt64.ofNat (s.toNat*(s.toNat+1))) := by
      rw [mul_of_lt (by rwa [hsucc']),hsucc']
    simp only [justifiableWords,isJustifiableAfter,if_neg hlt,hsub,isqrtU64_eq,← hs]
    simp only [bind,Except.bind,hfive,hroot,mul_of_lt hsquare,hsucc,hmul,ofNat_inj_of_lt hd hsquare]
    by_cases hsmall : c.get - f.get ≤ 5
    · simp only [if_pos hsmall]
    · simp only [if_neg hsmall]
      by_cases heq : c.get - f.get = s.toNat*s.toNat
      · simp [heq]
      · simp only [if_neg heq,beq_false_of_ne heq,Bool.false_or]
        rw [Except.ok.injEq,Bool.eq_iff_iff,beq_iff_eq,beq_iff_eq,ofNat_inj_of_lt hd hpronic]

/-- The root of every word is exact, and with it the rule for justifiable slots: from the finalized
slot on, a distance of at most five, a square or a product of two consecutive numbers. Both are
computed within a bounded number of rounds, and no step leaves the range of a word. -/
theorem justifiable_distances_exact :
    (∀ n : UInt64, ∃ r : UInt64, r.toNat = Nat.sqrt n.toNat ∧
      ∀ more, isqrtWords (2^32+1+more) n = .ok r) ∧
    (∀ n, isqrtU64 n = Nat.sqrt n) ∧
    ∀ c f : Slot,
      (∀ more, c.justifiableWords (2^32+1+more) f = .ok (c.isJustifiableAfter f)) ∧
      (c.isJustifiableAfter f = true ↔ f.get ≤ c.get ∧
        (c.get - f.get ≤ 5 ∨ IsSquare (c.get - f.get) ∨ Pronic (c.get - f.get))) := by
  refine ⟨?_,isqrtU64_eq,fun c f => ⟨c.justifiableWords_eq f,c.isJustifiableAfter_iff f⟩⟩
  intro n
  refine ⟨UInt64.ofNat (Nat.sqrt n.toNat),?_,?_⟩
  · exact toNat_ofNat_of_lt ((Nat.sqrt_le_self _).trans_lt n.toNat_lt)
  · intro more
    obtain ⟨r,hr,hwords⟩ := isqrtWords_eq n more
    rw [hwords,← hr,UInt64.ofNat_toNat]

end Distances

end Devnet.Protocol
