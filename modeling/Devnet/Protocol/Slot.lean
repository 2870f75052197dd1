import Devnet.Ssz.Merkleize

/-!
Slots and validator indices, 64-bit words under their own names, and the rule for
which slots may be justified after a finalized one.
-/

set_option autoImplicit false

namespace Devnet.Protocol
open Devnet.Types Devnet.Ssz

structure Slot where
  get : Nat
  isLt : get < 2^64
  deriving DecidableEq

def Slot.zero : Slot := ⟨0,by decide⟩

instance : Inhabited Slot := ⟨Slot.zero⟩

def Slot.ofNat (value : Nat) : Slot := ⟨value % 2^64,Nat.mod_lt _ (by decide)⟩

theorem Slot.ext_get {a b : Slot} (h : a.get = b.get) : a = b := by
  cases a; cases b
  cases h
  rfl

theorem Slot.get_ofNat {n : Nat} (h : n < 2^64) : (Slot.ofNat n).get = n := Nat.mod_eq_of_lt h

def Slot.isZero (self : Slot) : Bool := self.get == 0

def Slot.advance (self : Slot) : Option Slot :=
  if h : self.get+1 < 2^64 then some ⟨self.get+1,h⟩ else none

def isqrtLoop (n : Nat) : Nat → Nat → Nat
  | 0, x => x
  | fuel+1, x =>
    let next := (x + n/x)/2
    if x ≤ next then x else isqrtLoop n fuel next

/-- Newton's iteration from a power of two above the root. The iterate strictly
decreases, so its start value bounds the number of rounds. -/
def isqrtU64 (n : Nat) : Nat :=
  if n < 2 then n
  else
    let bits := Nat.log2 n+1
    let x := 2^((bits+1)/2)
    isqrtLoop n x x

def Slot.isJustifiableAfter (self finalized : Slot) : Bool :=
  if self.get < finalized.get then false
  else
    let delta := self.get - finalized.get
    if delta ≤ 5 then true
    else
      let s := isqrtU64 delta
      delta == s*s || delta == s*(s+1)

theorem Slot.le_of_isJustifiableAfter {c f : Slot} (h : c.isJustifiableAfter f = true) :
    f.get ≤ c.get := by
  by_contra hlt
  simp [isJustifiableAfter,Nat.lt_of_not_le hlt] at h

theorem Slot.isJustifiableAfter_self (f : Slot) : f.isJustifiableAfter f = true := by
  simp [isJustifiableAfter]

structure ValidatorIndex where
  get : Nat
  isLt : get < 2^64
  deriving DecidableEq

instance : Inhabited ValidatorIndex := ⟨⟨0,by decide⟩⟩

def ValidatorIndex.ofNat (value : Nat) : ValidatorIndex :=
  ⟨value % 2^64,Nat.mod_lt _ (by decide)⟩

theorem ValidatorIndex.ext_get {a b : ValidatorIndex} (h : a.get = b.get) : a = b := by
  cases a; cases b
  cases h
  rfl

instance : Ord ValidatorIndex := ⟨compareOn ValidatorIndex.get⟩

instance : Std.TransOrd ValidatorIndex :=
  inferInstanceAs (Std.TransCmp (compareOn ValidatorIndex.get))

instance : Std.LawfulEqOrd ValidatorIndex where
  eq_of_compare h := ValidatorIndex.ext_get (Std.LawfulEqOrd.eq_of_compare (α := Nat) h)

inductive ProtocolError where
  | invariant (context reason : String)
  deriving DecidableEq, Repr

def isProposer (validatorIndex : ValidatorIndex) (slot : Slot) (numValidators : Nat) :
    Except ProtocolError Bool :=
  if numValidators = 0 then
    .error (.invariant "is_proposer" "num_validators must be greater than zero")
  else .ok (slot.get % numValidators == validatorIndex.get)

theorem isProposer_ok {v : ValidatorIndex} {slot : Slot} {n : Nat} :
    isProposer v slot n = .ok true ↔ n ≠ 0 ∧ slot.get % n = v.get := by
  simp [isProposer,Machine.guard_ok]

instance [HashPair] : HashTreeRoot Slot := ⟨fun self => u64Chunk self.get⟩

instance [HashPair] : HashTreeRoot ValidatorIndex := ⟨fun self => u64Chunk self.get⟩

end Devnet.Protocol
