import Devnet.Lib.Effects

/-!
Fixed-width byte arrays and the two map types of the source. Both `BTreeMap` and
`HashMap` are finite maps with extensional equality. A `BTreeMap` is read in key
order; where the source iterates over a `HashMap` and the order shows in the
result, the model takes that order as an argument.
-/

set_option autoImplicit false

namespace Devnet.Types

structure ByteVector (N : Nat) where
  bytes : List UInt8
  size : bytes.length = N
  deriving DecidableEq

theorem ByteVector.ext_bytes {N : Nat} {a b : ByteVector N} (h : a.bytes = b.bytes) : a = b := by
  cases a; cases b
  cases h
  rfl

def ByteVector.zero {N : Nat} : ByteVector N := ⟨List.replicate N 0,by simp⟩

def ByteVector.filled {N : Nat} (byte : UInt8) : ByteVector N :=
  ⟨List.replicate N byte,List.length_replicate⟩

instance {N : Nat} : Inhabited (ByteVector N) := ⟨ByteVector.zero⟩

/-- Byte by byte from the front, as the derived `Ord` of a byte array. -/
instance {N : Nat} : Ord (ByteVector N) := ⟨compareOn ByteVector.bytes⟩

instance {N : Nat} : Std.TransOrd (ByteVector N) :=
  inferInstanceAs (Std.TransCmp (compareOn ByteVector.bytes))

instance {N : Nat} : Std.LawfulEqOrd (ByteVector N) where
  eq_of_compare h := ByteVector.ext_bytes (Std.LawfulEqOrd.eq_of_compare (α := List UInt8) h)

instance {N : Nat} : LT (ByteVector N) := ltOfOrd

abbrev Bytes32 := ByteVector 32

instance : Std.TransOrd Bytes32 := inferInstanceAs (Std.TransOrd (ByteVector 32))

abbrev Signature := ByteVector 3116
abbrev PublicKey := ByteVector 52

abbrev BTreeMap (K V : Type) [Ord K] := Std.ExtTreeMap K V compare
abbrev HashMap (K V : Type) [Ord K] := Std.ExtTreeMap K V compare

end Devnet.Types
