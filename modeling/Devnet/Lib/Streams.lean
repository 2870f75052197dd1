import Devnet.Lib.Wire

/-!
Readers of a stream: a computation whose state is what has not been read yet. `Reads x front a`
says that `x` takes exactly `front` off the stream, whatever follows, and returns `a`; such
facts compose along the stream.
-/

set_option autoImplicit false

namespace Wire
open Machine

abbrev Reader (ε : Type) := EStateM ε (List UInt8)

def Reads {ε α : Type} (x : Reader ε α) (front : List UInt8) (a : α) : Prop :=
  ∀ rest, x (front ++ rest) = .ok a rest

theorem Reads.pure {ε α : Type} (a : α) : Reads (pure a : Reader ε α) [] a := fun _ => rfl

theorem Reads.bind {ε α β : Type} {x : Reader ε α} {f : α → Reader ε β} {front front' : List UInt8}
    {a : α} {b : β} (h : Reads x front a) (h' : Reads (f a) front' b) :
    Reads (x >>= f) (front ++ front') b := by
  intro rest
  rw [List.append_assoc,estate_bind_of_ok (h (front' ++ rest))]
  exact h' rest

def readByte {ε : Type} : Reader ε (Option UInt8)
  | [] => .ok none []
  | byte :: rest => .ok (some byte) rest

theorem readByte_cons {ε : Type} (byte : UInt8) (rest : List UInt8) :
    (readByte : Reader ε (Option UInt8)) (byte :: rest) = .ok (some byte) rest := rfl

/-- `read_exact`; a stream that ends too early is used up. -/
def readExact {ε : Type} (eof : ε) (len : Nat) : Reader ε (List UInt8) := fun bytes =>
  if len ≤ bytes.length then .ok (bytes.take len) (bytes.drop len) else .error eof []

theorem reads_exact {ε : Type} {eof : ε} {len : Nat} {part : List UInt8} (h : part.length = len) :
    Reads (readExact eof len) part part := by
  intro rest
  simp [readExact,← h]

/-- Nothing is put back on the stream. -/
def Shrinks {ε α : Type} (x : Reader ε α) : Prop :=
  ∀ bytes a rest, x bytes = .ok a rest → rest.length ≤ bytes.length

section Shrinks
variable {ε α β : Type}

theorem Shrinks.pure (a : α) : Shrinks (pure a : Reader ε α) := by
  intro bytes b rest h
  obtain ⟨-,rfl⟩ := estate_pure_ok.mp h
  exact le_rfl

theorem Shrinks.throw (e : ε) : Shrinks (throw e : Reader ε α) := by
  intro bytes b rest h
  cases h

theorem Shrinks.check (x : Except ε α) : Shrinks (check x : Reader ε α) := by
  intro bytes a rest h
  cases x with
  | error e => cases h
  | ok b =>
    cases h
    exact le_rfl

theorem Shrinks.bind {x : Reader ε α} {f : α → Reader ε β} (h : Shrinks x)
    (hf : ∀ a, Shrinks (f a)) : Shrinks (x >>= f) := by
  intro bytes b rest hb
  obtain ⟨a,mid,hx,hrest⟩ := estate_bind_ok.mp hb
  exact (hf a mid b rest hrest).trans (h bytes a mid hx)

theorem Shrinks.ite {p : Prop} [Decidable p] {x y : Reader ε α} (hx : Shrinks x) (hy : Shrinks y) :
    Shrinks (if p then x else y) := by
  split
  · exact hx
  · exact hy

theorem shrinks_exact (eof : ε) (len : Nat) : Shrinks (readExact eof len) := by
  intro bytes part rest h
  unfold readExact at h
  split at h
  · cases h
    simp
  · cases h

end Shrinks

end Wire
