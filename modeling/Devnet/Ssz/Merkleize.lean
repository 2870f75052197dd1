import Devnet.Types.Bitfields

/-!
Merkleization. The pair hash (SHA-256 in the source, a dependency) is the one
parameter; padding, reduction, zero extension and the length mix-in are the
source's own. Widths are 64-bit machine words, so 64 rounds are enough for every
loop that halves or doubles one.
-/

set_option autoImplicit false

namespace Devnet.Ssz
open Devnet.Types

class HashPair where
  hashPair : Bytes32 → Bytes32 → Bytes32

export HashPair (hashPair)

class HashTreeRoot (α : Type) where
  hashTreeRoot : α → Bytes32

export HashTreeRoot (hashTreeRoot)

inductive SszError where
  | inputExceedsLimit (got limit : Nat)
  deriving DecidableEq, Repr

/-- `Vec::resize` up to 32 bytes with zeros; longer input never reaches it. -/
def chunkOf (bytes : List UInt8) : Bytes32 :=
  ⟨bytes.take 32 ++ List.replicate (32 - bytes.length) 0,by
    simp only [List.length_append,List.length_take,List.length_replicate]
    omega⟩

def pack (bytes : List UInt8) : List Bytes32 :=
  (List.range ((bytes.length+31)/32)).map fun i => chunkOf ((bytes.drop (32*i)).take 32)

def powerOfTwoCeil (x : Nat) : Nat :=
  if x ≤ 1 then 1
  else
    let bits := Nat.log2 (x-1)+1
    if 64 ≤ bits then 2^63 else 2^bits

def u64Chunk (value : Nat) : Bytes32 :=
  chunkOf ((List.range 8).map fun i => UInt8.ofNat (value/256^i))

section Hashing
variable [HashPair]

def mixInLength (root : Bytes32) (length : Nat) : Bytes32 := hashPair root (u64Chunk length)

def zeroTreeRootLoop : Nat → Nat → Bytes32 → Bytes32
  | 0, _, root => root
  | n+1, width, root =>
    if 1 < width then zeroTreeRootLoop n (width/2) (hashPair root root) else root

def zeroTreeRoot (width : Nat) : Bytes32 :=
  if width ≤ 1 then ByteVector.zero else zeroTreeRootLoop 64 width ByteVector.zero

/-- One level up: `chunks_exact(2)` drops an odd tail. -/
def pairUp : List Bytes32 → List Bytes32
  | left :: right :: rest => hashPair left right :: pairUp rest
  | _ => []

def merkleizeLoop : Nat → List Bytes32 → Bytes32
  | 0, level => level.headD ByteVector.zero
  | n+1, level =>
    if 1 < level.length then merkleizeLoop n (pairUp level) else level.headD ByteVector.zero

def merkleizePartial (chunks : List Bytes32) (width : Nat) : Bytes32 :=
  if width ≤ 1 then chunks.headD ByteVector.zero
  else merkleizeLoop 64
    (chunks.take width ++ List.replicate (width - chunks.length) ByteVector.zero)

def merkleize (chunks : List Bytes32) : Bytes32 :=
  if chunks.isEmpty then ByteVector.zero
  else merkleizePartial chunks (powerOfTwoCeil chunks.length)

/-- The doubling saturates at `usize::MAX`. -/
def extendLoop : Nat → Nat → Nat → Bytes32 → Bytes32 → Bytes32
  | 0, _, _, _, current => current
  | n+1, width, target, zeroSibling, current =>
    if width < target then
      extendLoop n (min (width*2) (2^64-1)) target (hashPair zeroSibling zeroSibling)
        (hashPair current zeroSibling)
    else current

def extendWithZeroSiblings (root : Bytes32) (width target : Nat) : Bytes32 :=
  extendLoop 64 width target (zeroTreeRoot width) root

def merkleizeWithLimit (chunks : List Bytes32) (limit : Nat) : Except SszError Bytes32 :=
  let n := chunks.length
  if n = 0 then .ok (zeroTreeRoot (powerOfTwoCeil limit))
  else if limit < n then .error (.inputExceedsLimit n limit)
  else
    let actualWidth := powerOfTwoCeil n
    let root := merkleizePartial chunks actualWidth
    let targetWidth := powerOfTwoCeil limit
    if targetWidth ≤ actualWidth then .ok root
    else .ok (extendWithZeroSiblings root actualWidth targetWidth)

/-- `unwrap_or(ZERO_HASH)`: an over-long list collapses to the zero chunk. -/
def orZeroHash (root : Except SszError Bytes32) : Bytes32 :=
  match root with
  | .ok r => r
  | .error _ => ByteVector.zero

instance {N : Nat} : HashTreeRoot (ByteVector N) := ⟨fun self => merkleize (pack self.bytes)⟩

def listHashTreeRoot {α : Type} [HashTreeRoot α] (items : List α) (max : Nat) : Bytes32 :=
  let merkle := orZeroHash (merkleizeWithLimit (items.map hashTreeRoot) max)
  mixInLength merkle items.length

def bitlistHashTreeRoot {LIMIT : Nat} (bl : Bitlist LIMIT) : Bytes32 :=
  let length := bl.len
  let data := bl.iterSetIndices.foldl
    (fun data i => data.modify (i/8) (· ||| ((1 : UInt8) <<< UInt8.ofNat (i%8))))
    (List.replicate ((length+7)/8) 0)
  let chunkLimit := max ((LIMIT+255)/256) 1
  mixInLength (orZeroHash (merkleizeWithLimit (pack data) chunkLimit)) length

end Hashing

end Devnet.Ssz
