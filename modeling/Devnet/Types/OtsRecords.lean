import Devnet.Types.ByteArrays

/-!
The two records of a one-time key: the secret one an operator keeps in a file, and the
watermark without the seed that the node stores. They share one layout of 56 bytes.
-/

set_option autoImplicit false

namespace Devnet.Types

def otsRecordSszLen : Nat := 32+8+8+8

def toLeBytes (value : UInt64) : List UInt8 :=
  (List.range 8).map fun i => UInt8.ofNat (value.toNat/256^i)

def fromLeBytes (bytes : List UInt8) : UInt64 :=
  UInt64.ofNat (bytes.foldr (fun byte high => byte.toNat+256*high) 0)

def encodeRecord (head : Bytes32) (a b c : UInt64) : List UInt8 :=
  head.bytes ++ (toLeBytes a ++ (toLeBytes b ++ toLeBytes c))

/-- Fails on another length only. -/
def decodeRecord (bytes : List UInt8) : Option (Bytes32 × UInt64 × UInt64 × UInt64) :=
  if h : bytes.length = otsRecordSszLen then
    let field := fun offset => fromLeBytes ((bytes.drop offset).take 8)
    some (⟨bytes.take 32,by rw [List.length_take,h]; rfl⟩,field 32,field 40,field 48)
  else none

theorem length_toLeBytes (value : UInt64) : (toLeBytes value).length = 8 := by simp [toLeBytes]

theorem fromLeBytes_toLeBytes (value : UInt64) : fromLeBytes (toLeBytes value) = value := by
  have hlt := value.toNat_lt
  apply UInt64.toNat.inj
  simp only [fromLeBytes,toLeBytes,List.range,List.range.loop,List.map,List.foldr,
    UInt8.toNat_ofNat',UInt64.toNat_ofNat']
  omega

theorem decodeRecord_encodeRecord (head : Bytes32) (a b c : UInt64) :
    decodeRecord (encodeRecord head a b c) = some (head,a,b,c) := by
  have hhead := head.size
  have ha := length_toLeBytes a
  have hb := length_toLeBytes b
  have hc := length_toLeBytes c
  have hlength : (encodeRecord head a b c).length = otsRecordSszLen := by
    simp [encodeRecord,otsRecordSszLen,hhead,ha,hb,hc]
  have hfirst : (encodeRecord head a b c).take 32 = head.bytes := List.take_left' hhead
  have hsecond : (encodeRecord head a b c).drop 32 = toLeBytes a ++ (toLeBytes b ++ toLeBytes c) :=
    List.drop_left' hhead
  have hthird : (encodeRecord head a b c).drop 40 = toLeBytes b ++ toLeBytes c := by
    rw [show 40 = 32+8 from rfl,← List.drop_drop,hsecond,List.drop_left' ha]
  have hfourth : (encodeRecord head a b c).drop 48 = toLeBytes c := by
    rw [show 48 = 40+8 from rfl,← List.drop_drop,hthird,List.drop_left' hb]
  have hfields : ∀ {bytes : List UInt8} (x : UInt64), (toLeBytes x ++ bytes).take 8 = toLeBytes x :=
    fun x => List.take_left' (length_toLeBytes x)
  have hlast : (toLeBytes c).take 8 = toLeBytes c := List.take_of_length_le (by omega)
  simp only [decodeRecord,hlength,dif_pos,hsecond,hthird,hfourth,hfields,hlast,
    fromLeBytes_toLeBytes,Option.some.injEq,Prod.mk.injEq,and_true]
  exact ByteVector.ext_bytes hfirst

structure OtsKeyState where
  seed : Bytes32
  activationEpoch : UInt64
  numActiveEpochs : UInt64
  nextIndex : UInt64
  deriving DecidableEq

structure OtsWatermark where
  keyCommitment : Bytes32
  activationEpoch : UInt64
  numActiveEpochs : UInt64
  nextIndex : UInt64
  deriving DecidableEq

inductive OtsKeyStateDecodeError where
  | length (expected actual : Nat)
  deriving DecidableEq

inductive OtsWatermarkDecodeError where
  | length (expected actual : Nat)
  deriving DecidableEq

def OtsWatermarkDecodeError.message : OtsWatermarkDecodeError → String
  | .length expected actual =>
    "ots watermark: expected " ++ toString expected ++ " bytes, got " ++ toString actual

def OtsKeyState.toSszBytes (self : OtsKeyState) : List UInt8 :=
  encodeRecord self.seed self.activationEpoch self.numActiveEpochs self.nextIndex

def OtsKeyState.fromSszBytes (bytes : List UInt8) : Except OtsKeyStateDecodeError OtsKeyState :=
  match decodeRecord bytes with
  | some (seed,activationEpoch,numActiveEpochs,nextIndex) =>
    .ok ⟨seed,activationEpoch,numActiveEpochs,nextIndex⟩
  | none => .error (.length otsRecordSszLen bytes.length)

def OtsWatermark.toSszBytes (self : OtsWatermark) : List UInt8 :=
  encodeRecord self.keyCommitment self.activationEpoch self.numActiveEpochs self.nextIndex

def OtsWatermark.fromSszBytes (bytes : List UInt8) :
    Except OtsWatermarkDecodeError OtsWatermark :=
  match decodeRecord bytes with
  | some (keyCommitment,activationEpoch,numActiveEpochs,nextIndex) =>
    .ok ⟨keyCommitment,activationEpoch,numActiveEpochs,nextIndex⟩
  | none => .error (.length otsRecordSszLen bytes.length)

theorem OtsKeyState.fromSszBytes_toSszBytes (record : OtsKeyState) :
    fromSszBytes record.toSszBytes = .ok record := by
  simp [fromSszBytes,toSszBytes,decodeRecord_encodeRecord]

theorem OtsWatermark.fromSszBytes_toSszBytes (watermark : OtsWatermark) :
    fromSszBytes watermark.toSszBytes = .ok watermark := by
  simp [fromSszBytes,toSszBytes,decodeRecord_encodeRecord]

/-- Snapshots of one key differ in the index alone. -/
def OtsWatermark.identifies (self : OtsWatermark) (keyCommitment : Bytes32)
    (activationEpoch numActiveEpochs : UInt64) : Bool :=
  self.keyCommitment = keyCommitment && self.activationEpoch = activationEpoch &&
    self.numActiveEpochs = numActiveEpochs

end Devnet.Types
