import Devnet.Crypto.Windows
import Devnet.Ssz.Codec

/-!
The wire container of a signature: the scheme's own encoding, padded with zeros. The encoding has
two offsets in front; the decoder of the scheme cuts its input wherever they point, and its
verifier relies on the lengths that come out. The decoder of the container therefore pins both
offsets and refuses any padding but zeros.
-/

set_option autoImplicit false

namespace Devnet.Crypto
open Machine Wire Devnet.Types Devnet.Engine Devnet.Ssz

/-- The constants of a scheme. Its tree has `logLifetime` levels, its encoding `dimension`
chains. -/
structure WireLayout where
  payloadLen : Nat
  offsetPath : UInt32
  offsetHashes : UInt32
  logLifetime : Nat
  dimension : Nat
  deriving DecidableEq

def prodLayout : WireLayout := ⟨3112,36,1064,32,64⟩
def testLayout : WireLayout := ⟨2344,36,296,8,64⟩

/-- What the constants are declared to be: the sum of the lengths in front of each part. -/
structure WireLayout.Canonical (layout : WireLayout) : Prop where
  hashes : layout.offsetHashes.toNat = layout.offsetPath.toNat+4+layout.logLifetime*32
  payload : layout.payloadLen = layout.offsetHashes.toNat+layout.dimension*32

theorem prodLayout_canonical : prodLayout.Canonical := ⟨rfl,rfl⟩

theorem testLayout_canonical : testLayout.Canonical := ⟨rfl,rfl⟩

/-- A scheme with its wire metadata and its own codec, of which the parts of a signature are
seen. -/
structure SchemeWire (S : SignatureScheme) where
  layout : WireLayout
  declared : S.payloadLen = layout.payloadLen
  Signature : Type
  coPath : Signature → List Bytes32
  hashes : Signature → List Bytes32
  toBytes : Signature → List UInt8
  fromBytes : List UInt8 → Except String Signature

def readU32Le (bytes : List UInt8) (offset : Nat) : Option UInt32 :=
  if offset+4 ≤ bytes.length then some (UInt32.ofNat (ofLeBytes (field bytes offset 4))) else none

def pinOffset (name : String) (position : Nat) (expected : UInt32) (payload : List UInt8) :
    Except CryptoError Unit :=
  match readU32Le payload position with
  | none => .error (.malformedLayout name 0 expected)
  | some got => if got ≠ expected then .error (.malformedLayout name got expected) else .ok ()

section
variable {S : SignatureScheme}

def signatureFromWire (W : SchemeWire S) (sig : Signature) : Except CryptoError W.Signature :=
  let bytes := sig.bytes
  if signatureLen < W.layout.payloadLen then
    .error (.schemeMisconfigured W.layout.payloadLen signatureLen)
  else
    let payload := bytes.take W.layout.payloadLen
    if (bytes.drop W.layout.payloadLen).all (· == 0) = false then .error .nonZeroPadding
    else do
      pinOffset "offset_path" 0 W.layout.offsetPath payload
      pinOffset "offset_hashes" 32 W.layout.offsetHashes payload
      (W.fromBytes payload).mapError .signatureDecode

/-- The codec of the scheme cuts its input at the two offsets it reads there: the co-path, behind
an offset of its own, goes from the first to the second, the hashes from the second to the end. An
input whose offsets are the declared ones is encoded to itself again. -/
structure SchemeWire.Splits (W : SchemeWire S) : Prop where
  cuts : ∀ {bytes : List UInt8} {s : W.Signature}, W.fromBytes bytes = .ok s →
    ∃ path hashes : UInt32, readU32Le bytes 0 = some path ∧ readU32Le bytes 32 = some hashes ∧
      path ≤ hashes ∧ hashes.toNat ≤ bytes.length ∧
      field bytes path.toNat (hashes.toNat - path.toNat) =
        leBytes 4 4 ++ ((W.coPath s).map ByteVector.bytes).flatten ∧
      bytes.drop hashes.toNat = ((W.hashes s).map ByteVector.bytes).flatten
  reencodes : ∀ {bytes : List UInt8} {s : W.Signature}, W.fromBytes bytes = .ok s →
    readU32Le bytes 0 = some W.layout.offsetPath →
    readU32Le bytes 32 = some W.layout.offsetHashes → W.toBytes s = bytes

theorem pinOffset_ok {name : String} {position : Nat} {expected : UInt32} {payload : List UInt8}
    {u : Unit} : pinOffset name position expected payload = .ok u ↔
      readU32Le payload position = some expected := by
  unfold pinOffset
  split
  · next h => simp [h]
  · next got h => simp [h]

theorem signatureFromWire_ok {W : SchemeWire S} {w : Signature} {s : W.Signature} :
    signatureFromWire W w = .ok s ↔ W.layout.payloadLen ≤ signatureLen ∧
      (∀ byte ∈ w.bytes.drop W.layout.payloadLen, byte = 0) ∧
      readU32Le (w.bytes.take W.layout.payloadLen) 0 = some W.layout.offsetPath ∧
      readU32Le (w.bytes.take W.layout.payloadLen) 32 = some W.layout.offsetHashes ∧
      W.fromBytes (w.bytes.take W.layout.payloadLen) = .ok s := by
  simp only [signatureFromWire,guard_ok,except_bind_ok,pinOffset_ok,mapError_ok,exists_const,
    Nat.not_lt,Bool.not_eq_false,List.all_eq_true,beq_iff_eq]

theorem signatureToWire_ok {bytes : List UInt8} {w : Signature} :
    signatureToWire S bytes = .ok w ↔ bytes.length = S.payloadLen ∧
      w.bytes = bytes ++ List.replicate (signatureLen - bytes.length) 0 := by
  have hsize : w.bytes.length = signatureLen := w.size
  by_cases hlength : bytes.length = S.payloadLen
  · by_cases hfits : signatureLen < bytes.length
    · rw [signatureToWire,if_neg (not_not.mpr hlength),dif_pos hfits]
      refine iff_of_false (fun h => by cases h) fun h => ?_
      rw [h.2,List.length_append] at hsize
      omega
    · rw [signatureToWire,if_neg (not_not.mpr hlength),dif_neg hfits,and_iff_right hlength]
      exact ⟨fun h => by cases h; rfl,fun h => congrArg _ (ByteVector.ext_bytes h.symm)⟩
  · rw [signatureToWire,if_pos hlength]
    exact iff_of_false (fun h => by cases h) fun h => hlength h.1

theorem padded_of_zeros {w : Signature} {len : Nat} (hle : len ≤ signatureLen)
    (hzeros : ∀ byte ∈ w.bytes.drop len, byte = 0) :
    (w.bytes.take len).length = len ∧
      w.bytes = w.bytes.take len ++ List.replicate (signatureLen - (w.bytes.take len).length) 0 := by
  have hsize : w.bytes.length = signatureLen := w.size
  have hlength : (w.bytes.take len).length = len := by
    rw [List.length_take,hsize,Nat.min_eq_left hle]
  have hrest : w.bytes.drop len = List.replicate (signatureLen - len) 0 := by
    rw [List.eq_replicate_of_mem hzeros,List.length_drop,hsize]
  refine ⟨hlength,?_⟩
  rw [hlength,← hrest,List.take_append_drop]

/-- The lengths of the two lists follow from the pinned offsets. -/
theorem counts_of_splits {W : SchemeWire S} (h : W.Splits) {w : Signature}
    {s : W.Signature} (hs : signatureFromWire W w = .ok s) :
    W.layout.offsetPath.toNat+4+(W.coPath s).length*32 = W.layout.offsetHashes.toNat ∧
      W.layout.offsetHashes.toNat+(W.hashes s).length*32 = W.layout.payloadLen := by
  obtain ⟨hle,hzeros,hpath,hhashes,hdecode⟩ := signatureFromWire_ok.mp hs
  obtain ⟨hlength,-⟩ := padded_of_zeros hle hzeros
  obtain ⟨path,hashes,hpath',hhashes',hordered,hend,hfirst,hsecond⟩ := h.cuts hdecode
  obtain rfl : W.layout.offsetPath = path := Option.some.inj (hpath.symm.trans hpath')
  obtain rfl : W.layout.offsetHashes = hashes := Option.some.inj (hhashes.symm.trans hhashes')
  have hordered' := UInt32.le_iff_toNat_le.mp hordered
  have hfirst' := congrArg List.length hfirst
  have hsecond' := congrArg List.length hsecond
  rw [length_field (by omega),List.length_append,length_leBytes,length_flatten_bytes] at hfirst'
  rw [List.length_drop,length_flatten_bytes] at hsecond'
  omega

end

section Codec

structure XmssSignature where
  rho : ByteVector 28
  coPath : List Bytes32
  hashes : List Bytes32

def XmssSignature.toBytes (self : XmssSignature) : List UInt8 :=
  [leBytes 4 36,self.rho.bytes,leBytes 4 (40+self.coPath.length*32),
    leBytes 4 4 ++ (self.coPath.map ByteVector.bytes).flatten].flatten ++
    (self.hashes.map ByteVector.bytes).flatten

/-- Any offsets will do that are in order and in range. -/
def XmssSignature.fromBytes (bytes : List UInt8) : Except String XmssSignature :=
  match readU32Le bytes 0,readU32Le bytes 32 with
  | some path,some hashes =>
    let part := field bytes path.toNat (hashes.toNat-path.toNat)
    if hashes < path ∨ bytes.length < hashes.toNat then .error "OffsetOutOfBounds"
    else if part.take 4 ≠ leBytes 4 4 then .error "InvalidOffset"
    else do
      let rho ← (copyFromSlice 28 (field bytes 4 28)).mapError fun _ => "InvalidByteLength"
      let coPath ← (decodeByteVectorList 32 (part.drop 4) bytes.length).mapError fun _ =>
        "InvalidByteLength"
      let hashes ← (decodeByteVectorList 32 (bytes.drop hashes.toNat) bytes.length).mapError fun _ =>
        "InvalidByteLength"
      .ok ⟨rho,coPath,hashes⟩
  | _,_ => .error "InvalidByteLength"

theorem XmssSignature.fromBytes_ok {bytes : List UInt8} {s : XmssSignature} :
    fromBytes bytes = .ok s ↔ ∃ path hashes, readU32Le bytes 0 = some path ∧
      readU32Le bytes 32 = some hashes ∧ path ≤ hashes ∧ hashes.toNat ≤ bytes.length ∧
      (field bytes path.toNat (hashes.toNat-path.toNat)).take 4 = leBytes 4 4 ∧
      s.rho.bytes = field bytes 4 28 ∧
      (s.coPath.length ≤ bytes.length ∧ (s.coPath.map ByteVector.bytes).flatten =
        (field bytes path.toNat (hashes.toNat-path.toNat)).drop 4) ∧
      s.hashes.length ≤ bytes.length ∧
        (s.hashes.map ByteVector.bytes).flatten = bytes.drop hashes.toNat := by
  unfold fromBytes
  split
  · next path hashes hpath hhashes =>
    simp only [guard_ok,except_bind_ok,mapError_ok,copyFromSlice_ok,hpath,hhashes,
      decodeByteVectorList_ok (show 0 < 32 by decide),Option.some.injEq,not_or,
      UInt32.not_lt,Nat.not_lt,not_not,Except.ok.injEq]
    constructor
    · rintro ⟨⟨hordered,hend⟩,hinner,rho,hrho,coPath,hcoPath,chains,hchains,rfl⟩
      exact ⟨path,hashes,rfl,rfl,hordered,hend,hinner,hrho,hcoPath,hchains⟩
    · rintro ⟨path,hashes,rfl,rfl,hordered,hend,hinner,hrho,hcoPath,hchains⟩
      exact ⟨⟨hordered,hend⟩,hinner,s.rho,hrho,s.coPath,hcoPath,s.hashes,hchains,rfl⟩
  · next hnone =>
    refine iff_of_false (fun h => by cases h) ?_
    rintro ⟨path,hashes,hpath,hhashes,-⟩
    exact hnone path hashes hpath hhashes

theorem readU32Le_iff {bytes : List UInt8} {position : Nat} {value : UInt32} :
    readU32Le bytes position = some value ↔
      position+4 ≤ bytes.length ∧ leBytes 4 value.toNat = field bytes position 4 := by
  unfold readU32Le
  split
  · next hle =>
    have hlength := length_field hle
    have hlt := ofLeBytes_lt (field bytes position 4)
    rw [hlength] at hlt
    rw [leBytes_eq_iff value.toNat_lt hlength,Option.some.injEq,← UInt32.toNat_inj,
      UInt32.toNat_ofNat_of_lt' hlt]
    exact (and_iff_right hle).symm
  · next hshort => simp [hshort]

theorem XmssSignature.toBytes_eq_iff {s : XmssSignature} {bytes : List UInt8} :
    s.toBytes = bytes ↔ leBytes 4 36 = field bytes 0 4 ∧ s.rho.bytes = field bytes 4 28 ∧
      leBytes 4 (40+s.coPath.length*32) = field bytes 32 4 ∧
      leBytes 4 4 ++ (s.coPath.map ByteVector.bytes).flatten =
        field bytes 36 (4+s.coPath.length*32) ∧
      (s.hashes.map ByteVector.bytes).flatten = bytes.drop (40+s.coPath.length*32) := by
  have hrho : s.rho.bytes.length = 28 := s.rho.size
  rw [toBytes,flatten_append_eq]
  simp only [Tiles,extent,List.map_cons,List.map_nil,List.sum_cons,List.sum_nil,List.length_append,
    length_leBytes,length_flatten_bytes,hrho,and_assoc,true_and]
  rw [show 4+(28+(4+(4+s.coPath.length*32+0))) = 40+s.coPath.length*32 by omega]

/-- Where the first offset is the canonical one, so is the second, and nothing is left out. -/
theorem XmssSignature.toBytes_of_fromBytes {bytes : List UInt8} {s : XmssSignature}
    (h : fromBytes bytes = .ok s) (hfirst : readU32Le bytes 0 = some 36) : s.toBytes = bytes := by
  obtain ⟨path,hashes,hpath,hhashes,hordered,hend,hinner,hrho,⟨-,hcoPath⟩,-,hchains⟩ :=
    fromBytes_ok.mp h
  obtain rfl : 36 = path := Option.some.inj (hfirst.symm.trans hpath)
  have hle : 36 ≤ hashes.toNat := UInt32.le_iff_toNat_le.mp hordered
  have hpart : leBytes 4 4 ++ (s.coPath.map ByteVector.bytes).flatten =
      field bytes 36 (hashes.toNat-36) := by
    rw [← hinner,hcoPath]
    exact List.take_append_drop 4 _
  have hcount : 4+s.coPath.length*32 = hashes.toNat-36 := by
    have hlength := congrArg List.length hpart
    rwa [length_field (by omega),List.length_append,length_leBytes,length_flatten_bytes] at hlength
  have hoffset : 40+s.coPath.length*32 = hashes.toNat := by omega
  rw [toBytes_eq_iff,hcount,hoffset]
  exact ⟨(readU32Le_iff.mp hpath).2,hrho,(readU32Le_iff.mp hhashes).2,hpart,hchains⟩

theorem XmssSignature.length_toBytes (s : XmssSignature) :
    s.toBytes.length = 40+s.coPath.length*32+s.hashes.length*32 := by
  have hrho : s.rho.bytes.length = 28 := s.rho.size
  simp only [toBytes,List.flatten_cons,List.flatten_nil,List.length_append,length_leBytes,
    length_flatten_bytes,hrho,List.length_nil]
  omega

theorem XmssSignature.fromBytes_toBytes {s : XmssSignature} {offset : UInt32}
    (h : offset.toNat = 40+s.coPath.length*32) :
    readU32Le s.toBytes 0 = some 36 ∧ readU32Le s.toBytes 32 = some offset ∧
      fromBytes s.toBytes = .ok s := by
  have hlength := s.length_toBytes
  obtain ⟨hfirst,hrho,hsecond,hpart,hchains⟩ := toBytes_eq_iff.mp (Eq.refl s.toBytes)
  rw [← h] at hsecond hchains
  rw [show 4+s.coPath.length*32 = offset.toNat-36 by omega] at hpart
  have hpath : readU32Le s.toBytes 0 = some 36 := readU32Le_iff.mpr ⟨by omega,hfirst⟩
  have hhashes : readU32Le s.toBytes 32 = some offset := readU32Le_iff.mpr ⟨by omega,hsecond⟩
  refine ⟨hpath,hhashes,fromBytes_ok.mpr ⟨36,offset,hpath,hhashes,?_,by omega,?_,hrho,⟨by omega,?_⟩,
    by omega,hchains⟩⟩
  · rw [UInt32.le_iff_toNat_le,h]
    exact Nat.le_add_right_of_le (by decide)
  · exact (congrArg _ hpart).symm.trans (List.take_left' rfl)
  · exact ((congrArg _ hpart).symm.trans (List.drop_left' rfl)).symm

def xmssWire (layout : WireLayout) : SchemeWire (treeScheme layout.payloadLen) where
  layout := layout
  declared := rfl
  Signature := XmssSignature
  coPath := XmssSignature.coPath
  hashes := XmssSignature.hashes
  toBytes := XmssSignature.toBytes
  fromBytes := XmssSignature.fromBytes

theorem xmssWire_splits {layout : WireLayout} (h : layout.offsetPath = 36) :
    (xmssWire layout).Splits where
  cuts hdecode := by
    obtain ⟨path,hashes,hpath,hhashes,hordered,hend,hinner,-,⟨-,hcoPath⟩,-,hchains⟩ :=
      XmssSignature.fromBytes_ok.mp hdecode
    refine ⟨path,hashes,hpath,hhashes,hordered,hend,?_,hchains.symm⟩
    rw [← hinner]
    exact (congrArg _ hcoPath).trans (List.take_append_drop 4 _) |>.symm
  reencodes hdecode hpath _ := XmssSignature.toBytes_of_fromBytes hdecode (hpath.trans (congrArg _ h))

theorem signatureFromWire_toWire {layout : WireLayout} (h : layout.offsetPath = 36)
    (hcanonical : layout.Canonical) {s : XmssSignature} (hcoPath : s.coPath.length = layout.logLifetime)
    {w : Signature} (hw : signatureToWire (treeScheme layout.payloadLen) s.toBytes = .ok w) :
    signatureFromWire (xmssWire layout) w = .ok s := by
  obtain ⟨hlength,hbytes⟩ := signatureToWire_ok.mp hw
  change s.toBytes.length = layout.payloadLen at hlength
  have hpayload : w.bytes.take layout.payloadLen = s.toBytes := by
    rw [hbytes]
    exact List.take_left' hlength
  have hrest : w.bytes.drop layout.payloadLen =
      List.replicate (signatureLen - s.toBytes.length) 0 := by
    rw [hbytes]
    exact List.drop_left' hlength
  have hfits : layout.payloadLen ≤ signatureLen := by
    have hsize : w.bytes.length = signatureLen := w.size
    rw [hbytes,List.length_append] at hsize
    omega
  have hoffset : layout.offsetHashes.toNat = 40+s.coPath.length*32 := by
    rw [hcanonical.hashes,h,hcoPath]
    rfl
  obtain ⟨hpath,hhashes,hdecode⟩ := XmssSignature.fromBytes_toBytes hoffset
  refine signatureFromWire_ok.mpr ⟨hfits,fun byte hbyte => ?_,?_⟩
  · exact List.eq_of_mem_replicate (hrest ▸ hbyte)
  · change readU32Le (w.bytes.take layout.payloadLen) 0 = some layout.offsetPath ∧
      readU32Le (w.bytes.take layout.payloadLen) 32 = some layout.offsetHashes ∧
      XmssSignature.fromBytes (w.bytes.take layout.payloadLen) = .ok s
    rw [hpayload,h]
    exact ⟨hpath,hhashes,hdecode⟩

def zeroXmss : XmssSignature := ⟨ByteVector.zero,List.replicate 32 ByteVector.zero,
  List.replicate 64 ByteVector.zero⟩

end Codec

section
variable {S : SignatureScheme}

/-- A container that decodes is the container of what it decodes to. So no two containers carry
one signature, and the lists in it have the lengths that the declared offsets leave for them: one
sibling for each level of the tree, one hash for each chain. -/
theorem containers_not_malleable (W : SchemeWire S) (h : W.Splits) {w : Signature}
    {s : W.Signature} (hs : signatureFromWire W w = .ok s) :
    signatureToWire S (W.toBytes s) = .ok w ∧
    (∀ w', signatureFromWire W w' = .ok s → w' = w) ∧
    W.layout.offsetPath.toNat+4+(W.coPath s).length*32 = W.layout.offsetHashes.toNat ∧
    W.layout.offsetHashes.toNat+(W.hashes s).length*32 = W.layout.payloadLen ∧
    (W.layout.Canonical → (W.coPath s).length = W.layout.logLifetime ∧
      (W.hashes s).length = W.layout.dimension) := by
  have hback : ∀ {w'}, signatureFromWire W w' = .ok s →
      signatureToWire S (W.toBytes s) = .ok w' := by
    intro w' hs'
    obtain ⟨hle,hzeros,hpath,hhashes,hdecode⟩ := signatureFromWire_ok.mp hs'
    obtain ⟨hlength,hpadded⟩ := padded_of_zeros hle hzeros
    rw [h.reencodes hdecode hpath hhashes]
    exact signatureToWire_ok.mpr ⟨hlength.trans W.declared.symm,hpadded⟩
  obtain ⟨hpath,hhashes⟩ := counts_of_splits h hs
  refine ⟨hback hs,fun w' hs' => ?_,hpath,hhashes,fun hcanonical => ?_⟩
  · exact Except.ok.inj ((hback hs').symm.trans (hback hs))
  · have hfirst := hcanonical.hashes
    have hsecond := hcanonical.payload
    omega

/-- Its container decodes to it, no other one does, and its lists are as long as they have to be. -/
theorem containers_not_malleable_zeros : ∃ w : Signature,
    signatureFromWire (xmssWire prodLayout) w = .ok zeroXmss ∧
      (∀ w', signatureFromWire (xmssWire prodLayout) w' = .ok zeroXmss → w' = w) ∧
      zeroXmss.coPath.length = prodLayout.logLifetime ∧
      zeroXmss.hashes.length = prodLayout.dimension := by
  have hlength : zeroXmss.toBytes.length = prodLayout.payloadLen := by
    rw [XmssSignature.length_toBytes]
    simp [zeroXmss,prodLayout]
  obtain ⟨w,hbytes⟩ : ∃ w : Signature,
      w.bytes = zeroXmss.toBytes ++ List.replicate (signatureLen - zeroXmss.toBytes.length) 0 := by
    refine ⟨⟨_,?_⟩,rfl⟩
    rw [List.length_append,List.length_replicate,hlength]
    rfl
  have hw : signatureToWire (treeScheme prodLayout.payloadLen) zeroXmss.toBytes = .ok w :=
    signatureToWire_ok.mpr ⟨hlength,hbytes⟩
  have hs := signatureFromWire_toWire rfl prodLayout_canonical List.length_replicate hw
  obtain ⟨-,hunique,-,-,hcounts⟩ :=
    containers_not_malleable (xmssWire prodLayout) (xmssWire_splits rfl) hs
  exact ⟨w,hs,hunique,hcounts prodLayout_canonical⟩

/-- The public keys of a scheme, and the answer of its verifier where it has one. -/
structure SchemeVerifier (W : SchemeWire S) where
  Key : Type
  keyFromBytes : List UInt8 → Except String Key
  accepts : Key → UInt32 → Bytes32 → W.Signature → Bool

variable {W : SchemeWire S}

/-- The verifier asserts that the epoch is within the lifetime and the co-path as deep as the tree,
and indexes a hash for each chain. -/
def SchemeVerifier.verify (V : SchemeVerifier W) (pk : V.Key) (epoch : UInt32) (message : Bytes32)
    (sig : W.Signature) : Outcome CryptoError Bool :=
  if epoch.toUInt64 < S.lifetime ∧ (W.coPath sig).length = W.layout.logLifetime ∧
      W.layout.dimension ≤ (W.hashes sig).length then .ok (V.accepts pk epoch message sig)
  else panicked

def publicKeyFromWire (V : SchemeVerifier W) (pk : PublicKey) : Except CryptoError V.Key :=
  (V.keyFromBytes pk.bytes).mapError .publicKeyDecode

def verify (V : SchemeVerifier W) (publicKey : PublicKey) (epoch : UInt32) (message : Bytes32)
    (signature : Signature) : Outcome CryptoError Unit :=
  if S.lifetime ≤ epoch.toUInt64 then refuse .invalidSignature
  else do
    let pk ← (publicKeyFromWire V publicKey).mapError .refused
    let sig ← (signatureFromWire W signature).mapError .refused
    let accepted ← V.verify pk epoch message sig
    if accepted = false then refuse .invalidSignature else .ok ()

theorem safe_mapError_refused {ε α : Type} (x : Except ε α) : Safe (x.mapError Failure.refused) := by
  cases x with
  | ok a => exact safe_ok a
  | error e => exact safe_refuse e

theorem safe_verify (h : W.Splits) (hcanonical : W.layout.Canonical) (V : SchemeVerifier W)
    (publicKey : PublicKey) (epoch : UInt32) (message : Bytes32) (signature : Signature) :
    Safe (verify V publicKey epoch message signature) := by
  refine Safe.guard fun hepoch => ?_
  refine (safe_mapError_refused _).bind fun pk _ => ?_
  refine (safe_mapError_refused _).bind fun sig hsig => ?_
  obtain ⟨hpath,hhashes⟩ := counts_of_splits h (mapError_ok.mp hsig)
  have hfirst := hcanonical.hashes
  have hsecond := hcanonical.payload
  have hchecked : epoch.toUInt64 < S.lifetime ∧ (W.coPath sig).length = W.layout.logLifetime ∧
      W.layout.dimension ≤ (W.hashes sig).length :=
    ⟨UInt64.not_le.mp hepoch,by omega,by omega⟩
  refine Safe.bind ?_ fun accepted _ => Safe.guard fun _ => safe_ok ()
  rw [SchemeVerifier.verify,if_pos hchecked]
  exact safe_ok _

end

end Devnet.Crypto
