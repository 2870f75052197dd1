import Devnet.Protocol.Header
import Devnet.Protocol.StateCodec

/-!
The compact genesis state shared with another client: a count of validators, the genesis time,
two checkpoints, four offsets and the four tails they point at. The bit tails carry no delimiter;
their lengths follow from the lists beside them. The decoder checks all of it and keeps the
genesis time and the checkpoints.
-/

set_option autoImplicit false

namespace Devnet.Protocol
open Machine Wire Devnet.Types Devnet.Ssz

def reamLegacyConfigLen : Nat := 2*u64Len
def reamStateVariableFieldCount : Nat := 4

def reamLeanStateFixedPartLen : Nat :=
  reamLegacyConfigLen+checkpointLen+checkpointLen+
    reamStateVariableFieldCount*bytesPerLengthOffset

@[simp] theorem reamLeanStateFixedPartLen_eq : reamLeanStateFixedPartLen = 112 := by decide

section RawBits

def byteAt (bytes : List UInt8) (i : Nat) : Decoded UInt8 :=
  match bytes[i]? with
  | some byte => .ok byte
  | none => panicked

def shiftedOne (k : Nat) : Decoded UInt8 :=
  if k < 8 then .ok ((1 : UInt8) <<< UInt8.ofNat k) else panicked

def lessOne (byte : UInt8) : Decoded UInt8 := if byte = 0 then panicked else .ok (byte - 1)

def copyBit {LIMIT : Nat} (context : String) (bytes : List UInt8) (bitlist : Bitlist LIMIT)
    (bitIndex : Nat) : Decoded (Bitlist LIMIT) := do
  let byte ← byteAt bytes (bitIndex/8)
  let mask ← shiftedOne (bitIndex%8)
  if byte &&& mask != 0 then namedBits context (bitlist.set bitIndex true) else .ok bitlist

def checkTrailing (context : String) (bytes : List UInt8) (bitLen : Nat) : Decoded Unit :=
  if bitLen%8 ≠ 0 then do
    let low ← lessOne (← shiftedOne (bitLen%8))
    let trailingMask := ~~~low
    if bytes.getLast?.any fun last => last &&& trailingMask != 0 then
      refuse (.bytesInvalid (context ++ ": non-zero trailing bits"))
    else .ok ()
  else .ok ()

def decodeReamRawBitlist (LIMIT : Nat) (bytes : List UInt8) (bitLen : Nat) (context : String) :
    Decoded (Bitlist LIMIT) :=
  if LIMIT < bitLen then
    refuse (.bytesInvalid (context ++ ": bit length " ++ toString bitLen ++ " exceeds limit " ++
      toString LIMIT))
  else
    let expectedBytes := (bitLen+7)/8
    if bytes.length ≠ expectedBytes then
      refuse (.bytesInvalid (context ++ ": raw bit payload has " ++ toString bytes.length ++
        " bytes, expected " ++ toString expectedBytes))
    else do
      let bitlist ← namedBits context (Bitlist.withLength bitLen)
      let bitlist ← (List.range bitLen).foldlM (copyBit context bytes) bitlist
      checkTrailing context bytes bitLen
      .ok bitlist

/-- A payload of exactly the bytes that `bits` bits need, with nothing set past them. -/
structure PackedTail (tail : List UInt8) (bits : Nat) : Prop where
  size : tail.length = (bits+7)/8
  padding : ∀ i, bits ≤ i → readBit tail i = false

theorem copyBit_ok {LIMIT i : Nat} {context : String} {bytes : List UInt8}
    {bitlist : Bitlist LIMIT} (hbytes : i/8 < bytes.length) (hi : i < bitlist.length) :
    ∃ out, copyBit context bytes bitlist i = .ok out ∧ out.length = bitlist.length ∧
      ∀ k, readBit out.bytes k =
        if k = i then readBit bytes i || readBit bitlist.bytes i else readBit bitlist.bytes k := by
  have hbyte : byteAt bytes (i/8) = .ok (bytes.getD (i/8) 0) := by
    simp [byteAt,List.getElem?_eq_getElem hbytes]
  have hmask : shiftedOne (i%8) = .ok ((1 : UInt8) <<< UInt8.ofNat (i%8)) :=
    if_pos (Nat.mod_lt _ (by decide))
  have hcopy : copyBit context bytes bitlist i = if readBit bytes i then
      namedBits context (bitlist.set i true) else .ok bitlist := by
    simp only [copyBit,hbyte,hmask]
    rfl
  rw [hcopy]
  cases hset : readBit bytes i with
  | false =>
    refine ⟨bitlist,rfl,rfl,fun k => ?_⟩
    by_cases hk : k = i
    · simp [hk]
    · simp [hk]
  | true =>
    obtain ⟨out,hout⟩ := bitlist.set_ok true (hi.trans_le bitlist.within)
    refine ⟨out,mapError_ok.mpr hout,?_,fun k => ?_⟩
    · rw [show out.length = bitlist.grown i from Bitlist.len_set hout,Bitlist.grown,if_neg (by omega)]
    · rw [Bitlist.readBit_set hout k,Bool.true_or]

theorem copyBits_ok {LIMIT count : Nat} {context : String} {bytes : List UInt8}
    {zeros : Bitlist LIMIT} (hlen : bytes.length = (zeros.length+7)/8)
    (hzeros : ∀ i, readBit zeros.bytes i = false) (hcount : count ≤ zeros.length) :
    ∃ out, (List.range count).foldlM (copyBit context bytes) zeros = .ok out ∧
      out.length = zeros.length ∧
      ∀ k, readBit out.bytes k = (decide (k < count) && readBit bytes k) := by
  induction count with
  | zero => exact ⟨zeros,rfl,rfl,fun k => by simp [hzeros k]⟩
  | succ count ih =>
    obtain ⟨mid,hmid,hsame,hbits⟩ := ih (by omega)
    obtain ⟨out,hout,hlength,hcopied⟩ := @copyBit_ok _ count context bytes mid (by omega) (by omega)
    refine ⟨out,?_,hlength.trans hsame,fun k => ?_⟩
    · rw [List.range_succ,List.foldlM_append,hmid]
      exact except_bind_ok.mpr ⟨mid,rfl,except_bind_ok.mpr ⟨out,hout,rfl⟩⟩
    · rw [hcopied,hbits,hbits]
      by_cases hk : k = count
      · simp [hk]
      · simp [hk,show k < count+1 ↔ k < count by omega]

theorem bitOf_trailingMask {k j : Nat} (hk : k < 8) (hj : j < 8) :
    bitOf (~~~(((1 : UInt8) <<< UInt8.ofNat k) - 1)) j = decide (k ≤ j) := by
  revert hj j
  revert hk k
  decide

theorem and_eq_zero_iff (a b : UInt8) :
    a &&& b = 0 ↔ ∀ j < 8, bitOf b j = true → bitOf a j = false := by
  have hbit : ∀ j < 8, bitOf (a &&& b) j = (bitOf a j && bitOf b j) := by
    intro j hj
    simp [bitOf_eq_getLsbD _ hj]
  constructor
  · intro hzero j hj hb
    have hj' := hbit j hj
    rw [hzero,bitOf_zero,hb,Bool.and_true] at hj'
    exact hj'.symm
  · intro h
    refine byte_ext fun j hj => ?_
    rw [hbit j hj,bitOf_zero]
    cases hb : bitOf b j with
    | false => simp
    | true => simp [h j hj hb]

theorem checkTrailing_eq {context : String} {bytes : List UInt8} {bitLen : Nat}
    (hlen : bytes.length = (bitLen+7)/8) (hbits : bitLen%8 ≠ 0) :
    checkTrailing context bytes bitLen = if bytes.getD (bitLen/8) 0 &&&
      ~~~(((1 : UInt8) <<< UInt8.ofNat (bitLen%8)) - 1) ≠ 0 then
        refuse (.bytesInvalid (context ++ ": non-zero trailing bits")) else .ok () := by
  have hk : bitLen%8 < 8 := Nat.mod_lt _ (by decide)
  have hmask : shiftedOne (bitLen%8) = .ok ((1 : UInt8) <<< UInt8.ofNat (bitLen%8)) := if_pos hk
  have hone : ((1 : UInt8) <<< UInt8.ofNat (bitLen%8)) ≠ 0 := by
    generalize bitLen%8 = k at hk
    revert hk k
    decide
  have hlast : bytes.getLast? = some (bytes.getD (bitLen/8) 0) := by
    have hin : bitLen/8 < bytes.length := by omega
    rw [List.getLast?_eq_getElem?,show bytes.length - 1 = bitLen/8 by omega]
    simp [hin]
  rw [checkTrailing,if_pos hbits]
  simp only [hmask,lessOne,hlast]
  simp [hone,bind,Except.bind]

theorem checkTrailing_ok {context : String} {bytes : List UInt8} {bitLen : Nat} {u : Unit}
    (hlen : bytes.length = (bitLen+7)/8) :
    checkTrailing context bytes bitLen = .ok u ↔ ∀ i, bitLen ≤ i → readBit bytes i = false := by
  by_cases hbits : bitLen%8 = 0
  · rw [checkTrailing,if_neg (not_not.mpr hbits)]
    exact ⟨fun _ i hi => readBit_past (by omega),fun _ => rfl⟩
  · have hk : bitLen%8 < 8 := Nat.mod_lt _ (by decide)
    rw [checkTrailing_eq hlen hbits,refuse_guard_ok,not_not,and_eq_zero_iff]
    simp only [and_true]
    constructor
    · intro h i hi
      by_cases hin : i/8 = bitLen/8
      · rw [readBit,hin]
        refine h (i%8) (Nat.mod_lt _ (by decide)) ?_
        rw [bitOf_trailingMask hk (Nat.mod_lt _ (by decide))]
        simp
        omega
      · exact readBit_past (by omega)
    · intro h j hj hset
      rw [bitOf_trailingMask hk hj,decide_eq_true_eq] at hset
      have hread := h (8*(bitLen/8)+j) (by omega)
      rwa [readBit,show (8*(bitLen/8)+j)/8 = bitLen/8 by omega,
        show (8*(bitLen/8)+j)%8 = j by omega] at hread

theorem safe_checkTrailing {context : String} {bytes : List UInt8} {bitLen : Nat}
    (hlen : bytes.length = (bitLen+7)/8) : Safe (checkTrailing context bytes bitLen) := by
  by_cases hbits : bitLen%8 = 0
  · rw [checkTrailing,if_neg (not_not.mpr hbits)]
    exact safe_ok ()
  · rw [checkTrailing_eq hlen hbits]
    exact Safe.guard fun _ => safe_ok ()

theorem decodeReamRawBitlist_eq {LIMIT bitLen : Nat} {context : String} {bytes : List UInt8}
    (hlimit : bitLen ≤ LIMIT) (hlen : bytes.length = (bitLen+7)/8) :
    ∃ out : Bitlist LIMIT, out.length = bitLen ∧
      (∀ i < bitLen, readBit out.bytes i = readBit bytes i) ∧
      decodeReamRawBitlist LIMIT bytes bitLen context =
        (checkTrailing context bytes bitLen >>= fun _ => .ok out) := by
  obtain ⟨zeros,hzeros,hlength,hempty⟩ : ∃ zeros : Bitlist LIMIT,
      Bitlist.withLength bitLen = .ok zeros ∧ zeros.length = bitLen ∧
        ∀ i, readBit zeros.bytes i = false := by
    rw [Bitlist.withLength,dif_neg (Nat.not_lt.mpr hlimit)]
    exact ⟨_,rfl,rfl,readBit_replicate _⟩
  obtain ⟨out,hout,hsame,hbits⟩ := @copyBits_ok _ bitLen context bytes zeros (by rw [hlength,hlen])
    hempty hlength.ge
  refine ⟨out,hsame.trans hlength,fun i hi => ?_,?_⟩
  · simp [hbits,hi]
  · simp only [decodeReamRawBitlist,if_neg (Nat.not_lt.mpr hlimit),if_neg (not_not.mpr hlen),
      namedBits,hzeros,Except.mapError]
    exact congrArg (· >>= fun bitlist => do checkTrailing context bytes bitLen; .ok bitlist) hout

theorem decodeReamRawBitlist_ok {LIMIT bitLen : Nat} {context : String} {bytes : List UInt8}
    {bits : Bitlist LIMIT} : decodeReamRawBitlist LIMIT bytes bitLen context = .ok bits ↔
      bits.length = bitLen ∧ bits.bytes = bytes := by
  by_cases hfits : bitLen ≤ LIMIT ∧ bytes.length = (bitLen+7)/8
  · obtain ⟨hlimit,hlen⟩ := hfits
    obtain ⟨out,hlength,hbits,hdecode⟩ := @decodeReamRawBitlist_eq _ _ context _ hlimit hlen
    simp only [hdecode,except_bind_ok,checkTrailing_ok hlen]
    constructor
    · rintro ⟨-,hpadding,⟨⟩⟩
      refine ⟨hlength,bytes_ext (by rw [bits.size,hlength,hlen]) fun i => ?_⟩
      by_cases hi : i < bitLen
      · exact hbits i hi
      · rw [hpadding i (by omega),bits.padding i (by omega)]
    · rintro ⟨hbitLen,hbytes⟩
      refine ⟨(),fun i hi => hbytes ▸ bits.padding i (by omega),congrArg _ ?_⟩
      refine Bitlist.toList_injective ?_
      rw [Bitlist.toList,Bitlist.toList,hlength,hbitLen,hbytes]
      exact List.map_congr_left fun i hi => hbits i (List.mem_range.mp hi)
  · simp only [decodeReamRawBitlist,refuse_guard_ok,not_lt,not_not]
    constructor
    · exact fun h => absurd ⟨h.1,h.2.1⟩ hfits
    · rintro ⟨rfl,rfl⟩
      exact absurd ⟨bits.within,bits.size⟩ hfits

theorem decodeReamRawBitlist_accepts {LIMIT bitLen : Nat} {context : String} {bytes : List UInt8} :
    (∃ bits, decodeReamRawBitlist LIMIT bytes bitLen context = .ok bits) ↔
      bitLen ≤ LIMIT ∧ PackedTail bytes bitLen := by
  simp only [decodeReamRawBitlist_ok]
  constructor
  · rintro ⟨bits,rfl,rfl⟩
    exact ⟨bits.within,bits.size,bits.padding⟩
  · rintro ⟨hlimit,hsize,hpadding⟩
    exact ⟨⟨bytes,bitLen,hsize,hlimit,hpadding⟩,rfl,rfl⟩

example : (decodeReamRawBitlist 16 [5] 3 "bits").toOption.map Bitlist.toList =
      some [true,false,true] ∧
    decodeReamRawBitlist 16 [13] 3 "bits" = refuse (.bytesInvalid "bits: non-zero trailing bits") := by
  decide +kernel

theorem safe_decodeReamRawBitlist (LIMIT : Nat) (bytes : List UInt8) (bitLen : Nat)
    (context : String) : Safe (decodeReamRawBitlist LIMIT bytes bitLen context) := by
  by_cases hfits : bitLen ≤ LIMIT ∧ bytes.length = (bitLen+7)/8
  · obtain ⟨out,-,-,hdecode⟩ := @decodeReamRawBitlist_eq _ _ context _ hfits.1 hfits.2
    rw [hdecode]
    exact (safe_checkTrailing hfits.2).bind fun _ _ => safe_ok out
  · exact Safe.guard fun hlimit => Safe.guard fun hlen =>
      absurd ⟨Nat.le_of_not_lt hlimit,not_not.mp hlen⟩ hfits

end RawBits

def reamTailSlice (bytes : List UInt8) (offsets : List Nat) (idx : Nat) : Decoded (List UInt8) :=
  let stop := if idx+1 < reamStateVariableFieldCount then offsets.getD (idx+1) 0 else bytes.length
  slice bytes (offsets.getD idx 0) stop

/-- The checks of the native state, at the length of the compact fixed portion. -/
def checkReamOffsets (bytes : List UInt8) (offsets : List Nat) : Decoded Unit :=
  if offsets.getD 0 0 ≠ reamLeanStateFixedPartLen then
    refuse (.offsetIntoFixedPortion (offsets.getD 0 0))
  else do
    (windows offsets).forM fun pair =>
      if pair.2 < pair.1 then refuse (.offsetsAreDecreasing pair.2) else .ok ()
    let lastOffset := offsets.getLastD reamLeanStateFixedPartLen
    if bytes.length < lastOffset then refuse (.offsetOutOfBounds lastOffset) else .ok ()

def justificationsValidatorBits (roots count : Nat) : Decoded Nat :=
  match checkedMul roots count with
  | some bits => .ok bits
  | none => refuse (.bytesInvalid "justifications_validators length overflow")

/-- The compact layout: the fixed portion with its four offsets, the roots of the history and a
bit for each, the roots under justification and a bit of each validator for each. -/
structure ReamLayout (bytes : List UInt8) (count genesisTime : UInt64)
    (latestJustified latestFinalized : Checkpoint) (o₁ o₂ o₃ : Nat) : Prop where
  fixed : bytes.take 112 = encode count ++ encode genesisTime ++ encode latestJustified ++
    encode latestFinalized ++ leBytes 4 112 ++ leBytes 4 o₁ ++ leBytes 4 o₂ ++ leBytes 4 o₃
  words : o₁ < 2^32 ∧ o₂ < 2^32 ∧ o₃ < 2^32
  ordered : 112 ≤ o₁ ∧ o₁ ≤ o₂ ∧ o₂ ≤ o₃ ∧ o₃ ≤ bytes.length
  history : ∃ h ≤ historicalRootsLimit, o₁ - 112 = h*32 ∧ PackedTail (field bytes o₁ (o₂ - o₁)) h
  votes : ∃ r ≤ historicalRootsLimit, o₃ - o₂ = r*32 ∧
    r*count.toNat ≤ justificationsValidatorsLimit ∧ PackedTail (bytes.drop o₃) (r*count.toNat)

theorem checkReamOffsets_ok {bytes : List UInt8} {first : Nat} {rest : List Nat} {u : Unit} :
    checkReamOffsets bytes (first :: rest) = .ok u ↔
      first = 112 ∧ Ascends first rest bytes.length := by
  rw [@ascends_iff _ _ 112]
  simp only [checkReamOffsets,refuse_guard_ok,except_bind_ok,ordered_ok,not_not,
    reamLeanStateFixedPartLen_eq,List.getD_cons_zero,exists_const,and_true]

theorem safe_checkReamOffsets (bytes : List UInt8) (offsets : List Nat) :
    Safe (checkReamOffsets bytes offsets) := by
  refine Safe.guard fun _ => Safe.bind ?_ fun _ _ => Safe.guard fun _ => safe_ok ()
  exact Safe.forM fun pair _ => Safe.guard fun _ => safe_ok ()

theorem reamTailSlice_eq {bytes : List UInt8} {offsets : List Nat} (hfour : offsets.length = 4)
    (hchecked : checkReamOffsets bytes offsets = .ok ()) {idx : Nat} (hidx : idx < 4) :
    reamTailSlice bytes offsets idx = .ok ((pieces bytes offsets).getD idx []) := by
  cases offsets with
  | nil => simp at hfour
  | cons first rest =>
    rw [List.length_cons] at hfour
    have hslice := @slice_pieces _ DecodeError _ _ _ (checkReamOffsets_ok.mp hchecked).2 idx
      (hfour.symm ▸ hidx)
    rw [hfour] at hslice
    exact hslice

theorem justificationsValidatorBits_ok {roots count bits : Nat} :
    justificationsValidatorBits roots count = .ok bits ↔ roots*count < 2^64 ∧ roots*count = bits := by
  by_cases hlt : roots*count < 2^64
  · simp only [justificationsValidatorBits,checkedMul_of_lt hlt,hlt,true_and,Except.ok.injEq]
  · simp only [justificationsValidatorBits,checkedMul_of_ge hlt,hlt,false_and,refuse_ne_ok]

theorem safe_justificationsValidatorBits (roots count : Nat) :
    Safe (justificationsValidatorBits roots count) := by
  unfold justificationsValidatorBits
  split
  · exact safe_ok _
  · exact safe_refuse _

theorem exists_roots {tail : List UInt8} {max count : Nat} :
    (∃ roots : List Bytes32, decodeByteVectorList 32 tail max = .ok roots ∧ roots.length = count) ↔
      count ≤ max ∧ tail.length = count*32 := by
  simp only [decodeByteVectorList_ok (show 0 < 32 by decide)]
  constructor
  · rintro ⟨roots,⟨hmax,rfl⟩,rfl⟩
    exact ⟨hmax,length_flatten_bytes roots⟩
  · rintro ⟨hmax,hlen⟩
    suffices h : ∃ roots : List Bytes32, roots.length = count ∧
        (roots.map ByteVector.bytes).flatten = tail by
      obtain ⟨roots,hcount,hroots⟩ := h
      exact ⟨roots,⟨hcount ▸ hmax,hroots⟩,hcount⟩
    clear hmax
    induction count generalizing tail with
    | zero => exact ⟨[],rfl,by simpa [eq_comm] using hlen⟩
    | succ count ih =>
      obtain ⟨roots,hcount,hroots⟩ := @ih (tail.drop 32) (by simp; omega)
      refine ⟨⟨tail.take 32,by simp; omega⟩ :: roots,by simp [hcount],?_⟩
      simp [hroots]

theorem ReamLayout.fixed_iff {bytes : List UInt8} {count genesisTime : UInt64}
    {justified finalized : Checkpoint} {o₁ o₂ o₃ : Nat} :
    bytes.take 112 = encode count ++ encode genesisTime ++ encode justified ++ encode finalized ++
        leBytes 4 112 ++ leBytes 4 o₁ ++ leBytes 4 o₂ ++ leBytes 4 o₃ ↔
      Tiles bytes 0 [encode count,encode genesisTime,encode justified,encode finalized] ∧
        Tiles bytes 96 ([112,o₁,o₂,o₃].map (leBytes 4)) := by
  have hparts := @flatten_append_eq _ [encode count,encode genesisTime,encode justified,
    encode finalized,leBytes 4 112,leBytes 4 o₁,leBytes 4 o₂,leBytes 4 o₃] (bytes.drop 112) bytes
  conv at hparts => lhs; rhs; rw [← List.take_append_drop 112 bytes]
  rw [List.append_left_inj,eq_comm] at hparts
  simpa [Tiles,extent,and_assoc] using hparts

section Decoder

variable [HashPair]

/-- The state the decoder returns: the slot-0 anchor without a registry. -/
def State.reamAnchor (genesisTime : UInt64) (latestJustified latestFinalized : Checkpoint) : State :=
  { (default : State) with
    config := ⟨genesisTime⟩
    latestBlockHeader := BlockHeader.genesis
    latestJustified := latestJustified
    latestFinalized := latestFinalized }

/-- `usize::try_from` cannot fail where a `usize` has 64 bits. -/
def State.fromReamLegacySszBytes (bytes : List UInt8) : Decoded State :=
  if bytes.length < reamLeanStateFixedPartLen then
    refuse (.invalidByteLength bytes.length reamLeanStateFixedPartLen)
  else do
    let c := 0
    let ((legacyValidatorCount : UInt64),c) ← readFixed bytes c
    let ((genesisTime : UInt64),c) ← readFixed bytes c
    let latestJustified ← Decode.fromSszBytes (← slice bytes c (c+checkpointLen))
    let c := c+checkpointLen
    let latestFinalized ← Decode.fromSszBytes (← slice bytes c (c+checkpointLen))
    let c := c+checkpointLen
    let (offsets,_) ← readOffsets bytes reamStateVariableFieldCount c
    checkReamOffsets bytes offsets
    let historicalBlockHashes ←
      decodeByteVectorList 32 (← reamTailSlice bytes offsets 0) historicalRootsLimit
    let _ ← decodeReamRawBitlist historicalRootsLimit (← reamTailSlice bytes offsets 1)
      historicalBlockHashes.length "justified_slots"
    let justificationsRoots ←
      decodeByteVectorList 32 (← reamTailSlice bytes offsets 2) historicalRootsLimit
    let bits ←
      justificationsValidatorBits justificationsRoots.length legacyValidatorCount.toNat
    let _ ← decodeReamRawBitlist justificationsValidatorsLimit (← reamTailSlice bytes offsets 3)
      bits "justifications_validators"
    .ok (State.reamAnchor genesisTime latestJustified latestFinalized)

theorem State.fromReamLegacySszBytes_ok {b : List UInt8} {s : State} :
    State.fromReamLegacySszBytes b = .ok s ↔
      ∃ (count genesisTime : UInt64) (justified finalized : Checkpoint) (o₁ o₂ o₃ : Nat),
        ReamLayout b count genesisTime justified finalized o₁ o₂ o₃ ∧
        s = State.reamAnchor genesisTime justified finalized := by
  by_cases hlen : 112 ≤ b.length
  · have hoffsets := fun offsets next => @readOffsets_ok b 4 96 next offsets (by omega)
    simp only [State.fromReamLegacySszBytes,reamLeanStateFixedPartLen_eq,Nat.not_lt.mpr hlen,
      if_false,except_bind_ok,Prod.exists,readFixed_ok,slice_ok,LawfulFixed.accepts,
      checkpointLen_eq,fixedLen_u64,reamStateVariableFieldCount]
    constructor
    · rintro ⟨count,_,⟨-,hcount,rfl⟩,genesisTime,_,⟨-,htime,rfl⟩,_,⟨-,-,rfl⟩,justified,hjustified,
        _,⟨-,-,rfl⟩,finalized,hfinalized,offsets,_,hread,_,hchecked,_,htail0,hashes,hhashes,
        _,htail1,slots,hslots,_,htail2,roots,hroots,bits,hbits,_,htail3,votes,hvotes,⟨⟩⟩
      obtain ⟨hfour,hfits,htable,-⟩ := (hoffsets _ _).mp hread
      rw [reamTailSlice_eq hfour hchecked (by decide)] at htail0 htail1 htail2 htail3
      obtain ⟨o₀,o₁,o₂,o₃,rfl⟩ := List.length_eq_four.mp hfour
      obtain ⟨rfl,h₁,h₂,h₃,hend⟩ := checkReamOffsets_ok.mp hchecked
      replace hend : o₃ ≤ b.length := hend
      cases htail0; cases htail1; cases htail2; cases htail3
      obtain ⟨hhistory,hhistoryLen⟩ := exists_roots.mp ⟨hashes,hhashes,rfl⟩
      obtain ⟨hrooted,hrootedLen⟩ := exists_roots.mp ⟨roots,hroots,rfl⟩
      obtain ⟨-,rfl⟩ := justificationsValidatorBits_ok.mp hbits
      obtain ⟨-,hslots⟩ := decodeReamRawBitlist_accepts.mp ⟨slots,hslots⟩
      obtain ⟨hvoted,hvotes⟩ := decodeReamRawBitlist_accepts.mp ⟨votes,hvotes⟩
      refine ⟨count,genesisTime,justified,finalized,o₁,o₂,o₃,⟨?_,?_,⟨h₁,h₂,h₃,hend⟩,
        ⟨hashes.length,hhistory,?_,hslots⟩,⟨roots.length,hrooted,?_,hvoted,hvotes⟩⟩,rfl⟩
      · simp only [ReamLayout.fixed_iff,Tiles,length_encode_u64,length_encode_checkpoint,and_true]
        exact ⟨⟨hcount,htime,by simpa using hjustified,by simpa using hfinalized⟩,htable⟩
      · exact ⟨hfits o₁ (by simp),hfits o₂ (by simp),hfits o₃ (by simp)⟩
      · rw [← hhistoryLen]
        exact (length_field (by omega)).symm
      · rw [← hrootedLen]
        exact (length_field (by omega)).symm
    · rintro ⟨count,genesisTime,justified,finalized,o₁,o₂,o₃,hlayout,rfl⟩
      obtain ⟨hfixed,htable⟩ := ReamLayout.fixed_iff.mp hlayout.fixed
      simp only [Tiles,length_encode_u64,length_encode_checkpoint] at hfixed
      obtain ⟨hcount,htime,hjustified,hfinalized,-⟩ := hfixed
      obtain ⟨h₁,h₂,h₃,hend⟩ := hlayout.ordered
      obtain ⟨h,hlimit,hlen₁,hslots⟩ := hlayout.history
      obtain ⟨r,hlimit',hlen₃,hvoted,hvotes⟩ := hlayout.votes
      have hchecked : checkReamOffsets b [112,o₁,o₂,o₃] = .ok () :=
        checkReamOffsets_ok.mpr ⟨rfl,h₁,h₂,h₃,hend⟩
      have htail := fun idx => @reamTailSlice_eq b [112,o₁,o₂,o₃] rfl hchecked idx
      have htail0 : reamTailSlice b [112,o₁,o₂,o₃] 0 = .ok (field b 112 (o₁ - 112)) :=
        htail 0 (by decide)
      have htail2 : reamTailSlice b [112,o₁,o₂,o₃] 2 = .ok (field b o₂ (o₃ - o₂)) :=
        htail 2 (by decide)
      obtain ⟨hashes,hhashes,rfl⟩ := (@exists_roots (field b 112 (o₁ - 112)) _ h).mpr
        ⟨hlimit,(length_field (by omega)).trans hlen₁⟩
      obtain ⟨roots,hroots,rfl⟩ := (@exists_roots (field b o₂ (o₃ - o₂)) _ r).mpr
        ⟨hlimit',(length_field (by omega)).trans hlen₃⟩
      obtain ⟨slots,hslots⟩ :=
        (@decodeReamRawBitlist_accepts _ _ "justified_slots" _).mpr ⟨hlimit,hslots⟩
      obtain ⟨votes,hvotes⟩ :=
        (@decodeReamRawBitlist_accepts _ _ "justifications_validators" _).mpr ⟨hvoted,hvotes⟩
      have hrange : justificationsValidatorsLimit < 2^64 := by decide
      have hsmall : roots.length*count.toNat < 2^64 := hvoted.trans_lt hrange
      refine ⟨count,_,⟨by omega,hcount,rfl⟩,genesisTime,_,⟨by omega,htime,rfl⟩,
        _,⟨by omega,by omega,rfl⟩,justified,by simpa using hjustified,
        _,⟨by omega,by omega,rfl⟩,finalized,by simpa using hfinalized,[112,o₁,o₂,o₃],112,?_,
        (),hchecked,_,htail0,hashes,hhashes,_,htail 1 (by decide),slots,hslots,
        _,htail2,roots,hroots,_,justificationsValidatorBits_ok.mpr ⟨hsmall,rfl⟩,
        _,htail 3 (by decide),votes,hvotes,rfl⟩
      exact (hoffsets _ _).mpr ⟨rfl,by simpa using hlayout.words,htable,rfl⟩
  · simp only [State.fromReamLegacySszBytes,refuse_guard_ok,reamLeanStateFixedPartLen_eq]
    constructor
    · exact fun h => absurd (Nat.le_of_not_lt h.1) hlen
    · rintro ⟨_,_,_,_,o₁,o₂,o₃,hlayout,-⟩
      have hordered := hlayout.ordered
      omega

theorem State.safe_fromReamLegacySszBytes (b : List UInt8) :
    Safe (State.fromReamLegacySszBytes b) := by
  refine Safe.guard fun hlen => ?_
  rw [reamLeanStateFixedPartLen_eq] at hlen
  refine safe_readFixed_bind (by simp; omega) fun count => ?_
  refine safe_readFixed_bind (by simp; omega) fun genesisTime => ?_
  refine (safe_slice (by simp) (by simp; omega)).bind fun part _ => ?_
  refine (LawfulFixed.safe part).bind fun justified _ => ?_
  refine (safe_slice (by simp) (by simp; omega)).bind fun part _ => ?_
  refine (LawfulFixed.safe part).bind fun finalized _ => ?_
  have hroom : 96+4*4 ≤ b.length := by omega
  refine (safe_readOffsets hroom).bind fun read hread => ?_
  obtain ⟨hfour,-⟩ := (readOffsets_ok hroom).mp hread
  refine (safe_checkReamOffsets b read.1).bind fun _ hchecked => ?_
  have htail : ∀ {idx}, idx < 4 → Safe (reamTailSlice b read.1 idx) := by
    intro idx hidx
    rw [reamTailSlice_eq hfour hchecked hidx]
    exact safe_ok _
  refine (htail (by decide)).bind fun part _ => ?_
  refine (safe_decodeByteVectorList 32 part _).bind fun hashes _ => ?_
  refine (htail (by decide)).bind fun part _ => ?_
  refine (safe_decodeReamRawBitlist _ part _ _).bind fun slots _ => ?_
  refine (htail (by decide)).bind fun part _ => ?_
  refine (safe_decodeByteVectorList 32 part _).bind fun roots _ => ?_
  refine (safe_justificationsValidatorBits _ _).bind fun bits _ => ?_
  refine (htail (by decide)).bind fun part _ => ?_
  exact (safe_decodeReamRawBitlist _ part _ _).bind fun votes _ => safe_ok _

/-- For every input the decoder neither reads out of bounds nor overflows. It accepts exactly the
layout, and of what it has read only the genesis time and the checkpoints reach the state. -/
theorem ream_decodes_layout (bytes : List UInt8) :
    Safe (State.fromReamLegacySszBytes bytes) ∧
    (∀ s, State.fromReamLegacySszBytes bytes = .ok s ↔
      ∃ (count genesisTime : UInt64) (justified finalized : Checkpoint) (o₁ o₂ o₃ : Nat),
        ReamLayout bytes count genesisTime justified finalized o₁ o₂ o₃ ∧
        s = State.reamAnchor genesisTime justified finalized) ∧
    ∀ s, State.fromReamLegacySszBytes bytes = .ok s → s.validators = [] := by
  refine ⟨State.safe_fromReamLegacySszBytes bytes,
    fun s => State.fromReamLegacySszBytes_ok,fun s hs => ?_⟩
  obtain ⟨_,_,_,_,_,_,_,-,rfl⟩ := State.fromReamLegacySszBytes_ok.mp hs
  rfl

end Decoder

end Devnet.Protocol
