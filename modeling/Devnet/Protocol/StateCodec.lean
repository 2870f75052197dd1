import Devnet.Protocol.Codec
import Devnet.Types.BitlistBytes

/-!
The codec of the state: five fields of fixed length, five offsets, and the five tails they
point at. The decoder wants the first offset right behind the fixed portion and the others in
order, so the tails fill the rest of the input without gap or overlap.
-/

set_option autoImplicit false

namespace Devnet.Protocol
open Machine Wire Devnet.Types Devnet.Ssz

def stateVariableFieldCount : Nat := 5

def stateFixedPartLen : Nat :=
  protocolConfigSszLen+slotLen+blockHeaderLen+checkpointLen+checkpointLen+
    stateVariableFieldCount*bytesPerLengthOffset

def State.variableTailPayloads (self : State) : List (List UInt8) :=
  [encodeByteVectorList self.historicalBlockHashes [],self.justifiedSlots.asBytes,
    encodeFixedElementList self.validators [],encodeByteVectorList self.justificationsRoots [],
    self.justificationsValidators.asBytes]

def State.sszBytesLen (self : State) : Nat :=
  stateFixedPartLen + (self.variableTailPayloads.map List.length).sum

def pushOffset (acc : List UInt8 × Nat) (tail : List UInt8) : List UInt8 × Nat :=
  (writeOffset acc.1 acc.2,acc.2+tail.length)

def State.sszAppend (self : State) (buf : List UInt8) : List UInt8 :=
  let tails := self.variableTailPayloads
  let buf := Encode.sszAppend self.config buf
  let buf := Encode.sszAppend self.slot buf
  let buf := Encode.sszAppend self.latestBlockHeader buf
  let buf := Encode.sszAppend self.latestJustified buf
  let buf := Encode.sszAppend self.latestFinalized buf
  let buf := (tails.foldl pushOffset (buf,stateFixedPartLen)).1
  tails.foldl (fun buf tail => buf ++ tail) buf

def readOffsets (bytes : List UInt8) : Nat → Nat → Decoded (List Nat × Nat)
  | 0, c => .ok ([],c)
  | count+1, c => do
    let (offset,c) ← readOffset bytes c
    let (offsets,c) ← readOffsets bytes count c
    .ok (offset :: offsets,c)

def namedBits {LIMIT : Nat} (name : String) (bits : Except TypesError (Bitlist LIMIT)) :
    Decoded (Bitlist LIMIT) :=
  bits.mapError fun err => .refused (.bytesInvalid (name ++ ": " ++ err.message))

def tailSlice (bytes : List UInt8) (offsets : List Nat) (idx : Nat) : Decoded (List UInt8) :=
  let stop := if idx+1 < stateVariableFieldCount then offsets.getD (idx+1) 0 else bytes.length
  slice bytes (offsets.getD idx 0) stop

/-- The first offset ends the fixed portion, the others do not decrease, and the last is
within the input. -/
def checkOffsets (bytes : List UInt8) (offsets : List Nat) : Decoded Unit :=
  if offsets.getD 0 0 ≠ stateFixedPartLen then
    refuse (.offsetIntoFixedPortion (offsets.getD 0 0))
  else do
    (windows offsets).forM fun pair =>
      if pair.2 < pair.1 then refuse (.offsetsAreDecreasing pair.2) else .ok ()
    let lastOffset := offsets.getLastD stateFixedPartLen
    if bytes.length < lastOffset then refuse (.offsetOutOfBounds lastOffset) else .ok ()

def State.fromSszBytes (bytes : List UInt8) : Decoded State :=
  if bytes.length < stateFixedPartLen then
    refuse (.invalidByteLength bytes.length stateFixedPartLen)
  else do
    let c := 0
    let (config,c) ← readFixed bytes c
    let (slot,c) ← readFixed bytes c
    let (latestBlockHeader,c) ← readFixed bytes c
    let latestJustified ← Decode.fromSszBytes (← slice bytes c (c+checkpointLen))
    let c := c+checkpointLen
    let latestFinalized ← Decode.fromSszBytes (← slice bytes c (c+checkpointLen))
    let c := c+checkpointLen
    let (offsets,_) ← readOffsets bytes stateVariableFieldCount c
    checkOffsets bytes offsets
    let historicalBlockHashes ←
      decodeByteVectorList 32 (← tailSlice bytes offsets 0) historicalRootsLimit
    let justifiedSlots ←
      namedBits "justified_slots" (Bitlist.fromBytes (← tailSlice bytes offsets 1))
    let validators ←
      decodeFixedElementList Validator (← tailSlice bytes offsets 2) validatorRegistryLimit
    let justificationsRoots ←
      decodeByteVectorList 32 (← tailSlice bytes offsets 3) historicalRootsLimit
    let justificationsValidators ←
      namedBits "justifications_validators" (Bitlist.fromBytes (← tailSlice bytes offsets 4))
    .ok ⟨config,slot,latestBlockHeader,latestJustified,latestFinalized,historicalBlockHashes,
      justifiedSlots,validators,justificationsRoots,justificationsValidators⟩

instance : Encode State := ⟨State.sszBytesLen,State.sszAppend⟩
instance : Decode State where
  fromSszBytes := State.fromSszBytes

/-- The bit lists keep to their limits by themselves. -/
structure State.WithinLimits (s : State) : Prop where
  historicalBlockHashes : s.historicalBlockHashes.length ≤ historicalRootsLimit
  validators : s.validators.length ≤ validatorRegistryLimit
  justificationsRoots : s.justificationsRoots.length ≤ historicalRootsLimit

@[simp] theorem stateFixedPartLen_eq : stateFixedPartLen = 228 := by decide

def State.fixedParts (self : State) : List (List UInt8) :=
  [encode self.config,encode self.slot,encode self.latestBlockHeader,encode self.latestJustified,
    encode self.latestFinalized]

theorem State.extent_fixedParts (self : State) : extent self.fixedParts = 208 := by
  simp [extent,fixedParts]

theorem foldl_pushOffset (tails : List (List UInt8)) (buf : List UInt8) (offset : Nat) :
    (tails.foldl pushOffset (buf,offset)).1 =
      buf ++ ((offsetsFrom offset tails).map fun o => leBytes 4 (min o (2^32-1))).flatten := by
  induction tails generalizing buf offset with
  | nil => simp [offsetsFrom]
  | cons tail tails ih =>
    rw [List.foldl_cons,pushOffset,ih]
    simp [offsetsFrom,writeOffset]

theorem State.sszAppend_eq (self : State) (buf : List UInt8) :
    self.sszAppend buf = buf ++ (self.fixedParts.flatten ++
      (((offsetsFrom 228 self.variableTailPayloads).map fun o => leBytes 4 (min o (2^32-1))).flatten ++
        self.variableTailPayloads.flatten)) := by
  have htails : ∀ buf, self.variableTailPayloads.foldl (fun buf tail => buf ++ tail) buf =
      buf ++ (self.variableTailPayloads.map id).flatten :=
    foldl_append (fun _ _ => rfl) self.variableTailPayloads
  simp only [sszAppend,LawfulFixed.appends,foldl_pushOffset,htails,fixedParts,stateFixedPartLen_eq]
  simp

theorem readOffsets_ok {bytes : List UInt8} {count c next : Nat} {offsets : List Nat}
    (h : c+count*4 ≤ bytes.length) :
    readOffsets bytes count c = .ok (offsets,next) ↔ offsets.length = count ∧
      (∀ o ∈ offsets, o < 2^32) ∧ Tiles bytes c (offsets.map (leBytes 4)) ∧ c+count*4 = next := by
  induction count generalizing c offsets next with
  | zero =>
    cases offsets with
    | nil => simp [readOffsets,Tiles]
    | cons o offsets => simp [readOffsets]
  | succ count ih =>
    simp only [readOffsets,except_bind_ok,Prod.exists,readOffset_ok]
    cases offsets with
    | nil => simp
    | cons o offsets =>
      constructor
      · rintro ⟨o',_,⟨-,hlt,ho,rfl⟩,os,c',hrest,hsame⟩
        obtain ⟨hlen,hall,htiles,rfl⟩ := (ih (by omega)).mp hrest
        cases hsame
        refine ⟨by simp [hlen],List.forall_mem_cons.mpr ⟨hlt,hall⟩,⟨?_,?_⟩,by omega⟩
        · simpa using ho
        · simpa using htiles
      · rintro ⟨hlen,hall,⟨ho,htiles⟩,rfl⟩
        obtain ⟨hlt,hall⟩ := List.forall_mem_cons.mp hall
        rw [length_leBytes] at ho htiles
        have hrest := (ih (by omega)).mpr ⟨by simpa using hlen,hall,htiles,rfl⟩
        refine ⟨o,_,⟨by omega,hlt,ho,rfl⟩,offsets,_,hrest,?_⟩
        rw [show c+4+count*4 = c+(count+1)*4 by omega]

theorem safe_readOffsets {bytes : List UInt8} {count c : Nat} (h : c+count*4 ≤ bytes.length) :
    Safe (readOffsets bytes count c) := by
  induction count generalizing c with
  | zero => exact safe_ok _
  | succ count ih =>
    refine safe_readOffset_bind (by omega) fun offset => ?_
    exact (ih (by omega)).bind fun _ _ => safe_ok _

theorem namedBits_ok {LIMIT : Nat} {name : String} {data : List UInt8} {bits : Bitlist LIMIT} :
    namedBits name (Bitlist.fromBytes data) = .ok bits ↔ bits.asBytes = data := by
  rw [namedBits,mapError_ok,Bitlist.fromBytes_iff]

theorem safe_namedBits {LIMIT : Nat} (name : String) (bits : Except TypesError (Bitlist LIMIT)) :
    Safe (namedBits name bits) := by
  cases bits with
  | ok bits => exact safe_ok bits
  | error e => exact safe_refuse _

theorem ordered_ok {pairs : List (Nat × Nat)} {u : Unit} : (pairs.forM fun pair =>
    if pair.2 < pair.1 then refuse (.offsetsAreDecreasing pair.2) else .ok () : Decoded Unit) =
      .ok u ↔ ∀ pair ∈ pairs, ¬ pair.2 < pair.1 := by
  rw [forM_ok]
  simp only [refuse_guard_ok,and_true]

theorem checkOffsets_ok {bytes : List UInt8} {first : Nat} {rest : List Nat} {u : Unit} :
    checkOffsets bytes (first :: rest) = .ok u ↔
      first = 228 ∧ Ascends first rest bytes.length := by
  rw [@ascends_iff _ _ 228]
  simp only [checkOffsets,refuse_guard_ok,except_bind_ok,ordered_ok,not_not,stateFixedPartLen_eq,
    List.getD_cons_zero,exists_const,and_true]

/-- What the decoder has established when it returns. -/
structure State.Laid (s : State) (b : List UInt8) (offsets : List Nat) : Prop where
  five : offsets.length = 5
  fits : ∀ o ∈ offsets, o < 2^32
  table : Tiles b 208 (offsets.map (leBytes 4))
  checked : checkOffsets b offsets = .ok ()
  tails : ∀ idx < 5, tailSlice b offsets idx = .ok (s.variableTailPayloads.getD idx [])

theorem State.tails_eq (s : State) : s.variableTailPayloads =
    [(s.historicalBlockHashes.map ByteVector.bytes).flatten,s.justifiedSlots.asBytes,
      (s.validators.map encode).flatten,(s.justificationsRoots.map ByteVector.bytes).flatten,
      s.justificationsValidators.asBytes] := by
  simp [variableTailPayloads,encodeByteVectorList_eq,encodeFixedElementList_eq]

theorem State.fromSszBytes_ok {b : List UInt8} {s : State} :
    State.fromSszBytes b = .ok s ↔ s.WithinLimits ∧ 228 ≤ b.length ∧ Tiles b 0 s.fixedParts ∧
      ∃ offsets, s.Laid b offsets := by
  by_cases hlen : 228 ≤ b.length
  · have hoffsets := fun offsets next => @readOffsets_ok b 5 208 next offsets (by omega)
    simp only [State.fromSszBytes,stateFixedPartLen_eq,Nat.not_lt.mpr hlen,if_false,except_bind_ok,Prod.exists,
      readFixed_ok,slice_ok,LawfulFixed.accepts,checkpointLen_eq,fixedLen_protocolConfig,
      fixedLen_slot,fixedLen_blockHeader,stateVariableFieldCount,namedBits_ok,
      decodeFixedElementList_ok,decodeByteVectorList_ok (show 0 < 32 by decide)]
    constructor
    · rintro ⟨config,_,⟨-,hconfig,rfl⟩,slot,_,⟨-,hslot,rfl⟩,header,_,⟨-,hheader,rfl⟩,
        _,⟨-,-,rfl⟩,justified,hjustified,_,⟨-,-,rfl⟩,finalized,hfinalized,offsets,_,hread,_,hchecked,
        _,htail0,hashes,⟨hhashes,rfl⟩,_,htail1,slots,rfl,_,htail2,validators,⟨hvalidators,rfl⟩,
        _,htail3,roots,⟨hroots,rfl⟩,_,htail4,votes,rfl,⟨⟩⟩
      obtain ⟨hfive,hfits,htable,-⟩ := (hoffsets _ _).mp hread
      refine ⟨⟨hhashes,hvalidators,hroots⟩,hlen,?_,offsets,hfive,hfits,htable,hchecked,?_⟩
      · simp only [State.fixedParts,Tiles,length_encode_protocolConfig,length_encode_slot,
          length_encode_blockHeader,length_encode_checkpoint,and_true]
        exact ⟨hconfig,hslot,hheader,by simpa using hjustified,by simpa using hfinalized⟩
      · intro idx hidx
        rw [State.tails_eq]
        interval_cases idx
        · exact htail0
        · exact htail1
        · exact htail2
        · exact htail3
        · exact htail4
    · rintro ⟨hwithin,-,htiles,offsets,hlaid⟩
      simp only [State.fixedParts,Tiles,length_encode_protocolConfig,length_encode_slot,
        length_encode_blockHeader,length_encode_checkpoint] at htiles
      obtain ⟨hconfig,hslot,hheader,hjustified,hfinalized,-⟩ := htiles
      have htails := hlaid.tails
      rw [State.tails_eq] at htails
      refine ⟨s.config,_,⟨by omega,hconfig,rfl⟩,s.slot,_,⟨by omega,hslot,rfl⟩,
        s.latestBlockHeader,_,⟨by omega,hheader,rfl⟩,_,⟨by omega,by omega,rfl⟩,s.latestJustified,
        by simpa using hjustified,_,⟨by omega,by omega,rfl⟩,s.latestFinalized,
        by simpa using hfinalized,offsets,228,?_,(),hlaid.checked,
        _,htails 0 (by decide),s.historicalBlockHashes,⟨hwithin.historicalBlockHashes,rfl⟩,
        _,htails 1 (by decide),s.justifiedSlots,rfl,_,htails 2 (by decide),s.validators,⟨hwithin.validators,rfl⟩,
        _,htails 3 (by decide),s.justificationsRoots,⟨hwithin.justificationsRoots,rfl⟩,
        _,htails 4 (by decide),s.justificationsValidators,rfl,rfl⟩
      exact (hoffsets _ _).mpr ⟨hlaid.five,hlaid.fits,hlaid.table,rfl⟩
  · simp only [State.fromSszBytes,refuse_guard_ok,stateFixedPartLen_eq]
    constructor
    · exact fun h => absurd (Nat.le_of_not_lt h.1) hlen
    · exact fun h => absurd h.2.1 hlen

theorem State.offsets_lt {s : State} (h : s.WithinLimits) :
    ∀ o ∈ offsetsFrom 228 s.variableTailPayloads, o < 2^32 := by
  have hhashes := length_flatten_bytes s.historicalBlockHashes
  have hroots := length_flatten_bytes s.justificationsRoots
  have hvalidators : (s.validators.map encode).flatten.length = s.validators.length*60 := by
    rw [@length_flatten_eq _ 60 _ (by simp),List.length_map]
  have hslots := s.justifiedSlots.within
  have hvotes := s.justificationsValidators.within
  have hlimits := h.historicalBlockHashes
  have hlimits' := h.validators
  have hlimits'' := h.justificationsRoots
  simp only [historicalRootsLimit,validatorRegistryLimit,justificationsValidatorsLimit] at *
  intro o ho
  have hle := (ascends_offsetsFrom 228 s.variableTailPayloads).mem_le o ho
  simp only [State.tails_eq,extent,List.map_cons,List.map_nil,List.sum_cons,List.sum_nil,hhashes,
    hroots,hvalidators,Bitlist.length_asBytes] at hle
  omega

theorem tailSlice_eq {bytes : List UInt8} {offsets : List Nat} (hfive : offsets.length = 5)
    (hchecked : checkOffsets bytes offsets = .ok ()) {idx : Nat} (hidx : idx < 5) :
    tailSlice bytes offsets idx = .ok ((pieces bytes offsets).getD idx []) := by
  cases offsets with
  | nil => simp at hfive
  | cons first rest =>
    rw [List.length_cons] at hfive
    have hslice := slice_pieces (ε := DecodeError) (checkOffsets_ok.mp hchecked).2
      (hfive.symm ▸ hidx)
    rw [hfive] at hslice
    exact hslice

theorem State.laid_iff {s : State} {b : List UInt8} (hlen : 228 ≤ b.length) :
    (∃ offsets, s.Laid b offsets) ↔
      (∀ o ∈ offsetsFrom 228 s.variableTailPayloads, o < 2^32) ∧
      Tiles b 208 ((offsetsFrom 228 s.variableTailPayloads).map (leBytes 4)) ∧
      s.variableTailPayloads.flatten = b.drop 228 := by
  have hne : s.variableTailPayloads ≠ [] := by simp [variableTailPayloads]
  constructor
  · rintro ⟨offsets,hlaid⟩
    have hpieces : pieces b offsets = s.variableTailPayloads := by
      refine List.ext_getElem (by rw [length_pieces,hlaid.five]; rfl) fun idx hidx hidx' => ?_
      have hidx5 : idx < 5 := hidx'
      have hsame := (tailSlice_eq hlaid.five hlaid.checked hidx5).symm.trans (hlaid.tails idx hidx5)
      simpa [hidx,hidx'] using hsame
    have hpos : 0 < offsets.length := by
      rw [hlaid.five]
      decide
    obtain ⟨first,rest,rfl⟩ := List.exists_cons_of_length_pos hpos
    obtain ⟨rfl,hascends⟩ := checkOffsets_ok.mp hlaid.checked
    obtain ⟨hoffsets,hflatten⟩ := (pieces_iff hne hlen).mpr ⟨rest,rfl,hascends,hpieces⟩
    rw [hoffsets]
    exact ⟨hlaid.fits,hlaid.table,hflatten⟩
  · rintro ⟨hfits,htable,hflatten⟩
    obtain ⟨rest,hoffsets,hascends,hpieces⟩ := (pieces_iff hne hlen).mp ⟨rfl,hflatten⟩
    have hchecked : checkOffsets b (offsetsFrom 228 s.variableTailPayloads) = .ok () := by
      rw [hoffsets,checkOffsets_ok]
      exact ⟨rfl,hascends⟩
    have hfive : (offsetsFrom 228 s.variableTailPayloads).length = 5 := by
      rw [length_offsetsFrom]
      rfl
    refine ⟨_,hfive,hfits,htable,hchecked,fun idx hidx => ?_⟩
    rw [tailSlice_eq hfive hchecked hidx,hpieces]

theorem State.encode_eq {s : State} (h : ∀ o ∈ offsetsFrom 228 s.variableTailPayloads, o < 2^32) :
    encode s = s.fixedParts.flatten ++
      (((offsetsFrom 228 s.variableTailPayloads).map (leBytes 4)).flatten ++
        s.variableTailPayloads.flatten) := by
  have hcut : (offsetsFrom 228 s.variableTailPayloads).map (fun o => leBytes 4 (min o (2^32-1))) =
      (offsetsFrom 228 s.variableTailPayloads).map (leBytes 4) := by
    refine List.map_congr_left fun o ho => ?_
    rw [Nat.min_eq_left (Nat.le_sub_one_of_lt (h o ho))]
  have hencode := State.sszAppend_eq s []
  rw [hcut,List.nil_append] at hencode
  exact hencode

theorem State.length_encode (s : State) : (encode s).length = s.sszBytesLen := by
  have hencode := congrArg List.length (State.sszAppend_eq s [])
  rw [encode]
  refine hencode.trans ?_
  simp only [List.nil_append,List.length_append,length_flatten_parts,State.extent_fixedParts,
    State.sszBytesLen,stateFixedPartLen_eq]
  simp only [extent,variableTailPayloads,offsetsFrom,List.map_cons,List.map_nil,List.sum_cons,
    List.sum_nil,length_leBytes]
  omega

theorem State.accepts (b : List UInt8) (s : State) :
    State.fromSszBytes b = .ok s ↔ s.WithinLimits ∧ encode s = b := by
  have hextent : extent ((offsetsFrom 228 s.variableTailPayloads).map (leBytes 4)) = 20 := rfl
  rw [State.fromSszBytes_ok]
  refine and_congr_right fun hwithin => ?_
  have hfits := State.offsets_lt hwithin
  have hparts : encode s = b ↔ Tiles b 0 s.fixedParts ∧
      Tiles b 208 ((offsetsFrom 228 s.variableTailPayloads).map (leBytes 4)) ∧
      s.variableTailPayloads.flatten = b.drop 228 := by
    rw [State.encode_eq hfits,flatten_append_eq,State.extent_fixedParts,flatten_append_eq_drop,
      hextent]
  constructor
  · rintro ⟨hlen,htiles,hlaid⟩
    exact hparts.mpr ⟨htiles,((State.laid_iff hlen).mp hlaid).2⟩
  · intro hencode
    obtain ⟨htiles,htable,hflatten⟩ := hparts.mp hencode
    have hlen : 228 ≤ b.length := by
      rw [← hencode,State.length_encode,State.sszBytesLen]
      exact Nat.le_add_right 228 _
    exact ⟨hlen,htiles,(State.laid_iff hlen).mpr ⟨hfits,htable,hflatten⟩⟩

theorem safe_checkOffsets (bytes : List UInt8) (offsets : List Nat) :
    Safe (checkOffsets bytes offsets) := by
  refine Safe.guard fun _ => Safe.bind ?_ fun _ _ => Safe.guard fun _ => safe_ok ()
  exact Safe.forM fun pair _ => Safe.guard fun _ => safe_ok ()

theorem State.safe (b : List UInt8) : Safe (State.fromSszBytes b) := by
  refine Safe.guard fun hlen => ?_
  rw [stateFixedPartLen_eq] at hlen
  refine safe_readFixed_bind (by simp; omega) fun config => ?_
  refine safe_readFixed_bind (by simp; omega) fun slot => ?_
  refine safe_readFixed_bind (by simp; omega) fun header => ?_
  refine (safe_slice (by simp) (by simp; omega)).bind fun part _ => ?_
  refine (LawfulFixed.safe part).bind fun justified _ => ?_
  refine (safe_slice (by simp) (by simp; omega)).bind fun part _ => ?_
  refine (LawfulFixed.safe part).bind fun finalized _ => ?_
  have hroom : 208+5*4 ≤ b.length := by omega
  refine (safe_readOffsets hroom).bind fun read hread => ?_
  obtain ⟨hfive,-⟩ := (readOffsets_ok hroom).mp hread
  refine (safe_checkOffsets b read.1).bind fun _ hchecked => ?_
  -- The offsets are in order now, so every slice lies within the input.
  have htail : ∀ {idx}, idx < 5 → Safe (tailSlice b read.1 idx) := by
    intro idx hidx
    rw [tailSlice_eq hfive hchecked hidx]
    exact safe_ok _
  refine (htail (by decide)).bind fun part _ => ?_
  refine (safe_decodeByteVectorList 32 part _).bind fun hashes _ => ?_
  refine (htail (by decide)).bind fun part _ => ?_
  refine (safe_namedBits _ _).bind fun slots _ => ?_
  refine (htail (by decide)).bind fun part _ => ?_
  refine (safe_decodeFixedElementList part _).bind fun validators _ => ?_
  refine (htail (by decide)).bind fun part _ => ?_
  refine (safe_decodeByteVectorList 32 part _).bind fun roots _ => ?_
  refine (htail (by decide)).bind fun part _ => ?_
  exact (safe_namedBits _ _).bind fun votes _ => safe_ok _

/-- The codec of the state is a bijection between the states within the limits and the byte
strings it accepts, and reads no byte out of bounds. -/
theorem state_codec_bijective :
    (∀ s : State, s.WithinLimits → fromSszBytes (encode s) = .ok s ∧
      sszBytesLen s = (encode s).length) ∧
    (∀ b : List UInt8, Safe (fromSszBytes b : Decoded State)) ∧
    (∀ (b : List UInt8) (s : State), fromSszBytes b = .ok s → s.WithinLimits ∧ encode s = b) ∧
    ∀ (b b' : List UInt8) (s : State), fromSszBytes b = .ok s → fromSszBytes b' = .ok s →
      b = b' := by
  refine ⟨?_,State.safe,fun b s => (State.accepts b s).mp,?_⟩
  · intro s hwithin
    exact ⟨(State.accepts _ s).mpr ⟨hwithin,rfl⟩,s.length_encode.symm⟩
  · intro b b' s hb hb'
    rw [← ((State.accepts b s).mp hb).2,← ((State.accepts b' s).mp hb').2]

theorem readBit_five {i : Nat} (h : 3 ≤ i) : readBit [5] i = false := by
  by_cases hi : i < 8
  · interval_cases i <;> rfl
  · exact readBit_past (show 1 ≤ i/8 by omega)

def firstAndThird {LIMIT : Nat} (h : 3 ≤ LIMIT) : Bitlist LIMIT :=
  ⟨[5],3,rfl,h,fun _ => readBit_five⟩

theorem three_slots : 3 ≤ historicalRootsLimit := by decide

theorem three_votes : 3 ≤ justificationsValidatorsLimit := by decide

def votedState : State where
  config := ⟨7⟩
  slot := .ofNat 3
  latestBlockHeader := ⟨.ofNat 3,default,.filled 2,.zero,.filled 9⟩
  latestJustified := ⟨.filled 1,.zero⟩
  latestFinalized := ⟨.filled 1,.zero⟩
  historicalBlockHashes := [.filled 1,.zero,.filled 2]
  justifiedSlots := firstAndThird three_slots
  validators := [⟨.filled 3,default⟩,⟨.filled 4,.ofNat 1⟩,⟨.filled 5,.ofNat 2⟩]
  justificationsRoots := [.filled 2]
  justificationsValidators := firstAndThird three_votes

theorem state_codec_voted :
    fromSszBytes (encode votedState) = .ok votedState ∧ (encode votedState).length = 538 := by
  obtain ⟨hround,hlength⟩ := state_codec_bijective.1 votedState ⟨by decide,by decide,by decide⟩
  have hsize : sszBytesLen votedState = 538 := by decide +kernel
  exact ⟨hround,hlength.symm.trans hsize⟩

end Devnet.Protocol
