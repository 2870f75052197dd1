import Devnet.Protocol.Containers

/-!
Slot advance and block-header processing. Methods that change the state in place
are `Update`s: on an error they keep whatever was written before it.
-/

set_option autoImplicit false

namespace Devnet.Protocol
open Machine Devnet.Types Devnet.Ssz

inductive AttSlotKind where
  | source
  | target
  deriving DecidableEq, Repr

inductive StateTransitionError where
  | targetSlotNotInFuture (current target : Slot)
  | slotOverflow (slot : Slot)
  | blockSlotMismatch (got want : Slot)
  | blockOlderThanLatest (slot latest : Slot)
  | incorrectBlockProposer (slot : Slot) (proposer : ValidatorIndex)
  | blockParentRootMismatch (slot : Slot) (got want : Bytes32)
  | attestationSlotOutOfRange (kind : AttSlotKind) (slot : Slot) (len : Nat)
  | attestationValidatorOutOfRange (validator : ValidatorIndex) (numValidators : Nat)
  | stateBoundExceeded (context : String)
  | stateRootMismatch (slot : Slot) (got want : Bytes32)
  | protocol (error : ProtocolError)
  deriving DecidableEq

abbrev Update := EStateM StateTransitionError State

def checkedAdd (a b : Nat) : Option Nat := if a+b < 2^64 then some (a+b) else none
def checkedMul (a b : Nat) : Option Nat := if a*b < 2^64 then some (a*b) else none

theorem checkedAdd_of_lt {a b : Nat} (h : a+b < 2^64) : checkedAdd a b = some (a+b) := if_pos h

theorem checkedAdd_of_ge {a b : Nat} (h : ¬ a+b < 2^64) : checkedAdd a b = none := if_neg h

theorem checkedMul_of_lt {a b : Nat} (h : a*b < 2^64) : checkedMul a b = some (a*b) := if_pos h

theorem checkedMul_of_ge {a b : Nat} (h : ¬ a*b < 2^64) : checkedMul a b = none := if_neg h

/-- The length check of `process_block_header`; both additions are checked. -/
def checkHistoryRoom (len emptySlots : Nat) : Except StateTransitionError Unit :=
  match (checkedAdd len 1).bind (checkedAdd · emptySlots) with
  | none => .error (.stateBoundExceeded "historical_block_hashes")
  | some nextHistoryLen =>
    if historicalRootsLimit < nextHistoryLen then
      .error (.stateBoundExceeded "historical_block_hashes")
    else .ok ()

theorem checkHistoryRoom_ok {len emptySlots : Nat} :
    checkHistoryRoom len emptySlots = .ok () ↔ len+1+emptySlots ≤ historicalRootsLimit := by
  have hlimit : historicalRootsLimit < 2^64 := by decide
  by_cases h : len+1+emptySlots < 2^64
  · have h1 : len+1 < 2^64 := by omega
    simp [checkHistoryRoom,checkedAdd_of_lt h,checkedAdd_of_lt h1]
  · have hgt : ¬ len+1+emptySlots ≤ historicalRootsLimit := by omega
    by_cases h1 : len+1 < 2^64
    · simp [checkHistoryRoom,checkedAdd_of_ge h,checkedAdd_of_lt h1,hgt]
    · simp [checkHistoryRoom,checkedAdd_of_ge h1,hgt]

def pushJustified (value : Bool) : Update Unit := do
  let self ← get
  match self.justifiedSlots.set self.justifiedSlots.len value with
  | .error _ => throw (.stateBoundExceeded "justified_slots")
  | .ok bits => set { self with justifiedSlots := bits }

theorem pushJustified_ok {s t : State} {value : Bool} :
    pushJustified value s = .ok () t ↔ ∃ bits,
      s.justifiedSlots.set s.justifiedSlots.len value = .ok bits ∧
        t = { s with justifiedSlots := bits } := by
  unfold pushJustified
  rw [estate_get_bind]
  cases hb : s.justifiedSlots.set s.justifiedSlots.len value with
  | error e => simp
  | ok bits => simp [eq_comm (a := t)]

theorem pushMany_ok {s t : State} {n : Nat} (h : times (pushJustified false) n s = .ok () t) :
    ∃ bits, t = { s with justifiedSlots := bits } ∧
      bits.toList = s.justifiedSlots.toList ++ List.replicate n false := by
  -- The bits pushed so far and those still to push make up the full block of zeros.
  have hend := times_sound (fun k u => ∃ bits, u = { s with justifiedSlots := bits } ∧
      bits.toList ++ List.replicate k false = s.justifiedSlots.toList ++ List.replicate n false)
    (fun {k u v} hu hr => by
      obtain ⟨bits,rfl,hbits⟩ := hu
      obtain ⟨bits',hset,rfl⟩ := pushJustified_ok.mp hr
      refine ⟨bits',rfl,?_⟩
      rw [Bitlist.toList_push hset,← hbits,List.replicate_succ]
      simp)
    ⟨s.justifiedSlots,rfl,rfl⟩ h
  simpa using hend

theorem pushJustified_total {s : State} (value : Bool)
    (h : s.justifiedSlots.len < historicalRootsLimit) : ∃ t, pushJustified value s = .ok () t ∧
      t.justifiedSlots.len = s.justifiedSlots.len+1 := by
  obtain ⟨bits,hset⟩ := s.justifiedSlots.set_ok value h
  exact ⟨{ s with justifiedSlots := bits },pushJustified_ok.mpr ⟨bits,hset,rfl⟩,
    Bitlist.len_push hset⟩

theorem pushMany_total {s : State} {n : Nat} (h : s.justifiedSlots.len+n ≤ historicalRootsLimit) :
    ∃ t, times (pushJustified false) n s = .ok () t := by
  apply times_total (fun k u => u.justifiedSlots.len+k ≤ historicalRootsLimit) _ h
  intro k u hu
  obtain ⟨t,ht,hlen⟩ := pushJustified_total (s := u) false (by omega)
  exact ⟨t,ht,by omega⟩

section Slots
variable [HashPair]

def processSlot : Update Unit := do
  let self ← get
  if self.latestBlockHeader.stateRoot = ByteVector.zero then
    set { self with
      latestBlockHeader := { self.latestBlockHeader with stateRoot := hashTreeRoot self } }

def advanceSlot (slot : Slot) : Except StateTransitionError Slot :=
  match slot.advance with
  | some next => .ok next
  | none => .error (.slotOverflow slot)

def slotRound : Update Unit := do
  processSlot
  let self ← get
  let slot ← check (advanceSlot self.slot)
  set { self with slot := slot }

def processSlots (targetSlot : Slot) : Update Unit := do
  let self ← get
  if targetSlot.get ≤ self.slot.get then
    throw (.targetSlotNotInFuture self.slot targetSlot)
  else
    times slotRound (targetSlot.get - self.slot.get)

def State.sealed (s : State) (slot : Slot) (root : Bytes32) : State :=
  { s with slot := slot, latestBlockHeader := { s.latestBlockHeader with stateRoot := root } }

def State.cachedRoot (s : State) : Bytes32 :=
  if s.latestBlockHeader.stateRoot = ByteVector.zero then hashTreeRoot s
  else s.latestBlockHeader.stateRoot

theorem processSlot_eq (s : State) :
    processSlot s = .ok () (s.sealed s.slot s.cachedRoot) := by
  by_cases h : s.latestBlockHeader.stateRoot = ByteVector.zero
  · simp [processSlot,h,State.sealed,State.cachedRoot]
  · simp [processSlot,h,pure,EStateM.pure,State.sealed,State.cachedRoot]

theorem slotRound_ok {s t : State} :
    slotRound s = .ok () t ↔
      ∃ next, s.slot.advance = some next ∧ t = s.sealed next s.cachedRoot := by
  rw [slotRound,estate_bind_of_ok (processSlot_eq s),estate_get_bind]
  cases ha : s.slot.advance with
  | some next =>
    simp only [estate_bind_ok,check_ok,advanceSlot,State.sealed,ha]
    simp [eq_comm (a := t)]
  | none => simp [advanceSlot,State.sealed,ha]

/-- Where `s` stands during slot advance: untouched, or resealed with a root that is
the first cached one unless that root is the zero sentinel. -/
def Advanced (s t : State) : Prop :=
  t = s ∨ ∃ root, t = s.sealed t.slot root ∧ (s.cachedRoot ≠ ByteVector.zero → root = s.cachedRoot)

theorem Advanced.round {s t u : State} (h : Advanced s t) (hr : slotRound t = .ok () u) :
    Advanced s u := by
  obtain ⟨next,-,rfl⟩ := slotRound_ok.mp hr
  rcases h with rfl | ⟨root,ht,hroot⟩
  · exact .inr ⟨t.cachedRoot,rfl,fun _ => rfl⟩
  · refine .inr ⟨t.cachedRoot,?_,?_⟩
    · rw [ht]
      rfl
    · intro hs
      have hne : t.latestBlockHeader.stateRoot = s.cachedRoot := by
        rw [ht]
        exact hroot hs
      simp [State.cachedRoot,hne] at hs ⊢
      simp [hs]

theorem processSlots_ok {s t : State} {targetSlot : Slot}
    (h : processSlots targetSlot s = .ok () t) :
    s.slot.get < targetSlot.get ∧ ∃ root, t = s.sealed targetSlot root ∧
      (s.cachedRoot ≠ ByteVector.zero → root = s.cachedRoot) := by
  by_cases hle : targetSlot.get ≤ s.slot.get
  · simp [processSlots,hle] at h
  have hlt := Nat.lt_of_not_le hle
  simp only [processSlots,estate_get_bind,hle,if_false] at h
  -- The slot still to cover is the number of rounds left.
  have hend := times_sound (fun n u => u.slot.get+n = targetSlot.get ∧ Advanced s u)
    (fun {n u v} hu hr => by
      refine ⟨?_,hu.2.round hr⟩
      obtain ⟨next,ha,rfl⟩ := slotRound_ok.mp hr
      have hn := hu.1
      simp only [Slot.advance] at ha
      split at ha
      · cases ha
        simp only [State.sealed]
        omega
      · cases ha)
    ⟨by omega,.inl rfl⟩ h
  obtain ⟨hslot,rfl | ⟨root,ht,hroot⟩⟩ := hend
  · omega
  · have hs : t.slot = targetSlot := Slot.ext_get (by omega)
    exact ⟨hlt,root,hs ▸ ht,hroot⟩

theorem processSlots_total {s : State} {targetSlot : Slot}
    (h : s.slot.get < targetSlot.get) : ∃ t, processSlots targetSlot s = .ok () t := by
  simp only [processSlots,estate_get_bind,Nat.not_le.mpr h,if_false]
  apply times_total (fun n u => u.slot.get+n = targetSlot.get)
  · intro n u hu
    have hb : u.slot.get+1 < 2^64 := by have := targetSlot.isLt; omega
    have ha : u.slot.advance = some ⟨u.slot.get+1,hb⟩ := dif_pos hb
    refine ⟨u.sealed ⟨u.slot.get+1,hb⟩ u.cachedRoot,slotRound_ok.mpr ⟨_,ha,rfl⟩,?_⟩
    simp only [State.sealed]
    omega
  · omega

theorem processSlots_sealed {s : State} {targetSlot : Slot} (hroot : s.cachedRoot ≠ ByteVector.zero)
    (h : s.slot.get < targetSlot.get) :
    processSlots targetSlot s = .ok () (s.sealed targetSlot s.cachedRoot) := by
  obtain ⟨t,ht⟩ := processSlots_total h
  obtain ⟨-,root,rfl,hkept⟩ := processSlots_ok ht
  rw [ht,hkept hroot]

theorem State.cachedRoot_sealed {s : State} {slot : Slot} {root : Bytes32}
    (h : root ≠ ByteVector.zero) : (s.sealed slot root).cachedRoot = root := if_neg h

theorem State.cachedRoot_ne_zero {s : State} (h : hashTreeRoot s ≠ ByteVector.zero) :
    s.cachedRoot ≠ ByteVector.zero := by
  rw [State.cachedRoot]
  split
  · exact h
  · assumption

theorem processSlots_next {s : State} {next : Slot} (h : next.get = s.slot.get+1) :
    processSlots next s = .ok () (s.sealed next s.cachedRoot) := by
  have hlt : s.slot.get < next.get := by omega
  have hone : next.get - s.slot.get = 1 := by omega
  have hadvance : s.slot.advance = some next := by
    have hbound : s.slot.get+1 < 2^64 := h ▸ next.isLt
    rw [Slot.advance,dif_pos hbound]
    exact congrArg some (Slot.ext_get h.symm)
  have hround : slotRound s = .ok () (s.sealed next s.cachedRoot) :=
    slotRound_ok.mpr ⟨next,hadvance,rfl⟩
  simp only [processSlots,estate_get_bind,Nat.not_le.mpr hlt,if_false,hone]
  exact estate_bind_ok.mpr ⟨(),_,hround,rfl⟩

/-- The validation gate of `process_block_header`; its value is the number of slots
the block leaves empty behind it. -/
def State.validateHeader (self : State) (block : Block) : Except StateTransitionError Nat :=
  if block.slot ≠ self.slot then .error (.blockSlotMismatch block.slot self.slot)
  else if block.slot.get ≤ self.latestBlockHeader.slot.get then
    .error (.blockOlderThanLatest block.slot self.latestBlockHeader.slot)
  else do
    let proposes ← (isProposer block.proposerIndex self.slot self.numValidators).mapError .protocol
    if proposes = false then .error (.incorrectBlockProposer self.slot block.proposerIndex)
    else if block.parentRoot ≠ hashTreeRoot self.latestBlockHeader then
      .error (.blockParentRootMismatch block.slot block.parentRoot
        (hashTreeRoot self.latestBlockHeader))
    else do
      let emptySlots := block.slot.get - self.latestBlockHeader.slot.get - 1
      checkHistoryRoom self.historicalBlockHashes.length emptySlots
      return emptySlots

def processBlockHeader (block : Block) : Update Unit := do
  let self ← get
  let emptySlots ← check (self.validateHeader block)
  let parentRoot := hashTreeRoot self.latestBlockHeader
  let bodyRoot := hashTreeRoot block.body
  let wasGenesis := self.latestBlockHeader.slot.isZero
  modify fun self =>
    if wasGenesis then { self with
      latestJustified := { self.latestJustified with root := parentRoot }
      latestFinalized := { self.latestFinalized with root := parentRoot } }
    else self
  modify fun self => { self with
    historicalBlockHashes := self.historicalBlockHashes ++ [parentRoot] }
  pushJustified wasGenesis
  modify fun self => { self with
    historicalBlockHashes :=
      self.historicalBlockHashes ++ List.replicate emptySlots ByteVector.zero }
  times (pushJustified false) emptySlots
  modify fun self => { self with
    latestBlockHeader :=
      { slot := block.slot
        proposerIndex := block.proposerIndex
        parentRoot := block.parentRoot
        stateRoot := ByteVector.zero
        bodyRoot := bodyRoot } }

/-- What the gate of `process_block_header` asks of a block on `s`. -/
structure HeaderFits (s : State) (block : Block) : Prop where
  slot : block.slot = s.slot
  later : s.latestBlockHeader.slot.get < block.slot.get
  registry : s.numValidators ≠ 0
  proposer : s.slot.get % s.numValidators = block.proposerIndex.get
  parent : block.parentRoot = hashTreeRoot s.latestBlockHeader
  room : s.historicalBlockHashes.length+1+(block.slot.get - s.latestBlockHeader.slot.get - 1) ≤
    historicalRootsLimit

theorem validateHeader_ok {s : State} {block : Block} {emptySlots : Nat} :
    s.validateHeader block = .ok emptySlots ↔ HeaderFits s block ∧
      emptySlots = block.slot.get - s.latestBlockHeader.slot.get - 1 := by
  simp only [State.validateHeader,guard_ok,except_bind_ok,mapError_ok,except_pure_ok,ne_eq,
    not_not,not_le]
  constructor
  · rintro ⟨hslot,hlater,proposes,hp,hpt,hparent,⟨⟩,hroom,rfl⟩
    obtain ⟨hn,hprop⟩ := isProposer_ok.mp (by simpa [hpt] using hp)
    exact ⟨⟨hslot,hlater,hn,hprop,hparent,
      checkHistoryRoom_ok.mp hroom⟩,rfl⟩
  · rintro ⟨h,rfl⟩
    exact ⟨h.slot,h.later,true,isProposer_ok.mpr ⟨h.registry,h.proposer⟩,by simp,h.parent,
      (),checkHistoryRoom_ok.mpr h.room,rfl⟩

/-- The checkpoint after a header: the first block names the genesis root. -/
def State.anchored (s : State) (c : Checkpoint) : Checkpoint :=
  if s.latestBlockHeader.slot.isZero then { c with root := hashTreeRoot s.latestBlockHeader } else c

def State.gap (s : State) (block : Block) : Nat :=
  block.slot.get - s.latestBlockHeader.slot.get - 1

def State.withHeader (s : State) (block : Block) (bits : Bitlist historicalRootsLimit) : State :=
  { s with
    latestJustified := s.anchored s.latestJustified
    latestFinalized := s.anchored s.latestFinalized
    historicalBlockHashes := s.historicalBlockHashes ++
      hashTreeRoot s.latestBlockHeader :: List.replicate (s.gap block) ByteVector.zero
    justifiedSlots := bits
    latestBlockHeader := { block.header with stateRoot := ByteVector.zero } }

def State.extendedBits (s : State) (block : Block) : List Bool :=
  s.justifiedSlots.toList ++
    s.latestBlockHeader.slot.isZero :: List.replicate (s.gap block) false

/-- Header processing accepts exactly what fits, and commits as described. -/
theorem processBlockHeader_ok {s t : State} {block : Block}
    (h : processBlockHeader block s = .ok () t) :
    HeaderFits s block ∧ ∃ bits, bits.toList = s.extendedBits block ∧
      t = s.withHeader block bits := by
  unfold processBlockHeader at h
  rw [estate_get_bind] at h
  obtain ⟨emptySlots,_,hgate,h⟩ := estate_bind_ok.mp h
  obtain ⟨hcheck,rfl⟩ := check_ok.mp hgate
  obtain ⟨hfits,rfl⟩ := validateHeader_ok.mp hcheck
  simp only [estate_modify_bind] at h
  obtain ⟨_,_,hpush,h⟩ := estate_bind_ok.mp h
  obtain ⟨bits,hset,rfl⟩ := pushJustified_ok.mp hpush
  simp only [estate_modify_bind] at h
  obtain ⟨_,_,hmany,h⟩ := estate_bind_ok.mp h
  obtain ⟨bits',rfl,hbits'⟩ := pushMany_ok hmany
  simp only [estate_modify,EStateM.Result.ok.injEq,true_and] at h
  refine ⟨hfits,bits',?_,?_⟩
  · rw [hbits']
    cases hz : s.latestBlockHeader.slot.isZero with
    | true =>
      simp only [hz,if_true] at hset
      simp [Bitlist.toList_push hset,State.extendedBits,State.gap,hz]
    | false =>
      simp only [hz,Bool.false_eq_true,if_false] at hset
      simp [Bitlist.toList_push hset,State.extendedBits,State.gap,hz]
  · rw [← h]
    cases hz : s.latestBlockHeader.slot.isZero with
    | true => simp [State.withHeader,State.anchored,State.gap,Block.header,hz]
    | false => simp [State.withHeader,State.anchored,State.gap,Block.header,hz]

theorem processBlockHeader_fits {s : State} {block : Block} (hfits : HeaderFits s block)
    (hbits : s.justifiedSlots.len+1+s.gap block ≤ historicalRootsLimit) :
    ∃ t, processBlockHeader block s = .ok () t := by
  unfold State.gap at hbits
  unfold processBlockHeader
  rw [estate_get_bind,estate_bind_of_ok (check_ok.mpr ⟨validateHeader_ok.mpr ⟨hfits,rfl⟩,rfl⟩)]
  simp only [estate_modify_bind]
  -- The checkpoint roots do not bear on the lengths.
  generalize hrooted : (if s.latestBlockHeader.slot.isZero = true then _ else s : State) = s₁
  have hsame : s₁.justifiedSlots = s.justifiedSlots := by
    rw [← hrooted]
    split <;> rfl
  obtain ⟨s₂,hpush,hlen₂⟩ := pushJustified_total (s := { s₁ with
    historicalBlockHashes := s₁.historicalBlockHashes ++ [hashTreeRoot s.latestBlockHeader] })
    s.latestBlockHeader.slot.isZero (by simp only [hsame]; omega)
  rw [estate_bind_of_ok hpush]
  simp only [estate_modify_bind]
  simp only [hsame] at hlen₂
  obtain ⟨s₃,hmany⟩ := pushMany_total (s := { s₂ with
    historicalBlockHashes := s₂.historicalBlockHashes ++
      List.replicate (block.slot.get - s.latestBlockHeader.slot.get - 1) ByteVector.zero })
    (n := block.slot.get - s.latestBlockHeader.slot.get - 1) (by simp only; omega)
  rw [estate_bind_of_ok hmany]
  exact ⟨_,rfl⟩

theorem processBlockHeader_total {s : State} {block : Block} (hfits : HeaderFits s block)
    (hlen : s.justifiedSlots.len = s.historicalBlockHashes.length) :
    ∃ t, processBlockHeader block s = .ok () t := by
  refine processBlockHeader_fits hfits ?_
  rw [hlen]
  exact hfits.room

theorem processBlockHeader_room {s t : State} {block : Block}
    (h : processBlockHeader block s = .ok () t) :
    s.justifiedSlots.len+1+s.gap block ≤ historicalRootsLimit := by
  obtain ⟨-,bits,hbits,-⟩ := processBlockHeader_ok h
  have hlen := congrArg List.length hbits
  have hle := bits.len_le
  simp only [State.extendedBits,List.length_append,List.length_cons,List.length_replicate,
    Bitlist.length_toList] at hlen
  omega

end Slots

end Devnet.Protocol
