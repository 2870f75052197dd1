import Devnet.ForkChoice.Ghost

/-!
The fork-choice store: tracked blocks with their post-states, the two vote pools, the
clock and the checkpoints. Methods that change the store in place are `Edit`s; what
they wrote before an error stays written.
-/

set_option autoImplicit false

namespace Devnet.ForkChoice
open Machine Trees Devnet.Types Devnet.Ssz Devnet.Protocol

abbrev Votes := HashMap ValidatorIndex SignedAttestation

structure Store where
  time : Time
  config : ProtocolConfig
  head : Bytes32
  safeTarget : Bytes32
  latestJustified : Checkpoint
  latestFinalized : Checkpoint
  blocks : Blocks
  states : HashMap Bytes32 State
  blockOrder : List Bytes32
  latestKnownVotes : Votes
  latestNewVotes : Votes

abbrev Edit := EStateM ForkchoiceError Store

/-- Inserts only over a strictly older entry; says whether the map changed. -/
def insertIfNewer (map : Votes) (validator : ValidatorIndex) (vote : SignedAttestation) :
    Votes × Bool :=
  match map[validator]? with
  | some existing =>
    if vote.message.data.slot.get ≤ existing.message.data.slot.get then (map,false)
    else (map.insert validator vote,true)
  | none => (map.insert validator vote,true)

/-- Removes a strictly older entry; says whether the map changed. -/
def evictIfOlder (map : Votes) (validator : ValidatorIndex) (newerThan : Slot) : Votes × Bool :=
  match map[validator]? with
  | some existing =>
    if existing.message.data.slot.get < newerThan.get then (map.erase validator,true)
    else (map,false)
  | none => (map,false)

/-- The walk scores the head checkpoint of each vote, not its target. -/
def voteHeadCheckpoints (votes : Votes) : HashMap ValidatorIndex Checkpoint :=
  votes.map fun _ vote => vote.message.data.head

def normalizeGenesisCheckpoint (checkpoint : Checkpoint) (anchorSlot : Slot)
    (anchorRoot : Bytes32) : Checkpoint :=
  if anchorSlot.isZero = true ∧ checkpoint = default then ⟨anchorRoot,Slot.zero⟩ else checkpoint

namespace Store

def hasBlock (self : Store) (root : Bytes32) : Bool := self.blocks.contains root

/-- A known root keeps its state and its place in the order; its block is overwritten. -/
def insertBlock (self : Store) (root : Bytes32) (block : Block) (state : State) : Store :=
  if self.blocks.contains root = true then { self with blocks := self.blocks.insert root block }
  else
    { self with
      blocks := self.blocks.insert root block
      states := self.states.insert root state
      blockOrder := self.blockOrder ++ [root] }

/-- The store of a single anchor, with checkpoints chosen from its root and slot. -/
def seedAnchor [HashPair] (state : State) (anchorBlock : Block)
    (checkpoints : Bytes32 → Slot → Checkpoint × Checkpoint) : Except ForkchoiceError Store :=
  let wantStateRoot := hashTreeRoot state
  if anchorBlock.stateRoot ≠ wantStateRoot then
    .error (.anchorStateRootMismatch anchorBlock.stateRoot wantStateRoot)
  else
    let anchorRoot := hashTreeRoot anchorBlock
    if h : anchorBlock.slot.get*intervalsPerSlot < 2^64 then
      let (latestJustified,latestFinalized) := checkpoints anchorRoot anchorBlock.slot
      let store : Store :=
        { time := ⟨anchorBlock.slot.get*intervalsPerSlot,h⟩
          config := state.config
          head := anchorRoot
          safeTarget := anchorRoot
          latestJustified := latestJustified
          latestFinalized := latestFinalized
          blocks := ∅
          states := ∅
          blockOrder := []
          latestKnownVotes := ∅
          latestNewVotes := ∅ }
      .ok (store.insertBlock anchorRoot anchorBlock state)
    else .error (.anchorTimeOverflow anchorBlock.slot intervalsPerSlot)

def fromAnchor [HashPair] (state : State) (anchorBlock : Block) : Except ForkchoiceError Store :=
  seedAnchor state anchorBlock fun anchorRoot anchorSlot =>
    (normalizeGenesisCheckpoint state.latestJustified anchorSlot anchorRoot,
      normalizeGenesisCheckpoint state.latestFinalized anchorSlot anchorRoot)

/-- Resumes at a persisted head: both checkpoints are pinned to the anchor itself. -/
def fromTrustedHead [HashPair] (state : State) (anchorBlock : Block) :
    Except ForkchoiceError Store :=
  seedAnchor state anchorBlock fun anchorRoot anchorSlot =>
    (⟨anchorRoot,anchorSlot⟩,⟨anchorRoot,anchorSlot⟩)

def lookupBlock (self : Store) (root : Bytes32) (err : Bytes32 → ForkchoiceError) :
    Except ForkchoiceError Block :=
  match self.blocks[root]? with
  | some block => .ok block
  | none => .error (err root)

def headValidatorCount (self : Store) : Except ForkchoiceError Nat :=
  match self.states[self.head]? with
  | some state => .ok state.numValidators
  | none => .error (.headStateNotFound self.head)

def currentVoteSlot (self : Store) : Slot :=
  ⟨self.time.slot,Nat.lt_of_le_of_lt (Nat.div_le_self _ _) self.time.isLt⟩

/-- A slot-0 vote whose source is still the all-zero placeholder means the anchor. -/
def resolvedSourceRoot (self : Store) (vote : AttestationData) : Bytes32 :=
  if vote.source = default ∧ vote.slot.isZero = true ∧ vote.target.slot.isZero = true ∧
      vote.target.root = self.latestJustified.root ∧ self.latestJustified.slot.isZero = true ∧
      self.blocks[self.latestJustified.root]?.any (·.slot.isZero) = true then
    self.latestJustified.root
  else vote.source.root

/-- Each declared slot is its block's slot, or the first mismatch is reported. -/
def checkDeclared : List (Slot × Slot × ForkchoiceError) → Except ForkchoiceError Unit
  | [] => .ok ()
  | (blockSlot,declaredSlot,mismatch) :: rest =>
    if blockSlot ≠ declaredSlot then .error mismatch else checkDeclared rest

def validateAttestation (self : Store) (vote : AttestationData) : Except ForkchoiceError Unit := do
  let sourceBlock ← self.lookupBlock (self.resolvedSourceRoot vote) .unknownSourceBlock
  let targetBlock ← self.lookupBlock vote.target.root .unknownTargetBlock
  let headBlock ← self.lookupBlock vote.head.root .unknownAttestationHeadBlock
  if targetBlock.slot.get < sourceBlock.slot.get ∨
      vote.target.slot.get < vote.source.slot.get then
    .error .sourceSlotExceedsTarget
  else if vote.head.slot.get < vote.target.slot.get then
    .error (.headSlotBelowTarget vote.head.slot vote.target.slot)
  else do
    checkDeclared
      [(sourceBlock.slot,vote.source.slot,.sourceCheckpointSlotMismatch),
        (targetBlock.slot,vote.target.slot,.targetCheckpointSlotMismatch),
        (headBlock.slot,vote.head.slot,.headCheckpointSlotMismatch)]
    -- One slot of clock disparity is tolerated.
    match self.currentVoteSlot.advance with
    | none => .error (.attestationFutureLimitOverflow self.currentVoteSlot)
    | some limit =>
      if limit.get < vote.slot.get then .error (.attestationTooFarInFuture vote.slot limit)
      else .ok ()

def validateValidatorIndex (self : Store) (validatorId : ValidatorIndex) :
    Except ForkchoiceError Unit := do
  let numValidators ← self.headValidatorCount
  if numValidators ≤ validatorId.get then
    .error (.validatorIndexOutOfRange validatorId.get numValidators)
  else .ok ()

def promoted (self : Store) : Store :=
  { self with
    latestKnownVotes := self.latestKnownVotes ∪ self.latestNewVotes
    latestNewVotes := ∅ }

def shouldAdoptCheckpoint (self : Store) (candidate current : Checkpoint) : Bool :=
  current.slot.get < candidate.slot.get && self.blocks.contains candidate.root

def adoptPostStateCheckpoints (self : Store) (latestJustified latestFinalized : Checkpoint) :
    Store :=
  let self :=
    if self.shouldAdoptCheckpoint latestJustified self.latestJustified = true then
      { self with latestJustified := latestJustified }
    else self
  if self.shouldAdoptCheckpoint latestFinalized self.latestFinalized = true then
    { self with latestFinalized := latestFinalized }
  else self

def parentOf (self : Store) (block : Block) : Except ForkchoiceError (Bytes32 × Block) := do
  let parentBlock ← self.lookupBlock block.parentRoot .parentBlockNotFound
  .ok (block.parentRoot,parentBlock)

/-- At most `n` steps towards the anchor, none of them from the floor or below. -/
def walkToFloor (self : Store) (floorSlot : Nat) :
    Nat → Bytes32 × Block → Except ForkchoiceError (Bytes32 × Block)
  | 0, cursor => .ok cursor
  | n+1, cursor =>
    if cursor.2.slot.get ≤ floorSlot then .ok cursor
    else do
      let next ← self.parentOf cursor.2
      self.walkToFloor floorSlot n next

def justifiableRound (self : Store) (cursor : Bytes32 × Block) :
    Except ForkchoiceError (Flow (Bytes32 × Block) (Bytes32 × Block)) :=
  if self.latestFinalized.slot.get < cursor.2.slot.get ∧
      cursor.2.slot.isJustifiableAfter self.latestFinalized.slot = false then do
    let next ← self.parentOf cursor.2
    .ok (.next next)
  else .ok (.stop cursor)

def getVoteTarget (self : Store) : Except ForkchoiceError Checkpoint := do
  let headBlock ← self.lookupBlock self.head .unknownHeadBlock
  let safeBlock ← self.lookupBlock self.safeTarget .unknownSafeTarget
  let floorSlot := max safeBlock.slot.get self.latestFinalized.slot.get
  let cursor ← self.walkToFloor floorSlot justificationLookbackSlots (self.head,headBlock)
  let cursor ← loop self.justifiableRound .unending self.blocks.size cursor
  .ok ⟨cursor.1,cursor.2.slot⟩

def withOnChain (self : Store) (vote : SignedAttestation) : Store :=
  { self with
    latestKnownVotes :=
      (insertIfNewer self.latestKnownVotes vote.message.validatorId vote).1
    latestNewVotes :=
      (evictIfOlder self.latestNewVotes vote.message.validatorId vote.message.data.slot).1 }

def withGossip (self : Store) (vote : SignedAttestation) : Store :=
  { self with
    latestNewVotes := (insertIfNewer self.latestNewVotes vote.message.validatorId vote).1 }

end Store

def processAttestation (signedVote : SignedAttestation) (isFromBlock : Bool) : Edit Bool := do
  let self ← get
  check (self.validateValidatorIndex signedVote.message.validatorId)
  check (self.validateAttestation signedVote.message.data)
  let validator := signedVote.message.validatorId
  let voteSlot := signedVote.message.data.slot
  if isFromBlock = true then do
    let promoted := (insertIfNewer self.latestKnownVotes validator signedVote).2
    let evicted := (evictIfOlder self.latestNewVotes validator voteSlot).2
    set (self.withOnChain signedVote)
    pure (promoted || evicted)
  else do
    let inserted := (insertIfNewer self.latestNewVotes validator signedVote).2
    set (self.withGossip signedVote)
    pure inserted

def updateHead : Edit Unit := do
  let self ← get
  let checkpoints := voteHeadCheckpoints self.latestKnownVotes
  let head ← check (getForkChoiceHead self.blocks self.latestJustified.root checkpoints 0)
  set { self with head := head }

def acceptNewVotes : Edit Unit := do
  modify Store.promoted
  updateHead

/-- Two thirds of the registry, rounded up; the doubling saturates. -/
def minTargetScore (numValidators : Nat) : Nat := (min (numValidators*2) (2^64-1)+2)/3

def updateSafeTarget : Edit Unit := do
  let self ← get
  let numValidators ← check self.headValidatorCount
  let checkpoints := voteHeadCheckpoints self.latestNewVotes
  let safeTarget ← check (getForkChoiceHead self.blocks self.latestJustified.root checkpoints
    (minTargetScore numValidators))
  set { self with safeTarget := safeTarget }

def tickInterval (hasProposal : Bool) : Edit Unit := do
  let self ← get
  match self.time.checkedAdvance with
  | none => throw (.timeOverflow self.time)
  | some next =>
    set { self with time := next }
    match next.phase with
    | .proposal => if hasProposal = true then acceptNewVotes else pure ()
    | .idle => pure ()
    | .updateSafeTarget => updateSafeTarget
    | .acceptNewVotes => acceptNewVotes

def getProposalHead : Edit Bytes32 := do
  acceptNewVotes
  let self ← get
  pure self.head

def Store.tracking (self : Store) (root : Bytes32) (block : Block) (postState : State) : Store :=
  (self.insertBlock root block postState).adoptPostStateCheckpoints
    postState.latestJustified postState.latestFinalized

def trackBlock [HashPair] (block : Block) (postState : State) : Edit Bool := do
  let self ← get
  let wantStateRoot := hashTreeRoot postState
  if block.stateRoot ≠ wantStateRoot then
    throw (.blockStateRootMismatch block.stateRoot wantStateRoot)
  else
    let root := hashTreeRoot block
    if self.blocks.contains root = true then pure false
    else if block.parentRoot ≠ ByteVector.zero ∧ self.blocks.contains block.parentRoot = false then
      throw (.parentBlockNotFound block.parentRoot)
    else do
      set (self.tracking root block postState)
      pure true

theorem getElem?_insertIfNewer (map : Votes) (validator : ValidatorIndex)
    (vote : SignedAttestation) (v : ValidatorIndex) :
    (insertIfNewer map validator vote).1[v]? =
      if validator = v ∧ (∀ e, map[v]? = some e →
        e.message.data.slot.get < vote.message.data.slot.get) then some vote else map[v]? := by
  by_cases hv : validator = v
  · subst hv
    cases he : map[validator]? with
    | none => simp [insertIfNewer,he]
    | some existing =>
      by_cases hle : vote.message.data.slot.get ≤ existing.message.data.slot.get
      · simp [insertIfNewer,he,hle]
      · simp [insertIfNewer,he,hle,Nat.lt_of_not_le hle]
  · cases he : map[validator]? with
    | none => simp [insertIfNewer,he,Std.ExtTreeMap.getElem?_insert,hv]
    | some existing =>
      by_cases hle : vote.message.data.slot.get ≤ existing.message.data.slot.get
      · simp [insertIfNewer,he,hle,hv]
      · simp [insertIfNewer,he,hle,Std.ExtTreeMap.getElem?_insert,hv]

theorem getElem?_evictIfOlder (map : Votes) (validator : ValidatorIndex) (newerThan : Slot)
    (v : ValidatorIndex) :
    (evictIfOlder map validator newerThan).1[v]? =
      if validator = v ∧ (∃ e, map[v]? = some e ∧ e.message.data.slot.get < newerThan.get) then none
      else map[v]? := by
  cases he : map[validator]? with
  | none =>
    by_cases hv : validator = v
    · subst hv
      simp [evictIfOlder,he]
    · simp [evictIfOlder,he,hv]
  | some existing =>
    by_cases hlt : existing.message.data.slot.get < newerThan.get
    · by_cases hv : validator = v
      · subst hv
        simp [evictIfOlder,he,hlt]
      · simp [evictIfOlder,he,hlt,hv,Std.ExtTreeMap.getElem?_erase]
    · by_cases hv : validator = v
      · subst hv
        simp [evictIfOlder,he,hlt]
      · simp [evictIfOlder,he,hlt,hv]

section Specs
variable {st : Store}

theorem lookupBlock_ok {root : Bytes32} {err : Bytes32 → ForkchoiceError} {block : Block} :
    st.lookupBlock root err = .ok block ↔ st.blocks[root]? = some block := by
  cases h : st.blocks[root]? with
  | none => simp [Store.lookupBlock,h]
  | some b => simp [Store.lookupBlock,h]

theorem parentOf_ok {block : Block} {next : Bytes32 × Block} :
    st.parentOf block = .ok next ↔
      ∃ p, st.blocks[block.parentRoot]? = some p ∧ next = (block.parentRoot,p) := by
  simp only [Store.parentOf,except_bind_ok,lookupBlock_ok,Except.ok.injEq]
  simp [eq_comm (a := next)]

/-- Both gates of `process_attestation` let the vote through. -/
structure Store.Admits (st : Store) (vote : SignedAttestation) : Prop where
  validator : st.validateValidatorIndex vote.message.validatorId = .ok ()
  data : st.validateAttestation vote.message.data = .ok ()

theorem processAttestation_cases (st : Store) (vote : SignedAttestation) (isFromBlock : Bool) :
    (∃ e, ¬ st.Admits vote ∧ processAttestation vote isFromBlock st = .error e st) ∨
    (∃ changed, st.Admits vote ∧ processAttestation vote isFromBlock st = .ok changed
      (if isFromBlock = true then st.withOnChain vote else st.withGossip vote)) := by
  cases hv : st.validateValidatorIndex vote.message.validatorId with
  | error e =>
    refine .inl ⟨e,fun h => ?_,by simp [processAttestation,hv]⟩
    simpa [hv] using h.validator
  | ok =>
    cases hd : st.validateAttestation vote.message.data with
    | error e =>
      refine .inl ⟨e,fun h => ?_,by simp [processAttestation,hv,hd]⟩
      simpa [hd] using h.data
    | ok =>
      cases isFromBlock with
      | true =>
        refine .inr ⟨(insertIfNewer st.latestKnownVotes vote.message.validatorId vote).2 ||
          (evictIfOlder st.latestNewVotes vote.message.validatorId vote.message.data.slot).2,
          ⟨hv,hd⟩,?_⟩
        simp only [processAttestation,hv,hd,estate_get_bind,check_bind_ok,if_true]
        rfl
      | false =>
        refine .inr ⟨(insertIfNewer st.latestNewVotes vote.message.validatorId vote).2,
          ⟨hv,hd⟩,?_⟩
        simp only [processAttestation,hv,hd,estate_get_bind,check_bind_ok,Bool.false_eq_true,
          if_false]
        rfl

/-- The head the known votes select once the pending ones have joined them. -/
def Store.acceptedHead (st : Store) : Except ForkchoiceError Bytes32 :=
  getForkChoiceHead st.blocks st.latestJustified.root
    (voteHeadCheckpoints st.promoted.latestKnownVotes) 0

theorem acceptNewVotes_cases (st : Store) :
    (∃ head, st.acceptedHead = .ok head ∧
      acceptNewVotes st = .ok () { st.promoted with head := head }) ∨
    (∃ e, st.acceptedHead = .error e ∧ acceptNewVotes st = .error e st.promoted) := by
  cases h : st.acceptedHead with
  | ok head =>
    refine .inl ⟨head,rfl,?_⟩
    simp only [acceptNewVotes,updateHead,estate_modify_bind,estate_get_bind]
    exact estate_bind_ok.mpr ⟨head,_,check_ok.mpr ⟨h,rfl⟩,rfl⟩
  | error e =>
    refine .inr ⟨e,rfl,?_⟩
    simp only [acceptNewVotes,updateHead,estate_modify_bind,estate_get_bind]
    exact estate_bind_error.mpr (.inl (check_error.mpr ⟨h,rfl⟩))

theorem known_of_accepted {st m : Store} {v : ValidatorIndex} {vote : SignedAttestation}
    (haccept : acceptNewVotes st = .ok () m) (h : m.latestKnownVotes[v]? = some vote) :
    st.latestKnownVotes[v]? = some vote ∨ st.latestNewVotes[v]? = some vote := by
  have hpool : m.latestKnownVotes = st.latestKnownVotes ∪ st.latestNewVotes := by
    rcases acceptNewVotes_cases st with ⟨head,-,hrun⟩ | ⟨e,-,hrun⟩
    · obtain rfl : { st.promoted with head := head } = m := by simpa [hrun] using haccept
      rfl
    · simp [hrun] at haccept
  rw [hpool,Std.ExtTreeMap.getElem?_union,Option.or_eq_some_iff] at h
  rcases h with h | ⟨-,h⟩
  · exact .inr h
  · exact .inl h

def Store.selectedTarget (st : Store) : Except ForkchoiceError Bytes32 := do
  let numValidators ← st.headValidatorCount
  getForkChoiceHead st.blocks st.latestJustified.root (voteHeadCheckpoints st.latestNewVotes)
    (minTargetScore numValidators)

theorem updateSafeTarget_cases (st : Store) :
    (∃ target, st.selectedTarget = .ok target ∧
      updateSafeTarget st = .ok () { st with safeTarget := target }) ∨
    (∃ e, st.selectedTarget = .error e ∧ updateSafeTarget st = .error e st) := by
  cases hn : st.headValidatorCount with
  | error e =>
    refine .inr ⟨e,by simp [Store.selectedTarget,hn,bind,Except.bind],?_⟩
    rw [updateSafeTarget,estate_get_bind,hn,check_bind_error]
  | ok n =>
    have hsel : st.selectedTarget = getForkChoiceHead st.blocks st.latestJustified.root
        (voteHeadCheckpoints st.latestNewVotes) (minTargetScore n) := by
      simp [Store.selectedTarget,hn,bind,Except.bind]
    rw [hsel,updateSafeTarget,estate_get_bind,hn,check_bind_ok]
    cases hg : getForkChoiceHead st.blocks st.latestJustified.root
        (voteHeadCheckpoints st.latestNewVotes) (minTargetScore n) with
    | ok target => exact .inl ⟨target,rfl,rfl⟩
    | error e => exact .inr ⟨e,rfl,rfl⟩

theorem seedAnchor_ok [HashPair] {state : State} {block : Block}
    {checkpoints : Bytes32 → Slot → Checkpoint × Checkpoint}
    (h : Store.seedAnchor state block checkpoints = .ok st) :
    block.stateRoot = hashTreeRoot state ∧ ∃ time, st =
      { time := time
        config := state.config
        head := hashTreeRoot block
        safeTarget := hashTreeRoot block
        latestJustified := (checkpoints (hashTreeRoot block) block.slot).1
        latestFinalized := (checkpoints (hashTreeRoot block) block.slot).2
        blocks := (∅ : Blocks).insert (hashTreeRoot block) block
        states := (∅ : HashMap Bytes32 State).insert (hashTreeRoot block) state
        blockOrder := [hashTreeRoot block]
        latestKnownVotes := ∅
        latestNewVotes := ∅ } := by
  obtain ⟨hroot,h⟩ := guard_ok.mp h
  refine ⟨not_not.mp hroot,?_⟩
  split at h
  · next htime =>
    refine ⟨⟨_,htime⟩,?_⟩
    simpa [Store.insertBlock,eq_comm (a := st)] using h
  · cases h

theorem adoptPostStateCheckpoints_eq (st : Store) (justified finalized : Checkpoint) :
    st.adoptPostStateCheckpoints justified finalized = { st with
      latestJustified :=
        if st.shouldAdoptCheckpoint justified st.latestJustified = true then justified
        else st.latestJustified
      latestFinalized :=
        if st.shouldAdoptCheckpoint finalized st.latestFinalized = true then finalized
        else st.latestFinalized } := by
  have hsame : ∀ adopted, ({ st with latestJustified := adopted } : Store).shouldAdoptCheckpoint
      finalized st.latestFinalized = st.shouldAdoptCheckpoint finalized st.latestFinalized :=
    fun _ => rfl
  unfold Store.adoptPostStateCheckpoints
  by_cases hj : st.shouldAdoptCheckpoint justified st.latestJustified = true
  · simp only [if_pos hj,hsame]
    split <;> rfl
  · simp only [if_neg hj]
    split <;> rfl

theorem tracking_frame (st : Store) (root : Bytes32) (block : Block) (post : State) :
    (st.tracking root block post).latestKnownVotes = st.latestKnownVotes ∧
    (st.tracking root block post).latestNewVotes = st.latestNewVotes ∧
    (st.tracking root block post).head = st.head ∧
    (st.tracking root block post).safeTarget = st.safeTarget := by
  rw [Store.tracking,adoptPostStateCheckpoints_eq]
  unfold Store.insertBlock
  split <;> exact ⟨rfl,rfl,rfl,rfl⟩

/-- The checkpoint a store holds once it has seen a candidate: the later of the two, as long
as the candidate's block is tracked. -/
def Store.adopted (st : Store) (candidate current : Checkpoint) : Checkpoint :=
  if current.slot.get < candidate.slot.get ∧ candidate.root ∈ st.blocks then candidate else current

theorem tracking_new {root : Bytes32} (hnew : root ∉ st.blocks) (block : Block) (post : State) :
    (st.tracking root block post).blocks = st.blocks.insert root block ∧
    (st.tracking root block post).states = st.states.insert root post ∧
    (st.tracking root block post).blockOrder = st.blockOrder ++ [root] ∧
    (st.tracking root block post).latestJustified =
      (st.tracking root block post).adopted post.latestJustified st.latestJustified ∧
    (st.tracking root block post).latestFinalized =
      (st.tracking root block post).adopted post.latestFinalized st.latestFinalized := by
  simp only [Store.tracking,adoptPostStateCheckpoints_eq,Store.insertBlock,
    Store.adopted,Store.shouldAdoptCheckpoint,Bool.and_eq_true,decide_eq_true_eq,
    Std.ExtTreeMap.contains_iff_mem,if_neg hnew,and_self]

theorem trackBlock_known [HashPair] {block : Block} {post : State}
    (hroot : block.stateRoot = hashTreeRoot post) (hknown : hashTreeRoot block ∈ st.blocks) :
    trackBlock block post st = .ok false st := by
  simp only [trackBlock,estate_get_bind,hroot,ne_eq,not_true,if_false,
    Std.ExtTreeMap.contains_iff_mem,hknown,if_true]
  rfl

theorem trackBlock_cases [HashPair] (st : Store) (block : Block) (post : State) :
    (∃ e, trackBlock block post st = .error e st) ∨
    (hashTreeRoot block ∈ st.blocks ∧ trackBlock block post st = .ok false st) ∨
    (block.stateRoot = hashTreeRoot post ∧ hashTreeRoot block ∉ st.blocks ∧
      trackBlock block post st = .ok true (st.tracking (hashTreeRoot block) block post)) := by
  by_cases hroot : block.stateRoot = hashTreeRoot post
  · by_cases hknown : hashTreeRoot block ∈ st.blocks
    · exact .inr (.inl ⟨hknown,trackBlock_known hroot hknown⟩)
    · by_cases hparent : block.parentRoot ≠ ByteVector.zero ∧
          st.blocks.contains block.parentRoot = false
      · refine .inl ⟨.parentBlockNotFound block.parentRoot,?_⟩
        simp only [trackBlock,estate_get_bind,hroot,ne_eq,not_true,if_false,
          Std.ExtTreeMap.contains_iff_mem,hknown,if_pos hparent]
        rfl
      · refine .inr (.inr ⟨hroot,hknown,?_⟩)
        simp only [trackBlock,estate_get_bind,hroot,ne_eq,not_true,if_false,
          Std.ExtTreeMap.contains_iff_mem,hknown,if_neg hparent]
        rfl
  · exact .inl ⟨.blockStateRootMismatch block.stateRoot (hashTreeRoot post),
      by simp [trackBlock,hroot]⟩

theorem trackBlock_total [HashPair] {block : Block} {post : State}
    (hroot : block.stateRoot = hashTreeRoot post) (hnew : hashTreeRoot block ∉ st.blocks)
    (hparent : block.parentRoot ∈ st.blocks) :
    trackBlock block post st = .ok true (st.tracking (hashTreeRoot block) block post) := by
  have hcontains := Std.ExtTreeMap.contains_iff_mem.mpr hparent
  simp only [trackBlock,estate_get_bind,hroot,ne_eq,not_true,if_false,
    Std.ExtTreeMap.contains_iff_mem,hnew,hcontains,Bool.true_eq_false,and_false]
  rfl

structure Store.OnPath (st : Store) (cursor : Bytes32 × Block) : Prop where
  tracked : st.blocks[cursor.1]? = some cursor.2
  ancestor : AncestorOrSelf (parentLink st.blocks) cursor.1 st.head

theorem Store.OnPath.parent {cursor : Bytes32 × Block} {p : Block} (h : st.OnPath cursor)
    (hp : st.blocks[cursor.2.parentRoot]? = some p) : st.OnPath (cursor.2.parentRoot,p) :=
  ⟨hp,(AncestorOrSelf.up (parentLink_of_get h.tracked)
    (.self (parentLink_of_get hp))).trans h.ancestor⟩

theorem walkToFloor_ok {anchor floorRoot : Bytes32} {floorBlock : Block} (floorSlot : Nat)
    (h : Planted st.blocks anchor) (hfloor : st.blocks[floorRoot]? = some floorBlock)
    (hle : floorBlock.slot.get ≤ floorSlot) (n : Nat) {cursor : Bytes32 × Block}
    (hcursor : st.OnPath cursor) :
    ∃ next, st.walkToFloor floorSlot n cursor = .ok next ∧ st.OnPath next := by
  induction n generalizing cursor with
  | zero => exact ⟨cursor,rfl,hcursor⟩
  | succ n ih =>
    by_cases hlow : cursor.2.slot.get ≤ floorSlot
    · exact ⟨cursor,by simp [Store.walkToFloor,hlow],hcursor⟩
    · obtain ⟨p,hp,-⟩ := h.parent hcursor.tracked hfloor (by omega)
      obtain ⟨next,hnext,hpath⟩ := ih (hcursor.parent hp)
      refine ⟨next,?_,hpath⟩
      simp only [Store.walkToFloor,if_neg hlow,except_bind_ok]
      exact ⟨_,parentOf_ok.mpr ⟨p,hp,rfl⟩,hnext⟩

/-- On a tree that holds the head, the safe target and the finalized block, the vote target
exists: a tracked ancestor of the head, under its own slot. -/
theorem getVoteTarget_ok {anchor : Bytes32} {fb : Block} (h : Planted st.blocks anchor)
    (hhead : st.head ∈ st.blocks) (hsafe : st.safeTarget ∈ st.blocks)
    (hfin : st.blocks[st.latestFinalized.root]? = some fb)
    (hslot : fb.slot = st.latestFinalized.slot) :
    ∃ target block, st.getVoteTarget = .ok target ∧ st.OnPath (target.root,block) ∧
      block.slot = target.slot := by
  obtain ⟨hb,hhb⟩ := get_of_mem hhead
  obtain ⟨sb,hsb⟩ := get_of_mem hsafe
  obtain ⟨mid,hmid,hpath⟩ := walkToFloor_ok (max sb.slot.get st.latestFinalized.slot.get)
    h hfin (hslot ▸ Nat.le_max_right _ _) justificationLookbackSlots
    (⟨hhb,.self (parentLink_of_get hhb)⟩ : st.OnPath (st.head,hb))
  have hround : ∀ {cursor : Bytes32 × Block}, st.OnPath cursor →
      st.latestFinalized.slot.get < cursor.2.slot.get →
      ∃ p, st.blocks[cursor.2.parentRoot]? = some p ∧ p.slot.get < cursor.2.slot.get :=
    fun hc hlt => h.parent hc.tracked hfin (hslot ▸ hlt)
  have hloop : ∃ last, loop st.justifiableRound .unending st.blocks.size mid = .ok last ∧
      st.OnPath last := by
    apply loop_correct st.OnPath st.OnPath (fun cursor => h.tree.lower cursor.1) _ hpath
      (h.lower_lt_size hpath.tracked)
    intro cursor hc
    by_cases hgo : st.latestFinalized.slot.get < cursor.2.slot.get ∧
        cursor.2.slot.isJustifiableAfter st.latestFinalized.slot = false
    · obtain ⟨p,hp,hlt⟩ := hround hc hgo.1
      refine .inr ⟨(cursor.2.parentRoot,p),?_,hc.parent hp,h.lower_parent hc.tracked hp hlt⟩
      simp only [Store.justifiableRound,if_pos hgo,except_bind_ok]
      exact ⟨_,parentOf_ok.mpr ⟨p,hp,rfl⟩,rfl⟩
    · exact .inl ⟨cursor,by simp only [Store.justifiableRound,if_neg hgo],hc⟩
  obtain ⟨last,hlast,hend⟩ := hloop
  refine ⟨⟨last.1,last.2.slot⟩,last.2,?_,hend,rfl⟩
  simp only [Store.getVoteTarget,except_bind_ok,lookupBlock_ok]
  exact ⟨hb,hhb,sb,hsb,mid,hmid,last,hlast,rfl⟩

end Specs

end Devnet.ForkChoice
