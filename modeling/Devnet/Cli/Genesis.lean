import Devnet.Engine.Ladder

/-!
The anchor a node is started with. A state is taken from a file or made up, its list lengths
are checked, and the anchor block is read off its latest header. Neither check looks at the
header's state root, at the justified checkpoint or at the tally.
-/

set_option autoImplicit false

namespace Devnet.Cli
open Machine Trees Devnet.Types Devnet.Ssz Devnet.Protocol Devnet.ForkChoice

/-- The two limits of the chain config that are read here. -/
structure ChainConfig where
  historicalRootsLimit : Nat
  validatorRegistryLimit : Nat

inductive GenesisError where
  | emptyRegistry
  | registryOverConfig (registryLen limit : Nat)
  | registryOverCap (registryLen : Nat)
  | historyOverConfig (historicalRoots limit : Nat)
  | bodyNotEmpty
  | slotMismatch (slot headerSlot : Slot)
  deriving DecidableEq

def GenesisError.message : GenesisError → String
  | .emptyRegistry => "genesis anchor carries an empty validator registry: the registry is the " ++
      "sole source of the validator count, so a node anchored here rejects every attestation " ++
      "and can never propose or justify. Supply a genesis state whose validator registry is " ++
      "populated (note that the compact interop format carries no registry at all)"
  | .registryOverConfig registryLen limit => "genesis state contains " ++ toString registryLen ++
      " validators, exceeding genesis config validator_registry_limit " ++ toString limit
  | .registryOverCap registryLen => "genesis state contains " ++ toString registryLen ++
      " validators, exceeding the SSZ validator-registry cap " ++ toString validatorRegistryLimit
  | .historyOverConfig historicalRoots limit => "genesis state contains " ++
      toString historicalRoots ++
      " historical roots, exceeding genesis config historical_roots_limit " ++ toString limit
  | .bodyNotEmpty => "genesis state latest block header does not commit to an empty block body"
  | .slotMismatch slot headerSlot => "genesis state slot " ++ toString slot.get ++
      " does not match latest block header slot " ++ toString headerSlot.get

def validateStateLimits (state : State) (chainConfig : ChainConfig) : Except GenesisError Unit :=
  let registryLen := state.validators.length
  let historicalRoots := state.historicalBlockHashes.length
  if state.validators.isEmpty = true then .error .emptyRegistry
  else if chainConfig.validatorRegistryLimit < registryLen then
    .error (.registryOverConfig registryLen chainConfig.validatorRegistryLimit)
  else if validatorRegistryLimit < registryLen then .error (.registryOverCap registryLen)
  else if chainConfig.historicalRootsLimit < historicalRoots then
    .error (.historyOverConfig historicalRoots chainConfig.historicalRootsLimit)
  else .ok ()

section
variable [HashPair]

inductive StateSource where
  | supplied (state : State)
  | synthesized (genesisTime : UInt64) (validators : Validators)

def StateSource.state : StateSource → State
  | .supplied state => state
  | .synthesized genesisTime validators => genesisState genesisTime validators

def loadOrSynthesizeState (source : StateSource) (chainConfig : ChainConfig) :
    Except GenesisError State := do
  validateStateLimits source.state chainConfig
  return source.state

def anchorBlockForState (state : State) : Except GenesisError Block :=
  let header := state.latestBlockHeader
  if header.bodyRoot ≠ hashTreeRoot (default : BlockBody) then .error .bodyNotEmpty
  else if state.slot ≠ header.slot then .error (.slotMismatch state.slot header.slot)
  else
    .ok
      { slot := header.slot
        proposerIndex := header.proposerIndex
        parentRoot := header.parentRoot
        stateRoot := hashTreeRoot state
        body := default }

theorem loadOrSynthesizeState_ok {source : StateSource} {chainConfig : ChainConfig}
    {state : State} (h : loadOrSynthesizeState source chainConfig = .ok state) :
    state.validators.length ≠ 0 ∧ state.validators.length ≤ validatorRegistryLimit := by
  obtain ⟨⟨⟩,hcheck,hstate⟩ := except_bind_ok.mp h
  obtain rfl := except_pure_ok.mp hstate
  simp only [validateStateLimits,guard_ok,not_lt,List.isEmpty_iff] at hcheck
  exact ⟨fun h => hcheck.1 (List.length_eq_zero_iff.mp h),hcheck.2.2.1⟩

theorem anchorBlockForState_ok {state : State} {block : Block}
    (h : anchorBlockForState state = .ok block) :
    state.slot = block.slot ∧ block.stateRoot = hashTreeRoot state ∧
      block.header = { state.latestBlockHeader with stateRoot := hashTreeRoot state } := by
  simp only [anchorBlockForState,guard_ok,not_not,ne_eq,Except.ok.injEq] at h
  obtain ⟨hbody,hslot,rfl⟩ := h
  refine ⟨hslot,rfl,?_⟩
  simp only [Block.header,← hbody]

/-- The slot after `slot`; the last slot there is has none and stands for itself. -/
def successor (slot : Slot) : Slot := slot.advance.getD slot

def roundRobin (slot : Slot) (numValidators : Nat) : ValidatorIndex :=
  ⟨slot.get % numValidators,Nat.lt_of_le_of_lt (Nat.mod_le _ _) slot.isLt⟩

/-- What the checks leave open and a first block needs. -/
structure Usable (state : State) (block : Block) : Prop where
  stateRoot : state.latestBlockHeader.stateRoot = ByteVector.zero ∨
    state.latestBlockHeader.stateRoot = hashTreeRoot state
  justified : state.latestJustified.root = ByteVector.zero ∨
    state.latestJustified.root = hashTreeRoot block
  clock : block.slot.get*intervalsPerSlot < 2^64
  bits : state.justifiedSlots.len < historicalRootsLimit
  tally : state.justificationsValidators.len =
    state.justificationsRoots.length*state.validators.length

omit [HashPair] in
theorem get_successor {slot : Slot} (h : slot.get*intervalsPerSlot < 2^64) :
    (successor slot).get = slot.get+1 := by
  have hlt : slot.get+1 < 2^64 := by
    simp only [intervalsPerSlot] at h
    omega
  rw [successor,Slot.advance,dif_pos hlt]
  rfl

/-- One slot on, the latest header is the anchor's exactly if its state root was not set yet,
or was set to the root of the state that carries it. -/
theorem sealed_iff {state : State} {block : Block} (next : Slot)
    (hanchor : anchorBlockForState state = .ok block)
    (hinjective : hashTreeRoot state.latestBlockHeader = hashTreeRoot block →
      state.latestBlockHeader = block.header) :
    hashTreeRoot block = hashTreeRoot (state.sealed next state.cachedRoot).latestBlockHeader ↔
      state.latestBlockHeader.stateRoot = ByteVector.zero ∨
        state.latestBlockHeader.stateRoot = hashTreeRoot state := by
  obtain ⟨-,hstateRoot,hheader⟩ := anchorBlockForState_ok hanchor
  by_cases hzero : state.latestBlockHeader.stateRoot = ByteVector.zero
  · simp only [hzero,true_or,iff_true]
    rw [← block.hashTreeRoot_header,hheader,State.cachedRoot,if_pos hzero]
    rfl
  · have hsealed : (state.sealed next state.cachedRoot).latestBlockHeader =
        state.latestBlockHeader := by
      rw [State.cachedRoot,if_neg hzero]
      rfl
    rw [hsealed]
    simp only [hzero,false_or]
    constructor
    · intro hroot
      rw [hinjective hroot.symm]
      exact hstateRoot
    · intro hroot
      rw [← block.hashTreeRoot_header,hheader,← hroot]

theorem first_fits {state : State} {block : Block} (hn : state.validators.length ≠ 0)
    (hroom : state.historicalBlockHashes.length < historicalRootsLimit)
    (hslot : block.slot = state.latestBlockHeader.slot)
    (hnext : (successor block.slot).get = block.slot.get+1)
    (hparent : hashTreeRoot block =
      hashTreeRoot (state.sealed (successor block.slot) state.cachedRoot).latestBlockHeader) :
    HeaderFits (state.sealed (successor block.slot) state.cachedRoot)
      ⟨successor block.slot,roundRobin (successor block.slot) state.numValidators,
        hashTreeRoot block,ByteVector.zero,bodyFrom []⟩ := by
  refine ⟨rfl,?_,?_,rfl,hparent,?_⟩
  · simp only [State.sealed,← hslot,hnext]
    omega
  · simp only [State.numValidators,State.sealed]
    omega
  · simp only [State.sealed,← hslot,hnext]
    omega

theorem first_candidate {state : State} {block : Block}
    (hanchor : anchorBlockForState state = .ok block) (hn : state.validators.length ≠ 0)
    (hroom : state.historicalBlockHashes.length < historicalRootsLimit)
    (hclock : block.slot.get*intervalsPerSlot < 2^64)
    (hinjective : hashTreeRoot state.latestBlockHeader = hashTreeRoot block →
      state.latestBlockHeader = block.header) :
    (∃ candidate post, buildCandidateBlock (hashTreeRoot block) (successor block.slot)
      (roundRobin (successor block.slot) state.numValidators) state [] = .ok (candidate,post)) ↔
    (state.latestBlockHeader.stateRoot = ByteVector.zero ∨
      state.latestBlockHeader.stateRoot = hashTreeRoot state) ∧
    state.justifiedSlots.len < historicalRootsLimit ∧
    state.justificationsValidators.len =
      state.justificationsRoots.length*state.validators.length := by
  obtain ⟨hslot,-,hheader⟩ := anchorBlockForState_ok hanchor
  have hnext := get_successor hclock
  have hheaderSlot : block.slot = state.latestBlockHeader.slot := congrArg BlockHeader.slot hheader
  have hlater : (successor block.slot).get = state.slot.get+1 := by
    rw [hslot]
    exact hnext
  have hslots := processSlots_next hlater
  have hadvance := advanceStateToSlot_ok.mpr (.inr hslots)
  rw [← sealed_iff (successor block.slot) hanchor hinjective]
  generalize hm : state.sealed (successor block.slot) state.cachedRoot = m at hslots hadvance
  generalize hvalidator : roundRobin (successor block.slot) state.numValidators = validator
  generalize hcandidate : (⟨successor block.slot,validator,hashTreeRoot block,ByteVector.zero,
    bodyFrom []⟩ : Block) = candidate
  have hgap : m.gap candidate = 0 := by
    rw [← hm,← hcandidate]
    simp only [State.gap,State.sealed,← hheaderSlot,hnext]
    omega
  have hbits : m.justifiedSlots = state.justifiedSlots := by rw [← hm]; rfl
  have hopened : ∀ {opened}, processBlockHeader candidate m = .ok () opened →
      ((∃ post, processAttestations [] opened = .ok () post) ↔
        state.justificationsValidators.len =
          state.justificationsRoots.length*state.validators.length) := by
    intro opened hrun
    obtain ⟨-,bits,-,rfl⟩ := processBlockHeader_ok hrun
    rw [← hm]
    exact processAttestations_nil hn
  constructor
  · rintro ⟨built,post,hbuild⟩
    obtain ⟨m',opened,hm',hrun,hpost⟩ := (buildCandidateBlock_ok hbuild ByteVector.zero).run
    rw [hcandidate] at hm' hrun hpost
    have hat : candidate.slot = successor block.slot := by rw [← hcandidate]
    obtain rfl : m = m' := by
      rw [hat,hadvance] at hm'
      exact Except.ok.inj hm'
    have hfits := (processBlockHeader_ok hrun).1
    have hspace := processBlockHeader_room hrun
    have hbody : candidate.body.attestations = [] := by rw [← hcandidate]; rfl
    rw [hbody] at hpost
    refine ⟨?_,?_,(hopened hrun).mp ⟨post,hpost⟩⟩
    · rw [← hfits.parent,← hcandidate]
    · rw [hgap,hbits] at hspace
      omega
  · rintro ⟨hparent,hlen,htally⟩
    have hfits : HeaderFits m candidate := by
      rw [← hm] at hparent ⊢
      rw [← hcandidate,← hvalidator]
      exact first_fits hn hroom hheaderSlot hnext hparent
    obtain ⟨opened,hrun⟩ := processBlockHeader_fits hfits (by rw [hgap,hbits]; omega)
    obtain ⟨post,hpost⟩ := (hopened hrun).mpr htally
    refine ⟨candidate,post,?_⟩
    simp only [buildCandidateBlock,except_bind_ok,mapError_ok,onCopy_ok,hcandidate]
    exact ⟨m,hadvance,opened,⟨(),hrun⟩,post,⟨(),hpost⟩,rfl⟩

/-- The anchor is a tree, and stays one with a child, unless the hash closes a circle. -/
theorem planted_anchor {block : Block} (h : hashTreeRoot block ≠ block.parentRoot) :
    Planted ((∅ : Blocks).insert (hashTreeRoot block) block) (hashTreeRoot block) := by
  have hget : ∀ {r : Bytes32} {b : Block}, ((∅ : Blocks).insert (hashTreeRoot block) block)[r]? = some b →
      hashTreeRoot block = r ∧ block = b := by
    intro r b hb
    simpa [Std.ExtTreeMap.getElem?_insert] using hb
  refine ⟨by simp,?_,?_⟩
  · intro a ha
    obtain ⟨-,rfl⟩ := hget ha
    simpa using h
  · intro r b hb hne
    exact absurd (hget hb).1.symm hne

theorem planted_child {block child : Block} {blocks : Blocks}
    (hplanted : Planted blocks (hashTreeRoot block))
    (hblock : blocks[hashTreeRoot block]? = some block)
    (hparent : child.parentRoot = hashTreeRoot block) (hlater : block.slot.get < child.slot.get)
    (hnew : hashTreeRoot child ∉ blocks) (hcycle : hashTreeRoot child ≠ block.parentRoot) :
    Planted (blocks.insert (hashTreeRoot child) child) (hashTreeRoot block) := by
  have hne : hashTreeRoot child ≠ hashTreeRoot block := by
    intro heq
    exact hnew (heq ▸ hplanted.tracked)
  have hold : ∀ {r : Bytes32} {b : Block}, blocks[r]? = some b →
      (blocks.insert (hashTreeRoot child) child)[r]? = some b := by
    intro r b hb
    have hother : hashTreeRoot child ≠ r := fun heq => hnew (heq ▸ mem_of_get hb)
    simpa [Std.ExtTreeMap.getElem?_insert,hother] using hb
  refine ⟨mem_of_get (hold hblock),?_,?_⟩
  · intro a ha
    obtain rfl : block = a := Option.some.inj ((hold hblock).symm.trans ha)
    simpa [hcycle] using hplanted.outside hblock
  · intro r b hb hr
    rw [Std.ExtTreeMap.getElem?_insert] at hb
    split at hb
    · obtain rfl := Option.some.inj hb
      exact ⟨block,hparent ▸ hold hblock,hlater⟩
    · obtain ⟨p,hp,hlt⟩ := hplanted.linked hb hr
      exact ⟨p,hold hp,hlt⟩

theorem first_finalize {m : Store} {post : State} {block : Block} {slot : Slot}
    {validator : ValidatorIndex} (hplanted : Planted m.blocks (hashTreeRoot block))
    (hblock : m.blocks[hashTreeRoot block]? = some block) (hlater : block.slot.get < slot.get)
    (hjustified : m.latestJustified.root = ByteVector.zero ∨ m.latestJustified.root ∈ m.blocks)
    (hcycle : ∀ b ∈ Tables.values
      (after (finalizeProducedBlock (hashTreeRoot block) slot validator [] post) m).blocks,
        hashTreeRoot b ≠ block.parentRoot) :
    ∃ produced t, finalizeProducedBlock (hashTreeRoot block) slot validator [] post m =
      .ok produced t := by
  generalize hchild : (⟨slot,validator,hashTreeRoot block,hashTreeRoot post,bodyFrom []⟩ : Block) =
    child
  have hroot : child.stateRoot = hashTreeRoot post := by rw [← hchild]
  have hparent : child.parentRoot = hashTreeRoot block := by rw [← hchild]
  have hslot : child.slot = slot := by rw [← hchild]
  simp only [finalizeProducedBlock,hchild] at hcycle ⊢
  have hrefresh : ∀ {n : Store}, Planted n.blocks (hashTreeRoot block) →
      (n.latestJustified.root = ByteVector.zero ∨ n.latestJustified.root ∈ n.blocks) →
      ∃ t, acceptNewVotes n = .ok () t := by
    intro n hn hj
    obtain ⟨head,hhead⟩ := (getForkChoiceHead_iff hn n.latestJustified.root
      (voteHeadCheckpoints n.promoted.latestKnownVotes) 0).mpr hj
    rcases acceptNewVotes_cases n with ⟨_,-,hrun⟩ | ⟨e,herror,-⟩
    · exact ⟨_,hrun⟩
    · rw [Store.acceptedHead,hhead] at herror
      cases herror
  by_cases hknown : hashTreeRoot child ∈ m.blocks
  · obtain ⟨t,haccept⟩ := hrefresh hplanted hjustified
    rw [estate_bind_of_ok (trackBlock_known hroot hknown),estate_bind_of_ok haccept]
    exact ⟨_,t,rfl⟩
  · have htrack := trackBlock_total hroot hknown (hparent ▸ mem_of_get hblock)
    obtain ⟨hblocks,-,-,hadopted,-⟩ := tracking_new hknown child post
    rw [after_bind_of_ok htrack,after_bind_pure] at hcycle
    have hfree : hashTreeRoot child ≠ block.parentRoot := by
      refine hcycle child (Tables.mem_values.mpr ⟨hashTreeRoot child,?_⟩)
      rw [(sameTree_of_touches (touches_acceptNewVotes _)).blocks,hblocks]
      exact Std.ExtTreeMap.getElem?_insert_self
    have htree := planted_child hplanted hblock hparent (by rw [hslot]; exact hlater) hknown hfree
    rw [← hblocks] at htree
    obtain ⟨t,haccept⟩ := hrefresh htree (by
      rw [hadopted,Store.adopted]
      split
      · next hadopt => exact .inr hadopt.2
      · rcases hjustified with hzero | hmem
        · exact .inl hzero
        · refine .inr ?_
          rw [hblocks]
          simp [hmem])
    rw [estate_bind_of_ok htrack,estate_bind_of_ok haccept]
    exact ⟨_,t,rfl⟩

/-- A store that tracks the anchor and nothing else, with no votes. -/
structure Anchored (st : Store) (state : State) (block : Block) : Prop where
  blocks : st.blocks = (∅ : Blocks).insert (hashTreeRoot block) block
  states : st.states = (∅ : HashMap Bytes32 State).insert (hashTreeRoot block) state
  known : st.latestKnownVotes = ∅
  new : st.latestNewVotes = ∅

theorem anchored_of_fromAnchor {st : Store} {state : State} {block : Block}
    (h : Store.fromAnchor state block = .ok st) : Anchored st state block := by
  obtain ⟨-,time,rfl⟩ := seedAnchor_ok h
  exact ⟨rfl,rfl,rfl,rfl⟩

theorem Anchored.acceptNewVotes_iff {st : Store} {state : State} {block : Block}
    (h : Anchored st state block) (hcycle : hashTreeRoot block ≠ block.parentRoot) :
    (st.latestJustified.root = ByteVector.zero ∨ st.latestJustified.root = hashTreeRoot block ↔
      ∃ m, acceptNewVotes st = .ok () m) ∧
    ∀ m, acceptNewVotes st = .ok () m → Anchored m state block ∧ m.head = hashTreeRoot block ∧
      m.latestJustified = st.latestJustified := by
  have hplanted := planted_anchor hcycle
  rw [← h.blocks] at hplanted
  have hiff := getForkChoiceHead_iff hplanted st.latestJustified.root
    (voteHeadCheckpoints st.promoted.latestKnownVotes) 0
  have hmem : ∀ r, r ∈ st.blocks ↔ r = hashTreeRoot block := by
    intro r
    rw [h.blocks]
    simp [eq_comm (a := r)]
  rw [hmem] at hiff
  rw [← hiff]
  rcases acceptNewVotes_cases st with ⟨head,hhead,hrun⟩ | ⟨e,herror,hrun⟩
  · refine ⟨⟨fun _ => ⟨_,hrun⟩,fun _ => ⟨head,hhead⟩⟩,?_⟩
    intro m hm
    obtain rfl : { st.promoted with head := head } = m := by simpa [hrun] using hm
    refine ⟨⟨h.blocks,h.states,?_,rfl⟩,(hmem head).mp (getForkChoiceHead_mem hhead),rfl⟩
    change st.latestKnownVotes ∪ st.latestNewVotes = ∅
    rw [h.known,h.new]
    rfl
  · refine ⟨⟨?_,?_⟩,?_⟩
    · rintro ⟨head,hhead⟩
      rw [Store.acceptedHead,hhead] at herror
      cases herror
    · rintro ⟨m,hm⟩
      simp [hrun] at hm
    · intro m hm
      simp [hrun] at hm

theorem first_block {st : Store} {state : State} {block : Block} {slot : Slot}
    {validator : ValidatorIndex} (h : Anchored st state block)
    (hlater : block.slot.get < slot.get)
    (hproposer : isProposer validator slot state.numValidators = .ok true)
    (order : IterationOrder SignedAttestation)
    (hcycle : ∀ b ∈ block :: Tables.values (after (produceBlock order slot validator) st).blocks,
      hashTreeRoot b ≠ block.parentRoot) :
    (∃ produced t, produceBlock order slot validator st = .ok produced t) ↔
      (st.latestJustified.root = ByteVector.zero ∨
        st.latestJustified.root = hashTreeRoot block) ∧
      ∃ candidate post, buildCandidateBlock (hashTreeRoot block) slot validator state [] =
        .ok (candidate,post) := by
  have hfree := hcycle block (by simp)
  obtain ⟨hrefresh,hhead⟩ := h.acceptNewVotes_iff hfree
  constructor
  · rintro ⟨produced,t,hrun⟩
    obtain ⟨m,headState,votes,post,_,_,haccept,hstate,hconv,-⟩ := produceBlock_ok hrun
    obtain ⟨hm,hroot,-⟩ := hhead m haccept
    obtain rfl : state = headState := by
      rw [hm.states,hroot] at hstate
      simpa using hstate
    obtain ⟨candidate,hbuild,-⟩ := (convergeAttestations_empty hm.known).mp hconv
    exact ⟨hrefresh.mpr ⟨m,haccept⟩,candidate,post,hroot ▸ hbuild⟩
  · rintro ⟨hjustified,candidate,post,hbuild⟩
    obtain ⟨m,haccept⟩ := hrefresh.mp hjustified
    obtain ⟨hm,hroot,hsame⟩ := hhead m haccept
    have hstate : m.states[m.head]? = some state := by
      rw [hm.states,hroot]
      exact Std.ExtTreeMap.getElem?_insert_self
    have hconv : m.convergeAttestations order m.head slot validator state = .ok ([],post) :=
      (convergeAttestations_empty hm.known).mpr ⟨candidate,hroot.symm ▸ hbuild,rfl⟩
    have heq := produceBlock_eq haccept hstate hproposer hconv
    rw [after,heq,← after,hroot] at hcycle
    rw [heq,hroot]
    refine first_finalize ?_ ?_ hlater ?_ fun b hb => hcycle b (List.mem_cons_of_mem _ hb)
    · rw [hm.blocks]
      exact planted_anchor hfree
    · rw [hm.blocks]
      exact Std.ExtTreeMap.getElem?_insert_self
    · rw [hsame,hm.blocks]
      simpa [eq_comm (a := hashTreeRoot block)] using hjustified

omit [HashPair] in
theorem normalized_root (c : Checkpoint) (slot : Slot) (root : Bytes32) :
    ((normalizeGenesisCheckpoint c slot root).root = ByteVector.zero ∨
      (normalizeGenesisCheckpoint c slot root).root = root) ↔
    c.root = ByteVector.zero ∨ c.root = root := by
  unfold normalizeGenesisCheckpoint
  split
  · next h =>
    rw [h.2]
    simp
    exact .inl rfl
  · rfl

/-- An accepted anchor opens a store in which the proposer of the next slot produces a block,
exactly if it is usable. -/
theorem anchor_usable {source : StateSource} {chainConfig : ChainConfig} {state : State}
    {block : Block} (order : IterationOrder SignedAttestation)
    (hload : loadOrSynthesizeState source chainConfig = .ok state)
    (hanchor : anchorBlockForState state = .ok block)
    (hroom : state.historicalBlockHashes.length < historicalRootsLimit)
    (hinjective : hashTreeRoot state.latestBlockHeader = hashTreeRoot block →
      state.latestBlockHeader = block.header)
    (hcycle : ∀ st, Store.fromAnchor state block = .ok st → ∀ b ∈ block :: Tables.values
      (after (produceBlock order (successor block.slot)
        (roundRobin (successor block.slot) state.numValidators)) st).blocks,
      hashTreeRoot b ≠ block.parentRoot) :
    (∃ st, Store.fromAnchor state block = .ok st ∧ ∃ produced t,
      produceBlock order (successor block.slot)
        (roundRobin (successor block.slot) state.numValidators) st = .ok produced t) ↔
      Usable state block := by
  obtain ⟨hn,-⟩ := loadOrSynthesizeState_ok hload
  obtain ⟨hslot,hstateRoot,-⟩ := anchorBlockForState_ok hanchor
  by_cases hclock : block.slot.get*intervalsPerSlot < 2^64
  swap
  · refine ⟨?_,fun h => absurd h.clock hclock⟩
    rintro ⟨st,hopen,-⟩
    obtain ⟨-,hopen⟩ := guard_ok.mp hopen
    split at hopen
    · next h => exact absurd h hclock
    · cases hopen
  have hfirst := first_candidate hanchor hn hroom hclock hinjective
  obtain ⟨st,hopen⟩ : ∃ st, Store.fromAnchor state block = .ok st :=
    ⟨_,guard_ok.mpr ⟨not_not.mpr hstateRoot,dif_pos hclock⟩⟩
  have hfree := hcycle st hopen
  have hlater : block.slot.get < (successor block.slot).get := by
    rw [get_successor hclock]
    omega
  have hproposer : isProposer (roundRobin (successor block.slot) state.numValidators)
      (successor block.slot) state.numValidators = .ok true := by
    refine isProposer_ok.mpr ⟨?_,rfl⟩
    rw [State.numValidators]
    omega
  have hproduces := first_block (anchored_of_fromAnchor hopen) hlater hproposer order hfree
  have hjustified := normalized_root state.latestJustified block.slot (hashTreeRoot block)
  have hopened : st.latestJustified =
      normalizeGenesisCheckpoint state.latestJustified block.slot (hashTreeRoot block) := by
    obtain ⟨-,time,rfl⟩ := seedAnchor_ok hopen
    rfl
  rw [hopened,hjustified,hfirst] at hproduces
  constructor
  · rintro ⟨st',hopen',hproduced⟩
    obtain rfl : st = st' := Except.ok.inj (hopen.symm.trans hopen')
    obtain ⟨hj,hroot,hbits,htally⟩ := hproduces.mp hproduced
    exact ⟨hroot,hj,hclock,hbits,htally⟩
  · intro h
    exact ⟨st,hopen,hproduces.mpr ⟨h.justified,h.stateRoot,h.bits,h.tally⟩⟩

end

section
attribute [local instance] mixPair

def devnetConfig : ChainConfig := ⟨262144,4096⟩

def soloState : State := genesisState 0 [default]
def soloAnchor : Block := genesisAnchorBlock soloState
def soloTurn : ValidatorIndex := roundRobin (successor soloAnchor.slot) soloState.numValidators

theorem anchor_usable_solo :
    ∃ st, Store.fromAnchor soloState soloAnchor = .ok st ∧ ∃ produced t,
      produceBlock default (successor soloAnchor.slot) soloTurn st = .ok produced t := by
  obtain ⟨hload,hanchor,hheader,hcycle,hbits,htally⟩ :
      (loadOrSynthesizeState (.synthesized 0 [default]) devnetConfig).toOption = some soloState ∧
      (anchorBlockForState soloState).toOption = some soloAnchor ∧
      hashTreeRoot soloState.latestBlockHeader ≠ hashTreeRoot soloAnchor ∧
      (∀ st ∈ (Store.fromAnchor soloState soloAnchor).toOption, ∀ b ∈ soloAnchor :: Tables.values
        (after (produceBlock default (successor soloAnchor.slot) soloTurn) st).blocks,
          hashTreeRoot b ≠ soloAnchor.parentRoot) ∧
      soloState.justifiedSlots.len < historicalRootsLimit ∧
      soloState.justificationsValidators.len =
        soloState.justificationsRoots.length*soloState.validators.length := by decide +kernel
  refine (anchor_usable default (toOption_eq_some.mp hload) (toOption_eq_some.mp hanchor)
    (by decide) (fun h => absurd h hheader) ?_).mpr ⟨.inl rfl,.inl rfl,by decide,hbits,htally⟩
  intro st hst
  exact hcycle st (toOption_eq_some.mpr hst)

def oneRoot : Bytes32 := ⟨1 :: List.replicate 31 0,by simp⟩

-- A header that is sealed already, a justified block that is not there, a slot past the range
-- of the clock, and a tally with a root that has no boxes.
def sealedState : State :=
  { soloState with latestBlockHeader := { soloState.latestBlockHeader with stateRoot := oneRoot } }
def orphanState : State := { soloState with latestJustified := ⟨oneRoot,Slot.zero⟩ }
def lateState : State :=
  { soloState with
    slot := Slot.ofNat (2^62)
    latestBlockHeader := { soloState.latestBlockHeader with slot := Slot.ofNat (2^62) } }
def lopsidedState : State := { soloState with justificationsRoots := [oneRoot] }

/-- All four are accepted; the last but one opens no store, and in the stores of the others
nobody can propose. -/
theorem anchor_unusable :
    (∀ state ∈ [sealedState,orphanState,lateState,lopsidedState],
      (loadOrSynthesizeState (.supplied state) devnetConfig).toOption = some state ∧
      state.historicalBlockHashes.length < historicalRootsLimit ∧
      ∃ block ∈ (anchorBlockForState state).toOption,
        ∀ st ∈ (Store.fromAnchor state block).toOption,
          (failure (produceBlock default (successor block.slot)
            (roundRobin (successor block.slot) state.numValidators)) st).isSome = true) ∧
    ∀ state ∈ [sealedState,orphanState,lopsidedState],
      ∃ block ∈ (anchorBlockForState state).toOption,
        (Store.fromAnchor state block).toOption.isSome = true := by
  decide +kernel

end

end Devnet.Cli
