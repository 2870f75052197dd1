import Devnet.Chain.Aligned

/-!
Sync with one peer: whether to sync at all, the walk back from the peer's head, and how the
blocks it collected are imported. A walk asks the store on disk which blocks are known; the
engine decides about the imports. Other tasks go on meanwhile, so each round has its source.
-/

set_option autoImplicit false

namespace Devnet.Sync
open Machine Devnet.Types Devnet.Ssz Devnet.Protocol Devnet.ForkChoice Devnet.Engine
  Devnet.Storage Devnet.Duties Devnet.Chain

inductive SyncError where
  | chain (error : ChainError)
  | network (message : String)
  deriving DecidableEq

def shouldSync (own peer : Status) : Bool :=
  decide (own.finalized.slot.get < peer.finalized.slot.get) ||
    decide (own.head.slot.get < peer.head.slot.get)

inductive Hop where
  | block (signed : SignedBlockWithAttestation)
  | stop
  | abort

structure WalkSource where
  hasBlock : Bytes32 → Except SyncError Bool
  fetchHop : Bytes32 → Except SyncError Hop

/-- What one round of a walk meets. The walk may be cancelled before the round or while its
request is on the way. -/
structure WalkRound where
  cancelled : Bool
  source : WalkSource
  dropped : Bool

inductive StopReason where
  | zeroRoot
  | known
  | emptyResponse
  | depthCap
  deriving DecidableEq

/-- How a walk ends: where it stopped, why and with what; or with nothing to import. -/
inductive WalkEnd where
  | stopped (nextRoot : Bytes32) (reason : StopReason) (pending : List SignedBlockWithAttestation)
  | discarded
  | failed (error : SyncError)
  deriving DecidableEq

def WalkEnd.backlog : WalkEnd → Except SyncError (List SignedBlockWithAttestation)
  | .stopped _ _ pending => .ok pending
  | .discarded => .ok []
  | .failed error => .error error

def walkLoop (rounds : Nat → WalkRound) :
    Nat → Nat → Bytes32 → List SignedBlockWithAttestation → WalkEnd
  | 0, _, nextRoot, pending => .stopped nextRoot .depthCap pending
  | left+1, i, nextRoot, pending =>
    if (rounds i).cancelled = true then .discarded
    else if nextRoot = ByteVector.zero then .stopped nextRoot .zeroRoot pending
    else
      match (rounds i).source.hasBlock nextRoot with
      | .error _ => .discarded
      | .ok true => .stopped nextRoot .known pending
      | .ok false =>
        if (rounds i).dropped = true then .discarded
        else
          match (rounds i).source.fetchHop nextRoot with
          | .error error => .failed error
          | .ok (.block signed) =>
            walkLoop rounds left (i+1) signed.message.block.parentRoot (pending ++ [signed])
          | .ok .stop => .stopped nextRoot .emptyResponse pending
          | .ok .abort => .discarded

def walkBackWith (rounds : Nat → WalkRound) (maxDepth : Nat) (startRoot : Bytes32) :
    Except SyncError (List SignedBlockWithAttestation) :=
  (walkLoop rounds maxDepth 0 startRoot []).backlog

/-- The oldest block collected is a child of the root the walk stopped at, and a walk that
stopped at a known root was told so in one of its rounds. -/
theorem walkLoop_stopped {rounds : Nat → WalkRound} {left i : Nat} {root nextRoot : Bytes32}
    {reason : StopReason} {pending collected : List SignedBlockWithAttestation}
    (h : walkLoop rounds left i root pending = .stopped nextRoot reason collected)
    (hlast : ∀ oldest, pending.getLast? = some oldest → oldest.message.block.parentRoot = root) :
    (∀ oldest, collected.getLast? = some oldest → oldest.message.block.parentRoot = nextRoot) ∧
      (reason = .known → ∃ j, i ≤ j ∧ j < i+left ∧
        (rounds j).source.hasBlock nextRoot = .ok true) := by
  induction left generalizing i root pending with
  | zero =>
    simp only [walkLoop,WalkEnd.stopped.injEq] at h
    obtain ⟨rfl,rfl,rfl⟩ := h
    exact ⟨hlast,by simp⟩
  | succ left ih =>
    unfold walkLoop at h
    split at h
    · cases h
    · split at h
      · cases h
        exact ⟨hlast,by simp⟩
      · split at h
        · cases h
        · next hknown =>
          cases h
          exact ⟨hlast,fun _ => ⟨i,Nat.le_refl _,by omega,hknown⟩⟩
        · split at h
          · cases h
          · split at h
            · cases h
            · obtain ⟨hparent,hknown⟩ := ih h (by simp)
              refine ⟨hparent,fun hreason => ?_⟩
              obtain ⟨j,hij,hj,hanswer⟩ := hknown hreason
              exact ⟨j,by omega,by omega,hanswer⟩
            · cases h
              exact ⟨hlast,by simp⟩
            · cases h

theorem walkLoop_known {rounds : Nat → WalkRound} {left i : Nat} {root : Bytes32}
    (hlive : (rounds i).cancelled = false) (hknown : (rounds i).source.hasBlock root = .ok true)
    (pending : List SignedBlockWithAttestation) :
    (walkLoop rounds (left+1) i root pending).backlog = .ok pending := by
  by_cases hzero : root = ByteVector.zero
  · simp only [walkLoop,hlive,Bool.false_eq_true,if_false,if_pos hzero,WalkEnd.backlog]
  · simp only [walkLoop,hlive,Bool.false_eq_true,if_false,if_neg hzero,hknown,WalkEnd.backlog]

theorem walkLoop_next {rounds : Nat → WalkRound} {left i : Nat} {root : Bytes32}
    {signed : SignedBlockWithAttestation} (hlive : (rounds i).cancelled = false)
    (hroot : root ≠ ByteVector.zero) (hunknown : (rounds i).source.hasBlock root = .ok false)
    (hkept : (rounds i).dropped = false)
    (hfetch : (rounds i).source.fetchHop root = .ok (.block signed))
    (pending : List SignedBlockWithAttestation) :
    walkLoop rounds (left+1) i root pending =
      walkLoop rounds left (i+1) signed.message.block.parentRoot (pending ++ [signed]) := by
  simp only [walkLoop,hlive,hkept,Bool.false_eq_true,if_false,if_neg hroot,hunknown,hfetch]

/-- What a peer answers to a request: blocks, nothing in time, or a failure of the transport. -/
abbrev Peer := Bytes32 → Except String (Option (List SignedBlockWithAttestation))

/-- One import's turn: whether it is cancelled, and what the backend answers. -/
structure ImportTurn where
  cancelled : Bool
  fault : Fault

section
variable [HashPair]

def validateSingleRootResponse (blocks : List SignedBlockWithAttestation) (requested : Bytes32) :
    Except String (Option SignedBlockWithAttestation) :=
  match blocks with
  | [] => .ok none
  | [block] =>
    if hashTreeRoot block.message.block = requested then .ok (some block)
    else .error "returned block hash does not match requested root"
  | _ => .error "more than one block for single-root request"

def p2pWalkSource (chain : Service) (fault : Fault) (peer : Peer) : WalkSource where
  hasBlock root := (chain.hasBlock fault root).mapError .chain
  fetchHop root :=
    match peer root with
    | .error message => .error (.network message)
    | .ok none => .ok .abort
    | .ok (some blocks) =>
      match validateSingleRootResponse blocks root with
      | .ok (some block) => .ok (.block block)
      | .ok none => .ok .stop
      | .error _ => .ok .abort

def still (chain : Service) (peer : Peer) : Nat → WalkRound :=
  fun _ => ⟨false,p2pWalkSource chain none peer,false⟩

/-- A failure of one import does not keep the others from being tried. -/
def importLoop (verifier : Option Verifier) (turns : Nat → ImportTurn) :
    Nat → List SignedBlockWithAttestation → Service → Service
  | _, [], chain => chain
  | i, block :: rest, chain =>
    if (turns i).cancelled = true then chain
    else importLoop verifier turns (i+1) rest
      (after (importBlockSynced verifier block (turns i).fault) chain)

def importChain (verifier : Option Verifier) (turns : Nat → ImportTurn)
    (blocks : List SignedBlockWithAttestation) (chain : Service) : Service :=
  importLoop verifier turns 0 blocks.reverse chain

def Headed (st : Store) : Prop := st.head ∈ st.blocks

theorem Headed.handle (e : Event) {st : Store} (h : Headed st) : Headed (handle e st) := by
  refine handle_rule Headed ?_ ?_ ?_ e h
  · intro st vote h
    exact h
  · intro st t htouch h
    cases htouch with
    | head votes selects => exact getForkChoiceHead_mem selects
    | _ => exact h
  · intro st block post hnew h
    rw [Headed,(tracking_frame st _ block post).2.2.1,(tracking_new hnew block post).1]
    exact Std.ExtTreeMap.mem_insert.mpr (.inr h)

theorem headed_seedAnchor {state : State} {block : Block} {st : Store}
    {checkpoints : Bytes32 → Slot → Checkpoint × Checkpoint}
    (h : Store.seedAnchor state block checkpoints = .ok st) : Headed st := by
  obtain ⟨-,time,rfl⟩ := seedAnchor_ok h
  exact Std.ExtTreeMap.mem_insert_self

theorem headed_live {genesisState : State} {genesisBlock : Block} {store : RedbStore}
    {events : List NodeEvent} {outs : List Unit} {node : Node}
    (hrun : Run (fun m e out n => liveQuiet genesisState genesisBlock e m = (out,n))
      ⟨none,store⟩ events outs node) {engine : Store} (hengine : node.engine = some engine) :
    Headed engine := by
  have hfree := hrun.imp (fun hs => And.intro trivial hs)
  refine live_rule (p := fun _ _ => True) (fun self => Headed self.engine) ?_ ?_ hfree hengine
  · intro m faults engine store' _ hbuild
    rcases buildEngine_ok hbuild with ⟨root,state,block,-,hopen,-,-⟩ | ⟨-,hopen,-⟩
    · exact headed_seedAnchor hopen
    · exact headed_seedAnchor hopen
  · intro e self h
    exact perform_preserves Headed.handle e h

omit [HashPair] in
theorem slot_localStatus (self : Service) :
    (localStatus self).head.slot.get = self.engine.currentSlot := by
  -- The status carries the slot of the clock, which always fits.
  refine Slot.get_ofNat ?_
  exact Nat.lt_of_le_of_lt (Nat.div_le_self _ _) self.engine.time.isLt

/-- For two nodes of any run, a peer whose head block is ahead triggers a sync exactly when
its clock or its finalized checkpoint is ahead too. -/
theorem sync_triggered {state peerState : State} {block peerBlock : Block}
    {store peerStore : RedbStore} {events peerEvents : List NodeEvent} {outs peerOuts : List Unit}
    {node peer : Node}
    (hrun : Run (fun m e out n => liveQuiet state block e m = (out,n)) ⟨none,store⟩ events outs node)
    (hpeer : Run (fun m e out n => liveQuiet peerState peerBlock e m = (out,n)) ⟨none,peerStore⟩
      peerEvents peerOuts peer)
    {engine peerEngine : Store} (hengine : node.engine = some engine)
    (hpeerEngine : peer.engine = some peerEngine) :
    ∃ head peerHead, engine.blocks[engine.head]? = some head ∧
      peerEngine.blocks[peerEngine.head]? = some peerHead ∧
      ((head.slot.get < peerHead.slot.get → shouldSync (localStatus ⟨engine,node.store⟩)
          (localStatus ⟨peerEngine,peer.store⟩) = true) ↔
        peerHead.slot.get ≤ head.slot.get ∨ engine.currentSlot < peerEngine.currentSlot ∨
          engine.latestFinalized.slot.get < peerEngine.latestFinalized.slot.get) := by
  obtain ⟨head,hhead⟩ := get_of_mem (headed_live hrun hengine)
  obtain ⟨peerHead,hpeerHead⟩ := get_of_mem (headed_live hpeer hpeerEngine)
  refine ⟨head,peerHead,hhead,hpeerHead,?_⟩
  have hsync : shouldSync (localStatus ⟨engine,node.store⟩) (localStatus ⟨peerEngine,peer.store⟩) =
      true ↔ engine.latestFinalized.slot.get < peerEngine.latestFinalized.slot.get ∨
        engine.currentSlot < peerEngine.currentSlot := by
    rw [shouldSync,Bool.or_eq_true,decide_eq_true_eq,decide_eq_true_eq,slot_localStatus,
      slot_localStatus]
    exact Iff.rfl
  rw [hsync]
  constructor
  · intro h
    by_cases hahead : head.slot.get < peerHead.slot.get
    · exact .inr (h hahead).symm
    · exact .inl (Nat.le_of_not_lt hahead)
  · intro h hahead
    rcases h with hbehind | hahead'
    · omega
    · exact hahead'.symm

theorem synced_missing {verifier : Option Verifier} {signed : SignedBlockWithAttestation}
    {fault : Fault} {chain t : Service} {root parent : Bytes32}
    (h : importBlockSynced verifier signed fault chain = .ok (.missingParent root parent) t) :
    signed.message.block.parentRoot ∉ chain.engine.states := by
  obtain ⟨outcome,plan,engine,hrun,⟨-,heq⟩ | ⟨haccepted,⟨_,-,heq⟩ | ⟨captured,-,heq⟩⟩⟩ :=
    importCapturing_cases chain verifier signed .skip fault
  · rw [importBlockSynced,heq] at h
    obtain ⟨rfl,-⟩ := EStateM.Result.ok.inj h
    have hmissing := parent_missing (congrArg (fun result => result.1.1) hrun)
    intro hmem
    obtain ⟨state,hstate⟩ := get_of_mem hmem
    simp [hstate] at hmissing
  · rw [importBlockSynced,heq] at h
    cases h
  · rw [importBlockSynced,heq] at h
    obtain ⟨_,m,-,hpure⟩ := estate_bind_ok.mp h
    obtain ⟨rfl,-⟩ := estate_pure_ok.mp hpure
    simp [BlockImportResult.isAccepted] at haccepted

/-- In every run whose starts find nothing on disk besides the anchor, a walk that stops at a
known root stops at a tracked one. Whatever comes in meanwhile, the oldest block it collected
then finds its parent. -/
theorem walk_meets_engine {genesisState : State} {genesisBlock : Block} {store : RedbStore}
    {events : List NodeEvent} {outs : List Unit} {node : Node} {engine : Store}
    (hrun : Run (fun m e out n => CleanStart genesisBlock m e ∧
      liveQuiet genesisState genesisBlock e m = (out,n)) ⟨none,store⟩ events outs node)
    (hengine : node.engine = some engine) (chain : Nat → Service)
    (hfirst : chain 0 = ⟨engine,node.store⟩)
    (hcalls : ∀ i, ∃ calls, chain (i+1) = performAll calls (chain i))
    {rounds : Nat → WalkRound} (fault : Nat → Fault) (peer : Nat → Peer)
    (hsource : ∀ i, (rounds i).source = p2pWalkSource (chain i) (fault i) (peer i))
    {maxDepth : Nat} {startRoot nextRoot : Bytes32} {pending : List SignedBlockWithAttestation}
    (hwalk : walkLoop rounds maxDepth 0 startRoot [] = .stopped nextRoot .known pending) :
    ∃ i, i < maxDepth ∧ nextRoot ∈ (chain i).engine.blocks ∧
      ∀ j, i ≤ j → ∀ oldest, pending.reverse.head? = some oldest →
        ∀ verifier fault root parent t,
          importBlockSynced verifier oldest fault (chain j) ≠ .ok (.missingParent root parent) t := by
  have haligned : ∀ i, Aligned (chain i) := by
    intro i
    induction i with
    | zero =>
      rw [hfirst]
      exact aligned_live hrun hengine
    | succ i ih =>
      obtain ⟨calls,hnext⟩ := hcalls i
      rw [hnext]
      exact ih.performAll calls
  have hgrows : ∀ {r i j}, i ≤ j → r ∈ (chain i).engine.blocks → r ∈ (chain j).engine.blocks := by
    intro r i j hij hr
    induction hij with
    | refl => exact hr
    | @step j _ ih =>
      obtain ⟨calls,hnext⟩ := hcalls j
      rw [hnext]
      exact mem_performAll calls ih
  obtain ⟨hparent,hknown⟩ := walkLoop_stopped hwalk (by simp)
  obtain ⟨i,-,hi,hanswer⟩ := hknown rfl
  have htracked : nextRoot ∈ (chain i).engine.blocks := by
    refine (haligned i).saved nextRoot ?_
    rw [hsource i] at hanswer
    cases hfault : fault i with
    | some e => simp [p2pWalkSource,Service.hasBlock,RedbStore.hasBlock,RedbStore.inReadTxn,hfault,
        Except.mapError] at hanswer
    | none => simpa [p2pWalkSource,Service.hasBlock,RedbStore.hasBlock,RedbStore.inReadTxn,hfault,
        Except.mapError] using hanswer
  refine ⟨i,by omega,htracked,?_⟩
  intro j hij oldest holdest verifier fault root parent t himport
  rw [List.head?_reverse] at holdest
  have hmissing := synced_missing himport
  rw [hparent oldest holdest] at hmissing
  exact hmissing (((haligned j).stated nextRoot).mpr (hgrows hij htracked))

def syncWithPeer (verifier : Option Verifier) (rounds : Nat → WalkRound) (turns : Nat → ImportTurn)
    (maxDepth : Nat) (startRoot : Bytes32) (chain : Service) : Service :=
  match walkBackWith rounds maxDepth startRoot with
  | .error _ => chain
  | .ok pending => importChain verifier turns pending chain

end

section
attribute [local instance] mixPair

def ticks (n : Nat) : List NodeEvent := List.replicate n (.tickInterval false)

def idle : List NodeEvent := .start .none :: ticks 8
def busy : List NodeEvent := .start .none :: offered (mint soloStore genesisPoint.root 1 []) :: ticks 8

theorem sync_triggered_late : ∃ engine peerEngine, (livedQuiet [.start .none]).engine = some engine ∧
    (livedQuiet busy).engine = some peerEngine ∧
    shouldSync (localStatus ⟨engine,(livedQuiet [.start .none]).store⟩)
      (localStatus ⟨peerEngine,(livedQuiet busy).store⟩) = true := by
  obtain ⟨engine,hengine,peerEngine,hpeerEngine,hclock,hslots⟩ :
      ∃ engine ∈ (livedQuiet [.start .none]).engine, ∃ peerEngine ∈ (livedQuiet busy).engine,
        engine.currentSlot < peerEngine.currentSlot ∧
        slotOf engine.blocks engine.head < slotOf peerEngine.blocks peerEngine.head := by
    decide +kernel
  obtain ⟨outs,hrun⟩ := trace_livedQuiet [.start .none]
  obtain ⟨peerOuts,hpeer⟩ := trace_livedQuiet busy
  obtain ⟨head,peerHead,hhead,hpeerHead,hiff⟩ := sync_triggered hrun hpeer hengine hpeerEngine
  rw [slotOf_of_get hhead,slotOf_of_get hpeerHead] at hslots
  exact ⟨engine,peerEngine,hengine,hpeerEngine,hiff.mpr (.inr (.inl hclock)) hslots⟩

/-- With clocks that agree, the node without the block does not ask for it. -/
theorem sync_untriggered : ∃ engine peerEngine head peerHead,
    (livedQuiet idle).engine = some engine ∧ (livedQuiet busy).engine = some peerEngine ∧
    engine.blocks[engine.head]? = some head ∧ peerEngine.blocks[peerEngine.head]? = some peerHead ∧
    head.slot.get < peerHead.slot.get ∧
    shouldSync (localStatus ⟨engine,(livedQuiet idle).store⟩)
      (localStatus ⟨peerEngine,(livedQuiet busy).store⟩) = false := by
  obtain ⟨engine,hengine,peerEngine,hpeerEngine,head,hhead,peerHead,hpeerHead,hslots,hsync⟩ :
      ∃ engine ∈ (livedQuiet idle).engine, ∃ peerEngine ∈ (livedQuiet busy).engine,
        ∃ head ∈ engine.blocks[engine.head]?, ∃ peerHead ∈ peerEngine.blocks[peerEngine.head]?,
        head.slot.get < peerHead.slot.get ∧
        shouldSync (localStatus ⟨engine,(livedQuiet idle).store⟩)
          (localStatus ⟨peerEngine,(livedQuiet busy).store⟩) = false := by decide +kernel
  exact ⟨engine,peerEngine,head,peerHead,hengine,hpeerEngine,hhead,hpeerHead,hslots,hsync⟩

def branch : SignedBlockWithAttestation := ⟨⟨mint line1 (tip line1).root 3 [],default⟩,[]⟩

def branchPeer : Peer := fun _ => .ok (some [branch])

def branchRoot : Bytes32 := hashTreeRoot branch.message.block

def growing : List NodeEvent := [.start .none,offered (mint soloStore genesisPoint.root 1 [])]
def regrown : List NodeEvent :=
  growing ++ [offered (mint line1 (tip line1).root 2 []),.crash,.start .none]

theorem walk_meets_engine_branch : ∃ engine, (livedQuiet growing).engine = some engine ∧
    walkLoop (still ⟨engine,(livedQuiet growing).store⟩ branchPeer) 64 0 branchRoot [] =
      .stopped (tip line1).root .known [branch] ∧
    (tip line1).root ∈ engine.blocks ∧ ∀ root parent t,
      importBlockSynced none branch none ⟨engine,(livedQuiet growing).store⟩ ≠
        .ok (.missingParent root parent) t := by
  obtain ⟨hmeets,engine,hengine,hwalk⟩ :
      Meets (CleanStart (genesisAnchorBlock (genesisState 0 [default]))) (liveQuiet
        (genesisState 0 [default]) (genesisAnchorBlock (genesisState 0 [default]))) growing
        ⟨none,RedbStore.empty⟩ ∧
      ∃ engine ∈ (livedQuiet growing).engine,
        walkLoop (still ⟨engine,(livedQuiet growing).store⟩ branchPeer) 64 0 branchRoot [] =
          .stopped (tip line1).root .known [branch] := by decide +kernel
  obtain ⟨outs,hrun⟩ := run_livedQuiet hmeets
  obtain ⟨i,-,htracked,himports⟩ := walk_meets_engine hrun hengine
    (fun _ => ⟨engine,(livedQuiet growing).store⟩) rfl (fun _ => ⟨[],rfl⟩) (fun _ => none)
    (fun _ => branchPeer) (fun _ => rfl) hwalk
  exact ⟨engine,hengine,hwalk,htracked,fun root parent t =>
    himports i (Nat.le_refl _) branch rfl none none root parent t⟩

/-- After the restart the disk still has the block of slot 1 and the walk stops there; the
engine does not, and the import fails. -/
theorem walk_misses_engine : ∃ outs engine, Run (fun m e out n => liveQuiet (genesisState 0 [default])
      (genesisAnchorBlock (genesisState 0 [default])) e m = (out,n)) ⟨none,RedbStore.empty⟩ regrown
      outs (livedQuiet regrown) ∧ (livedQuiet regrown).engine = some engine ∧
    walkLoop (still ⟨engine,(livedQuiet regrown).store⟩ branchPeer) 64 0 branchRoot [] =
      .stopped (tip line1).root .known [branch] ∧
    (tip line1).root ∉ engine.blocks ∧
    (returned (importBlockSynced none branch none) ⟨engine,(livedQuiet regrown).store⟩).toOption =
      some (.missingParent branchRoot (tip line1).root) := by
  obtain ⟨engine,hengine,hwalk,hmissing,himport⟩ : ∃ engine ∈ (livedQuiet regrown).engine,
      walkLoop (still ⟨engine,(livedQuiet regrown).store⟩ branchPeer) 64 0 branchRoot [] =
        .stopped (tip line1).root .known [branch] ∧
      (tip line1).root ∉ engine.blocks ∧
      (returned (importBlockSynced none branch none) ⟨engine,(livedQuiet regrown).store⟩).toOption =
        some (.missingParent branchRoot (tip line1).root) := by decide +kernel
  obtain ⟨outs,hrun⟩ := trace_livedQuiet regrown
  exact ⟨outs,engine,hrun,hengine,hwalk,hmissing,himport⟩

end

end Devnet.Sync
