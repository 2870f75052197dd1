import Devnet.Chain.Restart
import Devnet.Engine.Clock

/-!
What a node tells its peers about itself. The finalized checkpoint of a status is the field
of the store; where that field comes from is an invariant of the engine, broken by one of the
two ways to open it: a resume pins it to the persisted head.
-/

set_option autoImplicit false

namespace Devnet.Chain
open Machine Devnet.Types Devnet.Ssz Devnet.Protocol Devnet.ForkChoice Devnet.Engine
  Devnet.Storage Devnet.Duties

structure ChainSnapshot where
  headRoot : Bytes32
  currentSlot : Nat
  latestJustified : Checkpoint
  latestFinalized : Checkpoint

def ChainSnapshot.fromEngine (engine : Store) : ChainSnapshot :=
  ⟨engine.head,engine.currentSlot,engine.latestJustified,engine.latestFinalized⟩

structure Status where
  finalized : Checkpoint
  head : Checkpoint
  deriving DecidableEq

/-- The head's root goes with the slot of the clock. -/
def localStatus (self : Service) : Status :=
  let snap := ChainSnapshot.fromEngine self.engine
  ⟨snap.latestFinalized,⟨snap.headRoot,Slot.ofNat snap.currentSlot⟩⟩

def Service.hasBlock (self : Service) (fault : Fault) (root : Bytes32) : Except ChainError Bool :=
  (self.store.hasBlock fault root).mapError .storage

/-- The slot-0 anchor, the first block of the store; or what the post-state of a tracked block
has finalized. -/
inductive Genuine (st : Store) (c : Checkpoint) : Prop where
  | anchor {b : Block} (slot : c.slot = Slot.zero) (first : st.blockOrder.head? = some c.root)
      (hasBlock : st.blocks[c.root]? = some b) (low : b.slot = Slot.zero) : Genuine st c
  | finalized {r : Bytes32} {b : Block} {s : State} (hasBlock : st.blocks[r]? = some b)
      (hasState : st.states[r]? = some s) (finalizes : s.latestFinalized = c) : Genuine st c

structure Traceable (st : Store) : Prop where
  stated : ∀ r, r ∈ st.states ↔ r ∈ st.blocks
  finalized : Genuine st st.latestFinalized

theorem Genuine.sameTree {st t : Store} {c : Checkpoint} (h : Genuine st c) (hsame : SameTree st t) :
    Genuine t c := by
  cases h with
  | anchor slot first hasBlock low =>
    exact .anchor slot (hsame.blockOrder ▸ first) (hsame.blocks ▸ hasBlock) low
  | finalized hasBlock hasState finalizes =>
    exact .finalized (hsame.blocks ▸ hasBlock) (hsame.states ▸ hasState) finalizes

theorem Traceable.sameTree {st t : Store} (hsame : SameTree st t) (h : Traceable st) :
    Traceable t := by
  constructor
  · rw [hsame.states,hsame.blocks]
    exact h.stated
  · rw [hsame.latestFinalized]
    exact h.finalized.sameTree hsame

theorem Traceable.track {st : Store} {root : Bytes32} {block : Block} {post : State}
    (hnew : root ∉ st.blocks) (h : Traceable st) : Traceable (st.tracking root block post) := by
  obtain ⟨hblocks,hstates,horder,-,hfinalized⟩ := tracking_new hnew block post
  have hget := getElem?_tracking hnew block post root
  have hgrows := grows_tracking hnew (mt (h.stated root).mp hnew) block post
  have hkept : Genuine (st.tracking root block post) st.latestFinalized := by
    cases h.finalized with
    | anchor slot first hasBlock low =>
      refine .anchor slot ?_ (hgrows.blocks hasBlock) low
      rw [horder,List.head?_append,first]
      rfl
    | finalized hasBlock hasState finalizes =>
      exact .finalized (hgrows.blocks hasBlock) (hgrows.states hasState) finalizes
  constructor
  · intro r
    rw [hblocks,hstates,Std.ExtTreeMap.mem_insert,Std.ExtTreeMap.mem_insert,h.stated r]
  · rw [hfinalized,Store.adopted]
    split
    · rw [if_pos rfl,if_pos rfl] at hget
      exact .finalized hget.1 hget.2 rfl
    · exact hkept

section
variable [HashPair]

theorem stated_seedAnchor {state : State} {block : Block} {st : Store}
    {checkpoints : Bytes32 → Slot → Checkpoint × Checkpoint}
    (h : Store.seedAnchor state block checkpoints = .ok st) (r : Bytes32) :
    r ∈ st.states ↔ r ∈ st.blocks := by
  obtain ⟨-,time,rfl⟩ := seedAnchor_ok h
  simp

theorem traceable_fromAnchor {state : State} {block : Block} {st : Store}
    (h : Store.fromAnchor state block = .ok st) : Traceable st := by
  refine ⟨stated_seedAnchor h,?_⟩
  obtain ⟨-,time,rfl⟩ := seedAnchor_ok h
  change Genuine _ (normalizeGenesisCheckpoint state.latestFinalized block.slot (hashTreeRoot block))
  by_cases hzero : block.slot.isZero = true ∧ state.latestFinalized = default
  · have hslot : block.slot = Slot.zero := Slot.ext_get (by simpa [Slot.isZero,Slot.zero] using hzero.1)
    have hnormal : normalizeGenesisCheckpoint state.latestFinalized block.slot (hashTreeRoot block) =
        ⟨hashTreeRoot block,Slot.zero⟩ := if_pos hzero
    rw [hnormal]
    exact .anchor rfl rfl Std.ExtTreeMap.getElem?_insert_self hslot
  · have hkept : normalizeGenesisCheckpoint state.latestFinalized block.slot (hashTreeRoot block) =
        state.latestFinalized := if_neg hzero
    rw [hkept]
    exact .finalized Std.ExtTreeMap.getElem?_insert_self Std.ExtTreeMap.getElem?_insert_self rfl

theorem traceable_fromTrustedHead {state : State} {block : Block} {st : Store}
    (h : Store.fromTrustedHead state block = .ok st) (hslot : block.slot = Slot.zero) :
    Traceable st := by
  refine ⟨stated_seedAnchor h,?_⟩
  obtain ⟨-,time,rfl⟩ := seedAnchor_ok h
  exact .anchor hslot rfl Std.ExtTreeMap.getElem?_insert_self hslot

def ResumesLow (self : Node) : NodeEvent → Prop
  | .start faults => ∀ root state block,
      resumeAnchor faults self.store = .ok (some (root,state,block)) → block.slot = Slot.zero
  | _ => True

def liveQuiet (genesisState : State) (genesisBlock : Block) (e : NodeEvent) (self : Node) :
    Unit × Node := ((),liveFrom genesisState genesisBlock e self)

/-- What holds of a process that has just come up and is kept by every call of its service
holds of every process of a run. -/
theorem live_rule {genesisState : State} {genesisBlock : Block} {p : Node → NodeEvent → Prop}
    (I : Service → Prop)
    (hstart : ∀ {m faults engine store}, p m (.start faults) →
      buildEngine faults genesisState genesisBlock m.store = .ok engine store → I ⟨engine,store⟩)
    (hcall : ∀ (e : NodeEvent) {self : Service}, I self → I (perform e self))
    {store : RedbStore} {events : List NodeEvent} {outs : List Unit} {node : Node}
    (hrun : Run (fun m e out n => p m e ∧ liveQuiet genesisState genesisBlock e m = (out,n))
      ⟨none,store⟩ events outs node) {engine : Store} (hengine : node.engine = some engine) :
    I ⟨engine,node.store⟩ := by
  have hall : ∀ engine, node.engine = some engine → I ⟨engine,node.store⟩ := by
    refine hrun.preserves (fun node => ∀ engine, node.engine = some engine → I ⟨engine,node.store⟩)
      (by simp) ?_
    intro m e out n hm hstep
    obtain ⟨hp,hlive⟩ := hstep
    obtain rfl : liveFrom genesisState genesisBlock e m = n := congrArg Prod.snd hlive
    rcases liveFrom_cases genesisState genesisBlock e m with
      ⟨faults,engine,store',rfl,hbuild,heq⟩ | hnone | ⟨engine,hengine,heq⟩
    · rw [heq]
      intro _ hsome
      obtain rfl := Option.some.inj hsome
      exact hstart hp hbuild
    · simp [hnone]
    · rw [heq]
      intro _ hsome
      obtain rfl := Option.some.inj hsome
      exact hcall e (hm engine hengine)
  exact hall engine hengine

/-- In every run in which no start resumes above slot 0, the finalized checkpoint a node
advertises is the slot-0 anchor or finalized by the post-state of a tracked block. -/
theorem advertised_finality {genesisState : State} {genesisBlock : Block} {store : RedbStore}
    {events : List NodeEvent} {outs : List Unit} {node : Node}
    (hrun : Run (fun m e out n => ResumesLow m e ∧ liveQuiet genesisState genesisBlock e m = (out,n))
      ⟨none,store⟩ events outs node) :
    ∀ engine, node.engine = some engine →
      Genuine engine (localStatus ⟨engine,node.store⟩).finalized := by
  intro engine hengine
  have htraceable : Traceable (Service.mk engine node.store).engine := by
    refine live_rule (fun self => Traceable self.engine) ?_ ?_ hrun hengine
    · intro m faults engine store hlow hbuild
      rcases buildEngine_ok hbuild with ⟨root,state,block,hread,hopen,-,-⟩ | ⟨-,hopen,-⟩
      · exact traceable_fromTrustedHead hopen (hlow root state block hread)
      · exact traceable_fromAnchor hopen
    · intro e self h
      exact perform_preserves (handle_tree Traceable Traceable.sameTree Traceable.track) e h
  exact htraceable.finalized

end

section
attribute [local instance] mixPair

instance (self : Node) (e : NodeEvent) : Decidable (ResumesLow self e) :=
  match e with
  | .start faults => decidable_of_iff (∀ anchor ∈ (resumeAnchor faults self.store).toOption,
      ∀ pair ∈ anchor, pair.2.2.slot = Slot.zero) (by
        simp only [ResumesLow,Option.mem_def,toOption_eq_some]
        constructor
        · intro h root state block hread
          exact h _ hread _ rfl
        · rintro h _ hread ⟨root,state,block⟩ rfl
          exact h root state block hread)
  | .crash => isTrue trivial
  | .importBlock _ _ _ _ => isTrue trivial
  | .produceBlock _ _ _ _ _ => isTrue trivial
  | .importAttestation _ => isTrue trivial
  | .produceAttestation _ _ _ => isTrue trivial
  | .tickInterval _ => isTrue trivial

def livedQuiet (events : List NodeEvent) : Node :=
  (trace (liveQuiet (genesisState 0 [default]) (genesisAnchorBlock (genesisState 0 [default])))
    events ⟨none,RedbStore.empty⟩).2

theorem run_livedQuiet {p : Node → NodeEvent → Prop} {events : List NodeEvent}
    (h : Meets p (liveQuiet (genesisState 0 [default]) (genesisAnchorBlock (genesisState 0 [default])))
      events ⟨none,RedbStore.empty⟩) :
    ∃ outs, Run (fun m e out n => p m e ∧ liveQuiet (genesisState 0 [default])
      (genesisAnchorBlock (genesisState 0 [default])) e m = (out,n)) ⟨none,RedbStore.empty⟩ events
      outs (livedQuiet events) := ⟨_,run_meets h⟩

theorem trace_livedQuiet (events : List NodeEvent) :
    ∃ outs, Run (fun m e out n => liveQuiet (genesisState 0 [default])
      (genesisAnchorBlock (genesisState 0 [default])) e m = (out,n)) ⟨none,RedbStore.empty⟩ events
      outs (livedQuiet events) := ⟨_,run_trace _ _ _⟩

def finalizing : List NodeEvent :=
  [.start .none,.crash,.start .none,offered (mint soloStore genesisPoint.root 1 []),
    offered (mint line1 (tip line1).root 2 [soloVote genesisPoint (tip line1)]),
    offered (mint line2 (tip line2).root 3 [soloVote (tip line1) (tip line2)])]

theorem advertised_finality_line : ∃ engine, (livedQuiet finalizing).engine = some engine ∧
    (localStatus ⟨engine,(livedQuiet finalizing).store⟩).finalized = tip line1 ∧
    Genuine engine (tip line1) := by
  obtain ⟨hmeets,engine,hengine,hstatus⟩ :
      Meets ResumesLow (liveQuiet (genesisState 0 [default])
        (genesisAnchorBlock (genesisState 0 [default]))) finalizing ⟨none,RedbStore.empty⟩ ∧
      ∃ engine ∈ (livedQuiet finalizing).engine,
        (localStatus ⟨engine,(livedQuiet finalizing).store⟩).finalized = tip line1 := by
    decide +kernel
  obtain ⟨outs,hrun⟩ := run_livedQuiet hmeets
  have hgenuine := advertised_finality hrun engine hengine
  rw [hstatus] at hgenuine
  exact ⟨engine,hengine,hstatus,hgenuine⟩

def returning : List NodeEvent :=
  [.start .none,.produceBlock default (Slot.ofNat 1) default willing none,.crash,.start .none]

/-- After the restart the node advertises its head at slot 1 as finalized, which the only
post-state it has did not finalize. -/
theorem advertised_head : ∃ outs engine, Run (fun m e out n => liveQuiet (genesisState 0 [default])
      (genesisAnchorBlock (genesisState 0 [default])) e m = (out,n)) ⟨none,RedbStore.empty⟩ returning
      outs (livedQuiet returning) ∧ (livedQuiet returning).engine = some engine ∧
    (localStatus ⟨engine,(livedQuiet returning).store⟩).finalized.slot = Slot.ofNat 1 ∧
    ¬ Genuine engine (localStatus ⟨engine,(livedQuiet returning).store⟩).finalized := by
  obtain ⟨engine,hengine,hslot,hstates⟩ : ∃ engine ∈ (livedQuiet returning).engine,
      (localStatus ⟨engine,(livedQuiet returning).store⟩).finalized.slot = Slot.ofNat 1 ∧
      ∀ pair ∈ engine.states.toList, pair.2.latestFinalized.slot = Slot.zero := by decide +kernel
  obtain ⟨outs,hrun⟩ := trace_livedQuiet returning
  refine ⟨outs,engine,hrun,hengine,hslot,?_⟩
  have hhigh : (localStatus ⟨engine,(livedQuiet returning).store⟩).finalized.slot ≠ Slot.zero := by
    rw [hslot]
    decide
  intro hgenuine
  cases hgenuine with
  | anchor slot _ _ _ => exact hhigh slot
  | finalized _ hasState finalizes =>
    have hlow := hstates _ (Std.ExtTreeMap.mem_toList_iff_getElem?_eq_some.mpr hasState)
    rw [finalizes] at hlow
    exact hhigh hlow

end

end Devnet.Chain
