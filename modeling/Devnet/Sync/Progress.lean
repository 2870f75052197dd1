import Devnet.Engine.Imports
import Devnet.Sync.Walk

/-!
Sync with an honest peer, round after round. Every walk starts at the peer's head again and
takes no more blocks than the cap allows. A chain that fits under the cap is imported in one
round; of a longer one every round collects the same newest blocks, none of which connects.
-/

set_option autoImplicit false

namespace Devnet.Sync
open Machine Devnet.Types Devnet.Ssz Devnet.Protocol Devnet.ForkChoice Devnet.Engine
  Devnet.Storage Devnet.Duties Devnet.Chain

section
variable [HashPair]

def rootOf (signed : SignedBlockWithAttestation) : Bytes32 := hashTreeRoot signed.message.block

/-- Blocks one after another on top of a pair, each of which an import would accept there. -/
inductive Continues : Bytes32 → State → List SignedBlockWithAttestation → Prop where
  | nil (root : Bytes32) (state : State) : Continues root state []
  | cons {root : Bytes32} {state post : State} {signed : SignedBlockWithAttestation}
      {rest : List SignedBlockWithAttestation} (parent : signed.message.block.parentRoot = root)
      (capped : preCheckOverCap signed.signature signed.message.block.body.attestations = .ok ())
      (transition : state.stateTransition signed true = .ok post)
      (later : Continues (rootOf signed) post rest) : Continues root state (signed :: rest)

def tipRoot (base : Bytes32) : List SignedBlockWithAttestation → Bytes32
  | [] => base
  | signed :: _ => rootOf signed

/-- Newest first, each block on the one after it and the last on the base. -/
def Descends (base : Bytes32) : List SignedBlockWithAttestation → Prop
  | [] => True
  | signed :: older => signed.message.block.parentRoot = tipRoot base older ∧ Descends base older

theorem descends_append {base : Bytes32} {newer older : List SignedBlockWithAttestation}
    (hnewer : Descends (tipRoot base older) newer) (holder : Descends base older) :
    Descends base (newer ++ older) := by
  induction newer with
  | nil => exact holder
  | cons signed rest ih =>
    refine ⟨?_,ih hnewer.2⟩
    cases rest with
    | nil => exact hnewer.1
    | cons next rest => exact hnewer.1

theorem Continues.descends {root : Bytes32} {state : State} {chain : List SignedBlockWithAttestation}
    (h : Continues root state chain) : Descends root chain.reverse := by
  induction h with
  | nil => trivial
  | cons parent _ _ _ ih =>
    rw [List.reverse_cons]
    exact descends_append ih ⟨parent,trivial⟩

theorem Continues.parents {root : Bytes32} {state : State} {chain : List SignedBlockWithAttestation}
    (h : Continues root state chain) :
    ∀ signed ∈ chain.tail, ∃ before ∈ chain, signed.message.block.parentRoot = rootOf before := by
  induction h with
  | nil => simp
  | @cons root state post first rest _ _ _ later ih =>
    intro signed hsigned
    rw [List.tail_cons] at hsigned
    cases later with
    | nil => simp at hsigned
    | @cons _ _ _ second rest parent _ _ _ =>
      rcases List.mem_cons.mp hsigned with rfl | hsigned
      · exact ⟨first,List.mem_cons_self,parent⟩
      · obtain ⟨before,hbefore,hroot⟩ := ih signed hsigned
        exact ⟨before,List.mem_cons_of_mem _ hbefore,hroot⟩

theorem Continues.slots {root : Bytes32} {state : State} {chain : List SignedBlockWithAttestation}
    (h : Continues root state chain) :
    ∀ signed ∈ chain, state.slot.get < signed.message.block.slot.get := by
  induction h with
  | nil => simp
  | cons _ _ transition _ ih =>
    obtain ⟨⟨_,hextends⟩,-⟩ := stateTransition_extends transition
    intro signed hsigned
    rcases List.mem_cons.mp hsigned with rfl | hsigned
    · exact hextends.later
    · have hlater := ih signed hsigned
      rw [hextends.slot] at hlater
      exact Nat.lt_trans hextends.later hlater

theorem walk_collects {chain : Service} {peer : Peer} {base : Bytes32}
    (hbase : base ∈ chain.store.blocks) {blocks : List SignedBlockWithAttestation}
    (hdescends : Descends base blocks)
    (hunknown : ∀ signed ∈ blocks, rootOf signed ∉ chain.store.blocks)
    (hnonzero : ∀ signed ∈ blocks, rootOf signed ≠ ByteVector.zero)
    (hserves : ∀ signed ∈ blocks, peer (rootOf signed) = .ok (some [signed]))
    (left i : Nat) (pending : List SignedBlockWithAttestation) :
    (walkLoop (still chain peer) left i (tipRoot base blocks) pending).backlog =
      .ok (pending ++ blocks.take left) := by
  induction left generalizing i blocks pending with
  | zero => simp [walkLoop,WalkEnd.backlog]
  | succ left ih =>
    cases blocks with
    | nil =>
      have hknown : (still chain peer i).source.hasBlock base = .ok true :=
        congrArg Except.ok (Std.ExtTreeMap.contains_iff_mem.mpr hbase)
      rw [tipRoot,walkLoop_known rfl hknown,List.take_nil,List.append_nil]
    | cons signed older =>
      have hunknown' : (still chain peer i).source.hasBlock (rootOf signed) = .ok false :=
        congrArg Except.ok (Bool.eq_false_iff.mpr
          (mt Std.ExtTreeMap.contains_iff_mem.mp (hunknown signed List.mem_cons_self)))
      have hvalid : validateSingleRootResponse [signed] (rootOf signed) = .ok (some signed) :=
        if_pos rfl
      have hfetch : (still chain peer i).source.fetchHop (rootOf signed) = .ok (.block signed) := by
        simp only [still,p2pWalkSource,hserves signed List.mem_cons_self,hvalid]
      rw [tipRoot,walkLoop_next rfl (hnonzero signed List.mem_cons_self) hunknown' rfl hfetch,
        hdescends.1,ih hdescends.2 (fun s hs => hunknown s (List.mem_cons_of_mem _ hs))
          (fun s hs => hnonzero s (List.mem_cons_of_mem _ hs))
          (fun s hs => hserves s (List.mem_cons_of_mem _ hs)),List.append_assoc]
      rfl

def smooth : Nat → ImportTurn := fun _ => ⟨false,none⟩

theorem engine_synced (verifier : Option Verifier) (signed : SignedBlockWithAttestation)
    (fault : Fault) (chain : Service) :
    (after (importBlockSynced verifier signed fault) chain).engine =
      (importBlockCapturingInner verifier signed .skip chain.engine).2 :=
  engine_importCapturing verifier signed .skip fault chain

theorem synced_unconnected {signed : SignedBlockWithAttestation} {chain : Service}
    (h : signed.message.block.parentRoot ∉ chain.engine.states) (verifier : Option Verifier)
    (fault : Fault) : after (importBlockSynced verifier signed fault) chain = chain := by
  have hnone : ∀ parent, ¬ Importable verifier signed .skip chain.engine parent :=
    fun parent himportable => h (mem_of_get himportable.hasParent)
  rcases importBlock_cases verifier signed .skip chain.engine with
    ⟨outcome,hout,-,heq⟩ | ⟨parent,_,_,himportable,-,-⟩ | ⟨parent,_,_,himportable,-,-⟩
  · obtain ⟨_,_,_,hrun,⟨-,hsynced⟩ | ⟨haccepted,-⟩⟩ :=
      importCapturing_cases chain verifier signed .skip fault
    · simp only [heq,Prod.mk.injEq] at hrun
      obtain ⟨⟨-,-⟩,rfl⟩ := hrun
      exact after_of_ok hsynced
    · simp only [heq,Prod.mk.injEq] at hrun
      obtain ⟨⟨rfl,-⟩,-⟩ := hrun
      simp [hout] at haccepted
  · exact absurd himportable (hnone parent)
  · exact absurd himportable (hnone parent)

theorem importLoop_unconnected (verifier : Option Verifier) {chain : Service}
    {blocks : List SignedBlockWithAttestation}
    (h : ∀ signed ∈ blocks, signed.message.block.parentRoot ∉ chain.engine.states) (i : Nat) :
    importLoop verifier smooth i blocks chain = chain := by
  induction blocks generalizing i with
  | nil => rfl
  | cons signed rest ih =>
    rw [importLoop,if_neg (by simp [smooth]),
      synced_unconnected (h signed List.mem_cons_self)]
    exact ih (fun s hs => h s (List.mem_cons_of_mem _ hs)) (i+1)

theorem mem_importLoop {verifier : Option Verifier} {turns : Nat → ImportTurn} {r : Bytes32}
    (blocks : List SignedBlockWithAttestation) (i : Nat) {chain : Service}
    (h : r ∈ chain.engine.blocks) :
    r ∈ (importLoop verifier turns i blocks chain).engine.blocks := by
  induction blocks generalizing i chain with
  | nil => exact h
  | cons signed rest ih =>
    rw [importLoop]
    split
    · exact h
    · refine ih (i+1) ?_
      rw [engine_synced]
      exact mem_handle r (.importBlock verifier signed .skip) h

theorem engine_connected {held : List Block} {st : Store} (hlife : Lives held st)
    {signed : SignedBlockWithAttestation} (hsound : Sound (held ++ [signed.message.block]))
    {verifier : Option Verifier} {parent post : State}
    (himportable : Importable verifier signed .skip st parent)
    (htrans : parent.stateTransition signed true = .ok post) (r : Bytes32) :
    (importBlockCapturingInner verifier signed .skip st).2.blocks[r]? =
      (if rootOf signed = r then some signed.message.block else st.blocks[r]?) ∧
    (importBlockCapturingInner verifier signed .skip st).2.states[r]? =
      (if rootOf signed = r then some post else st.states[r]?) := by
  obtain ⟨anchor,hgrounded⟩ := hlife.grounded (fun _ => List.mem_append_left _) hsound
  obtain ⟨head,plan,t,heq,hsame⟩ := hgrounded.importBlock_accepted hsound (by simp) himportable htrans
  rw [heq,hsame.blocks,hsame.states]
  exact getElem?_tracking himportable.fresh signed.message.block post r

theorem importLoop_connected (verifier : Option Verifier) {root : Bytes32} {state : State}
    {blocks : List SignedBlockWithAttestation} (h : Continues root state blocks)
    {held : List Block} {chain : Service} (hlife : Lives held chain.engine)
    (hsound : Sound (held ++ blocks.map (·.message.block)))
    (hbase : chain.engine.states[root]? = some state)
    (hfresh : ∀ signed ∈ blocks, rootOf signed ∉ chain.engine.blocks) (i : Nat) :
    ∀ signed ∈ blocks, rootOf signed ∈ (importLoop verifier smooth i blocks chain).engine.blocks := by
  induction h generalizing held chain i with
  | nil => simp
  | @cons root state post first rest parent capped transition later ih =>
    have himportable : Importable verifier first .skip chain.engine state :=
      ⟨hfresh first List.mem_cons_self,capped,parent ▸ hbase,by simp [VerifyPolicy.enforces]⟩
    have hfirst : Sound (held ++ [first.message.block]) := by
      refine hsound.mono fun b hb => ?_
      rcases List.mem_append.mp hb with hb | hb
      · exact List.mem_append_left _ hb
      · exact List.mem_append_right _ (by simp_all)
    have hget := engine_connected hlife hfirst himportable transition
    have hnext := engine_synced verifier first none chain
    generalize hafter : after (importBlockSynced verifier first none) chain = next at hnext
    rw [← hnext] at hget
    have hlater := hlife.event (.importBlock verifier first .skip)
    rw [handle,← hnext] at hlater
    -- The later blocks are at later slots, so none of them is the first.
    have hdistinct : ∀ signed ∈ rest, rootOf first ≠ rootOf signed := by
      intro signed hsigned heq
      obtain ⟨⟨_,hextends⟩,-⟩ := stateTransition_extends transition
      have hslot := later.slots signed hsigned
      have hsame := hsound.injective first.message.block (by simp) signed.message.block
        (List.mem_append_right _ (List.mem_map_of_mem (List.mem_cons_of_mem _ hsigned))) heq
      rw [hextends.slot,hsame] at hslot
      omega
    have hloop : importLoop verifier smooth i (first :: rest) chain =
        importLoop verifier smooth (i+1) rest next := by
      rw [importLoop,if_neg (by simp [smooth]),← hafter]
      rfl
    have hrest := ih hlater ?_ ?_ ?_ (i+1)
    · rw [hloop]
      intro signed hsigned
      rcases List.mem_cons.mp hsigned with rfl | hsigned
      · refine mem_importLoop rest (i+1) (mem_of_get (v := signed.message.block) ?_)
        rw [(hget _).1,if_pos rfl]
      · exact hrest signed hsigned
    · refine hsound.mono fun b hb => ?_
      rcases List.mem_append.mp hb with hb | hb
      · rcases List.mem_append.mp hb with hb | hb
        · exact List.mem_append_left _ hb
        · obtain ⟨r,hr⟩ := Tables.mem_values.mp hb
          rw [(hget r).1] at hr
          split at hr
          · exact List.mem_append_right _ (by simp_all)
          · obtain ⟨_,hlinked⟩ := hlife.linked
            exact List.mem_append_left _ (hlinked.kept hr)
      · exact List.mem_append_right _ (by simp_all)
    · rw [(hget _).2,if_pos rfl]
    · intro signed hsigned hmem
      obtain ⟨b,hb⟩ := get_of_mem hmem
      rw [(hget _).1,if_neg (hdistinct signed hsigned)] at hb
      exact hfresh signed (List.mem_cons_of_mem _ hsigned) (mem_of_get hb)

def syncRound (verifier : Option Verifier) (maxDepth : Nat) (peer : Peer) (startRoot : Bytes32)
    (chain : Service) : Service :=
  syncWithPeer verifier (still chain peer) smooth maxDepth startRoot chain

def Even (chain : Service) : Prop := ∀ r, r ∈ chain.store.blocks ↔ r ∈ chain.engine.blocks

theorem mem_syncRound {verifier : Option Verifier} {maxDepth : Nat} {peer : Peer}
    {startRoot r : Bytes32} {chain : Service} (h : r ∈ chain.engine.blocks) :
    r ∈ (syncRound verifier maxDepth peer startRoot chain).engine.blocks := by
  unfold syncRound syncWithPeer
  split
  · exact h
  · exact mem_importLoop _ 0 h

/-- As long as a block is missing each round brings one in, and there are no more rounds than
blocks. -/
structure Progresses (round : Service → Service) (chain : Service)
    (blocks : List SignedBlockWithAttestation) : Prop where
  step : ∀ k, (∃ signed ∈ blocks, rootOf signed ∉ (round^[k] chain).engine.blocks) →
    ∃ signed ∈ blocks, rootOf signed ∉ (round^[k] chain).engine.blocks ∧
      rootOf signed ∈ (round^[k+1] chain).engine.blocks
  done : ∀ signed ∈ blocks, rootOf signed ∈ (round^[blocks.length] chain).engine.blocks

theorem progresses_of_round {round : Service → Service} {chain : Service}
    {blocks : List SignedBlockWithAttestation}
    (hkeeps : ∀ {r chain}, r ∈ chain.engine.blocks → r ∈ (round chain).engine.blocks)
    (hround : ∀ signed ∈ blocks, rootOf signed ∈ (round chain).engine.blocks) :
    Progresses round chain blocks := by
  have hall : ∀ k, ∀ signed ∈ blocks, rootOf signed ∈ (round^[k+1] chain).engine.blocks := by
    intro k
    induction k with
    | zero => exact hround
    | succ k ih =>
      intro signed hsigned
      rw [Function.iterate_succ_apply']
      exact hkeeps (ih signed hsigned)
  constructor
  · rintro k ⟨signed,hsigned,hmissing⟩
    exact ⟨signed,hsigned,hmissing,hall k signed hsigned⟩
  · intro signed hsigned
    cases hlength : blocks.length with
    | zero => simp [List.length_eq_zero_iff.mp hlength] at hsigned
    | succ k => exact hall k signed hsigned

theorem syncRound_eq {chain : Service} (heven : Even chain) {root : Bytes32} {state : State}
    {blocks : List SignedBlockWithAttestation} (hbase : root ∈ chain.engine.blocks)
    (hvalid : Continues root state blocks)
    (hnew : ∀ signed ∈ blocks, rootOf signed ∉ chain.engine.blocks)
    (hnonzero : ∀ signed ∈ blocks, rootOf signed ≠ ByteVector.zero) {peer : Peer}
    (hserves : ∀ signed ∈ blocks, peer (rootOf signed) = .ok (some [signed]))
    (verifier : Option Verifier) (maxDepth : Nat) :
    syncRound verifier maxDepth peer (tipRoot root blocks.reverse) chain =
      importLoop verifier smooth 0 (blocks.drop (blocks.length-maxDepth)) chain := by
  have hwalk : walkBackWith (still chain peer) maxDepth (tipRoot root blocks.reverse) =
      .ok (blocks.reverse.take maxDepth) := by
    refine walk_collects ((heven root).mpr hbase) hvalid.descends ?_ ?_ ?_ maxDepth 0 []
    · intro signed hsigned
      rw [heven]
      exact hnew signed (List.mem_reverse.mp hsigned)
    · intro signed hsigned
      exact hnonzero signed (List.mem_reverse.mp hsigned)
    · intro signed hsigned
      exact hserves signed (List.mem_reverse.mp hsigned)
  simp only [syncRound,syncWithPeer,hwalk,importChain]
  rw [List.reverse_take,List.reverse_reverse,List.length_reverse]

/-- For every valid chain on a tracked block, every cap and every honest peer, the rounds make
progress until the chain is imported exactly when the chain is no longer than the cap. -/
theorem sync_progress {held : List Block} {chain : Service} (hlife : Lives held chain.engine)
    (heven : Even chain) {root : Bytes32} {state : State}
    {blocks : List SignedBlockWithAttestation} (hbase : chain.engine.states[root]? = some state)
    (hvalid : Continues root state blocks)
    (hnew : ∀ signed ∈ blocks, rootOf signed ∉ chain.engine.blocks)
    (hsound : Sound (held ++ blocks.map (·.message.block))) {peer : Peer}
    (hserves : ∀ signed ∈ blocks, peer (rootOf signed) = .ok (some [signed]))
    (verifier : Option Verifier) (maxDepth : Nat) :
    Progresses (syncRound verifier maxDepth peer (tipRoot root blocks.reverse)) chain blocks ↔
      blocks.length ≤ maxDepth := by
  obtain ⟨anchor,hlinked⟩ := hlife.linked
  have hnonzero : ∀ signed ∈ blocks, rootOf signed ≠ ByteVector.zero := by
    intro signed hsigned
    exact hsound.nonzero _ (List.mem_append_right _ (List.mem_map_of_mem hsigned))
  have hround := syncRound_eq heven (hlinked.stated.mp (mem_of_get hbase)) hvalid hnew hnonzero
    hserves verifier maxDepth
  constructor
  · intro hprogress
    by_contra hlong
    -- The oldest block collected is not the chain's first, so no parent is tracked.
    have hstuck : syncRound verifier maxDepth peer (tipRoot root blocks.reverse) chain = chain := by
      rw [hround]
      refine importLoop_unconnected verifier ?_ 0
      intro signed hsigned
      have htail : signed ∈ blocks.tail := by
        obtain ⟨k,hk⟩ : ∃ k, blocks.length-maxDepth = k+1 := ⟨blocks.length-maxDepth-1,by omega⟩
        rw [hk,← List.drop_tail] at hsigned
        exact List.mem_of_mem_drop hsigned
      obtain ⟨before,hbefore,hparent⟩ := hvalid.parents signed htail
      rw [hparent]
      exact mt hlinked.stated.mp (hnew before hbefore)
    have hdone := hprogress.done
    rw [Function.iterate_fixed hstuck] at hdone
    cases blocks with
    | nil => simp at hlong
    | cons first rest => exact hnew first List.mem_cons_self (hdone first List.mem_cons_self)
  · intro hshort
    refine progresses_of_round mem_syncRound ?_
    rw [hround,Nat.sub_eq_zero_of_le hshort,List.drop_zero]
    exact importLoop_connected verifier hvalid hlife hsound hbase hnew 0

theorem even_genesis {genesisTime : UInt64} {validators : Validators} {engine : Store}
    {store : RedbStore}
    (h : buildEngine .none (genesisState genesisTime validators)
      (genesisAnchorBlock (genesisState genesisTime validators)) RedbStore.empty = .ok engine store) :
    Lives (Tables.values engine.blocks) engine ∧ Even ⟨engine,store⟩ := by
  have hunset : resumeAnchor .none RedbStore.empty = .ok none := rfl
  rcases buildEngine_ok h with ⟨_,_,_,hread,-,-,-⟩ | ⟨-,hopen,hsave⟩
  · simp [hunset] at hread
  · rw [fromAnchor_genesis] at hopen
    obtain rfl := Except.ok.inj hopen
    refine ⟨lives_genesis genesisTime validators,?_⟩
    intro r
    change r ∈ store.blocks ↔ r ∈ (genesisStore genesisTime validators).blocks
    rw [blocks_persistAnchor hsave]
    simp only [genesisStore,RedbStore.empty,Std.ExtTreeMap.mem_insert]
    simp

end

section
attribute [local instance] mixPair

def pair1 : SignedBlockWithAttestation := ⟨⟨mint soloStore genesisPoint.root 1 [],default⟩,[]⟩
def pair2 : SignedBlockWithAttestation := ⟨⟨mint line1 (tip line1).root 2 [],default⟩,[]⟩

def pairPeer : Peer := fun root =>
  .ok (some ([pair1,pair2].filter fun signed => decide (rootOf signed = root)))

def newcomer : Option (Store × RedbStore) :=
  success (buildEngine .none (genesisState 0 [default]) (genesisAnchorBlock (genesisState 0 [default])))
    RedbStore.empty

theorem sync_progress_pair : ∃ node, newcomer = some node ∧
    Progresses (syncRound none 2 pairPeer (rootOf pair2)) ⟨node.1,node.2⟩ [pair1,pair2] := by
  obtain ⟨node,hnode,hbase,hcap1,hcap2,⟨post1,hpost1,hsecond⟩,hparents,hnew,hsound,hserves⟩ :
      ∃ node ∈ newcomer,
        node.1.states[genesisPoint.root]? = some (genesisState 0 [default]) ∧
        (preCheckOverCap pair1.signature pair1.message.block.body.attestations).toOption = some () ∧
        (preCheckOverCap pair2.signature pair2.message.block.body.attestations).toOption = some () ∧
        (∃ post1 ∈ ((genesisState 0 [default]).stateTransition pair1 true).toOption,
          (post1.stateTransition pair2 true).toOption.isSome = true) ∧
        (pair1.message.block.parentRoot = genesisPoint.root ∧
          pair2.message.block.parentRoot = rootOf pair1) ∧
        (∀ signed ∈ [pair1,pair2], rootOf signed ∉ node.1.blocks) ∧
        Sound (Tables.values node.1.blocks ++ [pair1,pair2].map (·.message.block)) ∧
        ∀ signed ∈ [pair1,pair2], [pair1,pair2].filter (fun s => decide (rootOf s = rootOf signed)) =
          [signed] := by decide +kernel
  obtain ⟨post2,hpost2⟩ := Option.isSome_iff_exists.mp hsecond
  have hvalid : Continues genesisPoint.root (genesisState 0 [default]) [pair1,pair2] :=
    .cons hparents.1 (toOption_eq_some.mp hcap1) (toOption_eq_some.mp hpost1)
      (.cons hparents.2 (toOption_eq_some.mp hcap2) (toOption_eq_some.mp hpost2) (.nil _ _))
  obtain ⟨hlife,heven⟩ := even_genesis (success_eq_some.mp hnode)
  refine ⟨node,hnode,(sync_progress hlife heven hbase hvalid hnew hsound ?_ none 2).mpr (by simp)⟩
  intro signed hsigned
  rw [pairPeer,hserves signed hsigned]

/-- With a cap of one block, two rounds leave the newcomer at genesis. -/
theorem sync_stuck : ∃ node, newcomer = some node ∧ ∀ signed ∈ [pair1,pair2],
    rootOf signed ∉ ((syncRound none 1 pairPeer (rootOf pair2))^[2] ⟨node.1,node.2⟩).engine.blocks := by
  have hdecide : ∃ node ∈ newcomer, ∀ signed ∈ [pair1,pair2],
      rootOf signed ∉
        ((syncRound none 1 pairPeer (rootOf pair2))^[2] ⟨node.1,node.2⟩).engine.blocks := by
    decide +kernel
  exact hdecide

end

end Devnet.Sync
