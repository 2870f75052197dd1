import Devnet.Sync.Progress
import Mathlib.Data.List.Chain
import Mathlib.Logic.Relation

/-!
Sync with any peer. Whatever the answers are, a walk collects blocks that hang together by their
hashes, from the root it was started at down to the first one that is known. That no block comes
twice rests on the hash links having no circle.
-/

set_option autoImplicit false

namespace Devnet.Sync
open Machine Devnet.Types Devnet.Ssz Devnet.Protocol Devnet.ForkChoice Devnet.Engine
  Devnet.Storage Devnet.Duties Devnet.Chain

section
variable [HashPair]

def ParentLink (newer older : SignedBlockWithAttestation) : Prop :=
  rootOf older = newer.message.block.parentRoot

def LinkedIn (sent : Set SignedBlockWithAttestation) (newer older : SignedBlockWithAttestation) :
    Prop :=
  newer ∈ sent ∧ older ∈ sent ∧ ParentLink newer older

/-- No block of `sent` is its own ancestor. -/
def Acyclic (sent : Set SignedBlockWithAttestation) : Prop :=
  ∀ signed, ¬Relation.TransGen (LinkedIn sent) signed signed

/-- Every block of every answer in any of the rounds. -/
def handedOut (peer : Nat → Peer) : Set SignedBlockWithAttestation :=
  { signed | ∃ i root answer, peer i root = .ok (some answer) ∧ signed ∈ answer }

theorem acyclic_of_height {sent : Set SignedBlockWithAttestation}
    (height : SignedBlockWithAttestation → Nat)
    (hdown : ∀ {newer older}, LinkedIn sent newer older → height older < height newer) :
    Acyclic sent := by
  have hbelow : ∀ {a b}, Relation.TransGen (LinkedIn sent) a b → height b < height a := by
    intro a b h
    induction h with
    | single hlink => exact hdown hlink
    | tail _ hlink ih => exact (hdown hlink).trans ih
  exact fun signed h => Nat.lt_irrefl _ (hbelow h)

theorem ancestors_of_chain {sent : Set SignedBlockWithAttestation}
    {blocks : List SignedBlockWithAttestation} (hchain : blocks.IsChain ParentLink)
    (hsent : ∀ signed ∈ blocks, signed ∈ sent) :
    blocks.Pairwise (Relation.TransGen (LinkedIn sent)) := by
  refine (List.IsChain.imp_of_mem_imp (fun a b ha hb hlink => ?_) hchain).pairwise
  exact .single ⟨hsent a ha,hsent b hb,hlink⟩

theorem Acyclic.nodup {sent : Set SignedBlockWithAttestation} (h : Acyclic sent)
    {blocks : List SignedBlockWithAttestation} (hchain : blocks.IsChain ParentLink)
    (hsent : ∀ signed ∈ blocks, signed ∈ sent) : (blocks.map rootOf).Nodup := by
  rw [List.Nodup,List.pairwise_map]
  refine (ancestors_of_chain hchain hsent).imp_of_mem ?_
  intro newer older hnewer _ hancestor hroots
  -- the block that names the older one as its parent names the newer one too
  obtain ⟨child,hreach,hlink⟩ := Relation.TransGen.tail'_iff.mp hancestor
  exact h newer (.tail' hreach ⟨hlink.1,hsent newer hnewer,hroots.trans hlink.2.2⟩)

theorem Acyclic.forward {sent : Set SignedBlockWithAttestation} (h : Acyclic sent)
    {blocks : List SignedBlockWithAttestation} (hchain : blocks.IsChain ParentLink)
    (hsent : ∀ signed ∈ blocks, signed ∈ sent) :
    blocks.Pairwise fun newer older => ¬ParentLink older newer := by
  refine (ancestors_of_chain hchain hsent).imp_of_mem ?_
  intro newer older hnewer holder hancestor hlink
  exact h newer (.tail hancestor ⟨hsent older holder,hsent newer hnewer,hlink⟩)

theorem validateSingleRootResponse_some {blocks : List SignedBlockWithAttestation}
    {requested : Bytes32} {signed : SignedBlockWithAttestation}
    (h : validateSingleRootResponse blocks requested = .ok (some signed)) :
    blocks = [signed] ∧ rootOf signed = requested := by
  unfold validateSingleRootResponse at h
  split at h
  · cases h
  · split at h
    · next hroot =>
      cases h
      exact ⟨rfl,hroot⟩
    · cases h
  · cases h

theorem fetchHop_block {chain : Service} {fault : Fault} {peer : Peer} {root : Bytes32}
    {signed : SignedBlockWithAttestation}
    (h : (p2pWalkSource chain fault peer).fetchHop root = .ok (.block signed)) :
    peer root = .ok (some [signed]) ∧ rootOf signed = root := by
  simp only [p2pWalkSource] at h
  split at h
  · cases h
  · cases h
  · next blocks hanswer =>
    split at h
    · next hvalid =>
      cases h
      obtain ⟨rfl,hroot⟩ := validateSingleRootResponse_some hvalid
      exact ⟨hanswer,hroot⟩
    · cases h
    · cases h

theorem hasBlock_false {chain : Service} {fault : Fault} {peer : Peer} {root : Bytes32}
    (h : (p2pWalkSource chain fault peer).hasBlock root = .ok false) :
    root ∉ chain.store.blocks := by
  cases fault with
  | some e => simp [p2pWalkSource,Service.hasBlock,RedbStore.hasBlock,RedbStore.inReadTxn,
      Except.mapError] at h
  | none =>
    have hunknown : chain.store.blocks.contains root = false := by
      simpa [p2pWalkSource,Service.hasBlock,RedbStore.hasBlock,RedbStore.inReadTxn,
        Except.mapError] using h
    exact fun hmem => Bool.false_ne_true
      (hunknown.symm.trans (Std.ExtTreeMap.contains_iff_mem.mpr hmem))

/-- What a walk adds to its backlog from the `i`th round on. -/
structure Collected (chain : Nat → Service) (peer : Nat → Peer) (left i : Nat) (root : Bytes32)
    (blocks : List SignedBlockWithAttestation) : Prop where
  depth : blocks.length ≤ left
  first : ∀ signed ∈ blocks.head?, rootOf signed = root
  linked : blocks.IsChain ParentLink
  fetched : ∀ j signed, blocks[j]? = some signed → rootOf signed ≠ ByteVector.zero ∧
    rootOf signed ∉ (chain (i+j)).store.blocks ∧
      ∃ root, peer (i+j) root = .ok (some [signed])

theorem Collected.nil {chain : Nat → Service} {peer : Nat → Peer} {left i : Nat} {root : Bytes32} :
    Collected chain peer left i root [] :=
  ⟨Nat.zero_le _,by simp,.nil,by simp⟩

theorem Collected.cons {chain : Nat → Service} {peer : Nat → Peer} {left i : Nat}
    {signed : SignedBlockWithAttestation} {blocks : List SignedBlockWithAttestation}
    (hroot : rootOf signed ≠ ByteVector.zero) (hunknown : rootOf signed ∉ (chain i).store.blocks)
    (hanswer : peer i (rootOf signed) = .ok (some [signed]))
    (h : Collected chain peer left (i+1) signed.message.block.parentRoot blocks) :
    Collected chain peer (left+1) i (rootOf signed) (signed :: blocks) where
  depth := Nat.succ_le_succ h.depth
  first := by simp
  linked := List.isChain_cons.mpr ⟨h.first,h.linked⟩
  fetched := by
    intro j other hother
    cases j with
    | zero =>
      obtain rfl : signed = other := by simpa using hother
      exact ⟨hroot,hunknown,_,hanswer⟩
    | succ j =>
      rw [show i+(j+1) = i+1+j by omega]
      exact h.fetched j other (by simpa using hother)

/-- The invariant of the walk: one case for each way a round can go. -/
theorem walkLoop_collected {rounds : Nat → WalkRound} {chain : Nat → Service} {fault : Nat → Fault}
    {peer : Nat → Peer}
    (hsource : ∀ i, (rounds i).source = p2pWalkSource (chain i) (fault i) (peer i))
    {left i : Nat} {root nextRoot : Bytes32} {reason : StopReason}
    {pending collected : List SignedBlockWithAttestation}
    (h : walkLoop rounds left i root pending = .stopped nextRoot reason collected) :
    ∃ blocks, collected = pending ++ blocks ∧ Collected chain peer left i root blocks := by
  induction left generalizing i root pending with
  | zero =>
    simp only [walkLoop,WalkEnd.stopped.injEq] at h
    exact ⟨[],by simp [h.2.2],.nil⟩
  | succ left ih =>
    unfold walkLoop at h
    split at h
    · cases h
    split at h
    · cases h
      exact ⟨[],by simp,.nil⟩
    next hroot =>
    split at h
    · cases h
    · cases h
      exact ⟨[],by simp,.nil⟩
    next hunknown =>
    split at h
    · cases h
    split at h
    · cases h
    · next signed hfetch =>
      rw [hsource i] at hunknown hfetch
      obtain ⟨hanswer,rfl⟩ := fetchHop_block hfetch
      obtain ⟨blocks,hblocks,hcollected⟩ := ih h
      exact ⟨signed :: blocks,by simp [hblocks],
        .cons hroot (hasBlock_false hunknown) hanswer hcollected⟩
    · cases h
      exact ⟨[],by simp,.nil⟩
    · cases h

def presented (turns : Nat → ImportTurn) :
    Nat → List SignedBlockWithAttestation → List SignedBlockWithAttestation
  | _, [] => []
  | i, block :: rest =>
    if (turns i).cancelled = true then [] else block :: presented turns (i+1) rest

omit [HashPair] in
theorem presented_isPrefix (turns : Nat → ImportTurn) (i : Nat)
    (blocks : List SignedBlockWithAttestation) : presented turns i blocks <+: blocks := by
  induction blocks generalizing i with
  | nil => exact List.nil_prefix
  | cons block rest ih =>
    rw [presented]
    split
    · exact List.nil_prefix
    · exact List.cons_prefix_cons.mpr ⟨rfl,ih (i+1)⟩

theorem importLoop_presented (verifier : Option Verifier) (turns : Nat → ImportTurn) (i : Nat)
    (blocks : List SignedBlockWithAttestation) (chain : Service) :
    importLoop verifier turns i blocks chain = ((presented turns i blocks).zipIdx i).foldl
      (fun chain e => after (importBlockSynced verifier e.1 (turns e.2).fault) chain) chain := by
  induction blocks generalizing i chain with
  | nil => rfl
  | cons block rest ih =>
    rw [importLoop,presented]
    split
    · rfl
    · rw [ih,List.zipIdx_cons,List.foldl_cons]

/-- What a walk returns against any peer, and in which order it is imported. -/
theorem walk_returns_chain {rounds : Nat → WalkRound} (chain : Nat → Service)
    (fault : Nat → Fault) (peer : Nat → Peer)
    (hsource : ∀ i, (rounds i).source = p2pWalkSource (chain i) (fault i) (peer i))
    {maxDepth : Nat} {startRoot : Bytes32} {blocks : List SignedBlockWithAttestation}
    (hwalk : walkBackWith rounds maxDepth startRoot = .ok blocks) :
    blocks.length ≤ maxDepth ∧ (∀ signed ∈ blocks.head?, rootOf signed = startRoot) ∧
      blocks.IsChain ParentLink ∧
      (∀ i signed, blocks[i]? = some signed → rootOf signed ≠ ByteVector.zero ∧
        rootOf signed ∉ (chain i).store.blocks) ∧
      (∀ verifier turns service,
        importChain verifier turns blocks service =
            (presented turns 0 blocks.reverse).zipIdx.foldl
              (fun service e => after (importBlockSynced verifier e.1 (turns e.2).fault) service)
              service ∧
          (presented turns 0 blocks.reverse).IsChain fun before signed =>
            ParentLink signed before) ∧
      (Acyclic (handedOut peer) → (blocks.map rootOf).Nodup ∧
        ∀ turns, (presented turns 0 blocks.reverse).Pairwise fun before signed =>
          ¬ParentLink before signed) := by
  have hcollected : Collected chain peer maxDepth 0 startRoot blocks := by
    cases hend : walkLoop rounds maxDepth 0 startRoot [] with
    | stopped nextRoot reason pending =>
      obtain ⟨collected,hpending,hcollected⟩ := walkLoop_collected hsource hend
      rw [walkBackWith,hend] at hwalk
      cases hwalk
      rwa [hpending,List.nil_append]
    | discarded =>
      rw [walkBackWith,hend] at hwalk
      cases hwalk
      exact .nil
    | failed error =>
      rw [walkBackWith,hend] at hwalk
      cases hwalk
  have hsent : ∀ signed ∈ blocks, signed ∈ handedOut peer := by
    intro signed hsigned
    obtain ⟨j,hj⟩ := List.getElem?_of_mem hsigned
    obtain ⟨-,-,root,hanswer⟩ := hcollected.fetched j signed hj
    exact ⟨_,root,_,hanswer,List.mem_singleton_self _⟩
  refine ⟨hcollected.depth,hcollected.first,hcollected.linked,fun i signed hsigned => ?_,
    fun verifier turns service => ⟨importLoop_presented verifier turns 0 _ service,?_⟩,
    fun hacyclic => ⟨hacyclic.nodup hcollected.linked hsent,fun turns => ?_⟩⟩
  · obtain ⟨hroot,hunknown,-⟩ := hcollected.fetched i signed hsigned
    rw [Nat.zero_add] at hunknown
    exact ⟨hroot,hunknown⟩
  · exact List.IsChain.prefix (List.isChain_reverse.mpr hcollected.linked)
      (presented_isPrefix turns 0 _)
  · exact (List.pairwise_reverse.mpr (hacyclic.forward hcollected.linked hsent)).sublist
      (presented_isPrefix turns 0 _).sublist

end

section
attribute [local instance] mixPair

theorem walk_returns_pair : ∃ node, newcomer = some node ∧
    walkBackWith (still ⟨node.1,node.2⟩ pairPeer) 8 (rootOf pair2) = .ok [pair2,pair1] ∧
    rootOf pair1 ∉ node.2.blocks ∧ ([pair2,pair1].map rootOf).Nodup := by
  obtain ⟨node,hnode,hwalk,hslots⟩ : ∃ node ∈ newcomer,
      walkBackWith (still ⟨node.1,node.2⟩ pairPeer) 8 (rootOf pair2) = .ok [pair2,pair1] ∧
      ∀ newer ∈ [pair1,pair2], ∀ older ∈ [pair1,pair2],
        rootOf older = newer.message.block.parentRoot →
          older.message.block.slot.get < newer.message.block.slot.get := by decide +kernel
  have hhanded : ∀ signed ∈ handedOut fun _ => pairPeer, signed ∈ [pair1,pair2] := by
    rintro signed ⟨_,root,answer,hanswer,hsigned⟩
    obtain rfl : [pair1,pair2].filter (fun s => decide (rootOf s = root)) = answer := by
      simpa [pairPeer] using hanswer
    exact List.mem_of_mem_filter hsigned
  obtain ⟨-,-,-,hnew,-,hnodup⟩ := walk_returns_chain (fun _ => ⟨node.1,node.2⟩)
    (fun _ => none) (fun _ => pairPeer) (fun _ => rfl) hwalk
  refine ⟨node,hnode,hwalk,(hnew 1 pair1 rfl).2,(hnodup ?_).1⟩
  exact acyclic_of_height (fun signed => signed.message.block.slot.get) fun hlink =>
    hslots _ (hhanded _ hlink.1) _ (hhanded _ hlink.2.1) hlink.2.2

end

end Devnet.Sync
