import Devnet.Lib.Tables
import Devnet.Lib.Trees
import Devnet.Protocol.Header

/-!
The fork-choice clock, the errors of the fork-choice crate, and the LMD-GHOST walk.
A walk over the block map is given as many rounds as there are blocks. A walk that
wants more has met some block twice, and the loop of the source would not end; the
model answers `unending` then. On a block map that is a tree this cannot happen.
-/

set_option autoImplicit false

namespace Devnet.ForkChoice
open Machine Trees Devnet.Types Devnet.Protocol

def intervalsPerSlot : Nat := 4
def justificationLookbackSlots : Nat := 3

/-- Intervals since genesis. -/
structure Time where
  get : Nat
  isLt : get < 2^64

theorem Time.ext_get {a b : Time} (h : a.get = b.get) : a = b := by
  cases a; cases b
  cases h
  rfl

instance : DecidableEq Time := fun a b =>
  decidable_of_iff (a.get = b.get) ⟨Time.ext_get,congrArg Time.get⟩

inductive Phase where
  | proposal
  | idle
  | updateSafeTarget
  | acceptNewVotes
  deriving DecidableEq, Repr

def Time.slot (self : Time) : Nat := self.get/intervalsPerSlot

def Time.interval (self : Time) : Nat := self.get%intervalsPerSlot

def Time.phase (self : Time) : Phase :=
  match self.interval with
  | 0 => .proposal
  | 1 => .idle
  | 2 => .updateSafeTarget
  | _ => .acceptNewVotes

def Time.checkedAdvance (self : Time) : Option Time :=
  if h : self.get+1 < 2^64 then some ⟨self.get+1,h⟩ else none

inductive ForkchoiceError where
  | anchorStateRootMismatch (got want : Bytes32)
  | anchorTimeOverflow (slot : Slot) (intervalsPerSlot : Nat)
  | timeOverflow (time : Time)
  | unknownSourceBlock (root : Bytes32)
  | unknownTargetBlock (root : Bytes32)
  | sourceSlotExceedsTarget
  | sourceCheckpointSlotMismatch
  | targetCheckpointSlotMismatch
  | unknownAttestationHeadBlock (root : Bytes32)
  | headSlotBelowTarget (headSlot targetSlot : Slot)
  | headCheckpointSlotMismatch
  | attestationTooFarInFuture (voteSlot limit : Slot)
  | attestationFutureLimitOverflow (currentSlot : Slot)
  | validatorIndexOutOfRange (validatorId numValidators : Nat)
  | unknownRootBlock (root : Bytes32)
  | parentBlockNotFound (root : Bytes32)
  | noBlocksAvailable
  | unauthorizedProposer (validator : ValidatorIndex) (slot : Slot)
  | headStateNotFound (root : Bytes32)
  | unknownHeadBlock (root : Bytes32)
  | unknownSafeTarget (root : Bytes32)
  | blockStateRootMismatch (got want : Bytes32)
  | stateSlotAheadOfTarget (stateSlot targetSlot : Slot)
  | stateTransition (error : StateTransitionError)
  | protocol (error : ProtocolError)
  /-- Not an error of the source: a loop of the source that never ends. -/
  | unending
  deriving DecidableEq

structure RankKey where
  number : Nat
  root : Bytes32

instance : LE RankKey :=
  ⟨fun a b => a.number < b.number ∨ a.number = b.number ∧ (compare a.root b.root).isLE⟩

instance : DecidableLE RankKey := fun a b =>
  inferInstanceAs (Decidable (a.number < b.number ∨ a.number = b.number ∧ _))

abbrev Blocks := HashMap Bytes32 Block
abbrev Weights := HashMap Bytes32 Nat

def weightOf (weights : Weights) (root : Bytes32) : Nat := weights.getD root 0

/-- One round of the walk from a voted block back to the depth of the origin. -/
def weighRound (blocks : Blocks) (rootSlot : Slot) (walk : Weights × Bytes32 × Block) :
    Except ForkchoiceError (Flow (Weights × Bytes32 × Block) Weights) :=
  let (weights,cursor,block) := walk
  if rootSlot.get < block.slot.get then
    match blocks[block.parentRoot]? with
    | none => .error (.parentBlockNotFound block.parentRoot)
    | some parent =>
      .ok (.next (weights.insert cursor (weightOf weights cursor+1),block.parentRoot,parent))
  else .ok (.stop weights)

/-- A vote for a block that is not tracked weighs nothing. -/
def weighVote (blocks : Blocks) (rootSlot : Slot) (weights : Weights) (checkpoint : Checkpoint) :
    Except ForkchoiceError Weights :=
  match blocks[checkpoint.root]? with
  | none => .ok weights
  | some block =>
    loop (weighRound blocks rootSlot) .unending blocks.size (weights,checkpoint.root,block)

def weigh (blocks : Blocks) (rootSlot : Slot) (latestVotes : HashMap ValidatorIndex Checkpoint) :
    Except ForkchoiceError Weights :=
  (Tables.values latestVotes).foldlM (weighVote blocks rootSlot) ∅

/-- Blocks that reach the threshold, listed under their parents. -/
def childrenMap (blocks : Blocks) (weights : Weights) (minScore : Nat) :
    HashMap Bytes32 (List Bytes32) :=
  Tables.group ((blocks.toList.filter fun entry => minScore ≤ weightOf weights entry.1).map
    fun entry => (entry.2.parentRoot,entry.1))

/-- Greatest by weight, then by root. Roots differ, so there are no ties. -/
def bestChild (weights : Weights) (kids : List Bytes32) : Option Bytes32 :=
  kids.maxOn? fun child => (⟨weightOf weights child,child⟩ : RankKey)

def descendRound (children : HashMap Bytes32 (List Bytes32)) (weights : Weights)
    (current : Bytes32) : Except ForkchoiceError (Flow Bytes32 Bytes32) :=
  match children[current]?.bind (bestChild weights) with
  | some best => .ok (.next best)
  | none => .ok (.stop current)

def minBlockRoot (blocks : Blocks) : Option Bytes32 :=
  (blocks.toList.minOn? fun entry => (⟨entry.2.slot.get,entry.1⟩ : RankKey)).map (·.1)

/-- The origin of the descent; the zero root stands for the lowest block. -/
def origin (blocks : Blocks) (root : Bytes32) : Except ForkchoiceError Bytes32 :=
  if root = ByteVector.zero then
    match minBlockRoot blocks with
    | none => .error .noBlocksAvailable
    | some root => .ok root
  else .ok root

def getForkChoiceHead (blocks : Blocks) (root : Bytes32)
    (latestVotes : HashMap ValidatorIndex Checkpoint) (minScore : Nat) :
    Except ForkchoiceError Bytes32 := do
  let root ← origin blocks root
  match blocks[root]? with
  | none => .error (.unknownRootBlock root)
  | some rootBlock =>
    let weights ← weigh blocks rootBlock.slot latestVotes
    loop (descendRound (childrenMap blocks weights minScore) weights) .unending blocks.size root

def parentLink (blocks : Blocks) (root : Bytes32) : Option Bytes32 :=
  blocks[root]?.map Block.parentRoot

/-- The block map is a tree on its anchor, with slots that grow away from it. -/
structure Planted (blocks : Blocks) (anchor : Bytes32) : Prop where
  tracked : anchor ∈ blocks
  outside : ∀ {a}, blocks[anchor]? = some a → a.parentRoot ∉ blocks
  linked : ∀ {r b}, blocks[r]? = some b → r ≠ anchor →
    ∃ p, blocks[b.parentRoot]? = some p ∧ p.slot.get < b.slot.get

section Tree
variable {blocks : Blocks} {anchor : Bytes32}

theorem parentLink_of_get {r : Bytes32} {b : Block} (h : blocks[r]? = some b) :
    parentLink blocks r = some b.parentRoot := by
  simp [parentLink,h]

theorem parentLink_eq_some {r p : Bytes32} :
    parentLink blocks r = some p ↔ ∃ b, blocks[r]? = some b ∧ b.parentRoot = p := by
  simp [parentLink]

theorem mem_of_get {V : Type} {map : HashMap Bytes32 V} {r : Bytes32} {v : V}
    (h : map[r]? = some v) : r ∈ map := by
  rw [Std.ExtTreeMap.mem_iff_isSome_getElem?,h]
  rfl

theorem get_of_mem {V : Type} {map : HashMap Bytes32 V} {r : Bytes32} (h : r ∈ map) :
    ∃ v, map[r]? = some v :=
  Option.isSome_iff_exists.mp (Std.ExtTreeMap.mem_iff_isSome_getElem?.mp h)

def slotOf (blocks : Blocks) (root : Bytes32) : Nat := (blocks.getD root default).slot.get

theorem slotOf_of_get {r : Bytes32} {b : Block} (h : blocks[r]? = some b) :
    slotOf blocks r = b.slot.get := by
  rw [slotOf,Std.ExtTreeMap.getD_eq_getD_getElem?,h]
  rfl

def Planted.tree (h : Planted blocks anchor) : Rooted Bytes32 where
  parent := parentLink blocks
  nodes := blocks.keys.toFinset
  mem_nodes := by
    intro r
    rw [List.mem_toFinset,Std.ExtTreeMap.mem_keys,Std.ExtTreeMap.mem_iff_isSome_getElem?,
      parentLink,Option.isSome_map]
  rank := slotOf blocks
  root := anchor
  root_mem := by simpa using h.tracked
  root_parent := by
    intro p hp
    obtain ⟨a,ha,rfl⟩ := parentLink_eq_some.mp hp
    simpa using h.outside ha
  parent_mem := by
    intro r p hp hne
    obtain ⟨b,hb,rfl⟩ := parentLink_eq_some.mp hp
    obtain ⟨_,hparent,-⟩ := h.linked hb hne
    simpa using mem_of_get hparent
  parent_rank := by
    intro r p hp hne
    obtain ⟨b,hb,rfl⟩ := parentLink_eq_some.mp hp
    obtain ⟨_,hparent,hlt⟩ := h.linked hb hne
    rwa [slotOf_of_get hparent,slotOf_of_get hb]

theorem Planted.mem_nodes (h : Planted blocks anchor) {r : Bytes32} :
    r ∈ h.tree.nodes ↔ r ∈ blocks := by simp [Planted.tree]

theorem Planted.card_nodes (h : Planted blocks anchor) : h.tree.nodes.card = blocks.size := by
  rw [Planted.tree,List.toFinset_card_of_nodup Std.ExtTreeMap.nodup_keys,
    Std.ExtTreeMap.length_keys]

theorem Planted.parent (h : Planted blocks anchor) {r o : Bytes32} {b ob : Block}
    (hb : blocks[r]? = some b) (ho : blocks[o]? = some ob) (hlt : ob.slot.get < b.slot.get) :
    ∃ p, blocks[b.parentRoot]? = some p ∧ p.slot.get < b.slot.get := by
  apply h.linked hb
  rintro rfl
  have hle := h.tree.rank_root_le (h.mem_nodes.mpr (mem_of_get ho))
  change slotOf blocks r ≤ slotOf blocks o at hle
  rw [slotOf_of_get hb,slotOf_of_get ho] at hle
  omega

theorem Planted.lower_parent (h : Planted blocks anchor) {r : Bytes32} {b p : Block}
    (hb : blocks[r]? = some b) (hp : blocks[b.parentRoot]? = some p)
    (hlt : p.slot.get < b.slot.get) : h.tree.lower b.parentRoot < h.tree.lower r := by
  apply Rooted.lower_lt (h.mem_nodes.mpr (mem_of_get hp))
  change slotOf blocks b.parentRoot < slotOf blocks r
  rwa [slotOf_of_get hp,slotOf_of_get hb]

theorem Planted.lower_lt_size (h : Planted blocks anchor) {r : Bytes32} {b : Block}
    (hb : blocks[r]? = some b) : h.tree.lower r < blocks.size := by
  rw [← h.card_nodes]
  exact Rooted.lower_lt_card (h.mem_nodes.mpr (mem_of_get hb))

theorem weighRound_next {rootSlot : Slot} {weights : Weights} {cursor : Bytes32} {block p : Block}
    (hlt : rootSlot.get < block.slot.get) (hp : blocks[block.parentRoot]? = some p) :
    weighRound blocks rootSlot (weights,cursor,block) = .ok
      (.next (weights.insert cursor (weightOf weights cursor+1),block.parentRoot,p)) := by
  simp [weighRound,hlt,hp]

theorem weighRound_stop {rootSlot : Slot} {weights : Weights} {cursor : Bytes32} {block : Block}
    (hle : ¬ rootSlot.get < block.slot.get) :
    weighRound blocks rootSlot (weights,cursor,block) = .ok (.stop weights) := by
  simp [weighRound,hle]

theorem Planted.slot_le_of_ancestor {a b : Bytes32} {ab bb : Block} (h : Planted blocks anchor)
    (hab : AncestorOrSelf (parentLink blocks) a b) (ha : blocks[a]? = some ab)
    (hb : blocks[b]? = some bb) : ab.slot.get ≤ bb.slot.get := by
  have hrank := (Rooted.rank_le_of_ancestor (T := h.tree) hab).1
  change slotOf blocks a ≤ slotOf blocks b at hrank
  rwa [slotOf_of_get ha,slotOf_of_get hb] at hrank

theorem Planted.ancestor_of_slot_le {a b tip : Bytes32} {ab bb : Block}
    (h : Planted blocks anchor) (ha : AncestorOrSelf (parentLink blocks) a tip)
    (hb : AncestorOrSelf (parentLink blocks) b tip) (hab : blocks[a]? = some ab)
    (hbb : blocks[b]? = some bb) (hle : ab.slot.get ≤ bb.slot.get) :
    AncestorOrSelf (parentLink blocks) a b := by
  refine Rooted.ancestor_of_rank_le (T := h.tree) ha hb ?_
  change slotOf blocks a ≤ slotOf blocks b
  rwa [slotOf_of_get hab,slotOf_of_get hbb]

theorem weighVote_total (h : Planted blocks anchor) {o : Bytes32} {ob : Block}
    (ho : blocks[o]? = some ob) (weights : Weights) (checkpoint : Checkpoint) :
    ∃ w, weighVote blocks ob.slot weights checkpoint = .ok w := by
  unfold weighVote
  cases hv : blocks[checkpoint.root]? with
  | none => exact ⟨weights,rfl⟩
  | some voted =>
    -- The cursor stays on a tracked block, and each round lowers its slot.
    apply loop_total (fun walk => blocks[walk.2.1]? = some walk.2.2)
      (fun walk => h.tree.lower walk.2.1) _ hv (h.lower_lt_size hv)
    rintro ⟨w,cursor,block⟩ hcursor
    by_cases hlt : ob.slot.get < block.slot.get
    · obtain ⟨p,hp,hps⟩ := h.parent hcursor ho hlt
      exact .inr ⟨_,weighRound_next hlt hp,hp,h.lower_parent hcursor hp hps⟩
    · exact .inl ⟨w,weighRound_stop hlt⟩

theorem weigh_total (h : Planted blocks anchor) {o : Bytes32} {ob : Block}
    (ho : blocks[o]? = some ob) (votes : HashMap ValidatorIndex Checkpoint) :
    ∃ w, weigh blocks ob.slot votes = .ok w :=
  foldlM_total (fun w c => weighVote_total h ho w c) _ _

theorem mem_childrenMap {weights : Weights} {minScore : Nat} {p kid : Bytes32} :
    kid ∈ (childrenMap blocks weights minScore).getD p [] ↔
      ∃ b, blocks[kid]? = some b ∧ b.parentRoot = p ∧ minScore ≤ weightOf weights kid := by
  simp only [childrenMap,Tables.mem_group,List.mem_map,List.mem_filter,decide_eq_true_eq,
    Prod.exists,Prod.mk.injEq,Std.ExtTreeMap.mem_toList_iff_getElem?_eq_some]
  constructor
  · rintro ⟨root,b,⟨hb,hscore⟩,hp,rfl⟩
    exact ⟨b,hb,hp,hscore⟩
  · rintro ⟨b,hb,hp,hscore⟩
    exact ⟨kid,b,⟨hb,hscore⟩,hp,rfl⟩

theorem bestChild_mem {weights : Weights} {minScore : Nat} {current best : Bytes32}
    (h : (childrenMap blocks weights minScore)[current]?.bind (bestChild weights) = some best) :
    ∃ b, blocks[best]? = some b ∧ b.parentRoot = current := by
  obtain ⟨kids,hkids,hbest⟩ := Option.bind_eq_some_iff.mp h
  have hmem : best ∈ (childrenMap blocks weights minScore).getD current [] := by
    rw [Std.ExtTreeMap.getD_eq_getD_getElem?,hkids]
    exact List.maxOn?_mem hbest
  obtain ⟨b,hb,hp,-⟩ := mem_childrenMap.mp hmem
  exact ⟨b,hb,hp⟩

theorem descent_ok (h : Planted blocks anchor) {root : Bytes32} {rb : Block}
    (hrb : blocks[root]? = some rb) (votes : HashMap ValidatorIndex Checkpoint) (minScore : Nat) :
    ∃ w head, weigh blocks rb.slot votes = .ok w ∧
      loop (descendRound (childrenMap blocks w minScore) w) .unending blocks.size root = .ok head ∧
      AncestorOrSelf (parentLink blocks) root head := by
  obtain ⟨w,hw⟩ := weigh_total h hrb votes
  have hroot := mem_of_get hrb
  have hself : AncestorOrSelf (parentLink blocks) root root := .self (parentLink_of_get hrb)
  -- Each round moves to a child, which is later and a descendant.
  have hchild : ∀ {current best}, current ∈ blocks →
      (childrenMap blocks w minScore)[current]?.bind (bestChild w) = some best →
      parentLink blocks best = some current ∧ h.tree.higher best < h.tree.higher current := by
    intro current best hcur hbest
    obtain ⟨b,hb,rfl⟩ := bestChild_mem hbest
    have hlink := parentLink_of_get hb
    refine ⟨hlink,Rooted.higher_lt (h.mem_nodes.mpr (mem_of_get hb)) ?_⟩
    exact Rooted.rank_lt_of_parent_mem hlink (h.mem_nodes.mpr hcur)
  have hdescend : ∃ head, loop (descendRound (childrenMap blocks w minScore) w) .unending
      blocks.size root = .ok head ∧ AncestorOrSelf (parentLink blocks) root head := by
    apply loop_correct (AncestorOrSelf (parentLink blocks) root)
      (AncestorOrSelf (parentLink blocks) root) h.tree.higher _ hself
    · rw [← h.card_nodes]
      exact Rooted.higher_lt_card (h.mem_nodes.mpr hroot)
    · intro current hanc
      have hcur := h.mem_nodes.mp (Rooted.rank_le_of_ancestor (T := h.tree) hanc).2
      cases hbest : (childrenMap blocks w minScore)[current]?.bind (bestChild w) with
      | none => exact .inl ⟨current,by simp [descendRound,hbest],hanc⟩
      | some best =>
        obtain ⟨hlink,hlt⟩ := hchild hcur hbest
        exact .inr ⟨best,by simp [descendRound,hbest],.up hlink hanc,hlt⟩
  obtain ⟨head,hhead,hanc⟩ := hdescend
  exact ⟨w,head,hw,hhead,hanc⟩

theorem getForkChoiceHead_of_origin {root start head : Bytes32} {rb : Block} {w : Weights}
    {votes : HashMap ValidatorIndex Checkpoint} {minScore : Nat}
    (horigin : origin blocks root = .ok start) (hrb : blocks[start]? = some rb)
    (hw : weigh blocks rb.slot votes = .ok w)
    (hhead : loop (descendRound (childrenMap blocks w minScore) w) .unending blocks.size start =
      .ok head) : getForkChoiceHead blocks root votes minScore = .ok head := by
  simp only [getForkChoiceHead,except_bind_ok]
  exact ⟨start,horigin,by simp only [hrb,except_bind_ok]; exact ⟨w,hw,hhead⟩⟩

theorem getForkChoiceHead_ok (h : Planted blocks anchor) {root : Bytes32} (hroot : root ∈ blocks)
    (hzero : root ≠ ByteVector.zero) (votes : HashMap ValidatorIndex Checkpoint) (minScore : Nat) :
    ∃ head, getForkChoiceHead blocks root votes minScore = .ok head ∧
      AncestorOrSelf (parentLink blocks) root head := by
  obtain ⟨rb,hrb⟩ := get_of_mem hroot
  obtain ⟨w,head,hw,hhead,hanc⟩ := descent_ok h hrb votes minScore
  exact ⟨head,getForkChoiceHead_of_origin (if_neg hzero) hrb hw hhead,hanc⟩

theorem origin_zero {r : Bytes32} (h : r ∈ blocks) :
    ∃ start, origin blocks ByteVector.zero = .ok start ∧ start ∈ blocks := by
  obtain ⟨b,hb⟩ := get_of_mem h
  have hlisted := Std.ExtTreeMap.mem_toList_iff_getElem?_eq_some.mpr hb
  cases hmin : blocks.toList.minOn? fun entry => (⟨entry.2.slot.get,entry.1⟩ : RankKey) with
  | none =>
    have hsome := List.isSome_minOn?_of_mem hlisted
      (f := fun entry : Bytes32 × Block => (⟨entry.2.slot.get,entry.1⟩ : RankKey))
    simp [hmin] at hsome
  | some entry =>
    have hmem := Std.ExtTreeMap.mem_toList_iff_getElem?_eq_some.mp (List.minOn?_mem hmin)
    refine ⟨entry.1,?_,mem_of_get hmem⟩
    simp [origin,minBlockRoot,hmin]

/-- A head is found exactly from a tracked block or from the zero root. -/
theorem getForkChoiceHead_iff (h : Planted blocks anchor) (root : Bytes32)
    (votes : HashMap ValidatorIndex Checkpoint) (minScore : Nat) :
    (∃ head, getForkChoiceHead blocks root votes minScore = .ok head) ↔
      root = ByteVector.zero ∨ root ∈ blocks := by
  by_cases hzero : root = ByteVector.zero
  · subst hzero
    obtain ⟨start,horigin,hstart⟩ := origin_zero h.tracked
    obtain ⟨rb,hrb⟩ := get_of_mem hstart
    obtain ⟨w,head,hw,hhead,-⟩ := descent_ok h hrb votes minScore
    exact ⟨fun _ => .inl rfl,fun _ => ⟨head,getForkChoiceHead_of_origin horigin hrb hw hhead⟩⟩
  · simp only [hzero,false_or]
    constructor
    · rintro ⟨head,hhead⟩
      obtain ⟨start,horigin,hwalk⟩ := except_bind_ok.mp hhead
      obtain rfl : root = start := by simpa [origin,hzero] using horigin
      cases hrb : blocks[root]? with
      | none => simp [hrb] at hwalk
      | some rb => exact mem_of_get hrb
    · intro hroot
      obtain ⟨head,hhead,-⟩ := getForkChoiceHead_ok h hroot hzero votes minScore
      exact ⟨head,hhead⟩

theorem getForkChoiceHead_mem {root head : Bytes32} {votes : HashMap ValidatorIndex Checkpoint}
    {minScore : Nat} (h : getForkChoiceHead blocks root votes minScore = .ok head) :
    head ∈ blocks := by
  obtain ⟨start,-,h⟩ := except_bind_ok.mp h
  cases hstart : blocks[start]? with
  | none => simp [hstart] at h
  | some startBlock =>
    simp only [hstart] at h
    obtain ⟨weights,-,hloop⟩ := except_bind_ok.mp h
    refine loop_sound (fun current => current ∈ blocks) (fun head => head ∈ blocks) ?_ ?_
      (mem_of_get hstart) hloop
    · intro current next _ hround
      unfold descendRound at hround
      split at hround
      · next best hbest =>
        obtain rfl : best = next := by simpa using hround
        obtain ⟨b,hb,-⟩ := bestChild_mem hbest
        exact mem_of_get hb
      · simp at hround
    · intro current final hcurrent hround
      unfold descendRound at hround
      split at hround
      · simp at hround
      · obtain rfl : current = final := by simpa using hround
        exact hcurrent

theorem getForkChoiceHead_leaf {root head kid : Bytes32} {b : Block}
    {votes : HashMap ValidatorIndex Checkpoint}
    (h : getForkChoiceHead blocks root votes 0 = .ok head) (hb : blocks[kid]? = some b) :
    b.parentRoot ≠ head := by
  obtain ⟨start,-,h⟩ := except_bind_ok.mp h
  cases hstart : blocks[start]? with
  | none => simp [hstart] at h
  | some startBlock =>
    simp only [hstart] at h
    obtain ⟨weights,-,hloop⟩ := except_bind_ok.mp h
    refine loop_sound (fun _ => True) (fun head => b.parentRoot ≠ head) (fun _ _ => trivial) ?_
      trivial hloop
    intro current final _ hround
    have hkid : kid ∈ (childrenMap blocks weights 0).getD b.parentRoot [] :=
      mem_childrenMap.mpr ⟨b,hb,rfl,Nat.zero_le _⟩
    unfold descendRound at hround
    split at hround
    · simp at hround
    · next hnone =>
      obtain rfl : current = final := by simpa using hround
      rintro rfl
      rw [Std.ExtTreeMap.getD_eq_getD_getElem?] at hkid
      cases hkids : (childrenMap blocks weights 0)[b.parentRoot]? with
      | none => simp [hkids] at hkid
      | some kids =>
        simp only [hkids,Option.bind_some,Option.getD_some] at hnone hkid
        have hbest := List.isSome_maxOn?_of_mem hkid
          (f := fun child => (⟨weightOf weights child,child⟩ : RankKey))
        rw [bestChild] at hnone
        simp [hnone] at hbest

end Tree

end Devnet.ForkChoice
