import Devnet.ForkChoice.Ghost
import Devnet.Lib.Ghost
import Devnet.Ssz.Merkleize

/-!
The fork-choice walk is the greedy heaviest subtree rule. The source goes over its maps in an
order of their own, which here is any order; the weights it collects are the scores of the
blocks above the origin, whatever the order.
-/

set_option autoImplicit false

namespace Devnet.ForkChoice
open Machine Trees Devnet.Types Devnet.Protocol

theorem rankKey_le_iff {a b : RankKey} : a ≤ b ↔
    a.number < b.number ∨ a.number = b.number ∧ (compare a.root b.root).isLE := Iff.rfl

instance : Std.IsLinearPreorder RankKey where
  le_refl a := by
    rw [rankKey_le_iff]
    simp
  le_trans a b c hab hbc := by
    rw [rankKey_le_iff] at hab hbc ⊢
    rcases hab with hab | ⟨hab,hroots⟩
    · exact .inl (by omega)
    · rcases hbc with hbc | ⟨hbc,hroots'⟩
      · exact .inl (by omega)
      · exact .inr ⟨hab.trans hbc,Std.TransCmp.isLE_trans hroots hroots'⟩
  le_total a b := by
    rw [rankKey_le_iff,rankKey_le_iff]
    rcases Nat.lt_trichotomy a.number b.number with h | h | h
    · exact .inl (.inl h)
    · rcases hcmp : compare a.root b.root with _ | _ | _
      · exact .inl (.inr ⟨h,rfl⟩)
      · exact .inl (.inr ⟨h,rfl⟩)
      · have hswap : compare b.root a.root = .lt := Std.OrientedCmp.lt_of_gt hcmp
        exact .inr (.inr ⟨h.symm,by rw [hswap]; rfl⟩)
    · exact .inr (.inl h)

theorem rankKey_root_eq {a b : RankKey} (h : a ≤ b) (h' : b ≤ a) : a.root = b.root := by
  rw [rankKey_le_iff] at h h'
  have hroots : (compare a.root b.root).isLE ∧ (compare b.root a.root).isLE := by
    rcases h with h | h
    · rcases h' with h' | h'
      · omega
      · omega
    · rcases h' with h' | h'
      · omega
      · exact ⟨h.2,h'.2⟩
  exact Std.compare_eq_iff_eq.mp (Std.OrientedCmp.isLE_antisymm hroots.1 hroots.2)

def originOver (listed : List (Bytes32 × Block)) (root : Bytes32) :
    Except ForkchoiceError Bytes32 :=
  if root = ByteVector.zero then
    match (listed.minOn? fun entry => (⟨entry.2.slot.get,entry.1⟩ : RankKey)).map (·.1) with
    | none => .error .noBlocksAvailable
    | some root => .ok root
  else .ok root

def childrenOver (listed : List (Bytes32 × Block)) (weights : Weights) (minScore : Nat) :
    HashMap Bytes32 (List Bytes32) :=
  Tables.group ((listed.filter fun entry => minScore ≤ weightOf weights entry.1).map
    fun entry => (entry.2.parentRoot,entry.1))

/-- The call as it goes when the blocks and the votes are iterated in these orders. -/
def getForkChoiceHeadOver (listed : List (Bytes32 × Block)) (values : List Checkpoint)
    (blocks : Blocks) (root : Bytes32) (minScore : Nat) : Except ForkchoiceError Bytes32 := do
  let root ← originOver listed root
  match blocks[root]? with
  | none => .error (.unknownRootBlock root)
  | some rootBlock =>
    let weights ← values.foldlM (weighVote blocks rootBlock.slot) ∅
    loop (descendRound (childrenOver listed weights minScore) weights) .unending blocks.size root

theorem getForkChoiceHead_eq_over (blocks : Blocks) (root : Bytes32)
    (votes : HashMap ValidatorIndex Checkpoint) (minScore : Nat) :
    getForkChoiceHead blocks root votes minScore =
      getForkChoiceHeadOver blocks.toList (Tables.values votes) blocks root minScore := rfl

theorem weightOf_insert (weights : Weights) (cursor r : Bytes32) (n : Nat) :
    weightOf (weights.insert cursor n) r = if r = cursor then n else weightOf weights r := by
  rw [weightOf,Std.ExtTreeMap.getD_insert]
  by_cases hr : r = cursor
  · simp [hr]
  · have hcmp : compare cursor r ≠ .eq := fun h => hr (Std.compare_eq_iff_eq.mp h).symm
    rw [if_neg hcmp,if_neg hr,weightOf]

section Weights
variable {blocks : Blocks} {anchor : Bytes32}

def Raised (blocks : Blocks) (rootSlot : Slot) (v r : Bytes32) : Prop :=
  AncestorOrSelf (parentLink blocks) r v ∧ rootSlot.get < slotOf blocks r

theorem raised_parent {rootSlot : Slot} {v r : Bytes32} {b : Block} (hv : blocks[v]? = some b)
    (hlt : rootSlot.get < b.slot.get) :
    Raised blocks rootSlot v r ↔ r = v ∨ Raised blocks rootSlot b.parentRoot r := by
  constructor
  · rintro ⟨hanc,hslot⟩
    obtain ⟨q,hq,rfl | hup⟩ := ancestorOrSelf_iff.mp hanc
    · exact .inl rfl
    · obtain rfl := Option.some.inj (hq.symm.trans (parentLink_of_get hv))
      exact .inr ⟨hup,hslot⟩
  · rintro (rfl | ⟨hanc,hslot⟩)
    · exact ⟨.self (parentLink_of_get hv),by rwa [slotOf_of_get hv]⟩
    · exact ⟨.up (parentLink_of_get hv) hanc,hslot⟩

theorem not_raised_self (h : Planted blocks anchor) {rootSlot : Slot} {v : Bytes32} {b p : Block}
    (hv : blocks[v]? = some b) (hp : blocks[b.parentRoot]? = some p)
    (hlt : p.slot.get < b.slot.get) : ¬Raised blocks rootSlot b.parentRoot v := by
  rintro ⟨hanc,-⟩
  have hle := h.slot_le_of_ancestor hanc hv hp
  omega

open Classical in
theorem weighVote_weight (h : Planted blocks anchor) {o : Bytes32} {ob : Block}
    (ho : blocks[o]? = some ob) {weights w : Weights} {checkpoint : Checkpoint}
    (hw : weighVote blocks ob.slot weights checkpoint = .ok w) (r : Bytes32) :
    weightOf w r = weightOf weights r+if Raised blocks ob.slot checkpoint.root r then 1 else 0 := by
  unfold weighVote at hw
  cases hv : blocks[checkpoint.root]? with
  | none =>
    obtain rfl : weights = w := by simpa [hv] using hw
    have hnot : ¬Raised blocks ob.slot checkpoint.root r := by
      rintro ⟨hanc,-⟩
      obtain ⟨p,hp⟩ := hanc.descendant
      simp [parentLink,hv] at hp
    simp [hnot]
  | some voted =>
    rw [hv] at hw
    -- what the cursor has still to raise, together with what was raised, stays the same
    refine loop_sound
      (fun walk => blocks[walk.2.1]? = some walk.2.2 ∧
        weightOf walk.1 r+(if Raised blocks ob.slot walk.2.1 r then 1 else 0) =
          weightOf weights r+if Raised blocks ob.slot checkpoint.root r then 1 else 0)
      (fun w => weightOf w r =
        weightOf weights r+if Raised blocks ob.slot checkpoint.root r then 1 else 0)
      ?_ ?_ ⟨hv,rfl⟩ hw
    · rintro ⟨before,cursor,block⟩ next ⟨hcursor,hsum⟩ hround
      by_cases hlt : ob.slot.get < block.slot.get
      · obtain ⟨p,hp,hps⟩ := h.parent hcursor ho hlt
        rw [weighRound_next hlt hp] at hround
        obtain rfl : (_,_,_) = next := by simpa using hround
        refine ⟨hp,?_⟩
        rw [← hsum,weightOf_insert]
        by_cases hr : r = cursor
        · subst hr
          have hself : Raised blocks ob.slot r r := (raised_parent hcursor hlt).mpr (.inl rfl)
          have hbelow : ¬Raised blocks ob.slot block.parentRoot r := not_raised_self h hcursor hp hps
          simp [hself,hbelow]
        · have hsame : Raised blocks ob.slot cursor r ↔ Raised blocks ob.slot block.parentRoot r := by
            rw [raised_parent hcursor hlt]
            simp [hr]
          simp [hr,hsame]
      · rw [weighRound_stop hlt] at hround
        simp at hround
    · rintro ⟨before,cursor,block⟩ final ⟨hcursor,hsum⟩ hround
      change blocks[cursor]? = some block at hcursor
      by_cases hlt : ob.slot.get < block.slot.get
      · obtain ⟨p,hp,-⟩ := h.parent hcursor ho hlt
        rw [weighRound_next hlt hp] at hround
        simp at hround
      · rw [weighRound_stop hlt] at hround
        obtain rfl : before = final := by simpa using hround
        have hnot : ¬Raised blocks ob.slot cursor r := by
          rintro ⟨hanc,hslot⟩
          have hle := (Rooted.rank_le_of_ancestor (T := h.tree) hanc).1
          change slotOf blocks r ≤ slotOf blocks cursor at hle
          rw [slotOf_of_get hcursor] at hle
          omega
        simpa [hnot] using hsum

theorem weigh_weight (h : Planted blocks anchor) {o : Bytes32} {ob : Block}
    (ho : blocks[o]? = some ob) {values : List Checkpoint} {w : Weights}
    (hw : values.foldlM (weighVote blocks ob.slot) ∅ = .ok w) {r : Bytes32}
    (hr : ob.slot.get < slotOf blocks r) :
    weightOf w r = score (parentLink blocks) (values.map Checkpoint.root) r := by
  have hfold : ∀ (values : List Checkpoint) (weights : Weights),
      values.foldlM (weighVote blocks ob.slot) weights = .ok w →
      weightOf w r = weightOf weights r+
        score (parentLink blocks) (values.map Checkpoint.root) r := by
    intro values
    induction values with
    | nil =>
      intro weights hnil
      obtain rfl : weights = w := by simpa [pure,Except.pure] using hnil
      simp [score]
    | cons checkpoint values ih =>
      intro weights hcons
      rw [List.foldlM_cons] at hcons
      obtain ⟨next,hnext,hrest⟩ := except_bind_ok.mp hcons
      rw [ih next hrest,weighVote_weight h ho hnext r]
      have hraised : Raised blocks ob.slot checkpoint.root r ↔
          AncestorOrSelf (parentLink blocks) r checkpoint.root := by simp [Raised,hr]
      by_cases hanc : AncestorOrSelf (parentLink blocks) r checkpoint.root
      · simp [hraised,hanc,score]
        omega
      · simp [hraised,hanc,score]
  have hzero : weightOf (∅ : Weights) r = 0 := by simp [weightOf]
  rw [hfold values ∅ hw,hzero,Nat.zero_add]

theorem weigh_over_total (h : Planted blocks anchor) {o : Bytes32} {ob : Block}
    (ho : blocks[o]? = some ob) (values : List Checkpoint) :
    ∃ w, values.foldlM (weighVote blocks ob.slot) ∅ = .ok w :=
  foldlM_total (fun w c => weighVote_total h ho w c) _ _

end Weights

section Walk
variable {blocks : Blocks} {anchor : Bytes32}

noncomputable def ghostKey (blocks : Blocks) (heads : List Bytes32) (root : Bytes32) : RankKey :=
  ⟨score (parentLink blocks) heads root,root⟩

/-- The rule with the votes for `heads` leads from the first block to the second. -/
def GhostPath (blocks : Blocks) (heads : List Bytes32) (minScore : Nat) :
    Bytes32 → Bytes32 → Prop :=
  Ghost (parentLink blocks) (fun kid => minScore ≤ score (parentLink blocks) heads kid)
    (ghostKey blocks heads)

theorem GhostPath.unique {heads : List Bytes32} {minScore : Nat} {start head head' : Bytes32}
    (h : GhostPath blocks heads minScore start head)
    (h' : GhostPath blocks heads minScore start head') : head = head' :=
  Ghost.unique (fun _ _ hle hle' => rankKey_root_eq hle hle') h h'

theorem score_perm {heads heads' : List Bytes32} (h : heads.Perm heads') (r : Bytes32) :
    score (parentLink blocks) heads r = score (parentLink blocks) heads' r :=
  h.countP_eq _

theorem mem_childrenOver {listed : List (Bytes32 × Block)} (hlisted : listed.Perm blocks.toList)
    {weights : Weights} {minScore : Nat} {p kid : Bytes32} :
    kid ∈ (childrenOver listed weights minScore).getD p [] ↔
      parentLink blocks kid = some p ∧ minScore ≤ weightOf weights kid := by
  simp only [childrenOver,Tables.mem_group,List.mem_map,List.mem_filter,decide_eq_true_eq,
    Prod.exists,Prod.mk.injEq,hlisted.mem_iff,Std.ExtTreeMap.mem_toList_iff_getElem?_eq_some,
    parentLink_eq_some]
  constructor
  · rintro ⟨root,b,⟨hb,hscore⟩,hp,rfl⟩
    exact ⟨⟨b,hb,hp⟩,hscore⟩
  · rintro ⟨⟨b,hb,hp⟩,hscore⟩
    exact ⟨kid,b,⟨hb,hscore⟩,hp,rfl⟩

theorem bestChild_some {weights : Weights} {kids : List Bytes32} {best : Bytes32}
    (h : bestChild weights kids = some best) : best ∈ kids ∧
      ∀ kid ∈ kids, (⟨weightOf weights kid,kid⟩ : RankKey) ≤ ⟨weightOf weights best,best⟩ := by
  refine ⟨List.maxOn?_mem h,fun kid hkid => ?_⟩
  have hle := List.le_apply_get_maxOn?_of_mem hkid
    (f := fun child => (⟨weightOf weights child,child⟩ : RankKey))
  have hget : (kids.maxOn? fun child => (⟨weightOf weights child,child⟩ : RankKey)).get
      (List.isSome_maxOn?_of_mem hkid) = best := Option.get_of_eq_some _ h
  rwa [hget] at hle

theorem bestChild_none {weights : Weights} {kids : List Bytes32}
    (h : bestChild weights kids = none) : kids = [] := by
  cases kids with
  | nil => rfl
  | cons kid kids =>
    have hsome := List.isSome_maxOn?_of_mem (List.mem_cons_self (a := kid) (l := kids))
      (f := fun child => (⟨weightOf weights child,child⟩ : RankKey))
    rw [bestChild] at h
    simp [h] at hsome

/-- A round of the descent is a step of the rule, where weights are scores. -/
theorem descendRound_ghost {listed : List (Bytes32 × Block)} (hlisted : listed.Perm blocks.toList)
    {heads : List Bytes32} {weights : Weights} (minScore : Nat) {current : Bytes32}
    (hweights : ∀ kid, parentLink blocks kid = some current →
      weightOf weights kid = score (parentLink blocks) heads kid) :
    (∃ best, descendRound (childrenOver listed weights minScore) weights current = .ok (.next best) ∧
        Picks (parentLink blocks) (fun kid => minScore ≤ score (parentLink blocks) heads kid)
          (ghostKey blocks heads) current best) ∨
      descendRound (childrenOver listed weights minScore) weights current = .ok (.stop current) ∧
        ∀ kid, parentLink blocks kid = some current →
          ¬minScore ≤ score (parentLink blocks) heads kid := by
  have hkids := @mem_childrenOver blocks listed hlisted weights minScore current
  rw [Std.ExtTreeMap.getD_eq_getD_getElem?] at hkids
  unfold descendRound
  cases hlist : (childrenOver listed weights minScore)[current]? with
  | none =>
    rw [hlist] at hkids
    refine .inr ⟨rfl,fun kid hkid hscore => ?_⟩
    have hin := hkids.mpr ⟨hkid,(hweights kid hkid).symm ▸ hscore⟩
    simp at hin
  | some kids =>
    rw [hlist] at hkids
    simp only [Option.getD_some,Option.bind_some] at hkids ⊢
    cases hbest : bestChild weights kids with
    | none =>
      refine .inr ⟨rfl,fun kid hkid hscore => ?_⟩
      have hin := hkids.mpr ⟨hkid,(hweights kid hkid).symm ▸ hscore⟩
      simp [bestChild_none hbest] at hin
    | some best =>
      obtain ⟨hmem,hmax⟩ := bestChild_some hbest
      obtain ⟨hchild,hscore⟩ := hkids.mp hmem
      refine .inl ⟨best,rfl,hchild,hweights best hchild ▸ hscore,fun other hother hreached => ?_⟩
      have hle := hmax other (hkids.mpr ⟨hother,(hweights other hother).symm ▸ hreached⟩)
      rwa [hweights other hother,hweights best hchild] at hle

theorem descent_ghost (h : Planted blocks anchor) {start : Bytes32} {ob : Block}
    (hob : blocks[start]? = some ob) {listed : List (Bytes32 × Block)}
    (hlisted : listed.Perm blocks.toList) {values : List Checkpoint} {w : Weights}
    (hw : values.foldlM (weighVote blocks ob.slot) ∅ = .ok w) (minScore : Nat) :
    ∃ head, loop (descendRound (childrenOver listed w minScore) w) .unending blocks.size start =
        .ok head ∧
      GhostPath blocks (values.map Checkpoint.root) minScore start head := by
  have hself : AncestorOrSelf (parentLink blocks) start start := .self (parentLink_of_get hob)
  -- the children of a block on the way lie above the origin
  have hround : ∀ {current}, AncestorOrSelf (parentLink blocks) start current →
      current ∈ h.tree.nodes ∧ ∀ kid, parentLink blocks kid = some current →
        slotOf blocks current < slotOf blocks kid ∧
        weightOf w kid = score (parentLink blocks) (values.map Checkpoint.root) kid := by
    intro current hanc
    obtain ⟨hle,hmem⟩ := Rooted.rank_le_of_ancestor (T := h.tree) hanc
    refine ⟨hmem,fun kid hkid => ?_⟩
    have hlt := Rooted.rank_lt_of_parent_mem (T := h.tree) hkid hmem
    refine ⟨hlt,weigh_weight h hob hw (Nat.lt_of_le_of_lt ?_ hlt)⟩
    rw [← slotOf_of_get hob]
    exact hle
  apply loop_correct
    (fun current => AncestorOrSelf (parentLink blocks) start current ∧
      ∀ head, GhostPath blocks (values.map Checkpoint.root) minScore current head →
        GhostPath blocks (values.map Checkpoint.root) minScore start head)
    (GhostPath blocks (values.map Checkpoint.root) minScore start) h.tree.higher _
    ⟨hself,fun _ hpath => hpath⟩
  · rw [← h.card_nodes]
    exact Rooted.higher_lt_card (hround hself).1
  · rintro current ⟨hanc,hpath⟩
    have hkids := (hround hanc).2
    rcases descendRound_ghost hlisted minScore (fun kid hkid => (hkids kid hkid).2) with
      ⟨best,hnext,hpick⟩ | ⟨hstop,hnone⟩
    · exact .inr ⟨best,hnext,⟨.up hpick.child hanc,fun head hrest => hpath head (.move hpick hrest)⟩,
        Rooted.higher_lt (Rooted.mem_of_parent (T := h.tree) hpick.child)
          (hkids best hpick.child).1⟩
    · exact .inl ⟨current,hstop,hpath current (.stop hnone)⟩

def startOf (anchor root : Bytes32) : Bytes32 := if root = ByteVector.zero then anchor else root

theorem originOver_ok (h : Planted blocks anchor) {listed : List (Bytes32 × Block)}
    (hlisted : listed.Perm blocks.toList) (root : Bytes32) :
    originOver listed root = .ok (startOf anchor root) := by
  unfold originOver startOf
  split
  · obtain ⟨ab,hab⟩ := get_of_mem h.tracked
    have hin : (anchor,ab) ∈ listed :=
      hlisted.mem_iff.mpr (Std.ExtTreeMap.mem_toList_iff_getElem?_eq_some.mpr hab)
    cases hmin : listed.minOn? fun entry => (⟨entry.2.slot.get,entry.1⟩ : RankKey) with
    | none =>
      have hsome := List.isSome_minOn?_of_mem hin
        (f := fun entry : Bytes32 × Block => (⟨entry.2.slot.get,entry.1⟩ : RankKey))
      simp [hmin] at hsome
    | some entry =>
      have hle := List.apply_get_minOn?_le_of_mem hin
        (f := fun entry : Bytes32 × Block => (⟨entry.2.slot.get,entry.1⟩ : RankKey))
      have hget : (listed.minOn? fun entry => (⟨entry.2.slot.get,entry.1⟩ : RankKey)).get
          (List.isSome_minOn?_of_mem hin) = entry := Option.get_of_eq_some _ hmin
      rw [hget,rankKey_le_iff] at hle
      have hentry := Std.ExtTreeMap.mem_toList_iff_getElem?_eq_some.mp
        (hlisted.mem_iff.mp (List.minOn?_mem hmin))
      have hanchor : entry.1 = anchor := by
        by_contra hne
        -- any other block has its parent below it, and that is not below the anchor
        obtain ⟨p,hp,hlt⟩ := h.linked hentry hne
        have hroot := h.tree.rank_root_le (h.mem_nodes.mpr (mem_of_get hp))
        change slotOf blocks anchor ≤ slotOf blocks entry.2.parentRoot at hroot
        rw [slotOf_of_get hab,slotOf_of_get hp] at hroot
        simp only at hle
        omega
      simp [hanchor]
  · rfl

theorem startOf_mem (h : Planted blocks anchor) {root : Bytes32} (hroot : root ∈ blocks) :
    startOf anchor root ∈ blocks := by
  unfold startOf
  split
  · exact h.tracked
  · exact hroot

theorem forkChoiceHead_ghost (h : Planted blocks anchor) {root : Bytes32} (hroot : root ∈ blocks)
    {listed : List (Bytes32 × Block)} (hlisted : listed.Perm blocks.toList)
    (values : List Checkpoint) (minScore : Nat) :
    ∃ head, getForkChoiceHeadOver listed values blocks root minScore = .ok head ∧
      GhostPath blocks (values.map Checkpoint.root) minScore (startOf anchor root) head := by
  obtain ⟨ob,hob⟩ := get_of_mem (startOf_mem h hroot)
  obtain ⟨w,hw⟩ := weigh_over_total h hob values
  obtain ⟨head,hhead,hpath⟩ := descent_ghost h hob hlisted hw minScore
  refine ⟨head,?_,hpath⟩
  simp only [getForkChoiceHeadOver,except_bind_ok]
  exact ⟨_,originOver_ok h hlisted root,by simp only [hob,except_bind_ok]; exact ⟨w,hw,hhead⟩⟩

theorem GhostPath.perm {heads heads' : List Bytes32} (hperm : heads.Perm heads') {minScore : Nat}
    {start head : Bytes32} (h : GhostPath blocks heads minScore start head) :
    GhostPath blocks heads' minScore start head := by
  have hscore : score (parentLink blocks) heads = score (parentLink blocks) heads' :=
    funext (score_perm hperm)
  unfold GhostPath ghostKey at h ⊢
  rwa [← hscore]

/-- On a tree, for every tracked root, all votes and every threshold, and in whatever order the
maps are iterated, the call gives the end of the greedy heaviest path, which is unique and a
descendant of where it starts. -/
theorem forkChoice_computes_ghost (h : Planted blocks anchor) {root : Bytes32}
    (hroot : root ∈ blocks) (votes : HashMap ValidatorIndex Checkpoint) (minScore : Nat)
    {listed : List (Bytes32 × Block)} (hlisted : listed.Perm blocks.toList)
    {values : List Checkpoint} (hvalues : values.Perm (Tables.values votes)) :
    ∃ head, getForkChoiceHeadOver listed values blocks root minScore = .ok head ∧
      GhostPath blocks ((Tables.values votes).map Checkpoint.root) minScore (startOf anchor root)
        head ∧
      AncestorOrSelf (parentLink blocks) (startOf anchor root) head ∧
      ∀ other, GhostPath blocks ((Tables.values votes).map Checkpoint.root) minScore
        (startOf anchor root) other → other = head := by
  obtain ⟨head,hhead,hpath⟩ := forkChoiceHead_ghost h hroot hlisted values minScore
  have hghost := hpath.perm (hvalues.map Checkpoint.root)
  obtain ⟨ob,hob⟩ := get_of_mem (startOf_mem h hroot)
  refine ⟨head,hhead,hghost,?_,fun other hother => hother.unique hghost⟩
  exact Ghost.descends hghost (by rw [parentLink_of_get hob]; rfl)

end Walk

section Pair

def firstRoot : Bytes32 := Ssz.u64Chunk 1

def pairOf (child : Bytes32) : Blocks :=
  ((∅ : Blocks).insert firstRoot { (default : Block) with parentRoot := Ssz.u64Chunk 2 }).insert child
    { (default : Block) with slot := Slot.ofNat 1, parentRoot := firstRoot }

theorem getElem?_pairOf {child r : Bytes32} {b : Block} :
    (pairOf child)[r]? = some b ↔
      r = child ∧ b = { (default : Block) with slot := Slot.ofNat 1, parentRoot := firstRoot } ∨
      r ≠ child ∧ r = firstRoot ∧
        b = { (default : Block) with parentRoot := Ssz.u64Chunk 2 } := by
  rw [pairOf,Std.ExtTreeMap.getElem?_insert,Std.ExtTreeMap.getElem?_insert]
  simp only [Std.compare_eq_iff_eq,Std.ExtTreeMap.getElem?_empty]
  by_cases hchild : child = r
  · simp [hchild,eq_comm]
  · by_cases hfirst : firstRoot = r
    · simp [hchild,Ne.symm hchild,hfirst,eq_comm]
    · simp [hchild,Ne.symm hchild,hfirst,Ne.symm hfirst]

theorem planted_pairOf (child : Bytes32) (hfirst : child ≠ firstRoot)
    (hsecond : child ≠ Ssz.u64Chunk 2) : Planted (pairOf child) firstRoot := by
  have hanchor : (pairOf child)[firstRoot]? =
      some { (default : Block) with parentRoot := Ssz.u64Chunk 2 } :=
    getElem?_pairOf.mpr (.inr ⟨hfirst.symm,rfl,rfl⟩)
  refine ⟨mem_of_get hanchor,fun ha hin => ?_,fun hb hne => ?_⟩
  · obtain rfl := Option.some.inj (ha.symm.trans hanchor)
    obtain ⟨b,hb⟩ := get_of_mem hin
    rcases getElem?_pairOf.mp hb with ⟨hr,-⟩ | ⟨-,hr,-⟩
    · exact hsecond hr.symm
    · exact absurd hr (by decide)
  · rcases getElem?_pairOf.mp hb with ⟨-,rfl⟩ | ⟨-,hr,-⟩
    · exact ⟨_,hanchor,by decide⟩
    · exact absurd hr hne

def oneVote : HashMap ValidatorIndex Checkpoint :=
  (∅ : HashMap ValidatorIndex Checkpoint).insert default ⟨Ssz.u64Chunk 3,Slot.ofNat 1⟩

theorem forkChoice_of_pair :
    Planted (pairOf (Ssz.u64Chunk 3)) firstRoot ∧
      getForkChoiceHead (pairOf (Ssz.u64Chunk 3)) firstRoot oneVote 1 = .ok (Ssz.u64Chunk 3) ∧
      GhostPath (pairOf (Ssz.u64Chunk 3)) ((Tables.values oneVote).map Checkpoint.root) 1
        (startOf firstRoot firstRoot) (Ssz.u64Chunk 3) := by
  have hplanted := planted_pairOf (Ssz.u64Chunk 3) (by decide) (by decide)
  obtain ⟨head,hhead,hpath,-,-⟩ := forkChoice_computes_ghost hplanted hplanted.tracked oneVote 1
    (List.Perm.refl _) (List.Perm.refl _)
  have hend : getForkChoiceHead (pairOf (Ssz.u64Chunk 3)) firstRoot oneVote 1 =
      .ok (Ssz.u64Chunk 3) := by decide +kernel
  rw [← getForkChoiceHead_eq_over,hend] at hhead
  obtain rfl := Except.ok.inj hhead
  exact ⟨hplanted,hend,hpath⟩

/-- A block whose root is zero cannot be started from: the call starts at the anchor. -/
theorem forkChoice_from_zero :
    Planted (pairOf ByteVector.zero) firstRoot ∧ ByteVector.zero ∈ pairOf ByteVector.zero ∧
      getForkChoiceHead (pairOf ByteVector.zero) ByteVector.zero ∅ 1 = .ok firstRoot ∧
      ¬AncestorOrSelf (parentLink (pairOf ByteVector.zero)) ByteVector.zero firstRoot := by
  have hplanted := planted_pairOf ByteVector.zero (by decide) (by decide)
  refine ⟨hplanted,by decide,by decide +kernel,fun hanc => ?_⟩
  have hle := hplanted.slot_le_of_ancestor hanc (getElem?_pairOf.mpr (.inl ⟨rfl,rfl⟩))
    (getElem?_pairOf.mpr (.inr ⟨by decide,rfl,rfl⟩))
  exact absurd hle (by decide)

end Pair

end Devnet.ForkChoice
