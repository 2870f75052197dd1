import Devnet.Engine.Ladder
import Devnet.Lib.Ghost

/-!
The target a node votes for. A first walk goes back from the head for a bounded number of
steps, a second one from there to a slot that can be justified. Where the finalized block is
an ancestor of the head, neither walk passes it. The vote a node makes from its own store can
fail only one of the checks of that store.
-/

set_option autoImplicit false

namespace Devnet.Engine
open Machine Trees Devnet.Types Devnet.Ssz Devnet.Protocol Devnet.ForkChoice

theorem isJustifiableAfter_self (slot : Slot) : slot.isJustifiableAfter slot = true := by
  simp [Slot.isJustifiableAfter]

section
variable {st : Store} {anchor : Bytes32}

theorem finalized_parent {r : Bytes32} {b fb : Block}
    (hfb : st.blocks[st.latestFinalized.root]? = some fb) (hslot : fb.slot = st.latestFinalized.slot)
    (hanc : AncestorOrSelf (parentLink st.blocks) st.latestFinalized.root r)
    (hb : st.blocks[r]? = some b) (hlt : st.latestFinalized.slot.get < b.slot.get) :
    AncestorOrSelf (parentLink st.blocks) st.latestFinalized.root b.parentRoot := by
  obtain ⟨p,hp,rfl | hup⟩ := ancestorOrSelf_iff.mp hanc
  · obtain rfl := Option.some.inj (hfb.symm.trans hb)
    rw [hslot] at hlt
    omega
  · obtain rfl := Option.some.inj (hp.symm.trans (parentLink_of_get hb))
    exact hup

theorem walkToFloor_finalized {fb : Block}
    (hfb : st.blocks[st.latestFinalized.root]? = some fb) (hslot : fb.slot = st.latestFinalized.slot)
    {floorSlot : Nat} (hfloor : st.latestFinalized.slot.get ≤ floorSlot) (n : Nat)
    {cursor next : Bytes32 × Block} (hcursor : st.blocks[cursor.1]? = some cursor.2)
    (hanc : AncestorOrSelf (parentLink st.blocks) st.latestFinalized.root cursor.1)
    (h : st.walkToFloor floorSlot n cursor = .ok next) :
    AncestorOrSelf (parentLink st.blocks) st.latestFinalized.root next.1 := by
  induction n generalizing cursor with
  | zero =>
    obtain rfl := Except.ok.inj h
    exact hanc
  | succ n ih =>
    by_cases hlow : cursor.2.slot.get ≤ floorSlot
    · rw [Store.walkToFloor,if_pos hlow] at h
      obtain rfl := Except.ok.inj h
      exact hanc
    · rw [Store.walkToFloor,if_neg hlow] at h
      obtain ⟨parent,hparent,hrest⟩ := except_bind_ok.mp h
      obtain ⟨p,hp,rfl⟩ := parentOf_ok.mp hparent
      exact ih hp (finalized_parent hfb hslot hanc hcursor (by omega)) hrest

/-- Between the cursor of the second walk and where it began nothing is justifiable. -/
structure Skipped (st : Store) (mid cursor : Bytes32 × Block) : Prop where
  tracked : st.blocks[cursor.1]? = some cursor.2
  finalized : AncestorOrSelf (parentLink st.blocks) st.latestFinalized.root cursor.1
  below : AncestorOrSelf (parentLink st.blocks) cursor.1 mid.1
  skipped : ∀ (r : Bytes32) (b : Block), st.blocks[r]? = some b →
    AncestorOrSelf (parentLink st.blocks) cursor.1 r → r ≠ cursor.1 →
    AncestorOrSelf (parentLink st.blocks) r mid.1 →
    b.slot.isJustifiableAfter st.latestFinalized.slot = false

theorem Skipped.parent {mid cursor : Bytes32 × Block} {fb p : Block} (h : Skipped st mid cursor)
    (hplanted : Planted st.blocks anchor)
    (hfb : st.blocks[st.latestFinalized.root]? = some fb) (hslot : fb.slot = st.latestFinalized.slot)
    (hlt : st.latestFinalized.slot.get < cursor.2.slot.get)
    (hnot : cursor.2.slot.isJustifiableAfter st.latestFinalized.slot = false)
    (hp : st.blocks[cursor.2.parentRoot]? = some p) : Skipped st mid (cursor.2.parentRoot,p) := by
  have hlink := parentLink_of_get h.tracked
  have hstep : AncestorOrSelf (parentLink st.blocks) cursor.2.parentRoot cursor.1 :=
    .up hlink (.self (parentLink_of_get hp))
  refine ⟨hp,finalized_parent hfb hslot h.finalized h.tracked hlt,hstep.trans h.below,?_⟩
  intro r b hb hpr hne hrm
  rcases h.below.total hrm with hcr | hrc
  · by_cases hrc : r = cursor.1
    · subst hrc
      obtain rfl := Option.some.inj (hb.symm.trans h.tracked)
      exact hnot
    · exact h.skipped r b hb hcr hrc hrm
  · -- what lies above the cursor and below its parent is the cursor
    obtain ⟨q,hq,rfl | hrq⟩ := ancestorOrSelf_iff.mp hrc
    · obtain rfl := Option.some.inj (hb.symm.trans h.tracked)
      exact hnot
    · obtain rfl := Option.some.inj (hq.symm.trans hlink)
      exact absurd (Rooted.ancestor_antisymm (T := hplanted.tree) hrq hpr) hne

theorem justifiable_of_walk {mid last : Bytes32 × Block} {fb : Block}
    (hplanted : Planted st.blocks anchor)
    (hfb : st.blocks[st.latestFinalized.root]? = some fb) (hslot : fb.slot = st.latestFinalized.slot)
    (hmid : st.blocks[mid.1]? = some mid.2)
    (hanc : AncestorOrSelf (parentLink st.blocks) st.latestFinalized.root mid.1) {n : Nat}
    (h : loop st.justifiableRound .unending n mid = .ok last) :
    Skipped st mid last ∧ last.2.slot.isJustifiableAfter st.latestFinalized.slot = true := by
  have hself : Skipped st mid mid := by
    refine ⟨hmid,hanc,.self (parentLink_of_get hmid),fun r b _ hmr hne hrm => ?_⟩
    exact absurd (Rooted.ancestor_antisymm (T := hplanted.tree) hrm hmr) hne
  refine loop_sound (Skipped st mid) (fun last => Skipped st mid last ∧
    last.2.slot.isJustifiableAfter st.latestFinalized.slot = true) ?_ ?_ hself h
  · intro cursor next hcursor hround
    unfold Store.justifiableRound at hround
    split at hround
    · next hgo =>
      obtain ⟨_,hparent,heq⟩ := except_bind_ok.mp hround
      obtain ⟨p,hp,rfl⟩ := parentOf_ok.mp hparent
      obtain rfl : (cursor.2.parentRoot,p) = next := by simpa using heq
      exact hcursor.parent hplanted hfb hslot hgo.1 hgo.2 hp
    · simp at hround
  · intro cursor final hcursor hround
    unfold Store.justifiableRound at hround
    split at hround
    · obtain ⟨_,-,heq⟩ := except_bind_ok.mp hround
      simp at heq
    · next hstop =>
      obtain rfl : cursor = final := by simpa using hround
      refine ⟨hcursor,?_⟩
      by_cases hlt : st.latestFinalized.slot.get < cursor.2.slot.get
      · simpa [hlt] using hstop
      · -- no later than the finalized block, of which it is a descendant
        have hle := hplanted.slot_le_of_ancestor hcursor.finalized hfb hcursor.tracked
        rw [hslot] at hle
        have hsame : cursor.2.slot = st.latestFinalized.slot := Slot.ext_get (by omega)
        rw [hsame]
        exact isJustifiableAfter_self _

def firstStop (st : Store) : Except ForkchoiceError (Bytes32 × Block) := do
  let headBlock ← st.lookupBlock st.head .unknownHeadBlock
  let safeBlock ← st.lookupBlock st.safeTarget .unknownSafeTarget
  st.walkToFloor (max safeBlock.slot.get st.latestFinalized.slot.get) justificationLookbackSlots
    (st.head,headBlock)

theorem getVoteTarget_firstStop {target : Checkpoint} (h : st.getVoteTarget = .ok target) :
    ∃ mid last, firstStop st = .ok mid ∧
      loop st.justifiableRound .unending st.blocks.size mid = .ok last ∧
      target = ⟨last.1,last.2.slot⟩ := by
  simp only [Store.getVoteTarget,except_bind_ok] at h
  obtain ⟨hb,hhb,sb,hsb,mid,hmid,last,hlast,htarget⟩ := h
  refine ⟨mid,last,?_,hlast,(Except.ok.inj htarget).symm⟩
  simp only [firstStop,except_bind_ok]
  exact ⟨hb,hhb,sb,hsb,hmid⟩

theorem firstStop_ok {mid : Bytes32 × Block} {fb : Block} (hplanted : Planted st.blocks anchor)
    (hfb : st.blocks[st.latestFinalized.root]? = some fb) (hslot : fb.slot = st.latestFinalized.slot)
    (h : firstStop st = .ok mid) :
    st.OnPath mid ∧ (AncestorOrSelf (parentLink st.blocks) st.latestFinalized.root st.head →
      AncestorOrSelf (parentLink st.blocks) st.latestFinalized.root mid.1) := by
  simp only [firstStop,except_bind_ok,lookupBlock_ok] at h
  obtain ⟨hb,hhb,sb,hsb,hwalk⟩ := h
  obtain ⟨next,hnext,hpath⟩ := walkToFloor_ok (max sb.slot.get st.latestFinalized.slot.get)
    hplanted hfb (hslot ▸ Nat.le_max_right _ _) justificationLookbackSlots
    (⟨hhb,.self (parentLink_of_get hhb)⟩ : st.OnPath (st.head,hb))
  obtain rfl := Except.ok.inj (hnext.symm.trans hwalk)
  exact ⟨hpath,fun hanc => walkToFloor_finalized hfb hslot (Nat.le_max_right _ _) _ hhb hanc hwalk⟩

theorem resolvedSourceRoot_justified {vote : AttestationData}
    (h : vote.source = st.latestJustified) :
    st.resolvedSourceRoot vote = st.latestJustified.root := by
  simp [Store.resolvedSourceRoot,h]

theorem currentVoteSlot_advance (st : Store) :
    ∃ limit, st.currentVoteSlot.advance = some limit ∧ limit.get = st.time.slot+1 := by
  -- The clock is four times the slot, so there is always a next slot.
  have hclock := st.time.isLt
  have hnext : st.time.slot+1 < 2^64 := by
    simp only [Time.slot,intervalsPerSlot]
    omega
  exact ⟨⟨st.time.slot+1,hnext⟩,dif_pos hnext,rfl⟩

/-- A vote of which every checkpoint is a tracked block under its own slot, the target no later
than the head and the source the justified checkpoint. -/
structure Own (st : Store) (vote : AttestationData) : Prop where
  source : vote.source = st.latestJustified
  justified : ∃ b, st.blocks[vote.source.root]? = some b ∧ b.slot = vote.source.slot
  target : ∃ b, st.blocks[vote.target.root]? = some b ∧ b.slot = vote.target.slot
  head : ∃ b, st.blocks[vote.head.root]? = some b ∧ b.slot = vote.head.slot
  order : vote.target.slot.get ≤ vote.head.slot.get
  timely : vote.slot.get ≤ st.time.slot+1

theorem Own.validateAttestation_eq {vote : AttestationData} (h : Own st vote) :
    st.validateAttestation vote =
      if vote.target.slot.get < vote.source.slot.get then .error .sourceSlotExceedsTarget
      else .ok () := by
  obtain ⟨sb,hsb,hsource⟩ := h.justified
  obtain ⟨tb,htb,htarget⟩ := h.target
  obtain ⟨hb,hhb,hhead⟩ := h.head
  obtain ⟨limit,hlimit,hnext⟩ := currentVoteSlot_advance st
  have hroot : st.resolvedSourceRoot vote = vote.source.root := by
    rw [resolvedSourceRoot_justified h.source,h.source]
  have hlate : ¬limit.get < vote.slot.get := by
    have := h.timely
    omega
  by_cases hrace : vote.target.slot.get < vote.source.slot.get
  · simp [Store.validateAttestation,hroot,lookupBlock_ok.mpr hsb,lookupBlock_ok.mpr htb,
      lookupBlock_ok.mpr hhb,hrace,bind,Except.bind]
  · simp [Store.validateAttestation,hroot,lookupBlock_ok.mpr hsb,lookupBlock_ok.mpr htb,
      lookupBlock_ok.mpr hhb,hrace,hsource,htarget,hhead,Nat.not_lt.mpr h.order,
      Store.checkDeclared,hlimit,hlate,bind,Except.bind]

end

section
variable [HashPair]

/-- The target of a vote, in every store of a life. -/
theorem voteTarget_selection {held : List Block} {st : Store} (hlife : Lives held st)
    (hsound : Sound held) :
    ∃ target block, st.getVoteTarget = .ok target ∧ st.blocks[target.root]? = some block ∧
      block.slot = target.slot ∧ AncestorOrSelf (parentLink st.blocks) target.root st.head ∧
      (AncestorOrSelf (parentLink st.blocks) st.latestFinalized.root st.head →
        st.latestFinalized.slot.get ≤ target.slot.get ∧
        target.slot.isJustifiableAfter st.latestFinalized.slot = true ∧
        ∃ mid, firstStop st = .ok mid ∧ ∀ (r : Bytes32) (b : Block), st.blocks[r]? = some b →
          AncestorOrSelf (parentLink st.blocks) target.root r → r ≠ target.root →
          AncestorOrSelf (parentLink st.blocks) r mid.1 →
          b.slot.isJustifiableAfter st.latestFinalized.slot = false) := by
  obtain ⟨anchor,hsteady⟩ := hlife.steady hsound
  have hplanted := hsteady.linked.planted hsound
  obtain ⟨fb,hfb,hslot⟩ := hsteady.pointed.finalized.tracked
  obtain ⟨target,block,htarget,hpath,hblock⟩ := getVoteTarget_ok hplanted hsteady.pointed.head
    hsteady.pointed.safeTarget hfb hslot
  refine ⟨target,block,htarget,hpath.tracked,hblock,hpath.ancestor,fun hanc => ?_⟩
  obtain ⟨mid,last,hmid,hlast,rfl⟩ := getVoteTarget_firstStop htarget
  obtain ⟨hmidPath,hmidAnc⟩ := firstStop_ok hplanted hfb hslot hmid
  obtain ⟨hskipped,hjustifiable⟩ :=
    justifiable_of_walk hplanted hfb hslot hmidPath.tracked (hmidAnc hanc) hlast
  have hle := hplanted.slot_le_of_ancestor hskipped.finalized hfb hskipped.tracked
  rw [hslot] at hle
  exact ⟨hle,hjustifiable,mid,hmid,hskipped.skipped⟩

theorem ownVote {held : List Block} {st : Store} (hlife : Lives held st) (hsound : Sound held)
    {slot : Slot} (hslot : slot.get ≤ st.time.slot+1) :
    ∃ produced m, produceAttestationVote slot st = .ok produced m ∧ Own m produced.vote := by
  obtain ⟨anchor,hsteady⟩ := hlife.steady hsound
  have hstore := hsteady.toGrounded
  obtain ⟨m,hb,target,haccept,hhb,htarget,hproduced⟩ :=
    hstore.produceAttestationVote_ok hsound slot
  have htouches := touches_acceptNewVotes st
  rw [after_of_ok haccept] at htouches
  have hm := hstore.touches hsound htouches
  have hplanted := hm.linked.planted hsound
  obtain ⟨fb,hfb,hfinalized⟩ := hm.pointed.finalized.tracked
  obtain ⟨target',tb,htarget',hpath,htb⟩ :=
    getVoteTarget_ok hplanted hm.pointed.head hm.pointed.safeTarget hfb hfinalized
  obtain rfl := Except.ok.inj (htarget.symm.trans htarget')
  refine ⟨_,m,hproduced,rfl,hm.pointed.justified.tracked,⟨tb,hpath.tracked,htb⟩,⟨hb,hhb,rfl⟩,?_,?_⟩
  · rw [← htb]
    exact hplanted.slot_le_of_ancestor hpath.ancestor hpath.tracked hhb
  · rcases acceptNewVotes_cases st with ⟨head,-,hrun⟩ | ⟨e,-,hrun⟩
    · obtain ⟨-,rfl⟩ := EStateM.Result.ok.inj (haccept.symm.trans hrun)
      exact hslot
    · cases haccept.symm.trans hrun

/-- A store is asked about the vote it has just made. The source may have moved ahead of the
target, and nothing else can be wrong with it. -/
theorem ownVote_accepted {held : List Block} {st : Store} (hlife : Lives held st)
    (hsound : Sound held) {slot : Slot} (hslot : slot.get ≤ st.time.slot+1) :
    ∃ produced m, produceAttestationVote slot st = .ok produced m ∧
      (m.validateAttestation produced.vote = .ok () ↔
        m.latestJustified.slot.get ≤ produced.vote.target.slot.get) ∧
      ∀ e, m.validateAttestation produced.vote = .error e → e = .sourceSlotExceedsTarget := by
  obtain ⟨produced,m,hproduced,hown⟩ := ownVote hlife hsound hslot
  refine ⟨produced,m,hproduced,?_,?_⟩
  · rw [hown.validateAttestation_eq,← hown.source]
    split <;> simp <;> omega
  · intro e he
    rw [hown.validateAttestation_eq] at he
    split at he
    · exact (Except.error.inj he).symm
    · cases he

end

section
attribute [local instance] mixPair

theorem voteTarget_selection_line :
    AncestorOrSelf (parentLink line1.blocks) line1.latestFinalized.root line1.head ∧
      ∃ target, line1.getVoteTarget = .ok target ∧
        AncestorOrSelf (parentLink line1.blocks) target.root line1.head ∧
        target.slot.isJustifiableAfter line1.latestFinalized.slot = true := by
  obtain ⟨hhead,hfinalized⟩ :
      parentLink line1.blocks line1.head = some line1.latestFinalized.root ∧
      parentLink line1.blocks line1.latestFinalized.root = some ByteVector.zero := by
    decide +kernel
  have hanc : AncestorOrSelf (parentLink line1.blocks) line1.latestFinalized.root line1.head :=
    .up hhead (.self hfinalized)
  have hlife : Lives _ line1 := (lives_genesis 0 [default]).extend genesisPoint 1 []
  obtain ⟨target,_,htarget,-,-,hpath,hrest⟩ := voteTarget_selection hlife (by decide +kernel)
  exact ⟨hanc,target,htarget,hpath,(hrest hanc).2.1⟩

theorem ownVote_accepted_line :
    (Slot.ofNat 1).get ≤ line1.time.slot+1 ∧
      ∃ produced m, produceAttestationVote (Slot.ofNat 1) line1 = .ok produced m ∧
        (m.validateAttestation produced.vote = .ok () ↔
          m.latestJustified.slot.get ≤ produced.vote.target.slot.get) := by
  have hslot : (Slot.ofNat 1).get ≤ line1.time.slot+1 := by decide +kernel
  have hlife : Lives _ line1 := (lives_genesis 0 [default]).extend genesisPoint 1 []
  obtain ⟨produced,m,hproduced,haccepted,-⟩ := ownVote_accepted hlife (by decide +kernel) hslot
  exact ⟨hslot,produced,m,hproduced,haccepted⟩

end

end Devnet.Engine
