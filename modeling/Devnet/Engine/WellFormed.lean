import Devnet.Engine.Tree

/-!
What holds of a node's store at every moment of its life. The head, the safe target and both
checkpoints name tracked blocks; the checkpoints moreover come from post-states of tracked
descendants. That the calls which look blocks up do not fail is a consequence.
-/

set_option autoImplicit false

namespace Devnet.Engine
open Machine Trees Devnet.Types Devnet.Ssz Devnet.Protocol Devnet.ForkChoice

/-- A checkpoint of the store names a tracked block by its slot. Unless that block is the
anchor, a tracked post-state carries the checkpoint and its block descends from it. -/
structure Placed (carried : State → Checkpoint) (anchor : Bytes32) (st : Store)
    (c : Checkpoint) : Prop where
  tracked : ∃ b, st.blocks[c.root]? = some b ∧ b.slot = c.slot
  source : c.root = anchor ∨ ∃ (r : Bytes32) (s : State), st.states[r]? = some s ∧
    carried s = c ∧ AncestorOrSelf (parentLink st.blocks) c.root r

structure Pointed (anchor : Bytes32) (st : Store) : Prop where
  head : st.head ∈ st.blocks
  safeTarget : st.safeTarget ∈ st.blocks
  justified : Placed State.latestJustified anchor st st.latestJustified
  finalized : Placed State.latestFinalized anchor st st.latestFinalized
  newest : ∀ {r : Bytes32} {s : State}, st.states[r]? = some s →
    s.latestJustified.root ≠ ByteVector.zero →
    s.latestJustified.slot.get ≤ st.latestJustified.slot.get

structure Grows (st t : Store) : Prop where
  blocks : ∀ {r : Bytes32} {b : Block}, st.blocks[r]? = some b → t.blocks[r]? = some b
  states : ∀ {r : Bytes32} {s : State}, st.states[r]? = some s → t.states[r]? = some s

theorem Grows.of_sameTree {st t : Store} (h : SameTree st t) : Grows st t :=
  ⟨by rw [h.blocks]; exact id,by rw [h.states]; exact id⟩

theorem grows_tracking {st : Store} {root : Bytes32} (hnew : root ∉ st.blocks)
    (hstated : root ∉ st.states) (block : Block) (post : State) :
    Grows st (st.tracking root block post) := by
  have hget := getElem?_tracking hnew block post
  constructor
  · intro r b hb
    have hne : root ≠ r := fun heq => hnew (heq ▸ mem_of_get hb)
    rwa [(hget r).1,if_neg hne]
  · intro r s hs
    have hne : root ≠ r := fun heq => hstated (heq ▸ mem_of_get hs)
    rwa [(hget r).2,if_neg hne]

theorem Grows.mem {st t : Store} (h : Grows st t) {r : Bytes32} (hr : r ∈ st.blocks) :
    r ∈ t.blocks := by
  obtain ⟨b,hb⟩ := get_of_mem hr
  exact mem_of_get (h.blocks hb)

theorem Grows.ancestor {st t : Store} (h : Grows st t) {a b : Bytes32}
    (hab : AncestorOrSelf (parentLink st.blocks) a b) :
    AncestorOrSelf (parentLink t.blocks) a b := by
  refine hab.mono ?_
  intro c p hp
  obtain ⟨cb,hcb,hparent⟩ := parentLink_eq_some.mp hp
  exact parentLink_eq_some.mpr ⟨cb,h.blocks hcb,hparent⟩

theorem Placed.mono {carried : State → Checkpoint} {anchor : Bytes32} {st t : Store}
    {c : Checkpoint} (h : Placed carried anchor st c) (hgrows : Grows st t) :
    Placed carried anchor t c := by
  obtain ⟨b,hb,hslot⟩ := h.tracked
  refine ⟨⟨b,hgrows.blocks hb,hslot⟩,?_⟩
  rcases h.source with hanchor | ⟨r,s,hs,hcarried,hanc⟩
  · exact .inl hanchor
  · exact .inr ⟨r,s,hgrows.states hs,hcarried,hgrows.ancestor hanc⟩

theorem slot_le_adopted (st : Store) (candidate current : Checkpoint) :
    current.slot.get ≤ (st.adopted candidate current).slot.get := by
  unfold Store.adopted
  split
  · next h => exact Nat.le_of_lt h.1
  · exact Nat.le_refl _

theorem candidate_le_adopted {st : Store} {candidate : Checkpoint} (current : Checkpoint)
    (h : candidate.root ∈ st.blocks) :
    candidate.slot.get ≤ (st.adopted candidate current).slot.get := by
  unfold Store.adopted
  split
  · exact Nat.le_refl _
  · next hkeep => exact Nat.le_of_not_lt fun hlt => hkeep ⟨hlt,h⟩

section
variable [HashPair]

theorem Placed.adopted {carried : State → Checkpoint} {held : List Block} {anchor r : Bytes32}
    {t : Store} {post : State} {c : Checkpoint} (h : Placed carried anchor t c)
    (hcarried : carried = State.latestJustified ∨ carried = State.latestFinalized)
    (hlinked : Linked held anchor t) (hsound : Sound held) (hpost : t.states[r]? = some post) :
    Placed carried anchor t (t.adopted (carried post) c) := by
  unfold Store.adopted
  split
  · next hadopt =>
    obtain ⟨a,ha⟩ := get_of_mem hlinked.tracked
    obtain ⟨b,hb,hslot⟩ := h.tracked
    have hlow : a.slot.get ≤ c.slot.get := hslot ▸ hlinked.lowest ha hb
    obtain ⟨cb,hcb,hcslot,hanc⟩ := hlinked.checkpoint ha hpost
      (c := carried post) (by rcases hcarried with rfl | rfl <;> simp) (hlinked.nonzero hsound hadopt.2)
      (by omega) (by omega)
    exact ⟨⟨cb,hcb,hcslot⟩,.inr ⟨r,post,hpost,rfl,hanc⟩⟩
  · exact h

/-- The invariant of a life: a linked tree of held blocks with everything pointing into it. -/
structure Grounded (held : List Block) (anchor : Bytes32) (st : Store) : Prop where
  linked : Linked held anchor st
  pointed : Pointed anchor st

/-- Every descent of the fork choice ends at a tracked descendant of the justified block. -/
theorem Grounded.selects {held : List Block} {anchor : Bytes32} {st : Store}
    (h : Grounded held anchor st) (hsound : Sound held)
    (votes : HashMap ValidatorIndex Checkpoint) (minScore : Nat) :
    ∃ head, getForkChoiceHead st.blocks st.latestJustified.root votes minScore = .ok head ∧
      AncestorOrSelf (parentLink st.blocks) st.latestJustified.root head ∧ head ∈ st.blocks := by
  obtain ⟨b,hb,-⟩ := h.pointed.justified.tracked
  have hmem := mem_of_get hb
  obtain ⟨head,hhead,hanc⟩ := getForkChoiceHead_ok (h.linked.planted hsound) hmem
    (h.linked.nonzero hsound hmem) votes minScore
  obtain ⟨p,hp⟩ := hanc.descendant
  obtain ⟨hd,hhd,-⟩ := parentLink_eq_some.mp hp
  exact ⟨head,hhead,hanc,mem_of_get hhd⟩

theorem Grounded.sameTree {held : List Block} {anchor : Bytes32} {st t : Store}
    (h : Grounded held anchor st) (hsame : SameTree st t) (hhead : t.head ∈ st.blocks)
    (hsafe : t.safeTarget ∈ st.blocks) : Grounded held anchor t := by
  have hgrows := Grows.of_sameTree hsame
  refine ⟨h.linked.sameTree hsame,?_⟩
  refine ⟨hgrows.mem hhead,hgrows.mem hsafe,?_,?_,?_⟩
  · rw [hsame.latestJustified]
    exact h.pointed.justified.mono hgrows
  · rw [hsame.latestFinalized]
    exact h.pointed.finalized.mono hgrows
  · rw [hsame.states,hsame.latestJustified]
    exact h.pointed.newest

theorem Grounded.selected {held : List Block} {anchor head : Bytes32} {st : Store}
    (h : Grounded held anchor st) (hsound : Sound held)
    {votes : HashMap ValidatorIndex Checkpoint} {minScore : Nat}
    (hhead : getForkChoiceHead st.blocks st.latestJustified.root votes minScore = .ok head) :
    AncestorOrSelf (parentLink st.blocks) st.latestJustified.root head ∧ head ∈ st.blocks := by
  obtain ⟨head',hhead',hrest⟩ := h.selects hsound votes minScore
  obtain rfl : head' = head := by simpa [hhead] using hhead'.symm
  exact hrest

theorem Grounded.touch {held : List Block} {anchor : Bytes32} {st t : Store}
    (h : Grounded held anchor st) (hsound : Sound held) (htouch : Touch st t) :
    Grounded held anchor t := by
  have hsame := htouch.sameTree
  cases htouch with
  | clock time => exact h.sameTree hsame h.pointed.head h.pointed.safeTarget
  | onChain admits => exact h.sameTree hsame h.pointed.head h.pointed.safeTarget
  | promote => exact h.sameTree hsame h.pointed.head h.pointed.safeTarget
  | head votes selects =>
    exact h.sameTree hsame (h.selected hsound selects).2 h.pointed.safeTarget
  | safeTarget votes minScore selects =>
    exact h.sameTree hsame h.pointed.head (h.selected hsound selects).2

theorem Grounded.touches {held : List Block} {anchor : Bytes32} {st t : Store}
    (h : Grounded held anchor st) (hsound : Sound held) (htouches : Touches st t) :
    Grounded held anchor t := by
  induction htouches with
  | refl => exact h
  | tail _ htouch ih => exact ih.touch hsound htouch

theorem Grounded.track {held : List Block} {anchor : Bytes32} {st : Store} {block : Block}
    {parent post : State} (h : Grounded held anchor st) (hsound : Sound held)
    (hparent : st.states[block.parentRoot]? = some parent)
    (hassembled : Assembled parent block post) (hroot : block.stateRoot = hashTreeRoot post)
    (hnew : hashTreeRoot block ∉ st.blocks) (hheld : block ∈ held) :
    Grounded held anchor (st.tracking (hashTreeRoot block) block post) := by
  have hlinked := h.linked.track hparent hassembled hroot hnew hheld
  have hgrows := grows_tracking hnew (fun hs => hnew (h.linked.stated.mp hs)) block post
  have hget := getElem?_tracking hnew block post
  obtain ⟨-,-,hhead,hsafe⟩ := tracking_frame st (hashTreeRoot block) block post
  obtain ⟨-,-,-,hjust,hfin⟩ := tracking_new hnew block post
  have hpost : (st.tracking (hashTreeRoot block) block post).states[hashTreeRoot block]? =
      some post := by rw [(hget _).2,if_pos rfl]
  refine ⟨hlinked,?_,?_,?_,?_,?_⟩
  · rw [hhead]; exact hgrows.mem h.pointed.head
  · rw [hsafe]; exact hgrows.mem h.pointed.safeTarget
  · rw [hjust]
    exact (h.pointed.justified.mono hgrows).adopted (.inl rfl) hlinked hsound hpost
  · rw [hfin]
    exact (h.pointed.finalized.mono hgrows).adopted (.inr rfl) hlinked hsound hpost
  · intro r s hs hzero
    rw [hjust]
    rcases of_states_tracking hnew hs with ⟨-,rfl⟩ | ⟨-,hs⟩
    · -- The new post-state's checkpoint is adopted unless the store's own is as late.
      by_cases hle : post.latestJustified.slot.get ≤ st.latestJustified.slot.get
      · exact hle.trans (slot_le_adopted _ _ _)
      · obtain ⟨a,ha⟩ := get_of_mem hlinked.tracked
        obtain ⟨b,hb,hslot⟩ := (h.pointed.justified.mono hgrows).tracked
        have hlow : a.slot.get ≤ st.latestJustified.slot.get := hslot ▸ hlinked.lowest ha hb
        obtain ⟨cb,hcb,-⟩ := hlinked.checkpoint ha hpost (.inl rfl) hzero (by omega) (by omega)
        exact candidate_le_adopted _ (mem_of_get hcb)
    · exact (h.pointed.newest hs hzero).trans (slot_le_adopted _ _ _)

theorem Grounded.writes {held : List Block} {anchor : Bytes32} {st t : Store}
    (h : Grounded held anchor st) (hsound : Sound held) (hwrites : Writes st t)
    (hkept : ∀ {r : Bytes32} {b : Block}, t.blocks[r]? = some b → b ∈ held) :
    Grounded held anchor t := by
  induction hwrites with
  | refl => exact h
  | tail _ hwrite ih =>
    cases hwrite with
    | touch htouch =>
      have hsame := htouch.sameTree
      exact (ih (by rw [← hsame.blocks]; exact hkept)).touch hsound htouch
    | track hasParent assembled root isNew =>
      obtain ⟨hearlier,hheld⟩ := kept_of_tracking isNew hkept
      exact (ih hearlier).track hsound hasParent assembled root isNew hheld

theorem Grounded.mono {held held' : List Block} {anchor : Bytes32} {st : Store}
    (h : Grounded held anchor st) (hsub : ∀ b ∈ held, b ∈ held') : Grounded held' anchor st :=
  ⟨h.linked.mono hsub,h.pointed⟩

theorem Grounded.acceptNewVotes_ok {held : List Block} {anchor : Bytes32} {st : Store}
    (h : Grounded held anchor st) (hsound : Sound held) :
    ∃ t, acceptNewVotes st = .ok () t ∧
      AncestorOrSelf (parentLink t.blocks) t.latestJustified.root t.head := by
  obtain ⟨head,hhead,hanc,-⟩ :=
    h.selects hsound (voteHeadCheckpoints st.promoted.latestKnownVotes) 0
  rcases acceptNewVotes_cases st with ⟨head',hhead',hrun⟩ | ⟨e,herr,-⟩
  · obtain rfl : head = head' := by simpa [Store.acceptedHead,hhead] using hhead'
    exact ⟨_,hrun,hanc⟩
  · simp [Store.acceptedHead,hhead] at herr

/-- The invariant between two calls: the head also descends from the justified block. Inside
a call that tracks a block it need not, until the head is refreshed. -/
structure Steady (held : List Block) (anchor : Bytes32) (st : Store) : Prop
    extends Grounded held anchor st where
  settled : AncestorOrSelf (parentLink st.blocks) st.latestJustified.root st.head

theorem Steady.mono {held held' : List Block} {anchor : Bytes32} {st : Store}
    (h : Steady held anchor st) (hsub : ∀ b ∈ held, b ∈ held') : Steady held' anchor st :=
  ⟨h.toGrounded.mono hsub,h.settled⟩

theorem Steady.touch {held : List Block} {anchor : Bytes32} {st t : Store}
    (h : Steady held anchor st) (hsound : Sound held) (htouch : Touch st t) :
    Steady held anchor t := by
  refine ⟨h.toGrounded.touch hsound htouch,?_⟩
  cases htouch with
  | head votes selects => exact (h.toGrounded.selected hsound selects).1
  | _ => exact h.settled

theorem Steady.touches {held : List Block} {anchor : Bytes32} {st t : Store}
    (h : Steady held anchor st) (hsound : Sound held) (htouches : Touches st t) :
    Steady held anchor t := by
  induction htouches with
  | refl => exact h
  | tail _ htouch ih => exact ih.touch hsound htouch

theorem Steady.settles {held : List Block} {anchor : Bytes32} {st t : Store}
    (h : Steady held anchor st) (hsound : Sound held) (hsettles : Settles st t)
    (hkept : ∀ {r : Bytes32} {b : Block}, t.blocks[r]? = some b → b ∈ held) :
    Steady held anchor t := by
  refine ⟨h.toGrounded.writes hsound hsettles.writes hkept,?_⟩
  cases hsettles with
  | quiet htouches => exact (h.touches hsound htouches).settled
  | @refreshed m hwrites =>
    have hsame := sameTree_of_touches (touches_acceptNewVotes m)
    have hm := h.toGrounded.writes hsound hwrites (by rw [← hsame.blocks]; exact hkept)
    obtain ⟨t,hrun,hanc⟩ := hm.acceptNewVotes_ok hsound
    rw [after_of_ok hrun]
    exact hanc

theorem Steady.handle {held : List Block} {anchor : Bytes32} {st : Store}
    (h : Steady held anchor st) (hsound : Sound held) (e : Event)
    (hkept : ∀ {r : Bytes32} {b : Block}, (handle e st).blocks[r]? = some b → b ∈ held) :
    Steady held anchor (handle e st) := by
  cases hg : e.gossip with
  | none => exact h.settles hsound (handle_settles hg st) hkept
  | some vote =>
    rcases handle_gossip hg st with heq | ⟨-,heq⟩
    · rw [heq]
      exact h
    · rw [heq]
      exact ⟨h.toGrounded.sameTree ⟨rfl,rfl,rfl,rfl,rfl⟩ h.pointed.head h.pointed.safeTarget,
        h.settled⟩

theorem steady_seed {held : List Block} {t : Store} {block : Block} {state : State}
    {checkpoints : Bytes32 → Slot → Checkpoint × Checkpoint}
    (hlinked : Linked held (hashTreeRoot block) t)
    (hopen : Store.seedAnchor state block checkpoints = .ok t)
    (hpinned : checkpoints (hashTreeRoot block) block.slot =
      (⟨hashTreeRoot block,block.slot⟩,⟨hashTreeRoot block,block.slot⟩)) :
    Steady held (hashTreeRoot block) t := by
  obtain ⟨hroot,time,rfl⟩ := seedAnchor_ok hopen
  rw [hpinned] at hlinked ⊢
  have hpair := hlinked.paired Std.ExtTreeMap.getElem?_insert_self
    Std.ExtTreeMap.getElem?_insert_self
  have hplaced : ∀ (carried : State → Checkpoint) (st : Store),
      st.blocks = (∅ : Blocks).insert (hashTreeRoot block) block →
      Placed carried (hashTreeRoot block) st ⟨hashTreeRoot block,block.slot⟩ :=
    fun _ _ hst => ⟨⟨block,by simp [hst],rfl⟩,.inl rfl⟩
  refine ⟨⟨hlinked,by simp,by simp,hplaced _ _ rfl,hplaced _ _ rfl,?_⟩,
    .self (p := block.parentRoot) (by simp [parentLink])⟩
  intro r s hs _
  obtain ⟨-,rfl⟩ : hashTreeRoot block = r ∧ state = s := by
    simpa [Std.ExtTreeMap.getElem?_insert] using hs
  exact hpair.slot ▸ hpair.chain.justified_le

theorem Lives.steady {held : List Block} {st : Store} (h : Lives held st)
    (hsound : Sound held) : ∃ anchor, Steady held anchor st := by
  refine h.rule (fun held st => Sound held → ∃ anchor, Steady held anchor st) ?_ ?_ hsound
  · intro genesisTime validators g hopen _
    exact ⟨_,steady_seed (linked_genesis hopen (mem_values_genesis hopen)) hopen rfl⟩
  · intro held st action out t hst hstep hsound'
    have hsub : ∀ b ∈ held, b ∈ held ++ out := fun b hb => List.mem_append_left _ hb
    obtain ⟨anchor,hsteady⟩ := hst (hsound'.mono hsub)
    have hmono := hsteady.mono hsub
    cases hstep with
    | event e =>
      refine ⟨anchor,hmono.handle hsound' e ?_⟩
      intro r b hb
      exact List.mem_append_right _ (Tables.mem_values.mpr ⟨r,hb⟩)
    | resume hasBlock hasState opens =>
      have hlinked := hmono.linked.resume hasBlock hasState opens
      rw [← hmono.linked.keyed hasBlock] at hlinked
      exact ⟨_,steady_seed hlinked opens rfl⟩

theorem Lives.grounded {held seen : List Block} {st : Store} (h : Lives held st)
    (hheld : ∀ b ∈ held, b ∈ seen) (hsound : Sound seen) : ∃ anchor, Grounded seen anchor st := by
  obtain ⟨anchor,hsteady⟩ := h.steady (hsound.mono hheld)
  exact ⟨anchor,hsteady.toGrounded.mono hheld⟩

/-- What the calls on a store rely on without a check of their own. -/
structure WellFormed (anchor : Bytes32) (st : Store) : Prop where
  stated : ∀ r, r ∈ st.states ↔ r ∈ st.blocks
  ordered : ∀ r, r ∈ st.blockOrder ↔ r ∈ st.blocks
  nodup : st.blockOrder.Nodup
  first : st.blockOrder.head? = some anchor
  child : ∀ (r : Bytes32) (b : Block), st.blocks[r]? = some b → r ≠ anchor → Child st r b
  head : st.head ∈ st.blocks
  safeTarget : st.safeTarget ∈ st.blocks
  justified : ∃ b, st.blocks[st.latestJustified.root]? = some b ∧ b.slot = st.latestJustified.slot
  finalized : ∃ b, st.blocks[st.latestFinalized.root]? = some b ∧ b.slot = st.latestFinalized.slot

theorem Grounded.wellFormed {held : List Block} {anchor : Bytes32} {st : Store}
    (h : Grounded held anchor st) : WellFormed anchor st where
  stated _ := h.linked.stated
  ordered _ := h.linked.ordered
  nodup := h.linked.nodup
  first := h.linked.first
  child _ _ := h.linked.child
  head := h.pointed.head
  safeTarget := h.pointed.safeTarget
  justified := h.pointed.justified.tracked
  finalized := h.pointed.finalized.tracked

theorem Grounded.updateSafeTarget_ok {held : List Block} {anchor : Bytes32} {st : Store}
    (h : Grounded held anchor st) (hsound : Sound held) :
    ∃ target, updateSafeTarget st = .ok () { st with safeTarget := target } := by
  obtain ⟨hb,hhb⟩ := get_of_mem h.pointed.head
  obtain ⟨s,hs,-⟩ := h.linked.state hhb
  have hcount : st.headValidatorCount = .ok s.numValidators := by
    simp [Store.headValidatorCount,hs]
  obtain ⟨target,htarget,-⟩ := h.selects hsound (voteHeadCheckpoints st.latestNewVotes)
    (minTargetScore s.numValidators)
  rcases updateSafeTarget_cases st with ⟨target',-,hrun⟩ | ⟨e,herr,-⟩
  · exact ⟨target',hrun⟩
  · simp [Store.selectedTarget,hcount,htarget,bind,Except.bind] at herr

theorem Grounded.produceAttestationVote_ok {held : List Block} {anchor : Bytes32} {st : Store}
    (h : Grounded held anchor st) (hsound : Sound held) (slot : Slot) :
    ∃ m hb target, acceptNewVotes st = .ok () m ∧ m.blocks[m.head]? = some hb ∧
      m.getVoteTarget = .ok target ∧ produceAttestationVote slot st =
        .ok ⟨⟨slot,⟨m.head,hb.slot⟩,target,m.latestJustified⟩,m.head,target,m.latestJustified,
          m.safeTarget⟩ m := by
  obtain ⟨m,haccept,-⟩ := h.acceptNewVotes_ok hsound
  have htouches := touches_acceptNewVotes st
  rw [after_of_ok haccept] at htouches
  have hm := h.touches hsound htouches
  obtain ⟨hb,hhb⟩ := get_of_mem hm.pointed.head
  obtain ⟨fb,hfb,hslot⟩ := hm.pointed.finalized.tracked
  obtain ⟨target,_,htarget,-⟩ :=
    getVoteTarget_ok (hm.linked.planted hsound) hm.pointed.head hm.pointed.safeTarget hfb hslot
  refine ⟨m,hb,target,haccept,hhb,htarget,?_⟩
  have hhead : getProposalHead st = .ok m.head m := by
    rw [getProposalHead,estate_bind_of_ok haccept,estate_get_bind]
    rfl
  rw [produceAttestationVote,estate_bind_of_ok hhead,estate_get_bind,
    lookupBlock_ok.mpr hhb,check_bind_ok,htarget,check_bind_ok]
  rfl

/-- Every store a node ever holds is well formed, and the calls that walk its tree succeed. -/
theorem store_wellFormed {held : List Block} {st : Store} (hlife : Lives held st)
    (hsound : Sound held) :
    ∃ anchor, WellFormed anchor st ∧ (∃ t, acceptNewVotes st = .ok () t) ∧
      (∃ t, updateSafeTarget st = .ok () t) ∧ ∃ target, st.getVoteTarget = .ok target := by
  obtain ⟨anchor,hsteady⟩ := hlife.steady hsound
  have h := hsteady.toGrounded
  obtain ⟨t,haccept,-⟩ := h.acceptNewVotes_ok hsound
  obtain ⟨target,hsafe⟩ := h.updateSafeTarget_ok hsound
  obtain ⟨fb,hfb,hslot⟩ := h.pointed.finalized.tracked
  obtain ⟨vote,_,hvote,-⟩ :=
    getVoteTarget_ok (h.linked.planted hsound) h.pointed.head h.pointed.safeTarget hfb hslot
  exact ⟨anchor,h.wellFormed,⟨t,haccept⟩,⟨_,hsafe⟩,vote,hvote⟩

end

section
attribute [local instance] mixPair

def soloProposed : Store := handle (.produceBlock default (Slot.ofNat 1) default) soloStore

theorem lives_soloProposed :
    Lives (Tables.values soloStore.blocks ++ Tables.values soloProposed.blocks) soloProposed :=
  (lives_genesis 0 [default]).event _

theorem store_wellFormed_soloProposed :
    soloProposed.blockOrder.length = 2 ∧
    ∃ anchor, WellFormed anchor soloProposed ∧ (∃ t, acceptNewVotes soloProposed = .ok () t) ∧
      (∃ t, updateSafeTarget soloProposed = .ok () t) ∧
      ∃ target, soloProposed.getVoteTarget = .ok target :=
  ⟨by decide +kernel,store_wellFormed lives_soloProposed (by decide +kernel)⟩

end

end Devnet.Engine
