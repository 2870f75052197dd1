import Devnet.Engine.Grafts

/-!
What two nodes have in common. Neither the order in which blocks arrive nor a restart on the
way leaves a trace in the tree: nodes that track the same roots keep the same blocks and the
same post-states, hang on the same anchor and stand at the same justified and finalized slots.
The head of a node is never stale, so nodes that also count the same votes are at one head.
-/

set_option autoImplicit false

namespace Devnet.Engine
open Machine Trees Devnet.Types Devnet.Ssz Devnet.Protocol Devnet.ForkChoice

section
variable [HashPair]

/-- No tracked post-state has finalized a block above the finalized slot of the store. -/
def Foremost (st : Store) : Prop :=
  ∀ (r : Bytes32) (s : State), st.states[r]? = some s →
    s.latestFinalized.root ≠ ByteVector.zero →
    s.latestFinalized.slot.get ≤ st.latestFinalized.slot.get

omit [HashPair] in
theorem Foremost.sameTree {st t : Store} (h : Foremost st) (hsame : SameTree st t) :
    Foremost t := by
  intro r s hs hroot
  rw [hsame.states] at hs
  rw [hsame.latestFinalized]
  exact h r s hs hroot

theorem Foremost.track {held : List Block} {anchor : Bytes32} {st : Store} {block : Block}
    {post : State} (h : Foremost st) (hgrounded : Grounded held anchor st)
    (hlinked : Linked held anchor (st.tracking (hashTreeRoot block) block post))
    (hnew : hashTreeRoot block ∉ st.blocks) :
    Foremost (st.tracking (hashTreeRoot block) block post) := by
  have hget := getElem?_tracking hnew block post
  have hgrows := grows_tracking hnew (fun hs => hnew (hgrounded.linked.stated.mp hs)) block post
  obtain ⟨-,-,-,-,hfin⟩ := tracking_new hnew block post
  intro r s hs hroot
  rw [hfin]
  rcases of_states_tracking hnew hs with ⟨rfl,rfl⟩ | ⟨-,hs'⟩
  · by_cases hle : post.latestFinalized.slot.get ≤ st.latestFinalized.slot.get
    · exact hle.trans (slot_le_adopted _ _ _)
    · obtain ⟨a,ha⟩ := get_of_mem hlinked.tracked
      obtain ⟨b,hb,hslot⟩ := (hgrounded.pointed.finalized.mono hgrows).tracked
      have hlow : a.slot.get ≤ st.latestFinalized.slot.get := hslot ▸ hlinked.lowest ha hb
      obtain ⟨cb,hcb,-⟩ := hlinked.checkpoint ha hs (.inr rfl) hroot (by omega) (by omega)
      exact candidate_le_adopted _ (mem_of_get hcb)
  · exact (h r s hs' hroot).trans (slot_le_adopted _ _ _)

theorem Foremost.grafts {held : List Block} {anchor : Bytes32} {st t : Store}
    {pair : Option (Block × State)} (h : Foremost st) (hgrounded : Grounded held anchor st)
    (hlinked : Linked held anchor t) (hgrafts : Grafts st t pair) : Foremost t := by
  cases hgrafts with
  | still same => exact h.sameTree same
  | grown hasParent assembled root isNew same =>
    have hback : SameTree t (st.tracking _ _ _) := ⟨same.blocks.symm,same.states.symm,
      same.blockOrder.symm,same.latestJustified.symm,same.latestFinalized.symm⟩
    exact (h.track hgrounded (hlinked.sameTree hback) isNew).sameTree same

theorem foremost_seed {held : List Block} {t : Store} {block : Block} {state : State}
    {checkpoints : Bytes32 → Slot → Checkpoint × Checkpoint}
    (hlinked : Linked held (hashTreeRoot block) t)
    (hopen : Store.seedAnchor state block checkpoints = .ok t)
    (hpinned : (checkpoints (hashTreeRoot block) block.slot).2 =
      ⟨hashTreeRoot block,block.slot⟩) : Foremost t := by
  obtain ⟨-,time,rfl⟩ := seedAnchor_ok hopen
  have hpair := hlinked.paired Std.ExtTreeMap.getElem?_insert_self
    Std.ExtTreeMap.getElem?_insert_self
  intro r s hs _
  obtain ⟨-,rfl⟩ : hashTreeRoot block = r ∧ state = s := by
    simpa [Std.ExtTreeMap.getElem?_insert] using hs
  have horder := hpair.chain.order
  have hle := hpair.chain.justified_le
  rw [hpair.slot] at hle
  simp only [hpinned]
  omega

theorem Lives.foremost {held : List Block} {st : Store} (h : Lives held st)
    (hsound : Sound held) : ∃ anchor, Steady held anchor st ∧ Foremost st := by
  refine h.rule (fun held st => Sound held → ∃ anchor, Steady held anchor st ∧ Foremost st)
    ?_ ?_ hsound
  · intro genesisTime validators g hopen _
    have hlinked := linked_genesis hopen (mem_values_genesis hopen)
    exact ⟨_,steady_seed hlinked hopen rfl,foremost_seed hlinked hopen rfl⟩
  · intro held st action out t hst hstep hsound'
    have hsub : ∀ b ∈ held, b ∈ held ++ out := fun b hb => List.mem_append_left _ hb
    obtain ⟨anchor,hsteady,hforemost⟩ := hst (hsound'.mono hsub)
    have hmono := hsteady.mono hsub
    cases hstep with
    | event e =>
      have hnext := hmono.handle hsound' e fun hb =>
        List.mem_append_right _ (Tables.mem_values.mpr ⟨_,hb⟩)
      obtain ⟨pair,hgrafts,-⟩ := handle_grafts hmono.linked e
      exact ⟨anchor,hnext,hforemost.grafts hmono.toGrounded hnext.linked hgrafts⟩
    | resume hasBlock hasState opens =>
      have hlinked := hmono.linked.resume hasBlock hasState opens
      rw [← hmono.linked.keyed hasBlock] at hlinked
      exact ⟨_,steady_seed hlinked opens rfl,foremost_seed hlinked opens rfl⟩

theorem same_blocks {held held' all : List Block} {anchor anchor' : Bytes32} {st st' : Store}
    (h : Linked held anchor st) (h' : Linked held' anchor' st') (hsound : Sound all)
    (hsub : ∀ b ∈ held, b ∈ all) (hsub' : ∀ b ∈ held', b ∈ all)
    (hroots : ∀ r, r ∈ st.blocks ↔ r ∈ st'.blocks) : st.blocks = st'.blocks := by
  refine Std.ExtTreeMap.ext_getElem? fun r => ?_
  by_cases hr : r ∈ st.blocks
  · obtain ⟨b,hb⟩ := get_of_mem hr
    obtain ⟨b',hb'⟩ := get_of_mem ((hroots r).mp hr)
    rw [hb,hb',hsound.injective b (hsub b (h.kept hb)) b' (hsub' b' (h'.kept hb'))
      ((h.keyed hb).trans (h'.keyed hb').symm)]
  · rw [Std.ExtTreeMap.getElem?_eq_none hr,
      Std.ExtTreeMap.getElem?_eq_none (mt (hroots r).mpr hr)]

theorem same_states {held held' all : List Block} {anchor anchor' : Bytes32} {st st' : Store}
    (h : Linked held anchor st) (h' : Linked held' anchor' st') (hsound : Sound all)
    (hsub : ∀ b ∈ held, b ∈ all) (hsub' : ∀ b ∈ held', b ∈ all)
    (hinjective : ∀ s ∈ Tables.values st.states, ∀ s' ∈ Tables.values st'.states,
      hashTreeRoot s = hashTreeRoot s' → s = s')
    (hroots : ∀ r, r ∈ st.blocks ↔ r ∈ st'.blocks) : st.states = st'.states := by
  refine Std.ExtTreeMap.ext_getElem? fun r => ?_
  by_cases hr : r ∈ st.states
  · obtain ⟨s,hs⟩ := get_of_mem hr
    obtain ⟨s',hs'⟩ := get_of_mem (h'.stated.mpr ((hroots r).mp (h.stated.mp hr)))
    rw [hs,hs',same_state h h' hsound hsub hsub' hinjective hs hs']
  · have hr' : r ∉ st'.states := fun hin => hr (h.stated.mpr ((hroots r).mpr (h'.stated.mp hin)))
    rw [Std.ExtTreeMap.getElem?_eq_none hr,Std.ExtTreeMap.getElem?_eq_none hr']

theorem same_anchor {held held' : List Block} {anchor anchor' : Bytes32} {st st' : Store}
    (h : Linked held anchor st) (h' : Linked held' anchor' st') (hblocks : st.blocks = st'.blocks) :
    anchor = anchor' := by
  by_contra hne
  obtain ⟨a,ha⟩ := get_of_mem h'.tracked
  rw [← hblocks] at ha
  obtain ⟨p,_,_,hp,-,-,hlt,-⟩ := (h.child ha (Ne.symm hne)).parent
  rw [hblocks] at ha hp
  exact absurd (h'.lowest ha hp) (Nat.not_le.mpr hlt)

/-- A checkpoint of one store is not above that of another with the same tree, if the other
looked at every post-state. -/
theorem Placed.slot_le {carried : State → Checkpoint} {held held' : List Block} {anchor : Bytes32}
    {st st' : Store} {c c' : Checkpoint} (hplaced : Placed carried anchor st c)
    (hplaced' : Placed carried anchor st' c') (h : Linked held anchor st)
    (h' : Linked held' anchor st') (hsound : Sound held) (hblocks : st.blocks = st'.blocks)
    (hstates : st.states = st'.states)
    (hnewest : ∀ {r : Bytes32} {s : State}, st'.states[r]? = some s →
      (carried s).root ≠ ByteVector.zero → (carried s).slot.get ≤ c'.slot.get) :
    c.slot.get ≤ c'.slot.get := by
  obtain ⟨b,hb,hslot⟩ := hplaced.tracked
  rcases hplaced.source with hanchor | ⟨r,s,hs,rfl,-⟩
  · obtain ⟨b',hb',hslot'⟩ := hplaced'.tracked
    rw [hanchor,hblocks] at hb
    rw [← hslot,← hslot']
    exact h'.lowest hb hb'
  · rw [hstates] at hs
    exact hnewest hs (h.nonzero hsound (mem_of_get hb))

theorem same_justified_slot {held held' : List Block} {anchor : Bytes32} {st st' : Store}
    (h : Grounded held anchor st) (h' : Grounded held' anchor st') (hsound : Sound held)
    (hsound' : Sound held') (hblocks : st.blocks = st'.blocks) (hstates : st.states = st'.states) :
    st.latestJustified.slot = st'.latestJustified.slot := by
  refine Slot.ext_get (Nat.le_antisymm ?_ ?_)
  · exact h.pointed.justified.slot_le h'.pointed.justified h.linked h'.linked hsound hblocks hstates
      h'.pointed.newest
  · exact h'.pointed.justified.slot_le h.pointed.justified h'.linked h.linked hsound' hblocks.symm
      hstates.symm h.pointed.newest

/-- Two nodes that track the same roots agree on the whole tree, on its anchor and on the slots
of both checkpoints, whatever calls brought them there. -/
theorem replicas_agree {held held' : List Block} {st st' : Store} (h : Lives held st)
    (h' : Lives held' st') (hsound : Sound (held ++ held'))
    (hinjective : ∀ s ∈ Tables.values st.states, ∀ s' ∈ Tables.values st'.states,
      hashTreeRoot s = hashTreeRoot s' → s = s')
    (hroots : ∀ r, r ∈ st.blocks ↔ r ∈ st'.blocks) :
    st.blocks = st'.blocks ∧ st.states = st'.states ∧ st.blockOrder.Perm st'.blockOrder ∧
      st.blockOrder.head? = st'.blockOrder.head? ∧
      st.latestJustified.slot = st'.latestJustified.slot ∧
      st.latestFinalized.slot = st'.latestFinalized.slot := by
  have hsub : ∀ b ∈ held, b ∈ held ++ held' := fun b hb => List.mem_append_left _ hb
  have hsub' : ∀ b ∈ held', b ∈ held ++ held' := fun b hb => List.mem_append_right _ hb
  obtain ⟨anchor,hsteady,hforemost⟩ := h.foremost (hsound.mono hsub)
  obtain ⟨anchor',hsteady',hforemost'⟩ := h'.foremost (hsound.mono hsub')
  have hlinked := hsteady.linked
  have hlinked' := hsteady'.linked
  have hblocks := same_blocks hlinked hlinked' hsound hsub hsub' hroots
  have hstates := same_states hlinked hlinked' hsound hsub hsub' hinjective hroots
  obtain rfl := same_anchor hlinked hlinked' hblocks
  have hmem : ∀ r, r ∈ st.blockOrder ↔ r ∈ st'.blockOrder := by
    intro r
    rw [hlinked.ordered,hlinked'.ordered,hroots]
  refine ⟨hblocks,hstates,(List.perm_ext_iff_of_nodup hlinked.nodup hlinked'.nodup).mpr hmem,
    hlinked.first.trans hlinked'.first.symm,same_justified_slot hsteady.toGrounded
      hsteady'.toGrounded (hsound.mono hsub) (hsound.mono hsub') hblocks hstates,
    Slot.ext_get (Nat.le_antisymm ?_ ?_)⟩
  · exact hsteady.pointed.finalized.slot_le hsteady'.pointed.finalized hlinked hlinked'
      (hsound.mono hsub) hblocks hstates (hforemost' _ _)
  · exact hsteady'.pointed.finalized.slot_le hsteady.pointed.finalized hlinked' hlinked
      (hsound.mono hsub') hblocks.symm hstates.symm (hforemost _ _)

/-- The head is what the fork choice selects by the known votes. -/
def Current (st : Store) : Prop :=
  getForkChoiceHead st.blocks st.latestJustified.root
    (voteHeadCheckpoints st.latestKnownVotes) 0 = .ok st.head

theorem Grounded.current {held : List Block} {anchor : Bytes32} {st : Store}
    (h : Grounded held anchor st) (hsound : Sound held) : Current (after acceptNewVotes st) := by
  rcases acceptNewVotes_cases st with ⟨head,hhead,hrun⟩ | ⟨e,-,hrun⟩
  · rw [after_of_ok hrun]
    exact hhead
  · obtain ⟨t,ht,-⟩ := h.acceptNewVotes_ok hsound
    simp [hrun] at ht

/-- An operation leaves everything the head depends on alone, or ends with a refresh of it. -/
inductive Rests (st : Store) : Store → Prop where
  | kept {t : Store} (blocks : t.blocks = st.blocks)
      (latestJustified : t.latestJustified = st.latestJustified)
      (latestKnownVotes : t.latestKnownVotes = st.latestKnownVotes) (head : t.head = st.head) :
      Rests st t
  | refreshed {m : Store} (writes : Writes st m) : Rests st (after acceptNewVotes m)

theorem rests_self (st : Store) : Rests st st := .kept rfl rfl rfl rfl

theorem Current.rests {held : List Block} {anchor : Bytes32} {st t : Store} (h : Current st)
    (hgrounded : Grounded held anchor st) (hsound : Sound held) (hrests : Rests st t)
    (hkept : ∀ {r : Bytes32} {b : Block}, t.blocks[r]? = some b → b ∈ held) : Current t := by
  cases hrests with
  | kept blocks latestJustified latestKnownVotes head =>
    rwa [Current,blocks,latestJustified,latestKnownVotes,head]
  | @refreshed m writes =>
    have hsame := sameTree_of_touches (touches_acceptNewVotes m)
    refine Grounded.current (hgrounded.writes hsound writes ?_) hsound
    rw [← hsame.blocks]
    exact hkept

def dutyOf (hasProposal : Bool) : Phase → Edit Unit
  | .proposal => if hasProposal = true then acceptNewVotes else pure ()
  | .idle => pure ()
  | .updateSafeTarget => updateSafeTarget
  | .acceptNewVotes => acceptNewVotes

omit [HashPair] in
theorem tickInterval_some {st : Store} {next : Time} (hnext : st.time.checkedAdvance = some next)
    (hasProposal : Bool) :
    tickInterval hasProposal st = dutyOf hasProposal next.phase { st with time := next } := by
  simp only [tickInterval,estate_get_bind,hnext]
  cases next.phase <;> rfl

theorem rests_tickInterval (hasProposal : Bool) (st : Store) :
    Rests st (after (tickInterval hasProposal) st) := by
  cases hnext : st.time.checkedAdvance with
  | none =>
    have hrun : tickInterval hasProposal st = .error (.timeOverflow st.time) st := by
      simp [tickInterval,hnext]
    rw [after_of_error hrun]
    exact rests_self st
  | some next =>
    have hclock : Writes st { st with time := next } := .single (.touch (.clock st next))
    have hstill : Rests st { st with time := next } := .kept rfl rfl rfl rfl
    rw [after,tickInterval_some hnext,← after]
    cases next.phase with
    | proposal =>
      cases hasProposal with
      | false => exact hstill
      | true => exact .refreshed hclock
    | idle => exact hstill
    | updateSafeTarget =>
      change Rests st (after updateSafeTarget _)
      rcases updateSafeTarget_cases { st with time := next } with ⟨target,-,hrun⟩ | ⟨e,-,hrun⟩
      · rw [after_of_ok hrun]
        exact .kept rfl rfl rfl rfl
      · rw [after_of_error hrun]
        exact hstill
    | acceptNewVotes => exact .refreshed hclock

theorem rests_produceBlock (order : IterationOrder SignedAttestation) (slot : Slot)
    (validator : ValidatorIndex) (st : Store) :
    Rests st (after (produceBlock order slot validator) st) := by
  rcases ForkChoice.produceBlock_cases st order slot validator with
    ⟨e,hrun⟩ | ⟨m,headState,votes,post,haccept,hstate,hconv,hrun⟩
  · rw [after_of_error hrun]
    exact .refreshed .refl
  · have hrefreshed : Rests st m := by
      rw [← after_of_ok haccept]
      exact .refreshed .refl
    have hwrites := writes_of_touches (touches_acceptNewVotes st)
    rw [after_of_ok haccept] at hwrites
    obtain ⟨-,candidate,hbuild⟩ := convergeAttestations_ok hconv
    rw [after,hrun,← after,finalizeProducedBlock]
    rcases trackBlock_cases m ⟨slot,validator,m.head,hashTreeRoot post,bodyFrom votes⟩ post with
      ⟨e,htrack⟩ | ⟨-,htrack⟩ | ⟨hroot,hnew,htrack⟩
    · rw [after_bind_of_error htrack]
      exact hrefreshed
    · rw [after_bind_of_ok htrack,after_bind_pure]
      exact .refreshed hwrites
    · rw [after_bind_of_ok htrack,after_bind_pure]
      exact .refreshed (hwrites.tail (.track hstate (buildCandidateBlock_ok hbuild _) hroot hnew))

theorem rests_produceBlockUnsigned (order : IterationOrder SignedAttestation) (slot : Slot)
    (validator : ValidatorIndex) (st : Store) :
    Rests st (after (produceBlockUnsigned order slot validator) st) := by
  unfold produceBlockUnsigned
  cases hrun : produceBlock order slot validator st with
  | error e m =>
    have hrests := rests_produceBlock order slot validator st
    rw [after_of_error hrun] at hrests
    rwa [after_bind_of_error (adaptExcept_of_error hrun)]
  | ok produced m =>
    have hwrites := (settles_produceBlock order slot validator st).writes
    rw [after_of_ok hrun] at hwrites
    have hvote : after (voteAndCapture slot produced) m = after acceptNewVotes m := by
      rw [← after_produceAttestationVote slot m]
      cases hvoted : produceAttestationVote slot m with
      | error e n =>
        rw [voteAndCapture,after_bind_of_error (adaptExcept_of_error hvoted),after_of_error hvoted]
      | ok vote n =>
        rw [voteAndCapture,after_bind_of_ok (adaptExcept_ok.mpr hvoted),after_of_ok hvoted]
        rfl
    rw [after_bind_of_ok (adaptExcept_ok.mpr hrun)]
    change Rests st (after (voteAndCapture slot produced) m)
    rw [hvote]
    exact .refreshed hwrites

theorem rests_importBlock {held : List Block} {anchor : Bytes32} {st : Store}
    (h : Linked held anchor st) (verifier : Option Verifier)
    (signed : SignedBlockWithAttestation) (policy : VerifyPolicy) :
    Rests st (importBlockCapturingInner verifier signed policy st).2 := by
  have htransition : ∀ {parent : State}, Importable verifier signed policy st parent →
      Rests st (after (transitionAndTrack signed parent) st) := by
    intro parent himportable
    cases htrans : parent.stateTransition signed true with
    | error e =>
      rw [after_of_error (transitionAndTrack_refused htrans)]
      exact rests_self st
    | ok post =>
      have hroot := ((stateTransition_extends htrans).2 rfl).symm
      have htrack := trackBlock_total hroot himportable.fresh
        (h.stated.mp (mem_of_get himportable.hasParent))
      have hgrown : Writes st (st.tracking _ signed.message.block post) := .single (.track
        himportable.hasParent (assembled_of_stateTransition htrans) hroot himportable.fresh)
      unfold transitionAndTrack
      rw [after_bind_of_ok (check_ok.mpr ⟨mapError_ok.mpr htrans,rfl⟩),
        after_bind_of_ok (adaptExcept_ok.mpr htrack),after_bind_of_ok (estate_modify _ _),
        after_bind_pure,after_adaptExcept]
      exact .refreshed (hgrown.trans (writes_of_touches (touches_foldBlockAttestations _ _)))
  rcases importBlock_cases verifier signed policy st with
    ⟨outcome,-,-,heq⟩ | ⟨parent,error,t,himportable,hrun,heq⟩ | ⟨parent,root,t,himportable,hrun,heq⟩
  · rw [heq]
    exact rests_self st
  · have hrests := htransition himportable
    rw [after_of_error hrun] at hrests
    rwa [heq]
  · have hrests := htransition himportable
    rw [after_of_ok hrun] at hrests
    rwa [heq]

/-- The engine counts the votes of a block only together with the block; the fork choice also
offers to count one by itself. -/
def Event.Bare (e : Event) : Prop := ∃ vote, e = .processAttestation vote true

theorem handle_rests {held : List Block} {anchor : Bytes32} {st : Store}
    (h : Linked held anchor st) {e : Event} (hbare : ¬ e.Bare) : Rests st (handle e st) := by
  have hgossip : ∀ {vote}, e.gossip = some vote → Rests st (handle e st) := by
    intro vote hg
    rcases handle_gossip hg st with heq | ⟨-,heq⟩
    · rw [heq]
      exact rests_self st
    · rw [heq]
      exact .kept rfl rfl rfl rfl
  cases e with
  | importBlock verifier signed policy => exact rests_importBlock h verifier signed policy
  | importAttestation vote => exact hgossip rfl
  | processAttestation vote isFromBlock =>
    cases isFromBlock with
    | true => exact absurd ⟨vote,rfl⟩ hbare
    | false => exact hgossip rfl
  | acceptNewVotes => exact .refreshed .refl
  | tickInterval hasProposal => exact rests_tickInterval hasProposal st
  | produceBlock order slot validator => exact rests_produceBlock order slot validator st
  | produceAttestationVote slot =>
    rw [handle,after_produceAttestationVote]
    exact .refreshed .refl
  | produceBlockUnsigned order slot validator =>
    exact rests_produceBlockUnsigned order slot validator st

theorem current_seed {held : List Block} {t : Store} {block : Block} {state : State}
    {checkpoints : Bytes32 → Slot → Checkpoint × Checkpoint}
    (hsteady : Steady held (hashTreeRoot block) t) (hsound : Sound held)
    (hopen : Store.seedAnchor state block checkpoints = .ok t) : Current t := by
  obtain ⟨head,hhead,-,hmem⟩ :=
    hsteady.toGrounded.selects hsound (voteHeadCheckpoints t.latestKnownVotes) 0
  obtain ⟨-,time,rfl⟩ := seedAnchor_ok hopen
  obtain rfl : hashTreeRoot block = head := by simpa using hmem
  exact hhead

theorem Current.handle {held : List Block} {anchor : Bytes32} {st : Store} (h : Current st)
    (hgrounded : Grounded held anchor st) (hsound : Sound held) {e : Event} (hbare : ¬ e.Bare)
    (hkept : ∀ {r : Bytes32} {b : Block}, (handle e st).blocks[r]? = some b → b ∈ held) :
    Current (handle e st) :=
  h.rests hgrounded hsound (handle_rests hgrounded.linked hbare) hkept

/-- At every moment of a life, restarts included, the head is the one the fork choice selects
by the tree and the votes of that moment. -/
theorem head_never_stale {genesisTime : UInt64} {validators : Validators} {actions : List Action}
    {outs : List (List Block)} {st : Store}
    (hrun : Run Step (genesisStore genesisTime validators) actions outs st)
    (hsound : Sound (Tables.values (genesisStore genesisTime validators).blocks ++ outs.flatten))
    (hbare : ∀ e, Action.event e ∈ actions → ¬ e.Bare) : Current st := by
  have hopen := fromAnchor_genesis genesisTime validators
  suffices hboth : ∃ anchor, Steady (Tables.values (genesisStore genesisTime validators).blocks ++
      outs.flatten) anchor st ∧ Current st by
    obtain ⟨_,-,hcurrent⟩ := hboth
    exact hcurrent
  refine hrun.invariant (fun actions outs st =>
    (∀ e, Action.event e ∈ actions → ¬ e.Bare) →
    Sound (Tables.values (genesisStore genesisTime validators).blocks ++ outs.flatten) →
    ∃ anchor, Steady (Tables.values (genesisStore genesisTime validators).blocks ++ outs.flatten)
      anchor st ∧ Current st) ?_ ?_ hbare hsound
  · intro _ hsound
    have hsteady : Steady (Tables.values (genesisStore genesisTime validators).blocks) _ _ :=
      steady_seed (linked_genesis hopen (mem_values_genesis hopen)) hopen rfl
    rw [List.flatten_nil,List.append_nil] at hsound ⊢
    exact ⟨_,hsteady,current_seed hsteady hsound hopen⟩
  · intro done outs st action out t _ ih hstep hbare hsound
    rw [List.flatten_append,List.flatten_singleton,← List.append_assoc] at hsound ⊢
    generalize Tables.values (genesisStore genesisTime validators).blocks ++ outs.flatten = held
      at hsound ih ⊢
    have hsub : ∀ b ∈ held, b ∈ held ++ out := fun b hb => List.mem_append_left _ hb
    obtain ⟨anchor,hsteady,hcurrent⟩ :=
      ih (fun e he => hbare e (List.mem_append_left _ he)) (hsound.mono hsub)
    have hmono := hsteady.mono hsub
    cases hstep with
    | event e =>
      have hkept : ∀ {r b}, (handle e st).blocks[r]? = some b →
          b ∈ held ++ Tables.values (handle e st).blocks :=
        fun hb => List.mem_append_right _ (Tables.mem_values.mpr ⟨_,hb⟩)
      exact ⟨anchor,hmono.handle hsound e hkept,
        hcurrent.handle hmono.toGrounded hsound (hbare e (by simp)) hkept⟩
    | resume hasBlock hasState opens =>
      have hlinked := hmono.linked.resume hasBlock hasState opens
      rw [← hmono.linked.keyed hasBlock] at hlinked
      have hopened := steady_seed hlinked opens rfl
      exact ⟨_,hopened,current_seed hopened hsound opens⟩

end

section
attribute [local instance] mixPair

def soloEnvelope : SignedBlockWithAttestation :=
  ⟨⟨(soloProposed.blocks[soloProposed.head]?).getD default,default⟩,[]⟩

def soloFollower : Store := handle (.importBlock none soloEnvelope .enforce) soloStore

theorem replicas_agree_follower : soloProposed.blockOrder.length = 2 ∧
    soloProposed.blocks = soloFollower.blocks ∧ soloProposed.states = soloFollower.states ∧
    soloProposed.latestJustified.slot = soloFollower.latestJustified.slot := by
  have hlife : Lives _ soloFollower := (lives_genesis 0 [default]).event _
  obtain ⟨hlength,hkeys,hsound,hinjective⟩ : soloProposed.blockOrder.length = 2 ∧
      soloProposed.blocks.keys = soloFollower.blocks.keys ∧
      Sound ((Tables.values soloStore.blocks ++ Tables.values soloProposed.blocks) ++
        (Tables.values soloStore.blocks ++ Tables.values soloFollower.blocks)) ∧
      ∀ s ∈ Tables.values soloProposed.states, ∀ s' ∈ Tables.values soloFollower.states,
        hashTreeRoot s = hashTreeRoot s' → s = s' := by decide +kernel
  have hroots : ∀ r, r ∈ soloProposed.blocks ↔ r ∈ soloFollower.blocks := by
    intro r
    rw [← Std.ExtTreeMap.mem_keys,hkeys,Std.ExtTreeMap.mem_keys]
  obtain ⟨hblocks,hstates,-,-,hslot,-⟩ :=
    replicas_agree lives_soloProposed hlife hsound hinjective hroots
  exact ⟨hlength,hblocks,hstates,hslot⟩

theorem head_never_stale_solo : Current soloProposed :=
  head_never_stale (Run.single (.event soloStore (.produceBlock default (Slot.ofNat 1) default)))
    (by decide +kernel) (by rintro e he ⟨vote,rfl⟩; simp at he)

end

end Devnet.Engine
