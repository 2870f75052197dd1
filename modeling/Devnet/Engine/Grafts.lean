import Devnet.Engine.Produced

/-!
What one call does to the tree of a store: nothing, or one more pair on it. Which pair is
said with it: an import tracks the block it was given, a production the block it returns.
-/

set_option autoImplicit false

namespace Devnet.Engine
open Machine Trees Devnet.Types Devnet.Ssz Devnet.Protocol Devnet.ForkChoice

theorem sameTree_tracking {st m : Store} {root : Bytes32} (h : SameTree st m)
    (hnew : root ∉ st.blocks) (block : Block) (post : State) :
    SameTree (st.tracking root block post) (m.tracking root block post) := by
  have hnew' : root ∉ m.blocks := h.blocks ▸ hnew
  obtain ⟨hb,hs,ho,hj,hf⟩ := tracking_new hnew block post
  obtain ⟨hb',hs',ho',hj',hf'⟩ := tracking_new hnew' block post
  have hblocks : (m.tracking root block post).blocks = (st.tracking root block post).blocks := by
    rw [hb,hb',h.blocks]
  refine ⟨hblocks,by rw [hs,hs',h.states],by rw [ho,ho',h.blockOrder],?_,?_⟩
  · rw [hj,hj',h.latestJustified]
    simp only [Store.adopted,hblocks]
  · rw [hf,hf',h.latestFinalized]
    simp only [Store.adopted,hblocks]

theorem capturePersistInputs_eq_some {st : Store} {blockRoot headRoot : Bytes32}
    {inputs : PersistInputs} : capturePersistInputs st blockRoot headRoot = some inputs ↔
      st.states[blockRoot]? = some inputs.postState ∧ (∃ hb, st.blocks[headRoot]? = some hb ∧
        inputs.head = ⟨headRoot,hb.slot⟩) ∧ inputs.finalized = st.latestFinalized := by
  obtain ⟨head,finalized,postState⟩ := inputs
  simp only [capturePersistInputs,Option.bind_eq_bind,Option.bind_eq_some_iff,Option.some.injEq,
    PersistInputs.mk.injEq]
  constructor
  · rintro ⟨post,hpost,hb,hhb,rfl,rfl,rfl⟩
    exact ⟨hpost,⟨hb,hhb,rfl⟩,rfl⟩
  · rintro ⟨hpost,⟨hb,hhb,rfl⟩,rfl⟩
    exact ⟨postState,hpost,hb,hhb,rfl,rfl,rfl⟩

def voteAndCapture (slot : Slot) (produced : ProducedBlock) :
    EStateM EngineError Store UnsignedProduction := do
  let proposerVote ← (produceAttestationVote slot).adaptExcept .forkchoice
  let store ← get
  pure ⟨produced.block,proposerVote,produced.root,
    capturePersistInputs store produced.root store.head⟩

theorem sameTree_voteAndCapture (slot : Slot) (produced : ProducedBlock) (st : Store) :
    SameTree st (after (voteAndCapture slot produced) st) := by
  refine after_bind (R := SameTree) SameTree.trans ?_ ?_
  · rw [after_adaptExcept,after_produceAttestationVote]
    exact sameTree_of_touches (touches_acceptNewVotes st)
  · intro _ m _
    exact SameTree.refl m

section
variable [HashPair]

/-- `t` has the tree of `st`, or one more pair on it. -/
inductive Grafts (st t : Store) : Option (Block × State) → Prop where
  | still (same : SameTree st t) : Grafts st t none
  | grown {block : Block} {parent post : State}
      (hasParent : st.states[block.parentRoot]? = some parent)
      (assembled : Assembled parent block post) (root : block.stateRoot = hashTreeRoot post)
      (isNew : hashTreeRoot block ∉ st.blocks)
      (same : SameTree (st.tracking (hashTreeRoot block) block post) t) :
      Grafts st t (some (block,post))

theorem Grafts.after {st m t : Store} {pair : Option (Block × State)} (h : Grafts st m pair)
    (hsame : SameTree m t) : Grafts st t pair := by
  cases h with
  | still same => exact .still (same.trans hsame)
  | grown hasParent assembled root isNew same =>
    exact .grown hasParent assembled root isNew (same.trans hsame)

theorem Grafts.before {st m t : Store} {pair : Option (Block × State)} (hsame : SameTree st m)
    (h : Grafts m t pair) : Grafts st t pair := by
  cases h with
  | still same => exact .still (hsame.trans same)
  | grown hasParent assembled root isNew same =>
    rw [hsame.states] at hasParent
    rw [hsame.blocks] at isNew
    exact .grown hasParent assembled root isNew ((sameTree_tracking hsame isNew _ _).trans same)

theorem Grafts.getElem? {st t : Store} {block : Block} {post : State}
    (h : Grafts st t (some (block,post))) (r : Bytes32) :
    t.blocks[r]? = (if hashTreeRoot block = r then some block else st.blocks[r]?) ∧
    t.states[r]? = (if hashTreeRoot block = r then some post else st.states[r]?) := by
  cases h with
  | grown hasParent assembled root isNew same =>
    rw [same.blocks,same.states]
    exact getElem?_tracking isNew block post r

theorem Linked.grows_grafts {held : List Block} {anchor : Bytes32} {st t : Store}
    {pair : Option (Block × State)} (h : Linked held anchor st) (hgrafts : Grafts st t pair) :
    Grows st t := by
  cases hgrafts with
  | still same => exact Grows.of_sameTree same
  | @grown block parent post hasParent assembled root isNew same =>
    have hgrown := grows_tracking isNew (fun hs => isNew (h.stated.mp hs)) block post
    have hsame := Grows.of_sameTree same
    exact ⟨fun hb => hsame.blocks (hgrown.blocks hb),fun hs => hsame.states (hgrown.states hs)⟩

theorem Linked.transitionAndTrack_grafts {held : List Block} {anchor : Bytes32} {st : Store}
    {signed : SignedBlockWithAttestation} {parent post : State} (h : Linked held anchor st)
    (hparent : st.states[signed.message.block.parentRoot]? = some parent)
    (htrans : parent.stateTransition signed true = .ok post)
    (hnew : hashTreeRoot signed.message.block ∉ st.blocks) :
    Grafts st (after (transitionAndTrack signed parent) st)
      (some (signed.message.block,post)) := by
  have hroot := ((stateTransition_extends htrans).2 rfl).symm
  have htrack := trackBlock_total hroot hnew (h.stated.mp (mem_of_get hparent))
  refine .grown hparent (assembled_of_stateTransition htrans) hroot hnew ?_
  unfold transitionAndTrack
  rw [after_bind_of_ok (check_ok.mpr ⟨mapError_ok.mpr htrans,rfl⟩),
    after_bind_of_ok (adaptExcept_ok.mpr htrack),after_bind_of_ok (estate_modify _ _),
    after_bind_pure,after_adaptExcept]
  exact sameTree_of_touches ((touches_foldBlockAttestations _ _).trans (touches_acceptNewVotes _))

/-- An import grafts the block it was given, if it accepts it, and nothing else ever. -/
theorem Linked.importBlock_grafts {held : List Block} {anchor : Bytes32} {st : Store}
    (h : Linked held anchor st) (verifier : Option Verifier)
    (signed : SignedBlockWithAttestation) (policy : VerifyPolicy) :
    ∃ pair, Grafts st (importBlockCapturingInner verifier signed policy st).2 pair ∧
      (∀ p ∈ pair, p.1 = signed.message.block) ∧
      ((importBlockCapturingInner verifier signed policy st).1.1.isAccepted = true →
        ∃ post, pair = some (signed.message.block,post)) := by
  rcases importBlock_cases verifier signed policy st with
    ⟨outcome,hout,-,heq⟩ | ⟨parent,error,t,himportable,hrun,heq⟩ |
      ⟨parent,root,t,himportable,hrun,heq⟩
  · rw [heq]
    exact ⟨none,.still (SameTree.refl st),by simp,by simp [hout]⟩
  · rw [heq]
    cases htrans : parent.stateTransition signed true with
    | error e =>
      obtain ⟨-,rfl⟩ := EStateM.Result.error.inj ((transitionAndTrack_refused htrans).symm.trans hrun)
      exact ⟨none,.still (SameTree.refl st),by simp,by simp [BlockImportResult.isAccepted]⟩
    | ok post =>
      have hgrafts := h.transitionAndTrack_grafts himportable.hasParent htrans himportable.fresh
      rw [after_of_error hrun] at hgrafts
      exact ⟨_,hgrafts,by simp,by simp [BlockImportResult.isAccepted]⟩
  · obtain ⟨post,htrans⟩ := stateTransition_of_tracked hrun
    have hgrafts := h.transitionAndTrack_grafts himportable.hasParent htrans himportable.fresh
    rw [after_of_ok hrun] at hgrafts
    rw [heq]
    exact ⟨_,hgrafts,by simp,fun _ => ⟨post,rfl⟩⟩

theorem convergeAttestations_targets {st : Store} {order : IterationOrder SignedAttestation}
    {headRoot : Bytes32} {slot : Slot} {validator : ValidatorIndex} {headState post : State}
    {votes : List SignedAttestation}
    (h : st.convergeAttestations order headRoot slot validator headState = .ok (votes,post)) :
    ∀ vote ∈ votes, vote.message.data.target.root ∈ st.blocks := by
  refine loop_sound (fun included => ∀ vote ∈ included, vote.message.data.target.root ∈ st.blocks)
    (fun result => ∀ vote ∈ result.1, vote.message.data.target.root ∈ st.blocks) ?_ ?_ (by simp) h
  · intro included next hincluded hround
    obtain ⟨candidate,post,-,⟨-,hflow⟩ | ⟨-,hflow⟩⟩ := convergeRound_ok hround
    · cases hflow
    · cases hflow
      intro vote hvote
      rcases List.mem_append.mp hvote with hvote | hvote
      · exact hincluded vote hvote
      · exact (mem_collectIncludableVotes hvote).2.2
  · intro included result hincluded hround
    obtain ⟨candidate,post,-,⟨-,hflow⟩ | ⟨-,hflow⟩⟩ := convergeRound_ok hround
    · cases hflow
      exact hincluded
    · cases hflow

/-- A production that ends before the block is assembled leaves the tree alone. Otherwise the
block is tracked, unless it was already, and the head refreshed. -/
theorem Linked.produceBlock_cases {held : List Block} {anchor : Bytes32} {st : Store}
    (h : Linked held anchor st) (order : IterationOrder SignedAttestation) (slot : Slot)
    (validator : ValidatorIndex) :
    (∃ e t, produceBlock order slot validator st = .error e t ∧ SameTree st t) ∨
    ∃ produced n, Writes st n ∧ produced.block.slot = slot ∧
      (∀ att ∈ produced.block.body.attestations, att.data.target.root ∈ st.blocks) ∧
      produced.root = hashTreeRoot produced.block ∧
      (SameTree st n ∧ produced.root ∈ st.blocks ∨
        Grafts st n (some (produced.block,produced.postState))) ∧
      produceBlock order slot validator st =
        (acceptNewVotes >>= fun _ => pure produced : Edit ProducedBlock) n := by
  have htouches := touches_acceptNewVotes st
  have hsame := sameTree_of_touches htouches
  rcases ForkChoice.produceBlock_cases st order slot validator with
    ⟨e,hrun⟩ | ⟨m,headState,votes,post,haccept,hstate,hconv,hrun⟩
  · exact .inl ⟨e,_,hrun,hsame⟩
  · rw [after_of_ok haccept] at hsame htouches
    obtain ⟨-,candidate,hbuild⟩ := convergeAttestations_ok hconv
    have hassembled := buildCandidateBlock_ok hbuild (hashTreeRoot post)
    have hm := h.sameTree hsame
    generalize hblock : Block.mk slot validator m.head (hashTreeRoot post) (bodyFrom votes) =
      block at hassembled
    have hparent : m.states[block.parentRoot]? = some headState := by rw [← hblock]; exact hstate
    have hroot : block.stateRoot = hashTreeRoot post := by rw [← hblock]
    refine .inr ⟨⟨block,hashTreeRoot block,m.head,post,hashTreeRoot post⟩,
      after (trackBlock block post) m,?_,?_,?_,rfl,?_,?_⟩
    · refine (writes_of_touches htouches).trans ?_
      by_cases hknown : hashTreeRoot block ∈ m.blocks
      · rw [after_of_ok (trackBlock_known hroot hknown)]
      · rw [after_of_ok (trackBlock_total hroot hknown (hm.stated.mp (mem_of_get hparent)))]
        exact .single (.track hparent hassembled hroot hknown)
    · rw [← hblock]
    · have htargets := convergeAttestations_targets hconv
      rw [hsame.blocks] at htargets
      intro att hatt
      obtain ⟨vote,hvote,rfl⟩ : ∃ vote ∈ votes, vote.message = att := by
        simpa [← hblock,bodyFrom] using hatt
      exact htargets vote hvote
    · by_cases hknown : hashTreeRoot block ∈ m.blocks
      · rw [after_of_ok (trackBlock_known hroot hknown)]
        exact .inl ⟨hsame,hsame.blocks ▸ hknown⟩
      · rw [after_of_ok (trackBlock_total hroot hknown (hm.stated.mp (mem_of_get hparent)))]
        exact .inr (.before hsame (.grown hparent hassembled hroot hknown (SameTree.refl _)))
    · rw [hrun,finalizeProducedBlock,hblock]
      by_cases hknown : hashTreeRoot block ∈ m.blocks
      · have htrack := trackBlock_known hroot hknown
        rw [estate_bind_of_ok htrack,after_of_ok htrack]
      · have htrack := trackBlock_total hroot hknown (hm.stated.mp (mem_of_get hparent))
        rw [estate_bind_of_ok htrack,after_of_ok htrack]

theorem sameTree_produceBlockUnsigned {st n : Store} {order : IterationOrder SignedAttestation}
    {slot : Slot} {validator : ValidatorIndex} {produced : ProducedBlock}
    (hrun : produceBlock order slot validator st =
      (acceptNewVotes >>= fun _ => pure produced : Edit ProducedBlock) n) :
    SameTree n (after (produceBlockUnsigned order slot validator) st) := by
  have hrest : after (produceBlockUnsigned order slot validator) st =
      after ((acceptNewVotes >>= fun _ => pure produced : Edit ProducedBlock).adaptExcept
        EngineError.forkchoice >>= voteAndCapture slot) n := by
    simp only [after,produceBlockUnsigned,voteAndCapture,bind,EStateM.bind,EStateM.adaptExcept,hrun]
  rw [hrest]
  refine after_bind (R := SameTree) SameTree.trans ?_ ?_
  · rw [after_adaptExcept,after_bind_pure]
    exact sameTree_of_touches (touches_acceptNewVotes n)
  · intro produced m _
    exact sameTree_voteAndCapture slot produced m

theorem Grounded.produceBlockUnsigned_cases {held : List Block} {anchor : Bytes32} {st : Store}
    (h : Grounded held anchor st) (hsound : Sound held)
    (order : IterationOrder SignedAttestation) (slot : Slot) (validator : ValidatorIndex)
    (hkept : ∀ {r : Bytes32} {b : Block},
      (after (produceBlockUnsigned order slot validator) st).blocks[r]? = some b → b ∈ held) :
    (∃ e t, produceBlockUnsigned order slot validator st = .error e t ∧ SameTree st t) ∨
    ∃ prod inputs t post, produceBlockUnsigned order slot validator st = .ok prod t ∧
      prod.persist = some inputs ∧
      capturePersistInputs t prod.blockRoot t.head = some inputs ∧
      (∀ att ∈ prod.block.body.attestations, att.data.target.root ∈ st.blocks) ∧
      prod.blockRoot = hashTreeRoot prod.block ∧
      (SameTree st t ∧ prod.blockRoot ∈ st.blocks ∨ Grafts st t (some (prod.block,post))) := by
  rcases h.linked.produceBlock_cases order slot validator with
    ⟨e,t,hrun,hsame⟩ | ⟨produced,n,hwrites,-,htargets,hroot,hgrafts,hrun⟩
  · exact .inl ⟨.forkchoice e,t,estate_bind_error.mpr (.inl (adaptExcept_of_error hrun)),hsame⟩
  · have hsame := sameTree_produceBlockUnsigned hrun
    have hn : Grounded held anchor n := by
      refine h.writes hsound hwrites ?_
      rw [← hsame.blocks]
      exact hkept
    obtain ⟨m,haccept,-⟩ := hn.acceptNewVotes_ok hsound
    have htouches := touches_acceptNewVotes n
    rw [after_of_ok haccept] at htouches
    have hproduced : produceBlock order slot validator st = .ok produced m := by
      rw [hrun,estate_bind_of_ok haccept]
      rfl
    obtain ⟨t,hb,target,hrefresh,hhb,-,hvote⟩ :=
      (hn.touches hsound htouches).produceAttestationVote_ok hsound slot
    obtain ⟨vote,hvote⟩ : ∃ vote, produceAttestationVote slot m = .ok vote t := ⟨_,hvote⟩
    have hunsigned : produceBlockUnsigned order slot validator st =
        .ok ⟨produced.block,vote,produced.root,capturePersistInputs t produced.root t.head⟩ t := by
      refine estate_bind_ok.mpr ⟨produced,m,adaptExcept_ok.mpr hproduced,?_⟩
      exact estate_bind_ok.mpr ⟨vote,t,adaptExcept_ok.mpr hvote,rfl⟩
    rw [after_of_ok hunsigned] at hsame
    have htracked : produced.root ∈ n.blocks := by
      rcases hgrafts with ⟨hsame,hknown⟩ | hgrafts
      · rwa [hsame.blocks]
      · refine mem_of_get (v := produced.block) ?_
        rw [(hgrafts.getElem? produced.root).1,hroot,if_pos rfl]
    obtain ⟨post,hpost⟩ := get_of_mem (hn.linked.stated.mpr htracked)
    rw [← hsame.states] at hpost
    have hcapture : capturePersistInputs t produced.root t.head =
        some ⟨⟨t.head,hb.slot⟩,t.latestFinalized,post⟩ :=
      capturePersistInputs_eq_some.mpr ⟨hpost,⟨hb,hhb,rfl⟩,rfl⟩
    refine .inr ⟨_,_,t,produced.postState,hunsigned,hcapture,hcapture,htargets,hroot,?_⟩
    rcases hgrafts with ⟨hstill,hknown⟩ | hgrafts
    · exact .inl ⟨hstill.trans hsame,hknown⟩
    · exact .inr (hgrafts.after hsame)

/-- What is known of a block that an event may bring in: it was handed over, or it was asked
for at its slot and its votes are for tracked targets. -/
def Event.Brings (st : Store) (block : Block) : Event → Prop
  | .importBlock _ signed _ => block = signed.message.block
  | .produceBlock _ slot _ | .produceBlockUnsigned _ slot _ => block.slot = slot ∧
      ∀ att ∈ block.body.attestations, att.data.target.root ∈ st.blocks
  | _ => False

theorem sameTree_gossip {e : Event} {vote : SignedAttestation} (h : e.gossip = some vote)
    (st : Store) : SameTree st (handle e st) := by
  rcases handle_gossip h st with heq | ⟨-,heq⟩
  · rw [heq]
    exact SameTree.refl st
  · rw [heq]
    exact ⟨rfl,rfl,rfl,rfl,rfl⟩

theorem handle_grafts {held : List Block} {anchor : Bytes32} {st : Store}
    (h : Linked held anchor st) (e : Event) :
    ∃ pair, Grafts st (handle e st) pair ∧ ∀ p ∈ pair, e.Brings st p.1 := by
  have hstill : ∀ {t}, SameTree st t → ∃ pair, Grafts st t pair ∧ ∀ p ∈ pair, e.Brings st p.1 :=
    fun hsame => ⟨none,.still hsame,by simp⟩
  cases e with
  | importBlock verifier signed policy =>
    obtain ⟨pair,hgrafts,hpair,-⟩ := h.importBlock_grafts verifier signed policy
    exact ⟨pair,hgrafts,hpair⟩
  | importAttestation vote => exact hstill (sameTree_gossip rfl st)
  | processAttestation vote isFromBlock =>
    cases isFromBlock with
    | true => exact hstill (sameTree_of_touches (touches_onChain st vote))
    | false => exact hstill (sameTree_gossip rfl st)
  | acceptNewVotes => exact hstill (sameTree_of_touches (touches_acceptNewVotes st))
  | tickInterval hasProposal => exact hstill (sameTree_of_touches (touches_tickInterval hasProposal st))
  | produceAttestationVote slot =>
    refine hstill ?_
    rw [handle,after_produceAttestationVote]
    exact sameTree_of_touches (touches_acceptNewVotes st)
  | produceBlock order slot validator =>
    rcases h.produceBlock_cases order slot validator with
      ⟨e,t,hrun,hsame⟩ | ⟨produced,n,-,hslot,htargets,-,hgrafts,hrun⟩
    · rw [handle,after_of_error hrun]
      exact hstill hsame
    · have hrefresh : SameTree n (handle (.produceBlock order slot validator) st) := by
        rw [handle,after,hrun,← after,after_bind_pure]
        exact sameTree_of_touches (touches_acceptNewVotes n)
      rcases hgrafts with ⟨hsame,-⟩ | hgrafts
      · exact hstill (hsame.trans hrefresh)
      · refine ⟨_,hgrafts.after hrefresh,?_⟩
        rintro _ ⟨⟩
        exact ⟨hslot,htargets⟩
  | produceBlockUnsigned order slot validator =>
    rcases h.produceBlock_cases order slot validator with
      ⟨e,t,hrun,hsame⟩ | ⟨produced,n,-,hslot,htargets,-,hgrafts,hrun⟩
    · rw [handle,produceBlockUnsigned,after_bind_of_error (adaptExcept_of_error hrun)]
      exact hstill hsame
    · have hrest : SameTree n (handle (.produceBlockUnsigned order slot validator) st) :=
        sameTree_produceBlockUnsigned hrun
      rcases hgrafts with ⟨hsame,-⟩ | hgrafts
      · exact hstill (hsame.trans hrest)
      · refine ⟨_,hgrafts.after hrest,?_⟩
        rintro _ ⟨⟩
        exact ⟨hslot,htargets⟩

/-- The justified checkpoint of a post-state names a block, unless it is still at slot 0. -/
def Named (s : State) : Prop :=
  0 < s.latestJustified.slot.get → s.latestJustified.root ≠ ByteVector.zero

omit [HashPair] in
theorem attestAll_checkpoints {s : State} {start w : Working} {atts : List Attestation}
    (h : attestAll s start atts = .ok w) :
    (w.latestJustified = start.latestJustified ∨
      ∃ att ∈ atts, w.latestJustified = att.data.target) ∧
    (w.latestFinalized = start.latestFinalized ∨
      ∃ att ∈ atts, w.latestFinalized = att.data.source) := by
  obtain ⟨outs,hrun⟩ := (foldlM_ok_iff _ _ _ _).mp h
  have hlater : ∀ {done : List Attestation} {c : Checkpoint} {carried : Attestation → Checkpoint}
      (att : Attestation), (∃ a ∈ done, c = carried a) → ∃ a ∈ done ++ [att], c = carried a :=
    fun att ⟨a,ha,hc⟩ => ⟨a,List.mem_append_left _ ha,hc⟩
  refine hrun.invariant (fun done _ w => (w.latestJustified = start.latestJustified ∨
    ∃ att ∈ done, w.latestJustified = att.data.target) ∧
      (w.latestFinalized = start.latestFinalized ∨
        ∃ att ∈ done, w.latestFinalized = att.data.source)) ⟨.inl rfl,.inl rfl⟩ ?_
  intro done _ m att _ n _ ih hatt
  have hkept := And.imp (Or.imp_right (hlater att)) (Or.imp_right (hlater att)) ih
  rcases tally_cases (attest_ok.mp hatt).2 with ⟨-,-,rfl⟩ | ⟨-,-,-,rfl⟩ | ⟨-,-,-,bits,-,rfl⟩
  · exact hkept
  · exact hkept
  · refine ⟨.inr ⟨att,by simp,rfl⟩,?_⟩
    by_cases hno : noIntermediate m.latestFinalized.slot att.data.source.slot.get
        att.data.target.slot.get = true
    · exact .inr ⟨att,by simp,by simp [Working.justify,hno]⟩
    · simpa [Working.justify,hno] using hkept.2

/-- The checkpoints of a post-state are those of the parent state, with the root filled in
above a parent at slot 0, or taken from a vote of the block. -/
theorem checkpoints_of_assembled {parent post : State} {block : Block}
    (h : Assembled parent block post) :
    ∃ m : State, m.latestJustified = parent.latestJustified ∧
      m.latestFinalized = parent.latestFinalized ∧
      m.latestBlockHeader.slot = parent.latestBlockHeader.slot ∧
      (post.latestJustified = m.anchored m.latestJustified ∨
        ∃ att ∈ block.body.attestations, post.latestJustified = att.data.target) ∧
      (post.latestFinalized = m.anchored m.latestFinalized ∨
        ∃ att ∈ block.body.attestations, post.latestFinalized = att.data.source) := by
  obtain ⟨m,opened,hm,hheader,hpost⟩ := h.run
  obtain ⟨-,bits,-,rfl⟩ := processBlockHeader_ok hheader
  obtain ⟨start,w,stored,hstart,hall,-,rfl⟩ := processAttestations_ok.mp hpost
  have hframe : m.latestJustified = parent.latestJustified ∧
      m.latestFinalized = parent.latestFinalized ∧
      m.latestBlockHeader.slot = parent.latestBlockHeader.slot := by
    rcases advanceStateToSlot_ok.mp hm with ⟨-,rfl⟩ | hslots
    · exact ⟨rfl,rfl,rfl⟩
    · obtain ⟨-,root,rfl,-⟩ := processSlots_ok hslots
      exact ⟨rfl,rfl,rfl⟩
  obtain ⟨table,-,hready⟩ := except_bind_ok.mp hstart
  obtain rfl := except_pure_ok.mp hready
  obtain ⟨hjustified,hfinalized⟩ := attestAll_checkpoints hall
  exact ⟨m,hframe.1,hframe.2.1,hframe.2.2,hjustified,hfinalized⟩

theorem named_of_assembled {parent post : State} {block : Block} (h : Assembled parent block post)
    (hchain : OnChain parent) (hparent : Named parent)
    (htargets : ∀ att ∈ block.body.attestations, att.data.target.root ≠ ByteVector.zero) :
    Named post := by
  obtain ⟨m,hjustified,-,hheader,hsame | ⟨att,hatt,htarget⟩,-⟩ := checkpoints_of_assembled h
  · -- Only above slot 0 is the checkpoint carried over as it is.
    intro hpos
    rw [hsame] at hpos ⊢
    unfold State.anchored at hpos ⊢
    split
    · next hzero =>
      rw [if_pos hzero] at hpos
      have hle := hchain.justified_le
      rw [← hchain.clock,← hheader,← hjustified] at hle
      have hslot : m.latestBlockHeader.slot.get = 0 := by simpa [Slot.isZero] using hzero
      dsimp only at hpos
      omega
    · next hzero =>
      rw [if_neg hzero,hjustified] at hpos
      rw [hjustified]
      exact hparent hpos
  · intro _
    rw [htarget]
    exact htargets att hatt

theorem finalized_of_assembled {parent post : State} {block : Block}
    (h : Assembled parent block post) :
    post.latestFinalized.slot = parent.latestFinalized.slot ∨
      ∃ att ∈ block.body.attestations, post.latestFinalized.slot = att.data.source.slot := by
  obtain ⟨m,-,hfinalized,-,-,hsame | ⟨att,hatt,hsource⟩⟩ := checkpoints_of_assembled h
  · left
    rw [hsame,hfinalized]
    unfold State.anchored
    split <;> rfl
  · exact .inr ⟨att,hatt,by rw [hsource]⟩

theorem Linked.named_grafts {held : List Block} {anchor : Bytes32} {st t : Store}
    {pair : Option (Block × State)} (h : Linked held anchor st) (hgrafts : Grafts st t pair)
    (hnamed : ∀ (r : Bytes32) (s : State), st.states[r]? = some s → Named s)
    (htargets : ∀ p ∈ pair, ∀ att ∈ p.1.body.attestations,
      att.data.target.root ≠ ByteVector.zero) :
    ∀ (r : Bytes32) (s : State), t.states[r]? = some s → Named s := by
  intro r s hs
  cases hgrafts with
  | still same =>
    rw [same.states] at hs
    exact hnamed r s hs
  | @grown block parent post hasParent assembled root isNew same =>
    rw [same.states] at hs
    rcases of_states_tracking isNew hs with ⟨-,rfl⟩ | ⟨-,hs⟩
    · obtain ⟨p,hp⟩ := get_of_mem (h.stated.mp (mem_of_get hasParent))
      exact named_of_assembled assembled (h.paired hp hasParent).chain (hnamed _ _ hasParent)
        (htargets _ rfl)
    · exact hnamed r s hs

end

end Devnet.Engine
