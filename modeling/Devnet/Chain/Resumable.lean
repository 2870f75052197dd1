import Devnet.Chain.Proposals
import Devnet.Chain.Startup
import Devnet.Engine.Ladder

/-!
Whether a node can resume where it was. The head row is written with each block that is
saved, but it names the engine's head, which may be another block. If all that the engine
tracks is saved whenever a block comes in, and no block brings a vote for an empty slot, then
the row always names a saved pair that is not below the finalized slot.
-/

set_option autoImplicit false

namespace Devnet.Chain
open Machine Trees Devnet.Types Devnet.Ssz Devnet.Protocol Devnet.ForkChoice Devnet.Engine
  Devnet.Storage Devnet.Duties

/-- The plan was captured from `t`. -/
structure Captured (t : Store) (plan : PersistPlan) : Prop where
  state : t.states[plan.blockRoot]? = some plan.state
  head : ∃ hb, t.blocks[t.head]? = some hb ∧ plan.head = ⟨t.head,hb.slot⟩
  finalized : plan.finalized = t.latestFinalized

theorem captured_of_inputs {t : Store} {blockRoot : Bytes32} {inputs : PersistInputs}
    (h : capturePersistInputs t blockRoot t.head = some inputs) (block : SignedBlockWithAttestation) :
    Captured t ⟨blockRoot,inputs.head,inputs.finalized,inputs.postState,block⟩ := by
  obtain ⟨hstate,hhead,hfinalized⟩ := capturePersistInputs_eq_some.mp h
  exact ⟨hstate,hhead,hfinalized⟩

theorem captured_of_plan {t : Store} {blockRoot : Bytes32} {block : SignedBlockWithAttestation}
    {plan : PersistPlan} (h : capturePersistPlan t blockRoot t.head block = some plan) :
    Captured t plan ∧ plan.blockRoot = blockRoot ∧ plan.block = block := by
  obtain ⟨inputs,hinputs,hplan⟩ := Option.bind_eq_some_iff.mp h
  obtain rfl := Option.some.inj hplan
  exact ⟨captured_of_inputs hinputs block,rfl,rfl⟩

theorem Captured.importAttestation {t : Store} {plan : PersistPlan} (h : Captured t plan)
    (vote : SignedAttestation) : Captured (Engine.importAttestation vote t).2 plan := by
  have hsame := sameTree_importAttestation vote t
  refine ⟨?_,?_,?_⟩
  · rw [hsame.states]
    exact h.state
  · rw [hsame.blocks,head_importAttestation]
    exact h.head
  · rw [hsame.latestFinalized]
    exact h.finalized

def SavedAt (st : Store) (store : RedbStore) (r : Bytes32) : Prop :=
  ∀ b s, st.blocks[r]? = some b → st.states[r]? = some s →
    ∃ env, store.blocks[r]? = some env ∧ env.message.block = b ∧ store.states[r]? = some s

/-- The head row names a pair that is tracked and saved, not below the finalized slot. -/
structure Backed (store : RedbStore) (st : Store) (info : HeadInfo) : Prop where
  row : store.head = some info
  tracked : ∃ b s, st.blocks[info.head.root]? = some b ∧ st.states[info.head.root]? = some s ∧
    b.slot = info.head.slot
  saved : SavedAt st store info.head.root
  order : info.finalized.slot.get ≤ info.head.slot.get

theorem Backed.grows {store : RedbStore} {st t : Store} {info : HeadInfo}
    (h : Backed store st info) (hgrows : Grows st t) : Backed store t info := by
  obtain ⟨b,s,hb,hs,hslot⟩ := h.tracked
  refine ⟨h.row,⟨b,s,hgrows.blocks hb,hgrows.states hs,hslot⟩,?_,h.order⟩
  intro b' s' hb' hs'
  rw [hgrows.blocks hb] at hb'
  rw [hgrows.states hs] at hs'
  exact h.saved b' s' (hb.trans hb') (hs.trans hs')

section
variable [HashPair]

theorem backed_saved {held : List Block} {anchor : Bytes32} {t : Store} {store : RedbStore}
    {plan : PersistPlan} (h : Steady held anchor t) (hsound : Sound held)
    (hnamed : ∀ (r : Bytes32) (s : State), t.states[r]? = some s → Named s)
    (hcaptured : Captured t plan)
    (hblock : t.blocks[plan.blockRoot]? = some plan.block.message.block)
    (hstored : ∀ r, plan.blockRoot ≠ r → SavedAt t store r) :
    Backed (saved plan store) t ⟨plan.head,plan.finalized⟩ := by
  -- What else is tracked is saved already, so that only the new pair has to be found in the plan.
  obtain ⟨hb,hhb,hhead⟩ := hcaptured.head
  obtain ⟨hs,hhs,-⟩ := h.linked.state hhb
  obtain ⟨jb,hjb,hjslot⟩ := h.pointed.justified.tracked
  have hroot : plan.head.root = t.head := by rw [hhead]
  have hslot : hb.slot = plan.head.slot := by rw [hhead]
  refine ⟨rfl,⟨hb,hs,hroot ▸ hhb,hroot ▸ hhs,hslot⟩,?_,?_⟩
  · intro b s hb' hs'
    simp only [saved,RedbStore.putAccepted,Std.ExtTreeMap.getElem?_insert,
      Std.LawfulEqCmp.compare_eq_iff_eq]
    by_cases hsame : plan.blockRoot = plan.head.root
    · rw [← hsame] at hb' hs'
      rw [hblock] at hb'
      rw [hcaptured.state] at hs'
      simp only [if_pos hsame]
      exact ⟨plan.block,rfl,Option.some.inj hb',hs'⟩
    · simp only [if_neg hsame]
      exact hstored _ hsame b s hb' hs'
  · have hle := h.toGrounded.finalized_le hnamed
    have hdescends := (h.linked.planted hsound).slot_le_of_ancestor h.settled hjb hhb
    change plan.finalized.slot.get ≤ plan.head.slot.get
    rw [hcaptured.finalized,← hslot]
    rw [hjslot] at hdescends
    exact hle.trans hdescends

structure LivesOn (held : List Block) (t : Store) : Prop where
  life : ∃ held', Lives held' t ∧ ∀ b ∈ held', b ∈ held ∨ b ∈ Tables.values t.blocks

theorem livesOn_event {held : List Block} {st : Store} (h : Lives held st) (e : Event) :
    LivesOn held (handle e st) :=
  ⟨_,h.event e,fun _ hb => List.mem_append.mp hb⟩

theorem LivesOn.within {held seen more : List Block} {t : Store} (h : LivesOn held t)
    (hheld : ∀ b ∈ held, b ∈ seen) (hmore : ∀ b ∈ Tables.values t.blocks, b ∈ more) :
    ∃ held', Lives held' t ∧ ∀ b ∈ held', b ∈ seen ++ more := by
  obtain ⟨held',hlife,hheld'⟩ := h.life
  refine ⟨held',hlife,fun b hb => ?_⟩
  rcases hheld' b hb with hb | hb
  · exact List.mem_append_left _ (hheld b hb)
  · exact List.mem_append_right _ (hmore b hb)

theorem LivesOn.importAttestation {held : List Block} {st : Store} (h : LivesOn held st)
    (vote : SignedAttestation) : LivesOn held (Engine.importAttestation vote st).2 := by
  obtain ⟨held',hlife,hheld⟩ := h.life
  have hblocks := (sameTree_importAttestation vote st).blocks
  refine ⟨_,hlife.event (.importAttestation vote),?_⟩
  intro b hb
  rcases List.mem_append.mp hb with hb | hb
  · rw [hblocks]
    exact hheld b hb
  · exact .inr hb

/-- A call of the service is one event of the engine, or two. -/
theorem livesOn_perform {held : List Block} {self : Service} (h : Lives held self.engine)
    (e : NodeEvent) : LivesOn held (perform e self).engine := by
  cases e with
  | start faults => exact ⟨held,h,fun _ hb => .inl hb⟩
  | crash => exact ⟨held,h,fun _ hb => .inl hb⟩
  | importBlock verifier signed policy fault =>
    have hlife := livesOn_event h (.importBlock verifier signed policy)
    rwa [perform,engine_importCapturing]
  | produceBlock order slot validator signer fault =>
    have hlife := livesOn_event h (.produceBlockUnsigned order slot validator)
    rw [perform]
    rw [handle] at hlife
    rcases produceBlock_cases self order slot validator signer fault with
      ⟨e,engine,hrun,heq⟩ | ⟨prod,engine,hrun,⟨-,heq⟩ | ⟨inputs,-,⟨e,-,heq⟩ | ⟨signature,-,heq⟩⟩⟩
    · rw [after_of_error hrun] at hlife
      rwa [after_of_error heq]
    · rw [after_of_ok hrun] at hlife
      rwa [after_of_error heq]
    · rw [after_of_ok hrun] at hlife
      rwa [after_of_error heq]
    · rw [after_of_ok hrun] at hlife
      rw [after,heq,← after,engine_persistPlan]
      exact hlife.importAttestation _
  | importAttestation vote => exact livesOn_event h (.importAttestation vote)
  | produceAttestation slot validator signer =>
    have hlife := livesOn_event h (.produceAttestationVote slot)
    rw [perform]
    rcases after_produceAttestation self slot validator signer with heq | ⟨vote,heq⟩
    · rwa [heq]
    · rw [heq]
      exact hlife.importAttestation vote
  | tickInterval hasProposal =>
    have hlife := livesOn_event h (.tickInterval hasProposal)
    rwa [perform,tickInterval,after_onEngine,after_adaptExcept]

/-- All that is needed to resume: a life of the engine, and a head row that is backed. -/
structure Recoverable (seen : List Block) (st : Store) (store : RedbStore) : Prop where
  life : ∃ held, Lives held st ∧ ∀ b ∈ held, b ∈ seen
  named : ∀ (r : Bytes32) (s : State), st.states[r]? = some s → Named s
  head : ∃ info, Backed store st info

def Stored (st : Store) (store : RedbStore) : Prop := ∀ r, SavedAt st store r

/-- A block comes in when all that is tracked is saved, and an imported one brings no vote
with the zero root for a target. -/
def Covered (self : Node) : NodeEvent → Prop
  | .importBlock _ signed _ _ => (∀ st ∈ self.engine, Stored st self.store) ∧
    ∀ att ∈ signed.message.block.body.attestations, att.data.target.root ≠ ByteVector.zero
  | .produceBlock _ _ _ _ _ => ∀ st ∈ self.engine, Stored st self.store
  | _ => True

theorem Recoverable.quiet {seen more : List Block} {st t : Store} {store : RedbStore}
    (h : Recoverable seen st store) {held : List Block} (hlife : Lives held t)
    (hheld : ∀ b ∈ held, b ∈ seen ++ more) (hsame : SameTree st t) :
    Recoverable (seen ++ more) t store := by
  obtain ⟨info,hbacked⟩ := h.head
  refine ⟨⟨held,hlife,hheld⟩,?_,⟨info,hbacked.grows (Grows.of_sameTree hsame)⟩⟩
  rw [hsame.states]
  exact h.named

theorem Recoverable.tracked {seen more : List Block} {st t : Store} {store store' : RedbStore}
    {pair : Option (Block × State)} (h : Recoverable seen st store) {held : List Block}
    (hlife : Lives held t) (hheld : ∀ b ∈ held, b ∈ seen ++ more)
    (hsound : Sound (seen ++ more)) (hgrafts : Grafts st t pair)
    (htargets : ∀ p ∈ pair, ∀ att ∈ p.1.body.attestations, att.data.target.root ≠ ByteVector.zero)
    (hsaved : store' = store ∨ ∃ plan, store' = saved plan store ∧ Captured t plan ∧
      t.blocks[plan.blockRoot]? = some plan.block.message.block ∧
      ∀ r, plan.blockRoot ≠ r → SavedAt t store r) :
    Recoverable (seen ++ more) t store' := by
  obtain ⟨held₀,hlife₀,hheld₀⟩ := h.life
  obtain ⟨anchor,hlinked⟩ := hlife₀.linked
  obtain ⟨info,hbacked⟩ := h.head
  have hnamed := hlinked.named_grafts hgrafts h.named htargets
  refine ⟨⟨held,hlife,hheld⟩,hnamed,?_⟩
  rcases hsaved with rfl | ⟨plan,rfl,hcaptured,hblock,hstored⟩
  · exact ⟨info,hbacked.grows (hlinked.grows_grafts hgrafts)⟩
  · have hsound' : Sound held := hsound.mono hheld
    obtain ⟨_,hsteady⟩ := hlife.steady hsound'
    exact ⟨_,backed_saved hsteady hsound' hnamed hcaptured hblock hstored⟩

theorem Grafts.savedAt {st t : Store} {store : RedbStore} {block : Block} {post : State}
    (h : Grafts st t (some (block,post))) (hstored : Stored st store) {r : Bytes32}
    (hr : hashTreeRoot block ≠ r) : SavedAt t store r := by
  intro b s hb hs
  rw [(h.getElem? r).1,if_neg hr] at hb
  rw [(h.getElem? r).2,if_neg hr] at hs
  exact hstored r b s hb hs

theorem importBlock_plan {st t : Store} {verifier : Option Verifier}
    {signed : SignedBlockWithAttestation} {policy : VerifyPolicy} {outcome : BlockImportResult}
    {plan : PersistPlan}
    (h : importBlockCapturingInner verifier signed policy st = ((outcome,some plan),t)) :
    capturePersistPlan t (hashTreeRoot signed.message.block) t.head signed = some plan := by
  rcases importBlock_cases verifier signed policy st with
    ⟨outcome',-,-,heq⟩ | ⟨parent,error,t',-,-,heq⟩ | ⟨parent,root,t',-,-,heq⟩
  · simp [heq] at h
  · simp [heq] at h
  · obtain ⟨⟨-,hplan⟩,rfl⟩ : (_ ∧ _) ∧ t' = t := by simpa [heq] using h
    exact hplan

theorem Recoverable.importBlock {seen : List Block} {self : Service}
    (h : Recoverable seen self.engine self.store) (verifier : Option Verifier)
    (signed : SignedBlockWithAttestation) (policy : VerifyPolicy) (fault : Fault)
    {more : List Block}
    (hmore : ∀ b ∈ Tables.values
      (importBlockCapturingInner verifier signed policy self.engine).2.blocks, b ∈ more)
    (hsound : Sound (seen ++ more)) (hstored : Stored self.engine self.store)
    (htargets : ∀ att ∈ signed.message.block.body.attestations,
      att.data.target.root ≠ ByteVector.zero) :
    Recoverable (seen ++ more) (after (importCapturing verifier signed policy fault) self).engine
      (after (importCapturing verifier signed policy fault) self).store := by
  obtain ⟨held,hlife,hheld⟩ := h.life
  obtain ⟨anchor,hlinked⟩ := hlife.linked
  obtain ⟨pair,hgrafts,hpair,hgrown⟩ := hlinked.importBlock_grafts verifier signed policy
  obtain ⟨held',hlife',hseen⟩ :=
    (livesOn_event hlife (.importBlock verifier signed policy)).within hheld hmore
  rw [engine_importCapturing]
  refine h.tracked hlife' hseen hsound hgrafts ?_ ?_
  · intro p hp
    rw [hpair p hp]
    exact htargets
  · obtain ⟨outcome,plan,engine,hrun,⟨-,heq⟩ | ⟨hout,⟨root,-,heq⟩ | ⟨captured,rfl,heq⟩⟩⟩ :=
      importCapturing_cases self verifier signed policy fault
    · exact .inl (by rw [after_of_ok heq])
    · exact .inl (by rw [after_of_error heq])
    · rw [after,heq,← after,after_bind_pure,hrun]
      cases fault with
      | some e => exact .inl rfl
      | none =>
        rw [hrun] at hgrafts hgrown
        obtain ⟨post,rfl⟩ := hgrown hout
        obtain ⟨hcaptured,hroot,hblock⟩ := captured_of_plan (importBlock_plan hrun)
        refine .inr ⟨captured,rfl,hcaptured,?_,?_⟩
        · rw [hroot,hblock,(hgrafts.getElem? _).1,if_pos rfl]
        · intro r hr
          exact Grafts.savedAt hgrafts hstored (hroot ▸ hr)

theorem Recoverable.proposed {seen more held : List Block} {anchor : Bytes32} {st t : Store}
    {store : RedbStore} {prod : UnsignedProduction} {inputs : PersistInputs} {post : State}
    (h : Recoverable seen st store) (hgrounded : Grounded (seen ++ more) anchor st)
    (hsound : Sound (seen ++ more)) (hstored : Stored st store)
    (hcapture : capturePersistInputs t prod.blockRoot t.head = some inputs)
    (htargets : ∀ att ∈ prod.block.body.attestations, att.data.target.root ∈ st.blocks)
    (hroot : prod.blockRoot = hashTreeRoot prod.block)
    (hgrafts : SameTree st t ∧ prod.blockRoot ∈ st.blocks ∨ Grafts st t (some (prod.block,post)))
    (att : Attestation) (signature : Signature) (fault : Fault)
    (hlife : Lives held (Engine.importAttestation ⟨att,signature⟩ t).2)
    (hheld : ∀ b ∈ held, b ∈ seen ++ more)
    (hdisk : fault = none → prod.block ∈ seen ++ more) :
    let plan := planFor prod inputs (proposal prod.block att signature)
    Recoverable (seen ++ more) (Engine.importAttestation ⟨att,signature⟩ t).2
      (after (persistPlan fault plan) ⟨(Engine.importAttestation ⟨att,signature⟩ t).2,store⟩).store := by
  have hvoted := sameTree_importAttestation ⟨att,signature⟩ t
  have hcaptured := (captured_of_inputs hcapture (proposal prod.block att signature)).importAttestation
    ⟨att,signature⟩
  have hnonzero : ∀ a ∈ prod.block.body.attestations, a.data.target.root ≠ ByteVector.zero :=
    fun a ha => hgrounded.linked.nonzero hsound (htargets a ha)
  rcases hgrafts with ⟨hstill,hknown⟩ | hgrown
  · have hsame := hstill.trans hvoted
    refine h.tracked hlife hheld hsound (.still hsame) (by simp) ?_
    cases fault with
    | some e => exact .inl rfl
    | none =>
      refine .inr ⟨_,rfl,hcaptured,?_,?_⟩
      · -- The block was tracked already; without a collision it is the one produced.
        obtain ⟨b,hb⟩ := get_of_mem hknown
        obtain rfl := hsound.injective b (hgrounded.linked.kept hb) prod.block (hdisk rfl)
          ((hgrounded.linked.keyed hb).trans hroot)
        rw [hsame.blocks]
        exact hb
      · intro r _
        unfold SavedAt
        rw [hsame.blocks,hsame.states]
        exact hstored r
  · have hgrafts := hgrown.after hvoted
    refine h.tracked hlife hheld hsound hgrafts (by simpa using hnonzero) ?_
    cases fault with
    | some e => exact .inl rfl
    | none =>
      refine .inr ⟨_,rfl,hcaptured,?_,?_⟩
      · change (Engine.importAttestation ⟨att,signature⟩ t).2.blocks[prod.blockRoot]? = some prod.block
        rw [(hgrafts.getElem? _).1,if_pos hroot.symm]
      · intro r hr
        exact Grafts.savedAt hgrafts hstored (hroot ▸ hr)

theorem Recoverable.produceBlock {seen : List Block} {self : Service}
    (h : Recoverable seen self.engine self.store) (order : IterationOrder SignedAttestation)
    (slot : Slot) (validator : ValidatorIndex) (signer : AttestationSigner) (fault : Fault)
    {more : List Block}
    (hmore : ∀ b ∈ Tables.values
      (after (produceBlock order slot validator signer fault) self).engine.blocks, b ∈ more)
    (hmore' : ∀ env ∈ Tables.values
      (after (produceBlock order slot validator signer fault) self).store.blocks,
        env.message.block ∈ more)
    (hsound : Sound (seen ++ more)) (hstored : Stored self.engine self.store) :
    Recoverable (seen ++ more) (after (produceBlock order slot validator signer fault) self).engine
      (after (produceBlock order slot validator signer fault) self).store := by
  obtain ⟨held,hlife,hheld⟩ := h.life
  obtain ⟨held',hlife',hseen⟩ :=
    (livesOn_perform hlife (.produceBlock order slot validator signer fault)).within hheld hmore
  rw [perform] at hlife'
  obtain ⟨anchor,hgrounded⟩ :=
    hlife.grounded (fun b hb => List.mem_append_left more (hheld b hb)) hsound
  have htree := sameTree_produceBlock self order slot validator signer fault
  have hunsigned := hgrounded.produceBlockUnsigned_cases hsound order slot validator (by
    intro r b hb
    rw [← htree.blocks] at hb
    exact List.mem_append_right _ (hmore b (Tables.mem_values.mpr ⟨r,hb⟩)))
  rcases hunsigned with ⟨e,t,hrun,hsame⟩ | ⟨prod,inputs,t,post,hrun,hpersist,hcapture,htargets,hroot,hgrafts⟩
  · obtain ⟨e',t',-,heq⟩ := (produceBlock_cases self order slot validator signer fault).resolve_right (by
      simp [hrun])
    rw [after_of_error hrun] at htree
    rw [after_of_error heq] at hlife' htree ⊢
    exact h.quiet hlife' hseen (hsame.trans htree)
  · obtain ⟨prod',t',hok,hrest⟩ :=
      (produceBlock_cases self order slot validator signer fault).resolve_left (by simp [hrun])
    obtain ⟨rfl,rfl⟩ : prod = prod' ∧ t = t' := by simpa [hrun] using hok
    obtain ⟨inputs',hinputs,hsigned⟩ := hrest.resolve_left (by simp [hpersist])
    obtain rfl : inputs = inputs' := Option.some.inj (hpersist.symm.trans hinputs)
    rcases hsigned with ⟨e,-,heq⟩ | ⟨signature,-,heq⟩
    · rw [after_of_error heq] at hlife' ⊢
      rcases hgrafts with ⟨hstill,-⟩ | hgrown
      · exact h.quiet hlife' hseen hstill
      · refine h.tracked hlife' hseen hsound hgrown ?_ (.inl rfl)
        simpa using fun a ha => hgrounded.linked.nonzero hsound (htargets a ha)
    · rw [after,heq,← after,engine_persistPlan] at hlife' ⊢
      rw [after,heq,← after,after_bind_pure] at hmore'
      rw [after_bind_pure]
      refine h.proposed hgrounded hsound hstored hcapture htargets hroot hgrafts _ signature fault
        hlife' hseen ?_
      rintro rfl
      have hsaved := hmore' (proposal prod.block ⟨validator,prod.proposerVote.vote⟩ signature)
        (Tables.mem_values.mpr ⟨prod.blockRoot,Std.ExtTreeMap.getElem?_insert_self⟩)
      exact List.mem_append_right _ hsaved

end

end Devnet.Chain
