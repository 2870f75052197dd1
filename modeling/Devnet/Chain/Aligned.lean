import Devnet.Chain.Status

/-!
The disk and the engine. What a call writes to the disk was captured from the engine, so as
long as one process runs, all blocks on disk are blocks it tracks. A start keeps this only
on a disk with no block besides the anchor.
-/

set_option autoImplicit false

namespace Devnet.Chain
open Machine Devnet.Types Devnet.Ssz Devnet.Protocol Devnet.ForkChoice Devnet.Engine
  Devnet.Storage Devnet.Duties

section
variable [HashPair]

theorem produceBlockUnsigned_persist {st t : Store} {order : IterationOrder SignedAttestation}
    {slot : Slot} {validator : ValidatorIndex} {prod : UnsignedProduction}
    (h : produceBlockUnsigned order slot validator st = .ok prod t) :
    prod.persist = capturePersistInputs t prod.blockRoot t.head := by
  obtain ⟨produced,m,-,h⟩ := estate_bind_ok.mp h
  obtain ⟨vote,n,-,h⟩ := estate_bind_ok.mp h
  rw [estate_get_bind] at h
  obtain ⟨rfl,rfl⟩ := estate_pure_ok.mp h
  rfl

omit [HashPair] in
theorem store_persistPlan {α : Type} (fault : Fault) (plan : PersistPlan) (a : α)
    (self : Service) :
    (after (persistPlan fault plan >>= fun _ => pure a : Call α) self).store = self.store ∨
      (after (persistPlan fault plan >>= fun _ => pure a : Call α) self).store =
        saved plan self.store := by
  rw [after_bind_pure]
  cases fault with
  | none => exact .inr rfl
  | some e => exact .inl rfl

theorem store_perform (e : NodeEvent) (self : Service) :
    (perform e self).store = self.store ∨
      ∃ plan, Captured (perform e self).engine plan ∧ (perform e self).store = saved plan self.store := by
  cases e with
  | start faults => exact .inl rfl
  | crash => exact .inl rfl
  | importBlock verifier signed policy fault =>
    obtain ⟨outcome,plan,engine,hrun,⟨-,heq⟩ | ⟨-,⟨root,-,heq⟩ | ⟨captured,rfl,heq⟩⟩⟩ :=
      importCapturing_cases self verifier signed policy fault
    · exact .inl (by rw [perform,after_of_ok heq])
    · exact .inl (by rw [perform,after_of_error heq])
    · have hcaptured : Captured engine captured := by
        rcases importBlock_cases verifier signed policy self.engine with
          ⟨_,-,-,hinner⟩ | ⟨_,_,_,-,-,hinner⟩ | ⟨_,_,t,-,-,hinner⟩
        · simp [hinner] at hrun
        · simp [hinner] at hrun
        · simp only [hinner,Prod.mk.injEq] at hrun
          obtain ⟨⟨-,hplan⟩,rfl⟩ := hrun
          exact (captured_of_plan hplan).1
      rw [perform,after,heq,← after,engine_persistPlan]
      rcases store_persistPlan fault captured outcome ⟨engine,self.store⟩ with hstore | hstore
      · exact .inl hstore
      · exact .inr ⟨captured,hcaptured,hstore⟩
  | produceBlock order slot validator signer fault =>
    rcases produceBlock_cases self order slot validator signer fault with
      ⟨e,engine,hrun,heq⟩ | ⟨prod,engine,hrun,⟨-,heq⟩ |
      ⟨inputs,hpersist,⟨e,-,heq⟩ | ⟨signature,-,heq⟩⟩⟩
    · exact .inl (by rw [perform,after_of_error heq])
    · exact .inl (by rw [perform,after_of_error heq])
    · exact .inl (by rw [perform,after_of_error heq])
    · rw [produceBlockUnsigned_persist hrun] at hpersist
      have hcaptured := (captured_of_inputs hpersist (proposal prod.block
        ⟨validator,prod.proposerVote.vote⟩ signature)).importAttestation
          ⟨⟨validator,prod.proposerVote.vote⟩,signature⟩
      rw [perform,after,heq,← after,engine_persistPlan]
      rcases store_persistPlan fault (planFor prod inputs (proposal prod.block
          ⟨validator,prod.proposerVote.vote⟩ signature)) (proposal prod.block
          ⟨validator,prod.proposerVote.vote⟩ signature) ⟨(Engine.importAttestation
            ⟨⟨validator,prod.proposerVote.vote⟩,signature⟩ engine).2,self.store⟩ with hstore | hstore
      · exact .inl hstore
      · exact .inr ⟨_,hcaptured,hstore⟩
  | importAttestation vote => exact .inl rfl
  | produceAttestation slot validator signer =>
    rcases after_produceAttestation self slot validator signer with heq | ⟨vote,heq⟩
    · exact .inl (by rw [perform,heq])
    · exact .inl (by rw [perform,heq])
  | tickInterval hasProposal => exact .inl (by rw [perform,tickInterval,after_onEngine])

/-- Every block on disk is tracked, and every tracked block has its post-state. -/
structure Aligned (chain : Service) : Prop where
  stated : ∀ r, r ∈ chain.engine.states ↔ r ∈ chain.engine.blocks
  saved : ∀ r, r ∈ chain.store.blocks → r ∈ chain.engine.blocks

theorem mem_handle (r : Bytes32) (e : Event) {st : Store} (h : r ∈ st.blocks) :
    r ∈ (handle e st).blocks := by
  refine handle_tree (fun st => r ∈ st.blocks) ?_ ?_ e h
  · intro st t hsame h
    rwa [hsame.blocks]
  · intro st block post hnew h
    rw [(tracking_new hnew block post).1]
    exact Std.ExtTreeMap.mem_insert.mpr (.inr h)

theorem stated_handle (e : Event) {st : Store} (h : ∀ r, r ∈ st.states ↔ r ∈ st.blocks) :
    ∀ r, r ∈ (handle e st).states ↔ r ∈ (handle e st).blocks := by
  refine handle_tree (fun st => ∀ r, r ∈ st.states ↔ r ∈ st.blocks) ?_ ?_ e h
  · intro st t hsame h
    rwa [hsame.states,hsame.blocks]
  · intro st block post hnew h r
    obtain ⟨hblocks,hstates,-⟩ := tracking_new hnew block post
    rw [hblocks,hstates,Std.ExtTreeMap.mem_insert,Std.ExtTreeMap.mem_insert,h r]

theorem mem_perform {r : Bytes32} (e : NodeEvent) {self : Service} (h : r ∈ self.engine.blocks) :
    r ∈ (perform e self).engine.blocks :=
  perform_preserves (I := fun st => r ∈ st.blocks) (mem_handle r) e h

theorem Aligned.perform (e : NodeEvent) {self : Service} (h : Aligned self) :
    Aligned (perform e self) := by
  have hstated := perform_preserves (I := fun st => ∀ r, r ∈ st.states ↔ r ∈ st.blocks)
    stated_handle e h.stated
  refine ⟨hstated,?_⟩
  intro r hr
  rcases store_perform e self with hsame | ⟨plan,hcaptured,hsaved⟩
  · rw [hsame] at hr
    exact mem_perform e (h.saved r hr)
  · rw [hsaved,Chain.saved,RedbStore.putAccepted,Std.ExtTreeMap.mem_insert,
      Std.LawfulEqCmp.compare_eq_iff_eq] at hr
    rcases hr with rfl | hr
    · exact (hstated _).mp (mem_of_get hcaptured.state)
    · exact mem_perform e (h.saved r hr)

def CleanStart (genesisBlock : Block) (self : Node) : NodeEvent → Prop
  | .start faults => ∀ r ∈ self.store.blocks,
      (∀ root state block, resumeAnchor faults self.store = .ok (some (root,state,block)) → r = root) ∧
      (resumeAnchor faults self.store = .ok none → r = hashTreeRoot genesisBlock)
  | _ => True

instance (genesisBlock : Block) (self : Node) (e : NodeEvent) :
    Decidable (CleanStart genesisBlock self e) :=
  match e with
  | .start faults => decidable_of_iff (∀ p ∈ self.store.blocks.toList,
      ∀ anchor ∈ (resumeAnchor faults self.store).toOption,
        p.1 = anchor.elim (hashTreeRoot genesisBlock) (·.1)) (by
      simp only [CleanStart,Option.mem_def,toOption_eq_some]
      constructor
      · intro h r hr
        obtain ⟨env,henv⟩ := get_of_mem hr
        have hall := h (r,env) (Std.ExtTreeMap.mem_toList_iff_getElem?_eq_some.mpr henv)
        exact ⟨fun root state block hread => hall _ hread,fun hread => hall _ hread⟩
      · intro h p hp anchor hread
        have hr := mem_of_get (Std.ExtTreeMap.mem_toList_iff_getElem?_eq_some.mp hp)
        cases anchor with
        | none => exact (h p.1 hr).2 hread
        | some anchor => exact (h p.1 hr).1 anchor.1 anchor.2.1 anchor.2.2 hread)
  | .crash => isTrue trivial
  | .importBlock _ _ _ _ => isTrue trivial
  | .produceBlock _ _ _ _ _ => isTrue trivial
  | .importAttestation _ => isTrue trivial
  | .produceAttestation _ _ _ => isTrue trivial
  | .tickInterval _ => isTrue trivial

omit [HashPair] in
theorem blocks_persistAnchor {faults : StartFaults} {root : Bytes32} {slot : Slot}
    {finalized : Checkpoint} {signed : SignedBlockWithAttestation} {state : State}
    {store store' : RedbStore}
    (h : persistAnchor faults root slot finalized signed state store = .ok () store') :
    store'.blocks = store.blocks.insert root signed := by
  obtain ⟨loadHead,loadBlock,loadState,saveBlock,saveState,saveHead⟩ := faults
  obtain ⟨_,m,hblock,h⟩ := estate_bind_ok.mp h
  obtain ⟨_,n,hstate,h⟩ := estate_bind_ok.mp h
  obtain ⟨info,l,hinfo,hhead⟩ := estate_bind_ok.mp h
  obtain ⟨-,rfl⟩ := check_ok.mp hinfo
  have hblock := adaptExcept_ok.mp hblock
  have hstate := adaptExcept_ok.mp hstate
  have hhead := adaptExcept_ok.mp hhead
  cases saveBlock with
  | some e => cases hblock
  | none =>
    cases hblock
    cases saveState with
    | some e => cases hstate
    | none =>
      cases hstate
      cases saveHead with
      | some e => cases hhead
      | none =>
        cases hhead
        rfl

theorem aligned_buildEngine {faults : StartFaults} {genesisState : State} {genesisBlock : Block}
    {m : Node} {store : RedbStore} {engine : Store} (hclean : CleanStart genesisBlock m (.start faults))
    (h : buildEngine faults genesisState genesisBlock m.store = .ok engine store) :
    Aligned ⟨engine,store⟩ := by
  rcases buildEngine_ok h with ⟨root,state,block,hread,hopen,hhead,rfl⟩ | ⟨hread,hopen,hsave⟩
  · refine ⟨stated_seedAnchor hopen,fun r hr => ?_⟩
    have hroot := (hclean r hr).1 root state block hread
    obtain ⟨-,time,rfl⟩ := seedAnchor_ok hopen
    rw [hroot,← hhead]
    exact Std.ExtTreeMap.mem_insert_self
  · refine ⟨stated_seedAnchor hopen,fun r hr => ?_⟩
    have hroot : r = hashTreeRoot genesisBlock := by
      have hfirst : engine.head = hashTreeRoot genesisBlock := by
        obtain ⟨-,time,rfl⟩ := seedAnchor_ok hopen
        rfl
      change r ∈ store.blocks at hr
      rw [blocks_persistAnchor hsave,Std.ExtTreeMap.mem_insert,
        Std.LawfulEqCmp.compare_eq_iff_eq] at hr
      rcases hr with hr | hr
      · rw [← hr,hfirst]
      · exact (hclean r hr).2 hread
    obtain ⟨-,time,rfl⟩ := seedAnchor_ok hopen
    rw [hroot]
    exact Std.ExtTreeMap.mem_insert_self

theorem aligned_live {genesisState : State} {genesisBlock : Block} {store : RedbStore}
    {events : List NodeEvent} {outs : List Unit} {node : Node}
    (hrun : Run (fun m e out n => CleanStart genesisBlock m e ∧
      liveQuiet genesisState genesisBlock e m = (out,n)) ⟨none,store⟩ events outs node)
    {engine : Store} (hengine : node.engine = some engine) : Aligned ⟨engine,node.store⟩ :=
  live_rule Aligned aligned_buildEngine Aligned.perform hrun hengine

theorem Aligned.performAll (calls : List NodeEvent) {self : Service} (h : Aligned self) :
    Aligned (performAll calls self) := by
  induction calls generalizing self with
  | nil => exact h
  | cons call rest ih => exact ih (h.perform call)

theorem mem_performAll {r : Bytes32} (calls : List NodeEvent) {self : Service}
    (h : r ∈ self.engine.blocks) : r ∈ (performAll calls self).engine.blocks := by
  induction calls generalizing self with
  | nil => exact h
  | cons call rest ih => exact ih (mem_perform call h)

end

end Devnet.Chain
