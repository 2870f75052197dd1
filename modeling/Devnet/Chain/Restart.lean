import Devnet.Chain.Resumable

/-!
Restarts. A start on a store without a head opens at genesis and writes the anchor down; on
a store whose head row is backed it resumes there, if the backend lets it read. Over whole
runs, with crashes and failed writes, the head row is then backed whenever there is one.
-/

set_option autoImplicit false

namespace Devnet.Chain
open Machine Devnet.Types Devnet.Ssz Devnet.Protocol Devnet.ForkChoice Devnet.Engine
  Devnet.Storage Devnet.Duties

theorem loadHead_unset {store : RedbStore} (h : store.head = none) :
    store.loadHead none = .ok none := by
  simp [RedbStore.loadHead,RedbStore.inReadTxn,h]

theorem loadHead_set {store : RedbStore} {info : HeadInfo} (h : store.head = some info)
    (horder : info.finalized.slot.get ≤ info.head.slot.get) :
    store.loadHead none = .ok (some info) := by
  simp only [RedbStore.loadHead,RedbStore.inReadTxn,h,RedbStore.decodeHead,HeadInfo.tryNew]
  rw [if_neg (Nat.not_lt.mpr horder)]
  rfl

theorem resumeAnchor_unset {store : RedbStore} (h : store.head = none) (faults : StartFaults) :
    (∃ e, resumeAnchor faults store = .error e) ∨ resumeAnchor faults store = .ok none := by
  unfold resumeAnchor
  cases faults.loadHead with
  | some e => exact .inl ⟨_,rfl⟩
  | none =>
    rw [loadHead_unset h]
    exact .inr rfl

theorem Backed.resumeAnchor {store : RedbStore} {st : Store} {info : HeadInfo} {block : Block}
    {state : State} (h : Backed store st info) (hblock : st.blocks[info.head.root]? = some block)
    (hstate : st.states[info.head.root]? = some state) (faults : StartFaults) :
    (∃ e, resumeAnchor faults store = .error e ∧ faults ≠ .none) ∨
      resumeAnchor faults store = .ok (some (info.head.root,state,block)) := by
  obtain ⟨env,henv,rfl,hsaved⟩ := h.saved block state hblock hstate
  obtain ⟨loadHead,loadBlock,loadState,saveBlock,saveState,saveHead⟩ := faults
  unfold Chain.resumeAnchor
  cases loadHead with
  | some e => exact .inl ⟨_,rfl,by simp [StartFaults.none]⟩
  | none =>
    rw [loadHead_set h.row h.order]
    cases loadBlock with
    | some e => exact .inl ⟨_,rfl,by simp [StartFaults.none]⟩
    | none =>
      cases loadState with
      | some e => exact .inl ⟨_,rfl,by simp [StartFaults.none]⟩
      | none =>
        refine .inr ?_
        simp [RedbStore.loadBlock,RedbStore.loadState,RedbStore.inReadTxn,henv,hsaved,
          Except.mapError,bind,Except.bind]

section
variable [HashPair]

theorem buildEngine_error {faults : StartFaults} {store : RedbStore} {e : StartError}
    (h : resumeAnchor faults store = .error e) (genesisState : State) (genesisBlock : Block) :
    buildEngine faults genesisState genesisBlock store = .error e store := by
  simp [buildEngine,h]

theorem buildEngine_resumes {faults : StartFaults} {store : RedbStore} {root : Bytes32}
    {state : State} {block : Block} {engine : Store}
    (h : resumeAnchor faults store = .ok (some (root,state,block)))
    (hopen : Store.fromTrustedHead state block = .ok engine) (hhead : engine.head = root)
    (genesisState : State) (genesisBlock : Block) :
    buildEngine faults genesisState genesisBlock store = .ok engine store := by
  simp [buildEngine,h,hopen,hhead,Except.mapError]
  rfl

theorem buildEngine_genesis {store : RedbStore} (h : store.head = none) (faults : StartFaults)
    (genesisTime : UInt64) (validators : Validators) :
    let state := genesisState genesisTime validators
    let root := hashTreeRoot (genesisAnchorBlock state)
    (∃ e store', buildEngine faults state (genesisAnchorBlock state) store = .error e store' ∧
      store'.head = none) ∨
    ∃ store', buildEngine faults state (genesisAnchorBlock state) store =
      .ok (genesisStore genesisTime validators) store' ∧
      Backed store' (genesisStore genesisTime validators) ⟨⟨root,Slot.zero⟩,⟨root,Slot.zero⟩⟩ := by
  intro state root
  rcases resumeAnchor_unset h faults with ⟨e,hread⟩ | hread
  · exact .inl ⟨e,store,buildEngine_error hread _ _,h⟩
  · have hanchor := fromAnchor_genesis genesisTime validators
    have hblock : (genesisStore genesisTime validators).blocks[root]? =
        some (genesisAnchorBlock state) := Std.ExtTreeMap.getElem?_insert_self
    have hstate : (genesisStore genesisTime validators).states[root]? = some state :=
      Std.ExtTreeMap.getElem?_insert_self
    have hrun : buildEngine faults state (genesisAnchorBlock state) store =
        (persistAnchor faults root Slot.zero ⟨root,Slot.zero⟩
          (signedBlockEnvelope (genesisAnchorBlock state)) state >>= fun _ =>
          pure (genesisStore genesisTime validators)) store := by
      simp only [buildEngine,estate_get_bind,hread,check_bind_ok]
      rw [hanchor]
      rfl
    rw [hrun]
    obtain ⟨loadHead,loadBlock,loadState,saveBlock,saveState,saveHead⟩ := faults
    cases saveBlock with
    | some e => exact .inl ⟨_,_,rfl,h⟩
    | none =>
      cases saveState with
      | some e => exact .inl ⟨_,_,rfl,h⟩
      | none =>
        cases saveHead with
        | some e => exact .inl ⟨_,_,rfl,h⟩
        | none =>
          refine .inr ⟨_,rfl,rfl,⟨_,_,hblock,hstate,rfl⟩,?_,Nat.le_refl _⟩
          intro b s hb hs
          obtain rfl := Option.some.inj (hblock.symm.trans hb)
          obtain rfl := Option.some.inj (hstate.symm.trans hs)
          exact ⟨_,Std.ExtTreeMap.getElem?_insert_self,rfl,Std.ExtTreeMap.getElem?_insert_self⟩

theorem Recoverable.perform {seen : List Block} {self : Service}
    (h : Recoverable seen self.engine self.store) {e : NodeEvent}
    (hcovered : Covered ⟨some self.engine,self.store⟩ e) {more : List Block}
    (hmore : more = Node.holds ⟨some (perform e self).engine,(perform e self).store⟩)
    (hsound : Sound (seen ++ more)) :
    Recoverable (seen ++ more) (perform e self).engine (perform e self).store := by
  have hengine : ∀ b ∈ Tables.values (Chain.perform e self).engine.blocks, b ∈ more := by
    intro b hb
    rw [hmore]
    exact List.mem_append_left _ hb
  have hdisk : ∀ env ∈ Tables.values (Chain.perform e self).store.blocks,
      env.message.block ∈ more := by
    intro env henv
    rw [hmore]
    exact List.mem_append_right _ (List.mem_map_of_mem henv)
  obtain ⟨held,hlife,hheld⟩ := h.life
  obtain ⟨held',hlife',hseen⟩ := (livesOn_perform hlife e).within hheld hengine
  cases e with
  | start faults => exact h.quiet hlife' hseen (SameTree.refl _)
  | crash => exact h.quiet hlife' hseen (SameTree.refl _)
  | importBlock verifier signed policy fault =>
    refine h.importBlock verifier signed policy fault ?_ hsound (hcovered.1 _ rfl) hcovered.2
    rw [← engine_importCapturing verifier signed policy fault]
    exact hengine
  | produceBlock order slot validator signer fault =>
    exact h.produceBlock order slot validator signer fault hengine hdisk hsound (hcovered _ rfl)
  | importAttestation vote =>
    exact h.quiet hlife' hseen (sameTree_importAttestation vote self.engine)
  | produceAttestation slot validator signer =>
    have hvote : SameTree self.engine (after (produceAttestationVote slot) self.engine) := by
      rw [after_produceAttestationVote]
      exact sameTree_of_touches (touches_acceptNewVotes self.engine)
    rw [Chain.perform] at hlife' ⊢
    rcases after_produceAttestation self slot validator signer with heq | ⟨vote,heq⟩
    · rw [heq] at hlife' ⊢
      exact h.quiet hlife' hseen hvote
    · rw [heq] at hlife' ⊢
      exact h.quiet hlife' hseen (hvote.trans (sameTree_importAttestation vote _))
  | tickInterval hasProposal =>
    rw [Chain.perform,tickInterval,after_onEngine,after_adaptExcept] at hlife' ⊢
    exact h.quiet hlife' hseen (sameTree_of_touches (touches_tickInterval hasProposal self.engine))

/-- Nothing was recorded yet, or the node can resume. An engine that runs is the one that the
store is behind. -/
inductive Resumable (seen : List Block) : Node → Prop where
  | fresh {store : RedbStore} (unset : store.head = none) : Resumable seen ⟨none,store⟩
  | kept {engine : Option Store} {st : Store} {store : RedbStore}
      (running : ∀ e ∈ engine, e = st) (recoverable : Recoverable seen st store) :
      Resumable seen ⟨engine,store⟩

theorem Recoverable.buildEngine {seen : List Block} {st : Store} {store : RedbStore}
    (h : Recoverable seen st store) (faults : StartFaults) (genesisState : State)
    (genesisBlock : Block) :
    (∃ e, buildEngine faults genesisState genesisBlock store = .error e store) ∨
    ∃ info block state engine, Backed store st info ∧
      st.blocks[info.head.root]? = some block ∧ st.states[info.head.root]? = some state ∧
      Store.fromTrustedHead state block = .ok engine ∧ engine.head = info.head.root ∧
      buildEngine faults genesisState genesisBlock store = .ok engine store := by
  obtain ⟨held,hlife,-⟩ := h.life
  obtain ⟨anchor,hlinked⟩ := hlife.linked
  obtain ⟨info,hbacked⟩ := h.head
  obtain ⟨block,state,hblock,hstate,-⟩ := hbacked.tracked
  obtain ⟨engine,hopen,hhead⟩ := hlinked.reopens hblock hstate
  rcases hbacked.resumeAnchor hblock hstate faults with ⟨e,hread,-⟩ | hread
  · exact .inl ⟨e,buildEngine_error hread _ _⟩
  · exact .inr ⟨info,block,state,engine,hbacked,hblock,hstate,hopen,hhead,
      buildEngine_resumes hread hopen hhead _ _⟩

theorem Recoverable.resumed {seen more : List Block} {st engine : Store} {store : RedbStore}
    {info : HeadInfo} {block : Block} {state : State} (h : Recoverable seen st store)
    (hbacked : Backed store st info) (hblock : st.blocks[info.head.root]? = some block)
    (hstate : st.states[info.head.root]? = some state)
    (hopen : Store.fromTrustedHead state block = .ok engine)
    (hmore : ∀ b ∈ Tables.values engine.blocks, b ∈ more) :
    Recoverable (seen ++ more) engine store := by
  obtain ⟨held,hlife,hheld⟩ := h.life
  obtain ⟨anchor,hlinked⟩ := hlife.linked
  have hroot := hlinked.keyed hblock
  have hlife' := hlife.step (.resume hblock hstate hopen)
  obtain ⟨-,time,rfl⟩ := seedAnchor_ok hopen
  have hblock' : ((∅ : Blocks).insert (hashTreeRoot block) block)[info.head.root]? = some block := by
    rw [hroot]
    exact Std.ExtTreeMap.getElem?_insert_self
  have hstate' : ((∅ : HashMap Bytes32 State).insert (hashTreeRoot block) state)[info.head.root]? =
      some state := by
    rw [hroot]
    exact Std.ExtTreeMap.getElem?_insert_self
  refine ⟨⟨_,hlife',?_⟩,?_,⟨info,hbacked.row,?_,?_,hbacked.order⟩⟩
  · intro b hb
    rcases List.mem_append.mp hb with hb | hb
    · exact List.mem_append_left _ (hheld b hb)
    · exact List.mem_append_right _ (hmore b hb)
  · intro r s hs
    obtain ⟨-,rfl⟩ : hashTreeRoot block = r ∧ state = s := by
      simpa [Std.ExtTreeMap.getElem?_insert] using hs
    exact h.named _ state hstate
  · obtain ⟨b,s,hb,-,hslot⟩ := hbacked.tracked
    obtain rfl := Option.some.inj (hblock.symm.trans hb)
    exact ⟨block,state,hblock',hstate',hslot⟩
  · intro b s hb hs
    obtain rfl := Option.some.inj (hblock'.symm.trans hb)
    obtain rfl := Option.some.inj (hstate'.symm.trans hs)
    exact hbacked.saved block state hblock hstate

theorem named_genesis {genesisTime : UInt64} {validators : Validators} {r : Bytes32} {s : State}
    (h : (genesisStore genesisTime validators).states[r]? = some s) : Named s := by
  obtain ⟨-,rfl⟩ : hashTreeRoot (genesisAnchorBlock (genesisState genesisTime validators)) = r ∧
      genesisState genesisTime validators = s := by
    simpa [genesisStore,Std.ExtTreeMap.getElem?_insert] using h
  intro hpos
  exact absurd hpos (Nat.lt_irrefl 0)

theorem live_start {self : Node} {genesisTime : UInt64} {validators : Validators}
    {faults : StartFaults} {engine : Store} {store : RedbStore}
    (h : buildEngine faults (genesisState genesisTime validators)
      (genesisAnchorBlock (genesisState genesisTime validators)) self.store = .ok engine store) :
    live genesisTime validators (.start faults) self = ⟨some engine,store⟩ := by
  simp [live,liveFrom,h]

theorem live_start_error {self : Node} {genesisTime : UInt64} {validators : Validators}
    {faults : StartFaults} {e : StartError} {store : RedbStore}
    (h : buildEngine faults (genesisState genesisTime validators)
      (genesisAnchorBlock (genesisState genesisTime validators)) self.store = .error e store) :
    live genesisTime validators (.start faults) self = ⟨none,store⟩ := by
  simp [live,liveFrom,h]

theorem Resumable.start {seen : List Block} {self : Node} (h : Resumable seen self)
    (genesisTime : UInt64) (validators : Validators) (faults : StartFaults) :
    Resumable (seen ++ (live genesisTime validators (.start faults) self).holds)
      (live genesisTime validators (.start faults) self) := by
  cases h with
  | @fresh store unset =>
    rcases buildEngine_genesis unset faults genesisTime validators with
      ⟨e,store',hrun,hunset⟩ | ⟨store',hrun,hbacked⟩
    · rw [live_start_error hrun]
      exact .fresh hunset
    · rw [live_start hrun]
      refine .kept (by simp) ⟨⟨_,lives_genesis genesisTime validators,?_⟩,?_,⟨_,hbacked⟩⟩
      · intro b hb
        exact List.mem_append_right _ (List.mem_append_left _ hb)
      · intro r s hs
        exact named_genesis hs
  | @kept engine st store running recoverable =>
    rcases recoverable.buildEngine faults (genesisState genesisTime validators)
        (genesisAnchorBlock (genesisState genesisTime validators)) with
      ⟨e,hrun⟩ | ⟨info,block,state,engine',hbacked,hblock,hstate,hopen,-,hrun⟩
    · obtain ⟨held,hlife,hheld⟩ := recoverable.life
      rw [live_start_error hrun]
      refine .kept (by simp) (recoverable.quiet hlife ?_ (SameTree.refl st))
      exact fun b hb => List.mem_append_left _ (hheld b hb)
    · rw [live_start hrun]
      refine .kept (by simp) (recoverable.resumed hbacked hblock hstate hopen ?_)
      exact fun b hb => List.mem_append_left _ hb

theorem Resumable.live {seen : List Block} {self : Node} (h : Resumable seen self)
    {e : NodeEvent} (hcovered : Covered self e) (genesisTime : UInt64) (validators : Validators)
    (hsound : Sound (seen ++ (live genesisTime validators e self).holds)) :
    Resumable (seen ++ (live genesisTime validators e self).holds)
      (live genesisTime validators e self) := by
  have hstart := h.start genesisTime validators
  cases h with
  | @fresh store unset =>
    cases e with
    | start faults => exact hstart faults
    | _ => exact .fresh unset
  | @kept engine st store running recoverable =>
    obtain ⟨held,hlife,hheld⟩ := recoverable.life
    -- Without a process to serve it, an event leaves the node as it is.
    have hidle : ∀ more, Resumable (seen ++ more) ⟨none,store⟩ := fun more =>
      .kept (by simp) (recoverable.quiet hlife
        (fun b hb => List.mem_append_left _ (hheld b hb)) (SameTree.refl st))
    cases engine with
    | none =>
      cases e with
      | start faults => exact hstart faults
      | _ => exact hidle _
    | some engine =>
      obtain rfl := running engine rfl
      cases e with
      | start faults => exact hstart faults
      | crash => exact hidle _
      | _ =>
        have hperformed : Recoverable seen (Service.mk engine store).engine
          (Service.mk engine store).store := recoverable
        exact .kept (fun _ h => (Option.some.inj h).symm) (hperformed.perform hcovered rfl hsound)

/-- In every run in which blocks come in only when all that is tracked is saved, and none is
imported with a vote for the zero root, the head row can be read back; it names a saved pair
not below its finalized slot, and the next start resumes there. -/
theorem head_resumable {genesisTime : UInt64} {validators : Validators} {events : List NodeEvent}
    {outs : List (List Block)} {node : Node}
    (hrun : Run (fun m e out n => Covered m e ∧ liveStep genesisTime validators e m = (out,n))
      ⟨none,RedbStore.empty⟩ events outs node)
    (hsound : Sound outs.flatten) :
    ∃ head, node.store.loadHead none = .ok head ∧
      ∀ info, head = some info → info.finalized.slot.get ≤ info.head.slot.get ∧
        ∃ env state engine, node.store.loadBlock none info.head.root = .ok (some env) ∧
          node.store.loadState none info.head.root = .ok (some state) ∧
          engine.head = info.head.root ∧ ∀ genesisState genesisBlock,
            buildEngine .none genesisState genesisBlock node.store = .ok engine node.store := by
  have hresumable : Sound outs.flatten → Resumable outs.flatten node := by
    refine hrun.invariant (fun _ outs node => Sound outs.flatten → Resumable outs.flatten node) ?_ ?_
    · exact fun _ => .fresh rfl
    · intro _ earlier m e out n _ ih hstep hsound
      obtain ⟨hcovered,hlive⟩ := hstep
      obtain ⟨rfl,rfl⟩ : (live genesisTime validators e m).holds = out ∧
          live genesisTime validators e m = n := by simpa [liveStep] using hlive
      rw [List.flatten_append,List.flatten_singleton] at hsound ⊢
      exact (ih (hsound.mono fun b hb => List.mem_append_left _ hb)).live hcovered _ _ hsound
  cases hresumable hsound with
  | fresh unset => exact ⟨none,loadHead_unset unset,by simp⟩
  | @kept engine st store running recoverable =>
    obtain ⟨held,hlife,-⟩ := recoverable.life
    obtain ⟨anchor,hlinked⟩ := hlife.linked
    obtain ⟨info,hbacked⟩ := recoverable.head
    obtain ⟨block,state,hblock,hstate,-⟩ := hbacked.tracked
    obtain ⟨engine,hopen,hhead⟩ := hlinked.reopens hblock hstate
    obtain ⟨env,henv,-,hsaved⟩ := hbacked.saved block state hblock hstate
    refine ⟨some info,loadHead_set hbacked.row hbacked.order,?_⟩
    rintro _ ⟨⟩
    refine ⟨hbacked.order,env,state,engine,?_,?_,hhead,?_⟩
    · exact congrArg Except.ok henv
    · exact congrArg Except.ok hsaved
    · rcases hbacked.resumeAnchor hblock hstate .none with ⟨e,-,hfault⟩ | hread
      · exact absurd rfl hfault
      · exact buildEngine_resumes hread hopen hhead

end

instance (st : Store) (store : RedbStore) : Decidable (Stored st store) :=
  decidable_of_iff (∀ p ∈ st.blocks.toList, ∀ s ∈ st.states[p.1]?,
      ∃ env ∈ store.blocks[p.1]?, env.message.block = p.2 ∧ store.states[p.1]? = some s) (by
    constructor
    · intro h r b s hb hs
      exact h (r,b) (Std.ExtTreeMap.mem_toList_iff_getElem?_eq_some.mpr hb) s hs
    · intro h p hp s hs
      exact h p.1 p.2 s (Std.ExtTreeMap.mem_toList_iff_getElem?_eq_some.mp hp) hs)

instance (self : Node) (e : NodeEvent) : Decidable (Covered self e) :=
  match e with
  | .importBlock _ signed _ _ => inferInstanceAs (Decidable ((∀ st ∈ self.engine, Stored st self.store) ∧
    ∀ att ∈ signed.message.block.body.attestations, att.data.target.root ≠ ByteVector.zero))
  | .produceBlock _ _ _ _ _ => inferInstanceAs (Decidable (∀ st ∈ self.engine, Stored st self.store))
  | .start _ => isTrue trivial
  | .crash => isTrue trivial
  | .importAttestation _ => isTrue trivial
  | .produceAttestation _ _ _ => isTrue trivial
  | .tickInterval _ => isTrue trivial

section
attribute [local instance] mixPair

def lived (events : List NodeEvent) : List (List Block) × Node :=
  trace (liveStep 0 [default]) events ⟨none,RedbStore.empty⟩

def offered (block : Block) : NodeEvent := .importBlock none ⟨⟨block,default⟩,[]⟩ .enforce none

def recovering : List NodeEvent :=
  [.start .none,.produceBlock default (Slot.ofNat 1) default willing none,.crash,.start .none,
    offered (mint (after (soloProposal willing none) soloService).engine
      (after (soloProposal willing none) soloService).engine.head 2 [])]

theorem trace_lived (events : List NodeEvent) :
    Run (fun m e out n => liveStep 0 [default] e m = (out,n)) ⟨none,RedbStore.empty⟩ events
      (lived events).1 (lived events).2 := run_trace _ _ _

theorem run_lived {events : List NodeEvent}
    (h : Meets Covered (liveStep 0 [default]) events ⟨none,RedbStore.empty⟩) :
    Run (fun m e out n => Covered m e ∧ liveStep 0 [default] e m = (out,n))
      ⟨none,RedbStore.empty⟩ events (lived events).1 (lived events).2 := run_meets h

theorem head_resumable_recovering :
    ∃ info, (lived recovering).2.store.loadHead none = .ok (some info) ∧
      info.head.slot = Slot.ofNat 2 ∧ ∃ engine, engine.head = info.head.root ∧
        buildEngine .none (genesisState 0 [default]) (genesisAnchorBlock (genesisState 0 [default]))
          (lived recovering).2.store = .ok engine (lived recovering).2.store := by
  obtain ⟨hmeets,hsound,info,hinfo,hslot,horder⟩ :
      Meets Covered (liveStep 0 [default]) recovering ⟨none,RedbStore.empty⟩ ∧
      Sound (lived recovering).1.flatten ∧
      ∃ info ∈ (lived recovering).2.store.head, info.head.slot = Slot.ofNat 2 ∧
        info.finalized.slot.get ≤ info.head.slot.get := by decide +kernel
  have hload := loadHead_set (Option.mem_def.mp hinfo) horder
  obtain ⟨head,hhead,hresumes⟩ := head_resumable (run_lived hmeets) hsound
  have heq : head = some info := Except.ok.inj (hhead.symm.trans hload)
  obtain ⟨-,env,state,engine,-,-,hengine,hbuild⟩ := hresumes info heq
  exact ⟨info,hload,hslot,engine,hengine,hbuild _ _⟩

def stranding : List NodeEvent :=
  [.start .none,.produceBlock default (Slot.ofNat 1) default keyless none,
    .produceAttestation (Slot.ofNat 1) default willing,
    offered (mint soloStore genesisPoint.root 2 [])]

-- Two blocks on genesis; on the later one, a block that justifies the empty slot 3.
def fork2 : Store := extend line1 genesisPoint 2 []
def fork4 : List SignedAttestation :=
  [soloVote genesisPoint (tip fork2),soloVote (tip fork2) ⟨ByteVector.zero,Slot.ofNat 3⟩]

def sinking : List NodeEvent :=
  [.start .none,offered (mint soloStore genesisPoint.root 1 []),
    offered (mint line1 genesisPoint.root 2 []),.importAttestation (soloVote genesisPoint (tip line1)),
    offered (mint fork2 (tip fork2).root 4 fork4)]

/-- The head row names a block that was never saved, so that the next start is back at genesis;
and a head row below its finalized slot cannot be read any more. -/
theorem head_stranded :
    (∃ outs node info, Run (fun m e out n => liveStep 0 [default] e m = (out,n))
        ⟨none,RedbStore.empty⟩ stranding outs node ∧ Sound outs.flatten ∧
      node.store.head = some info ∧ node.store.blocks[info.head.root]? = none ∧
      (resumeAnchor .none node.store).toOption = some none) ∧
    ∃ outs node, Run (fun m e out n => liveStep 0 [default] e m = (out,n))
        ⟨none,RedbStore.empty⟩ sinking outs node ∧ Sound outs.flatten ∧
      (node.store.loadHead none).toOption = none := by
  obtain ⟨hsound,⟨info,hinfo,hnone⟩,hfresh,hsound',herror⟩ : Sound (lived stranding).1.flatten ∧
      (∃ info ∈ (lived stranding).2.store.head,
        (lived stranding).2.store.blocks[info.head.root]? = none) ∧
      (resumeAnchor .none (lived stranding).2.store).toOption = some none ∧
      Sound (lived sinking).1.flatten ∧
      ((lived sinking).2.store.loadHead none).toOption = none := by decide +kernel
  refine ⟨⟨_,_,info,trace_lived stranding,hsound,hinfo,hnone,hfresh⟩,?_⟩
  exact ⟨_,_,trace_lived sinking,hsound',herror⟩

end

end Devnet.Chain
