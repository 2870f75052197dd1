import Devnet.Chain.Service

/-!
How a node comes up, and its runs. If the store has a head with its block and state, the
engine resumes there, whatever the node was told about genesis; otherwise it opens at genesis
and writes that down. A process may die at any moment; the store stays.
-/

set_option autoImplicit false

namespace Devnet.Chain
open Machine Devnet.Types Devnet.Ssz Devnet.Protocol Devnet.ForkChoice Devnet.Engine
  Devnet.Storage Devnet.Duties

inductive StartError where
  | storage (context : String) (error : StorageError)
  | headInfo (context : String) (error : HeadInfoError)
  | engine (error : ForkchoiceError)
  | inconsistentStore
  deriving DecidableEq

/-- What the backend answers to the reads and writes of a start. -/
structure StartFaults where
  loadHead : Fault
  loadBlock : Fault
  loadState : Fault
  saveBlock : Fault
  saveState : Fault
  saveHead : Fault

def StartFaults.none : StartFaults :=
  ⟨Option.none,Option.none,Option.none,Option.none,Option.none,Option.none⟩

def signedBlockEnvelope (block : Block) : SignedBlockWithAttestation := ⟨⟨block,default⟩,[]⟩

/-- The persisted head with its pair; a head without one counts as no head. -/
def resumeAnchor (faults : StartFaults) (store : RedbStore) :
    Except StartError (Option (Bytes32 × State × Block)) := do
  let head ← (store.loadHead faults.loadHead).mapError (.storage "load persisted head")
  match head with
  | none => .ok none
  | some head => do
    let headRoot := head.head.root
    let block ← (store.loadBlock faults.loadBlock headRoot).mapError
      (.storage "load persisted head block")
    let state ← (store.loadState faults.loadState headRoot).mapError
      (.storage "load persisted head state")
    match block, state with
    | some block, some state => .ok (some (headRoot,state,block.message.block))
    | _, _ => .ok none

def persistAnchor (faults : StartFaults) (anchorRoot : Bytes32) (anchorSlot : Slot)
    (finalized : Checkpoint) (signedAnchor : SignedBlockWithAttestation) (anchorState : State) :
    EStateM StartError RedbStore Unit := do
  (RedbStore.saveBlock faults.saveBlock anchorRoot signedAnchor).adaptExcept
    (.storage "persist genesis anchor block")
  (RedbStore.saveState faults.saveState anchorRoot anchorState).adaptExcept
    (.storage "persist genesis anchor state")
  let head ← check ((HeadInfo.tryNew ⟨anchorRoot,anchorSlot⟩ finalized).mapError
    (.headInfo "validate genesis anchor head"))
  (RedbStore.saveHead faults.saveHead head).adaptExcept (.storage "persist genesis anchor head")

/-- The store on disk, and the engine of the process that runs, if one does. -/
structure Node where
  engine : Option Store
  store : RedbStore

def Node.holds (self : Node) : List Block :=
  (self.engine.elim [] fun engine => Tables.values engine.blocks) ++
    (Tables.values self.store.blocks).map (·.message.block)

inductive NodeEvent where
  | start (faults : StartFaults)
  | crash
  | importBlock (verifier : Option Verifier) (signed : SignedBlockWithAttestation)
      (policy : VerifyPolicy) (fault : Fault)
  | produceBlock (order : IterationOrder SignedAttestation) (slot : Slot)
      (validator : ValidatorIndex) (signer : AttestationSigner) (fault : Fault)
  | importAttestation (vote : SignedAttestation)
  | produceAttestation (slot : Slot) (validator : ValidatorIndex) (signer : AttestationSigner)
  | tickInterval (hasProposal : Bool)

section
variable [HashPair]

def buildEngine (faults : StartFaults) (genesisState : State) (genesisBlock : Block) :
    EStateM StartError RedbStore Store := do
  let store ← get
  let anchor ← check (resumeAnchor faults store)
  match anchor with
  | some (headRoot,state,block) => do
    let engine ← check ((Store.fromTrustedHead state block).mapError .engine)
    if engine.head ≠ headRoot then throw .inconsistentStore else pure engine
  | none => do
    let engine ← check ((Store.fromAnchor genesisState genesisBlock).mapError .engine)
    persistAnchor faults engine.head genesisBlock.slot engine.latestFinalized
      (signedBlockEnvelope genesisBlock) genesisState
    pure engine

/-- An engine comes up at the persisted head with the store left alone, or at the genesis pair,
which is then written down. -/
theorem buildEngine_ok {faults : StartFaults} {genesisState : State} {genesisBlock : Block}
    {store store' : RedbStore} {engine : Store}
    (h : buildEngine faults genesisState genesisBlock store = .ok engine store') :
    (∃ root state block, resumeAnchor faults store = .ok (some (root,state,block)) ∧
      Store.fromTrustedHead state block = .ok engine ∧ engine.head = root ∧ store' = store) ∨
    resumeAnchor faults store = .ok none ∧ Store.fromAnchor genesisState genesisBlock = .ok engine ∧
      persistAnchor faults engine.head genesisBlock.slot engine.latestFinalized
        (signedBlockEnvelope genesisBlock) genesisState store = .ok () store' := by
  simp only [buildEngine,estate_get_bind,estate_bind_ok,check_ok] at h
  obtain ⟨anchor,_,⟨hread,rfl⟩,h⟩ := h
  cases anchor with
  | some anchor =>
    obtain ⟨root,state,block⟩ := anchor
    simp only [estate_bind_ok,check_ok,mapError_ok] at h
    obtain ⟨opened,_,⟨hopen,rfl⟩,h⟩ := h
    by_cases hhead : opened.head = root
    · rw [if_neg (not_not.mpr hhead)] at h
      obtain ⟨rfl,rfl⟩ := estate_pure_ok.mp h
      exact .inl ⟨root,state,block,hread,hopen,hhead,rfl⟩
    · simp [if_pos hhead] at h
  | none =>
    simp only [estate_bind_ok,check_ok,mapError_ok] at h
    obtain ⟨opened,_,⟨hopen,rfl⟩,_,_,hsave,h⟩ := h
    obtain ⟨rfl,rfl⟩ := estate_pure_ok.mp h
    exact .inr ⟨hread,hopen,hsave⟩

def perform : NodeEvent → Service → Service
  | .importBlock verifier signed policy fault, self =>
    after (importCapturing verifier signed policy fault) self
  | .produceBlock order slot validator signer fault, self =>
    after (produceBlock order slot validator signer fault) self
  | .importAttestation vote, self => after (importAttestation vote) self
  | .produceAttestation slot validator signer, self =>
    after (produceAttestation slot validator signer) self
  | .tickInterval hasProposal, self => after (tickInterval hasProposal) self
  | .start _, self => self
  | .crash, self => self

/-- The events of the engine that a call may bring about. -/
def NodeEvent.Causes : NodeEvent → Event → Prop
  | .importBlock verifier signed policy _, event => event = .importBlock verifier signed policy
  | .produceBlock order slot validator _ _, event =>
    event = .produceBlockUnsigned order slot validator ∨ ∃ vote, event = .importAttestation vote
  | .importAttestation vote, event => event = .importAttestation vote
  | .produceAttestation slot _ _, event =>
    event = .produceAttestationVote slot ∨ ∃ vote, event = .importAttestation vote
  | .tickInterval hasProposal, event => event = .tickInterval hasProposal
  | .start _, _ => False
  | .crash, _ => False

/-- To the engine, a call of the service is an event or two: a proposal or a vote is imported
again once it is signed. -/
theorem engine_perform (e : NodeEvent) (self : Service) :
    ∃ events, (perform e self).engine = drive events self.engine ∧
      ∀ event ∈ events, e.Causes event := by
  cases e with
  | start faults => exact ⟨[],rfl,by simp⟩
  | crash => exact ⟨[],rfl,by simp⟩
  | importBlock verifier signed policy fault =>
    refine ⟨[.importBlock verifier signed policy],?_,by simp [NodeEvent.Causes]⟩
    rw [perform,engine_importCapturing]
    rfl
  | produceBlock order slot validator signer fault =>
    have hdrive : drive [.produceBlockUnsigned order slot validator] self.engine =
        after (produceBlockUnsigned order slot validator) self.engine := rfl
    have hproduced : ∀ {engine},
        after (produceBlockUnsigned order slot validator) self.engine = engine →
        (perform (.produceBlock order slot validator signer fault) self).engine = engine →
        ∃ events, (perform (.produceBlock order slot validator signer fault) self).engine =
          drive events self.engine ∧ ∀ event ∈ events,
            (NodeEvent.produceBlock order slot validator signer fault).Causes event := by
      intro engine hafter hengine
      exact ⟨[.produceBlockUnsigned order slot validator],
        hengine.trans (hafter.symm.trans hdrive.symm),by simp [NodeEvent.Causes]⟩
    rcases produceBlock_cases self order slot validator signer fault with
      ⟨e,engine,hrun,heq⟩ | ⟨prod,engine,hrun,⟨-,heq⟩ | ⟨inputs,-,⟨e,-,heq⟩ | ⟨signature,-,heq⟩⟩⟩
    · exact hproduced (after_of_error hrun) (by rw [perform,after_of_error heq])
    · exact hproduced (after_of_ok hrun) (by rw [perform,after_of_error heq])
    · exact hproduced (after_of_ok hrun) (by rw [perform,after_of_error heq])
    · refine ⟨[.produceBlockUnsigned order slot validator,
        .importAttestation ⟨⟨validator,prod.proposerVote.vote⟩,signature⟩],?_,
        by simp [NodeEvent.Causes]⟩
      rw [perform,after,heq,← after,engine_persistPlan]
      exact congrArg (fun st => (Engine.importAttestation _ st).2) (after_of_ok hrun).symm
  | importAttestation vote => exact ⟨[.importAttestation vote],rfl,by simp [NodeEvent.Causes]⟩
  | produceAttestation slot validator signer =>
    rcases after_produceAttestation self slot validator signer with heq | ⟨vote,heq⟩
    · refine ⟨[.produceAttestationVote slot],?_,by simp [NodeEvent.Causes]⟩
      rw [perform,heq]
      rfl
    · refine ⟨[.produceAttestationVote slot,.importAttestation vote],?_,by simp [NodeEvent.Causes]⟩
      rw [perform,heq]
      rfl
  | tickInterval hasProposal =>
    refine ⟨[.tickInterval hasProposal],?_,by simp [NodeEvent.Causes]⟩
    rw [perform,tickInterval,after_onEngine,after_adaptExcept]
    rfl

theorem perform_preserves {I : Store → Prop}
    (hstep : ∀ (e : Event) {st : Store}, I st → I (handle e st)) (e : NodeEvent) {self : Service}
    (h : I self.engine) : I (perform e self).engine := by
  obtain ⟨events,hengine,-⟩ := engine_perform e self
  rw [hengine]
  exact drive_preserves hstep events h

def performAll (calls : List NodeEvent) (self : Service) : Service :=
  calls.foldl (fun self call => perform call self) self

/-- A node with the genesis pair it was given. Calls need a running process; a start that fails
leaves none. -/
def liveFrom (genesisState : State) (genesisBlock : Block) : NodeEvent → Node → Node
  | .start faults, self =>
    match buildEngine faults genesisState genesisBlock self.store with
    | .ok engine store => ⟨some engine,store⟩
    | .error _ store => ⟨none,store⟩
  | .crash, self => { self with engine := none }
  | event, self =>
    match self.engine with
    | none => self
    | some engine =>
      let service := perform event ⟨engine,self.store⟩
      ⟨some service.engine,service.store⟩

def live (genesisTime : UInt64) (validators : Validators) : NodeEvent → Node → Node :=
  liveFrom (genesisState genesisTime validators)
    (genesisAnchorBlock (genesisState genesisTime validators))

theorem liveFrom_cases (genesisState : State) (genesisBlock : Block) (e : NodeEvent)
    (self : Node) :
    (∃ faults engine store, e = .start faults ∧
      buildEngine faults genesisState genesisBlock self.store = .ok engine store ∧
      liveFrom genesisState genesisBlock e self = ⟨some engine,store⟩) ∨
    (liveFrom genesisState genesisBlock e self).engine = none ∨
    ∃ engine, self.engine = some engine ∧ liveFrom genesisState genesisBlock e self =
      ⟨some (perform e ⟨engine,self.store⟩).engine,(perform e ⟨engine,self.store⟩).store⟩ := by
  obtain ⟨engine,store⟩ := self
  have hstart : ∀ faults, (∃ engine' store',
      buildEngine faults genesisState genesisBlock store = .ok engine' store' ∧
      liveFrom genesisState genesisBlock (.start faults) ⟨engine,store⟩ = ⟨some engine',store'⟩) ∨
      (liveFrom genesisState genesisBlock (.start faults) ⟨engine,store⟩).engine = none := by
    intro faults
    cases hbuild : buildEngine faults genesisState genesisBlock store with
    | ok engine' store' => exact .inl ⟨engine',store',rfl,by simp only [liveFrom,hbuild]⟩
    | error e store' => exact .inr (by simp only [liveFrom,hbuild])
  cases e with
  | start faults =>
    rcases hstart faults with ⟨engine',store',hbuild,heq⟩ | hnone
    · exact .inl ⟨faults,engine',store',rfl,hbuild,heq⟩
    · exact .inr (.inl hnone)
  | crash => exact .inr (.inl rfl)
  | _ =>
    cases engine with
    | none => exact .inr (.inl rfl)
    | some engine => exact .inr (.inr ⟨engine,rfl,rfl⟩)

/-- A step of a node's run reports the blocks the node has after it. -/
def liveStep (genesisTime : UInt64) (validators : Validators) (event : NodeEvent) (self : Node) :
    List Block × Node :=
  ((live genesisTime validators event self).holds,live genesisTime validators event self)

end

end Devnet.Chain
