import Devnet.Chain.Service
import Devnet.Engine.Ladder
import Devnet.Lib.Registers

/-!
Calls of the service side by side. A call that tracks a block captures what is to be saved
while it holds the engine lock, and saves it after the lock is released; a proposal is signed
and its vote imported in between. Any other call may come in at each of these points.
-/

set_option autoImplicit false

namespace Devnet.Chain
open Machine Registers Devnet.Types Devnet.Ssz Devnet.Protocol Devnet.ForkChoice Devnet.Engine
  Devnet.Storage Devnet.Duties

inductive Stage where
  | signing (validator : ValidatorIndex) (prod : UnsignedProduction) (inputs : PersistInputs)
  | voting (vote : SignedAttestation) (plan : PersistPlan)
  | persisting (plan : PersistPlan)

def Stage.info : Stage → HeadInfo
  | .signing _ _ inputs => ⟨inputs.head,inputs.finalized⟩
  | .voting _ plan => ⟨plan.head,plan.finalized⟩
  | .persisting plan => ⟨plan.head,plan.finalized⟩

/-- The service, and the calls under way in the order of their engine steps. -/
structure Tasks where
  service : Service
  stages : List Stage

inductive Move where
  | importBlock (verifier : Option Verifier) (signed : SignedBlockWithAttestation)
      (policy : VerifyPolicy)
  | produceBlock (order : IterationOrder SignedAttestation) (slot : Slot)
      (validator : ValidatorIndex)
  | sign (i : Nat) (signer : AttestationSigner)
  | vote (i : Nat)
  | persist (i : Nat) (fault : Fault)
  /-- A call that saves nothing: a vote or a tick. -/
  | engine (e : Event)

structure Report where
  captured : Option HeadInfo
  failed : Bool

def Report.quiet : Report := ⟨none,false⟩
def Report.error : Report := ⟨none,true⟩

def Tasks.join (self : Tasks) (engine : Store) (stage : Stage) : Report × Tasks :=
  (⟨some stage.info,false⟩,⟨{ self.service with engine := engine },self.stages ++ [stage]⟩)

def Tasks.leave (self : Tasks) (engine : Store) (report : Report) : Report × Tasks :=
  (report,{ self with service := { self.service with engine := engine } })

theorem map_info_set {stages : List Stage} {i : Nat} {old new : Stage}
    (hold : stages[i]? = some old) (hinfo : new.info = old.info) :
    (stages.set i new).map Stage.info = stages.map Stage.info := by
  apply List.ext_getElem?
  intro j
  by_cases hj : i = j
  · subst hj
    obtain ⟨hlt,rfl⟩ := List.getElem?_eq_some_iff.mp hold
    simp [hinfo,hlt]
  · simp [List.getElem?_set_ne hj]

section
variable [HashPair]

/-- A move of a call that is not at that point does nothing. -/
def move : Move → Tasks → Report × Tasks
  | .importBlock verifier signed policy, self =>
    let ((outcome,plan),engine) :=
      importBlockCapturingInner verifier signed policy self.service.engine
    match outcome.isAccepted, plan with
    | false, _ => self.leave engine .quiet
    | true, none => self.leave engine .error
    | true, some plan => self.join engine (.persisting plan)
  | .produceBlock order slot validator, self =>
    match produceBlockUnsigned order slot validator self.service.engine with
    | .error _ engine => self.leave engine .error
    | .ok prod engine =>
      match prod.persist with
      | none => self.leave engine .error
      | some inputs => self.join engine (.signing validator prod inputs)
  | .sign i signer, self =>
    match self.stages[i]? with
    | some (.signing validator prod inputs) =>
      let proposerAttestation : Attestation := ⟨validator,prod.proposerVote.vote⟩
      match signer proposerAttestation with
      | .error _ => (.error,⟨self.service,self.stages.eraseIdx i⟩)
      | .ok signature =>
        let plan := planFor prod inputs (proposal prod.block proposerAttestation signature)
        (.quiet,⟨self.service,
          self.stages.set i (.voting ⟨proposerAttestation,signature⟩ plan)⟩)
    | _ => (.quiet,self)
  | .vote i, self =>
    match self.stages[i]? with
    | some (.voting vote plan) =>
      (.quiet,⟨after (importAttestation vote) self.service,self.stages.set i (.persisting plan)⟩)
    | _ => (.quiet,self)
  | .persist i fault, self =>
    match self.stages[i]? with
    | some (.persisting plan) =>
      match persistPlan fault plan self.service with
      | .ok _ service => (.quiet,⟨service,self.stages.eraseIdx i⟩)
      | .error _ service => (.error,⟨service,self.stages.eraseIdx i⟩)
    | _ => (.quiet,self)
  | .engine e, self => self.leave (handle e self.service.engine) .quiet

def Moves (self : Tasks) (mv : Move) (report : Report) (t : Tasks) : Prop :=
  move mv self = (report,t)

/-- A call saves when no call with an earlier engine step has still to save. -/
def Move.InTurn : Move → Prop
  | .persist i _ => i = 0
  | _ => True

/-- The head row as a register, and what the calls under way will write to it. -/
def Tasks.register (self : Tasks) : Register HeadInfo :=
  ⟨self.service.store.head,self.stages.map Stage.info⟩

theorem move_register {self t : Tasks} {mv : Move} {report : Report} (h : Moves self mv report t)
    (hturn : mv.InTurn) (hok : report.failed = false) :
    (t.register = self.register ∧ report.captured = none) ∨
      ∃ turn, OrderedStep self.register turn report.captured.toList t.register := by
  have hquiet : ∀ {t'}, (Report.quiet,t') = (report,t) → t'.register = self.register →
      t.register = self.register ∧ report.captured = none := by
    intro t' heq hsame
    obtain ⟨rfl,rfl⟩ := Prod.mk.inj heq
    exact ⟨hsame,rfl⟩
  have hfails : ∀ {t'}, (Report.error,t') ≠ (report,t) := by
    intro t' heq
    obtain ⟨rfl,-⟩ := Prod.mk.inj heq
    cases hok
  have hjoin : ∀ {engine stage}, self.join engine stage = (report,t) →
      ∃ turn, OrderedStep self.register turn report.captured.toList t.register := by
    intro engine stage heq
    obtain ⟨rfl,rfl⟩ := Prod.mk.inj heq
    have htake := Step.take self.register stage.info
    exact ⟨.take,trivial,by simpa [Tasks.register] using htake⟩
  unfold Moves at h
  cases mv with
  | importBlock verifier signed policy =>
    simp only [move] at h
    split at h
    · exact .inl (hquiet h rfl)
    · exact absurd h hfails
    · exact .inr (hjoin h)
  | produceBlock order slot validator =>
    simp only [move] at h
    split at h
    · exact absurd h hfails
    · split at h
      · exact absurd h hfails
      · exact .inr (hjoin h)
  | sign i signer =>
    simp only [move] at h
    split at h
    · next hstage =>
      split at h
      · exact absurd h hfails
      · exact .inl (hquiet h (congrArg (Register.mk _) (map_info_set hstage (by rfl))))
    · exact .inl (hquiet h rfl)
  | vote i =>
    simp only [move] at h
    split at h
    · next hstage =>
      exact .inl (hquiet h (congrArg (Register.mk _) (map_info_set hstage (by rfl))))
    · exact .inl (hquiet h rfl)
  | persist i fault =>
    obtain rfl : i = 0 := hturn
    simp only [move] at h
    split at h
    · next plan hstage =>
      cases fault with
      | some e => exact absurd h hfails
      | none =>
        obtain ⟨rfl,rfl⟩ := Prod.mk.inj h
        have hpending : self.register.pending[0]? = some ⟨plan.head,plan.finalized⟩ := by
          simp [Tasks.register,hstage,Stage.info]
        have hwrite := Step.write hpending
        refine .inr ⟨.write 0,rfl,?_⟩
        simpa [Tasks.register,Report.quiet,saved,RedbStore.putAccepted] using hwrite
    · exact .inl (hquiet h rfl)
  | engine e => exact .inl (hquiet h rfl)

/-- Whatever calls run side by side, once they have all succeeded the head row is what the
last of them in lock order captured, if no call saves before one that came earlier. -/
theorem last_capture_persisted {self : Service} {moves : List Move} {reports : List Report}
    {t : Tasks} (hrun : Run Moves ⟨self,[]⟩ moves reports t) (hdone : t.stages = [])
    (hok : ∀ report ∈ reports, report.failed = false) (hturn : ∀ mv ∈ moves, mv.InTurn)
    {info : HeadInfo} (hlast : (reports.filterMap Report.captured).getLast? = some info) :
    t.service.store.head = some info := by
  have hregister : ∃ turns outs, Run OrderedStep (Tasks.mk self []).register turns outs t.register ∧
      outs.flatten = reports.filterMap Report.captured := by
    refine hrun.invariant (fun moves reports t => (∀ report ∈ reports, report.failed = false) →
      (∀ mv ∈ moves, mv.InTurn) → ∃ turns outs,
        Run OrderedStep (Tasks.mk self []).register turns outs t.register ∧
        outs.flatten = reports.filterMap Report.captured) ?_ ?_ hok hturn
    · exact fun _ _ => ⟨[],[],Run.nil _,rfl⟩
    · intro moves reports m mv report n _ ih hstep hok hturn
      obtain ⟨turns,outs,hturns,houts⟩ := ih (fun r hr => hok r (by simp [hr]))
        (fun mv hmv => hturn mv (by simp [hmv]))
      rcases move_register hstep (hturn mv (by simp)) (hok report (by simp)) with
        ⟨hsame,hnone⟩ | ⟨turn,hregister⟩
      · exact ⟨turns,outs,hsame ▸ hturns,by simp [houts,hnone]⟩
      · refine ⟨turns ++ [turn],outs ++ [report.captured.toList],hturns.snoc hregister,?_⟩
        rw [List.flatten_append,houts,List.filterMap_append]
        cases hcaptured : report.captured with
        | none => simp [hcaptured]
        | some info => simp [hcaptured]
  obtain ⟨turns,outs,hturns,houts⟩ := hregister
  have hvalue := last_wins hturns rfl (by simp [Tasks.register,hdone])
  rw [houts,List.getLast?_append,hlast] at hvalue
  exact hvalue

theorem moves_importCapturing (verifier : Option Verifier) (signed : SignedBlockWithAttestation)
    (policy : VerifyPolicy) (fault : Fault) (self : Service) :
    (trace move [.importBlock verifier signed policy,.persist 0 fault] ⟨self,[]⟩).2 =
      ⟨after (importCapturing verifier signed policy fault) self,[]⟩ := by
  obtain ⟨outcome,plan,engine,hrun,⟨hout,heq⟩ | ⟨hout,⟨root,rfl,heq⟩ | ⟨captured,rfl,heq⟩⟩⟩ :=
    importCapturing_cases self verifier signed policy fault
  · rw [after_of_ok heq]
    simp [trace,move,hrun,hout,Tasks.leave]
  · rw [after_of_error heq]
    simp [trace,move,hrun,hout,Tasks.leave]
  · rw [after,heq,← after,after_bind_pure]
    cases fault with
    | none =>
      simp [trace,move,hrun,hout,Tasks.join]
      rfl
    | some e =>
      simp [trace,move,hrun,hout,Tasks.join]
      rfl

theorem moves_produceBlock (order : IterationOrder SignedAttestation) (slot : Slot)
    (validator : ValidatorIndex) (signer : AttestationSigner) (fault : Fault) (self : Service) :
    (trace move [.produceBlock order slot validator,.sign 0 signer,.vote 0,.persist 0 fault]
      ⟨self,[]⟩).2 = ⟨after (produceBlock order slot validator signer fault) self,[]⟩ := by
  rcases produceBlock_cases self order slot validator signer fault with
    ⟨e,engine,hrun,heq⟩ | ⟨prod,engine,hrun,⟨hnone,heq⟩ | ⟨inputs,hsome,⟨e,hsign,heq⟩ |
      ⟨signature,hsign,heq⟩⟩⟩
  · rw [after_of_error heq]
    simp [trace,move,hrun,Tasks.leave]
  · rw [after_of_error heq]
    simp [trace,move,hrun,hnone,Tasks.leave]
  · rw [after_of_error heq]
    simp [trace,move,hrun,hsome,hsign,Tasks.join]
  · rw [after,heq,← after,after_bind_pure]
    cases fault with
    | none =>
      simp [trace,move,hrun,hsome,hsign,Tasks.join]
      rfl
    | some e =>
      simp [trace,move,hrun,hsome,hsign,Tasks.join]
      rfl

end

section
attribute [local instance] mixPair

def envelope1 : SignedBlockWithAttestation := ⟨⟨mint soloStore genesisPoint.root 1 [],default⟩,[]⟩
def envelope2 : SignedBlockWithAttestation := ⟨⟨mint line1 (tip line1).root 2 [],default⟩,[]⟩

def overlapping (first second : Nat) : List Move :=
  [.importBlock none envelope1 .enforce,.importBlock none envelope2 .skip,.persist first none,
    .persist second none]

def overlapped (first second : Nat) : List Report × Tasks :=
  trace move (overlapping first second) ⟨⟨soloStore,RedbStore.empty⟩,[]⟩

theorem run_overlapped (first second : Nat) :
    Run Moves ⟨⟨soloStore,RedbStore.empty⟩,[]⟩ (overlapping first second)
      (overlapped first second).1 (overlapped first second).2 := run_trace move _ _

theorem last_capture_persisted_overlapped :
    ∃ info, ((overlapped 0 0).1.filterMap Report.captured).getLast? = some info ∧
      info.head.slot = Slot.ofNat 2 ∧ (overlapped 0 0).2.service.store.head = some info := by
  obtain ⟨hsome,hdone,hok⟩ :
      (∃ info ∈ ((overlapped 0 0).1.filterMap Report.captured).getLast?,
        info.head.slot = Slot.ofNat 2) ∧
      (overlapped 0 0).2.stages.isEmpty = true ∧
      ∀ report ∈ (overlapped 0 0).1, report.failed = false := by decide +kernel
  obtain ⟨info,hinfo,hslot⟩ := hsome
  refine ⟨info,hinfo,hslot,?_⟩
  refine last_capture_persisted (run_overlapped 0 0) (List.isEmpty_iff.mp hdone) hok ?_ hinfo
  simp [overlapping,Move.InTurn]

/-- The second caller overtakes the first, and the head row falls back to the first block. -/
theorem head_update_lost :
    ∃ reports t, Run Moves ⟨⟨soloStore,RedbStore.empty⟩,[]⟩ (overlapping 1 0) reports t ∧
      t.stages = [] ∧ (∀ report ∈ reports, report.failed = false) ∧
      ∃ info, (reports.filterMap Report.captured).getLast? = some info ∧
        t.service.store.head ≠ some info := by
  obtain ⟨hdone,hok,hinfo⟩ : (overlapped 1 0).2.stages.isEmpty = true ∧
      (∀ report ∈ (overlapped 1 0).1, report.failed = false) ∧
      ∃ info ∈ ((overlapped 1 0).1.filterMap Report.captured).getLast?,
        (overlapped 1 0).2.service.store.head ≠ some info := by decide +kernel
  exact ⟨_,_,run_overlapped 1 0,List.isEmpty_iff.mp hdone,hok,hinfo⟩

end

end Devnet.Chain
