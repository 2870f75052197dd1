import Devnet.Chain.Status

/-!
The consensus loop: one task that drains gossip, runs the duties of a tick and then ticks the
engine. The loop counts its own ticks, from zero at each start; the engine's clock starts at
the slot of its anchor. Sync shares the service and may import a block between any two calls.
-/

set_option autoImplicit false

namespace Devnet.Node
open Machine Devnet.Types Devnet.Ssz Devnet.Protocol Devnet.ForkChoice Devnet.Engine
  Devnet.Storage Devnet.Duties Devnet.Chain

/-- The validators this node owns, a set without an order of its own, and the size of the
registry. -/
structure LocalProposers where
  owned : List ValidatorIndex
  totalValidators : Nat

def LocalProposers.proposerForSlot (self : LocalProposers) (slot : Slot) : Option ValidatorIndex :=
  if self.totalValidators = 0 then none
  else
    let proposer : ValidatorIndex :=
      ⟨slot.get%self.totalValidators,Nat.lt_of_le_of_lt (Nat.mod_le _ _) slot.isLt⟩
    if proposer ∈ self.owned then some proposer else none

/-- All of them but the slot's proposer, whose vote is in its block. -/
def LocalProposers.attestersForSlot (self : LocalProposers) (slot : Slot) : List ValidatorIndex :=
  self.owned.filter fun validator => decide (some validator ≠ self.proposerForSlot slot)

def voteDueInterval : Nat := intervalsPerSlot/2

def slotIntervalAt (tickIndex : Fin (2^64)) : Slot × Nat :=
  (⟨tickIndex/intervalsPerSlot,Nat.lt_of_le_of_lt (Nat.div_le_self _ _) tickIndex.isLt⟩,
    tickIndex%intervalsPerSlot)

def saturatingSucc (tick : Fin (2^64)) : Fin (2^64) :=
  if h : tick.val+1 < 2^64 then ⟨tick.val+1,h⟩ else tick

/-- A block handed to the service, with the verifier of the engine and what the backend
answers when the block comes to be saved. -/
structure Delivery where
  verifier : Option Verifier
  signed : SignedBlockWithAttestation
  fault : Fault

structure Turn where
  backfill : List Delivery
  signer : AttestationSigner

/-- All that a tick depends on besides the runner: what sync and gossip bring, who signs, and
in which order the attesters get the engine. One that times out before has no turn. -/
structure Round where
  backfill : List Delivery
  blocks : List Delivery
  votes : List SignedAttestation
  order : IterationOrder SignedAttestation
  signer : AttestationSigner
  fault : Fault
  attesters : IterationOrder ValidatorIndex
  turn : ValidatorIndex → Option Turn

structure Runner where
  chain : Service
  proposers : LocalProposers
  tick : Fin (2^64)
  hasProposal : Bool

def Runner.start (chain : Service) (proposers : LocalProposers) : Runner :=
  ⟨chain,proposers,0,false⟩

/-- The slot and interval a tick runs its duties for, and the engine's clock as each of them
reads it. -/
structure Beat where
  duty : Slot × Nat
  clock : List (Nat × Nat)

def clockOf (chain : Service) : Nat × Nat :=
  (chain.engine.currentSlot,chain.engine.currentInterval)

section
variable [HashPair]

def backfilled (deliveries : List Delivery) (chain : Service) : Service :=
  performAll (deliveries.map fun d => .importBlock d.verifier d.signed .skip d.fault) chain

def drainGossip (round : Round) (chain : Service) : Service :=
  performAll (round.blocks.map (fun d => .importBlock d.verifier d.signed .enforce d.fault) ++
    round.votes.map .importAttestation) chain

/-- Whether a block was produced; a failure to publish it does not count. -/
def maybePropose (proposers : LocalProposers) (round : Round) (slot : Slot) (chain : Service) :
    Bool × Service :=
  match proposers.proposerForSlot slot with
  | none => (false,chain)
  | some validator =>
    ((success (produceBlock round.order slot validator round.signer round.fault) chain).isSome,
      perform (.produceBlock round.order slot validator round.signer round.fault) chain)

def attestOne (slot : Slot) (duty : ValidatorIndex × Turn) (chain : Service) :
    (Nat × Nat) × Service :=
  let chain := backfilled duty.2.backfill chain
  (clockOf chain,perform (.produceAttestation slot duty.1 duty.2.signer) chain)

def runAttesters (proposers : LocalProposers) (round : Round) (slot : Slot) (chain : Service) :
    List (Nat × Nat) × Service :=
  let duties := (round.attesters.arrange (proposers.attestersForSlot slot)).filterMap
    fun validator => (round.turn validator).map fun turn => (validator,turn)
  trace (attestOne slot) duties chain

/-- One tick of the loop. A tick of the engine that fails is logged and passed over. -/
def runTick (round : Round) (self : Runner) : Beat × Runner :=
  let chain := drainGossip round (backfilled round.backfill self.chain)
  let (slot,interval) := slotIntervalAt self.tick
  if interval = 0 then
    let (hasProposal,proposed) := maybePropose self.proposers round slot chain
    (⟨(slot,interval),[clockOf chain]⟩,
      { self with
        chain := perform (.tickInterval hasProposal) proposed
        tick := saturatingSucc self.tick
        hasProposal := hasProposal })
  else if interval = voteDueInterval then
    let (clock,attested) := runAttesters self.proposers round slot chain
    (⟨(slot,interval),clock⟩,
      { self with
        chain := perform (.tickInterval self.hasProposal) attested
        tick := saturatingSucc self.tick })
  else
    (⟨(slot,interval),[]⟩,
      { self with
        chain := perform (.tickInterval self.hasProposal) chain
        tick := saturatingSucc self.tick })

theorem sameClock_perform {call : NodeEvent} (h : ∀ hasProposal, call ≠ .tickInterval hasProposal)
    (chain : Service) : SameClock chain.engine (perform call chain).engine := by
  obtain ⟨events,hengine,hcauses⟩ := engine_perform call chain
  rw [hengine]
  refine sameClock_drive ?_ chain.engine
  rintro e he hasProposal rfl
  have htick := hcauses _ he
  cases call with
  | tickInterval hasProposal' => exact h hasProposal' rfl
  | _ => simp [NodeEvent.Causes] at htick

theorem sameClock_performAll {calls : List NodeEvent}
    (h : ∀ call ∈ calls, ∀ hasProposal, call ≠ .tickInterval hasProposal) (chain : Service) :
    SameClock chain.engine (performAll calls chain).engine := by
  induction calls generalizing chain with
  | nil => rfl
  | cons call rest ih =>
    have hfirst := sameClock_perform (h call List.mem_cons_self) chain
    exact hfirst.trans (ih (fun c hc => h c (List.mem_cons_of_mem _ hc)) _)

theorem sameClock_backfilled (deliveries : List Delivery) (chain : Service) :
    SameClock chain.engine (backfilled deliveries chain).engine :=
  sameClock_performAll (by simp) chain

theorem sameClock_drainGossip (round : Round) (chain : Service) :
    SameClock chain.engine (drainGossip round chain).engine := by
  refine sameClock_performAll ?_ chain
  intro call hcall hasProposal
  rcases List.mem_append.mp hcall with hblock | hvote
  · obtain ⟨d,-,rfl⟩ := List.mem_map.mp hblock
    simp
  · obtain ⟨vote,-,rfl⟩ := List.mem_map.mp hvote
    simp

theorem sameClock_maybePropose (proposers : LocalProposers) (round : Round) (slot : Slot)
    (chain : Service) :
    SameClock chain.engine (maybePropose proposers round slot chain).2.engine := by
  unfold maybePropose
  split
  · rfl
  · exact sameClock_perform (by simp) chain

omit [HashPair] in
theorem clockOf_of_sameClock {chain later : Service} (h : SameClock chain.engine later.engine) :
    clockOf later = clockOf chain := by
  rw [SameClock] at h
  simp only [clockOf,Store.currentSlot,Store.currentInterval,h]

theorem clock_attesters (slot : Slot) (duties : List (ValidatorIndex × Turn)) (chain : Service) :
    SameClock chain.engine (trace (attestOne slot) duties chain).2.engine ∧
      ∀ reading ∈ (trace (attestOne slot) duties chain).1, reading = clockOf chain := by
  induction duties generalizing chain with
  | nil => exact ⟨rfl,by simp [trace]⟩
  | cons duty rest ih =>
    have hbackfill := sameClock_backfilled duty.2.backfill chain
    have hattest : SameClock chain.engine (attestOne slot duty chain).2.engine :=
      hbackfill.trans (sameClock_perform (by simp) _)
    obtain ⟨hrest,hreadings⟩ := ih (attestOne slot duty chain).2
    refine ⟨hattest.trans hrest,?_⟩
    intro reading hreading
    rcases List.mem_cons.mp hreading with rfl | hreading
    · exact clockOf_of_sameClock hbackfill
    · exact (hreadings reading hreading).trans (clockOf_of_sameClock hattest)

theorem time_tick (hasProposal : Bool) (chain : Service) :
    (perform (.tickInterval hasProposal) chain).engine.time = chain.engine.time.next := by
  rw [perform,Chain.tickInterval,after_onEngine,after_adaptExcept]
  exact time_tickInterval hasProposal chain.engine

theorem runTick_clocks (round : Round) (self : Runner) :
    (runTick round self).1.duty = slotIntervalAt self.tick ∧
    (∀ reading ∈ (runTick round self).1.clock, reading = clockOf self.chain) ∧
    (runTick round self).2.tick = saturatingSucc self.tick ∧
    (runTick round self).2.chain.engine.time = self.chain.engine.time.next := by
  have hdrained : SameClock self.chain.engine
      (drainGossip round (backfilled round.backfill self.chain)).engine :=
    (sameClock_backfilled _ _).trans (sameClock_drainGossip _ _)
  have hticked : ∀ {chain : Service} (hasProposal : Bool),
      SameClock self.chain.engine chain.engine →
      (perform (.tickInterval hasProposal) chain).engine.time = self.chain.engine.time.next := by
    intro chain hasProposal hsame
    rw [time_tick,hsame]
  unfold runTick
  dsimp only
  split
  · refine ⟨rfl,?_,rfl,hticked _ (hdrained.trans (sameClock_maybePropose _ _ _ _))⟩
    intro reading hreading
    rw [List.mem_singleton.mp hreading]
    exact clockOf_of_sameClock hdrained
  · split
    · obtain ⟨hsame,hreadings⟩ := clock_attesters (slotIntervalAt self.tick).1
        ((round.attesters.arrange (self.proposers.attestersForSlot (slotIntervalAt self.tick).1)).filterMap
          fun validator => (round.turn validator).map fun turn => (validator,turn))
        (drainGossip round (backfilled round.backfill self.chain))
      refine ⟨rfl,?_,rfl,hticked _ (hdrained.trans hsame)⟩
      intro reading hreading
      exact (hreadings reading hreading).trans (clockOf_of_sameClock hdrained)
    · exact ⟨rfl,by simp,rfl,hticked _ hdrained⟩

def Runner.InStep (self : Runner) : Prop := self.tick.val = self.chain.engine.time.get

theorem Runner.InStep.next {self : Runner} (h : self.InStep) (round : Round) :
    (runTick round self).2.InStep := by
  obtain ⟨-,-,htick,htime⟩ := runTick_clocks round self
  rw [InStep] at h ⊢
  rw [htick,htime,Time.get_next,← h,saturatingSucc]
  have hlt := self.tick.isLt
  split
  · simp only
    omega
  · omega

def Beat.Agrees (self : Beat) : Prop :=
  ∀ reading ∈ self.clock, reading = (self.duty.1.get,self.duty.2)

theorem Runner.InStep.agrees {self : Runner} (h : self.InStep) (round : Round) :
    (runTick round self).1.Agrees := by
  obtain ⟨hduty,hreadings,-,-⟩ := runTick_clocks round self
  intro reading hreading
  rw [hreadings reading hreading,hduty]
  rw [InStep] at h
  simp only [clockOf,slotIntervalAt,Store.currentSlot,Store.currentInterval,Time.slot,Time.interval,h]

theorem agrees_of_inStep {self : Runner} (h : self.InStep) (rounds : List Round) :
    ∀ beat ∈ (trace runTick rounds self).1, beat.Agrees := by
  induction rounds generalizing self with
  | nil => simp [trace]
  | cons round rest ih =>
    intro beat hbeat
    rcases List.mem_cons.mp hbeat with rfl | hbeat
    · exact h.agrees round
    · exact ih (h.next round) beat hbeat

theorem first_beat (chain : Service) (proposers : LocalProposers) (round : Round) :
    (runTick round (.start chain proposers)).1.Agrees ↔ chain.engine.time.get = 0 := by
  constructor
  · intro h
    obtain ⟨hduty,hreadings,-,-⟩ := runTick_clocks round (.start chain proposers)
    have hread : ∀ reading ∈ (runTick round (.start chain proposers)).1.clock,
        reading = (0,0) := by
      have hfirst : slotIntervalAt 0 = (Slot.zero,0) := by decide
      rw [Beat.Agrees,hduty,Runner.start,hfirst] at h
      exact h
    have hclock : clockOf (drainGossip round (backfilled round.backfill chain)) ∈
        (runTick round (.start chain proposers)).1.clock := List.mem_singleton_self _
    have hzero := (hreadings _ hclock).symm.trans (hread _ hclock)
    obtain ⟨hslot,hinterval⟩ := Prod.mk.inj hzero
    simp only [Runner.start,Store.currentSlot,Store.currentInterval,Time.slot,Time.interval,
      intervalsPerSlot] at hslot hinterval
    omega
  · intro h
    have hstep : (Runner.start chain proposers).InStep := h.symm
    exact hstep.agrees round

def startBlock (faults : StartFaults) (genesisBlock : Block) (store : RedbStore) : Block :=
  match resumeAnchor faults store with
  | .ok (some (_,_,block)) => block
  | _ => genesisBlock

theorem time_buildEngine {faults : StartFaults} {genesisState : State} {genesisBlock : Block}
    {store store' : RedbStore} {engine : Store}
    (h : buildEngine faults genesisState genesisBlock store = .ok engine store') :
    engine.time.get = (startBlock faults genesisBlock store).slot.get*intervalsPerSlot := by
  rcases buildEngine_ok h with ⟨root,state,block,hread,hopen,-,-⟩ | ⟨hread,hopen,-⟩
  · rw [startBlock,hread]
    exact time_seedAnchor hopen
  · rw [startBlock,hread]
    exact time_seedAnchor hopen

/-- The loop and the engine agree on slot and interval at every tick exactly when the engine's
clock stands at zero as the loop starts. On an engine that has just come up it does exactly
when the anchor is at slot 0. -/
theorem driver_clock_agrees (chain : Service) (proposers : LocalProposers) {rounds : List Round}
    (hrounds : rounds ≠ []) :
    ((∀ beat ∈ (trace runTick rounds (.start chain proposers)).1, beat.Agrees) ↔
      chain.engine.time.get = 0) ∧
    ∀ {faults genesisState genesisBlock store},
      buildEngine faults genesisState genesisBlock store = .ok chain.engine chain.store →
      (chain.engine.time.get = 0 ↔ (startBlock faults genesisBlock store).slot = Slot.zero) := by
  constructor
  · constructor
    · intro h
      cases rounds with
      | nil => exact absurd rfl hrounds
      | cons round rest => exact (first_beat chain proposers round).mp (h _ List.mem_cons_self)
    · intro hzero
      have hstep : (Runner.start chain proposers).InStep := hzero.symm
      exact agrees_of_inStep hstep rounds
  · intro faults genesisState genesisBlock store hbuild
    rw [time_buildEngine hbuild]
    constructor
    · intro hzero
      simp only [intervalsPerSlot] at hzero
      exact Slot.ext_get (by simp only [Slot.zero]; omega)
    · intro hslot
      simp [hslot,Slot.zero]

end

section
attribute [local instance] mixPair

def quiet : Round := ⟨[],[],[],default,willing,none,default,fun _ => some ⟨[],willing⟩⟩

def soloProposers : LocalProposers := ⟨[default],1⟩

theorem driver_clock_agrees_genesis :
    soloService.engine.time.get = 0 ∧
    ∀ beat ∈ (trace runTick [quiet,quiet,quiet,quiet,quiet] (.start soloService soloProposers)).1,
      beat.Agrees := by
  have hzero : soloService.engine.time.get = 0 := rfl
  exact ⟨hzero,(driver_clock_agrees soloService soloProposers (by simp)).1.mpr hzero⟩

/-- The loop runs its first duties for slot 0, on an engine that is in slot 1. -/
theorem driver_clock_behind : ∃ engine, (lived returning).2.engine = some engine ∧
    (trace runTick [quiet] (.start ⟨engine,(lived returning).2.store⟩ soloProposers)).1.map
      (fun beat => (beat.duty,beat.clock)) = [((Slot.zero,0),[(1,0)])] := by
  have hdecide : ∃ engine ∈ (lived returning).2.engine,
      (trace runTick [quiet] (.start ⟨engine,(lived returning).2.store⟩ soloProposers)).1.map
        (fun beat => (beat.duty,beat.clock)) = [((Slot.zero,0),[(1,0)])] := by decide +kernel
  exact hdecide

end

end Devnet.Node
