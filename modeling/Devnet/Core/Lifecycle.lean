import Devnet.Lib.Effects
import Devnet.Lib.Nesting
import Devnet.Lib.Run

/-!
Start and stop of a node. Each call holds the lock of the state only for a moment and awaits
the services without it, so calls interleave at every await. A start fills the state with an
empty list when it begins and with the services it started when it is done.
-/

set_option autoImplicit false

namespace Devnet.Core
open Machine

inductive ServiceName where
  | chain
  | p2p
  | sync
  | duties
  | http
  | metrics
  deriving DecidableEq

def slotOrder : List ServiceName := [.chain,.p2p,.sync,.duties,.http,.metrics]

def orderedSlots (wired : ServiceName → Bool) : List ServiceName := slotOrder.filter wired

theorem nodup_orderedSlots (wired : ServiceName → Bool) : (orderedSlots wired).Nodup := by
  have horder : slotOrder.Nodup := by decide
  exact horder.filter _

structure ServiceFailure where
  service : ServiceName
  source : String
  deriving DecidableEq

inductive NodeError where
  | alreadyStarted
  | startFailed (failure : ServiceFailure)
  | stopFailed (failure : ServiceFailure)
  deriving DecidableEq

/-- What the services see: the calls, and the starts that came back with an error. -/
inductive Call where
  | start (service : ServiceName)
  | startFailed (service : ServiceName)
  | stop (service : ServiceName)
  deriving DecidableEq

/-- A service is up from a start that does not fail until it is asked to stop. -/
def Call.bracket : Call → Bracket ServiceName
  | .start service => .push service
  | .startFailed service => .pop service
  | .stop service => .pop service

/-- `stop_services_reverse` between two awaits: the service that was asked and has not answered
yet, those still to be asked, the first failure. -/
structure Sweep where
  asked : Option ServiceName
  left : List ServiceName
  firstError : Option ServiceFailure
  deriving DecidableEq

def Sweep.reverse (services : List ServiceName) : Sweep := ⟨none,services.reverse,none⟩

def failureOf (service : ServiceName) : Except String Unit → Option ServiceFailure
  | .ok _ => none
  | .error source => some ⟨service,source⟩

/-- `None` at the end. A deadline that runs out is a failure of the service. -/
def Sweep.step (outcome : Except String Unit) (self : Sweep) : Option (Sweep × List Call) :=
  match self.asked,self.left with
  | some service,_ =>
    some ({ self with
      asked := none
      firstError := self.firstError.or (failureOf service outcome) },[])
  | none,service :: left => some (⟨some service,left,self.firstError⟩,[.stop service])
  | none,[] => none

/-- Where a call of `Node::start` or `Node::stop` is. -/
inductive Phase where
  | startCalled
  | starting (started rest : List ServiceName)
  | startingService (started : List ServiceName) (service : ServiceName)
      (rest : List ServiceName)
  | unwinding (sweep : Sweep) (cause : ServiceFailure)
  | stopCalled
  | stopping (sweep : Sweep)
  | returned (result : Except NodeError Unit)
  deriving DecidableEq

namespace Phase

def isReturned : Phase → Bool
  | .returned _ => true
  | _ => false

def isStop : Phase → Bool
  | .stopCalled => true
  | .stopping _ => true
  | _ => false

def active : Phase → Bool
  | .startCalled => false
  | .stopCalled => false
  | .returned _ => false
  | _ => true

def step (wired : ServiceName → Bool) (outcome : Except String Unit)
    (state : Option (List ServiceName)) : Phase → Phase × Option (List ServiceName) × List Call
  | .startCalled =>
    match state with
    | some _ => (.returned (.error .alreadyStarted),state,[])
    | none => (.starting [] (orderedSlots wired),some [],[])
  | .starting started (service :: rest) =>
    (.startingService started service rest,state,[.start service])
  | .starting started [] => (.returned (.ok ()),some started,[])
  | .startingService started service rest =>
    match outcome with
    | .ok _ => (.starting (started ++ [service]) rest,state,[])
    | .error source =>
      (.unwinding (.reverse started) ⟨service,source⟩,state,[.startFailed service])
  | .unwinding sweep cause =>
    match sweep.step outcome with
    | some (next,calls) => (.unwinding next cause,state,calls)
    | none => (.returned (.error (.startFailed cause)),none,[])
  | .stopCalled =>
    match state with
    | some started => (.stopping (.reverse started),none,[])
    | none => (.returned (.ok ()),none,[])
  | .stopping sweep =>
    match sweep.step outcome with
    | some (next,calls) => (.stopping next,state,calls)
    | none =>
      match sweep.firstError with
      | none => (.returned (.ok ()),state,[])
      | some first => (.returned (.error (.stopFailed first)),state,[])
  | .returned result => (.returned result,state,[])

end Phase

/-- The state cell and the calls made so far. `stopped` says that a stop has returned and no
start has been called since. -/
structure World where
  state : Option (List ServiceName)
  calls : List Phase
  stopped : Bool

inductive Turn where
  | start
  | stop
  | advance (call : Nat) (outcome : Except String Unit)

namespace World

def idle : World := ⟨none,[],false⟩

def turn (wired : ServiceName → Bool) (input : Turn) (self : World) : List Call × World :=
  match input with
  | .start => ([],{ self with calls := self.calls ++ [.startCalled], stopped := false })
  | .stop => ([],{ self with calls := self.calls ++ [.stopCalled] })
  | .advance call outcome =>
    match self.calls[call]? with
    | none => ([],self)
    | some phase =>
      let (next,state,seen) := phase.step wired outcome self.state
      (seen,⟨state,self.calls.set call next,self.stopped || (phase.isStop && next.isReturned)⟩)

/-- No stop overlaps another call: a start is called while no stop is in progress, a stop while
nothing is. -/
def Serial (self : World) : Turn → Prop
  | .start => ∀ phase ∈ self.calls, phase.isStop = false
  | .stop => ∀ phase ∈ self.calls, phase.isReturned = true
  | .advance _ _ => True

instance decidableSerial (self : World) : (turn : Turn) → Decidable (self.Serial turn)
  | .start => inferInstanceAs (Decidable (∀ phase ∈ self.calls, phase.isStop = false))
  | .stop => inferInstanceAs (Decidable (∀ phase ∈ self.calls, phase.isReturned = true))
  | .advance _ _ => isTrue trivial

end World

def history (seen : List (List Call)) : List (Bracket ServiceName) :=
  seen.flatten.map Call.bracket

theorem history_concat (seen : List (List Call)) (calls : List Call) :
    history (seen ++ [calls]) = history seen ++ calls.map Call.bracket := by
  simp [history]

theorem Sweep.step_some {sweep next : Sweep} {outcome : Except String Unit} {calls : List Call}
    (h : sweep.step outcome = some (next,calls)) :
    (calls.map Call.bracket).foldlM Bracket.apply sweep.left = some next.left ∧
      next.left <:+ sweep.left := by
  unfold step at h
  split at h
  · cases h
    exact ⟨rfl,List.suffix_rfl⟩
  · next service left hasked hleft =>
    cases h
    exact ⟨by simp [hleft,Call.bracket,Bracket.apply],hleft ▸ List.suffix_cons service left⟩
  · cases h

theorem Sweep.step_none {sweep : Sweep} {outcome : Except String Unit}
    (h : sweep.step outcome = none) : sweep.left = [] := by
  unfold step at h
  split at h
  · cases h
  · cases h
  · assumption

/-- What an active call knows, as long as it is the only one: the state it left and the
services that are up. -/
def Phase.Holds (wired : ServiceName → Bool) (state : Option (List ServiceName))
    (up : List ServiceName) : Phase → Prop
  | .starting started rest =>
    state = some [] ∧ up = started.reverse ∧ started ++ rest = orderedSlots wired
  | .startingService started service rest =>
    state = some [] ∧ up = service :: started.reverse ∧
      started ++ service :: rest = orderedSlots wired
  | .unwinding sweep _ => state = some [] ∧ up = sweep.left
  | .stopping sweep => state = none ∧ up = sweep.left
  | _ => True

structure Phase.Leaves (wired : ServiceName → Bool) (state : Option (List ServiceName))
    (up : List ServiceName) (phase : Phase) : Prop where
  active : phase.active = true → phase.Holds wired state up
  returned : phase.active = false → phase.isReturned = true ∧ up = (state.getD []).reverse

theorem Phase.Leaves.running {wired : ServiceName → Bool} {state : Option (List ServiceName)}
    {up : List ServiceName} {phase : Phase} (hactive : phase.active = true)
    (hholds : phase.Holds wired state up) : phase.Leaves wired state up := by
  refine ⟨fun _ => hholds,fun h => ?_⟩
  rw [hactive] at h
  cases h

theorem Phase.Leaves.done {wired : ServiceName → Bool} {state : Option (List ServiceName)}
    {up : List ServiceName} {phase : Phase} (hreturned : phase.isReturned = true)
    (hactive : phase.active = false) (hup : up = (state.getD []).reverse) :
    phase.Leaves wired state up := by
  refine ⟨fun h => ?_,fun _ => ⟨hreturned,hup⟩⟩
  rw [hactive] at h
  cases h

theorem Phase.step_active {wired : ServiceName → Bool} {state : Option (List ServiceName)}
    {up : List ServiceName} {phase : Phase} (outcome : Except String Unit)
    (hactive : phase.active = true) (hholds : phase.Holds wired state up) :
    ∃ next, ((phase.step wired outcome state).2.2.map Call.bracket).foldlM Bracket.apply up =
        some next ∧
      (phase.step wired outcome state).1.Leaves wired (phase.step wired outcome state).2.1 next ∧
      ((phase.step wired outcome state).1.isReturned = false →
        (phase.step wired outcome state).1.isStop = phase.isStop) ∧
      (phase.isStop = true → up = [] ∨ (phase.step wired outcome state).1.isReturned = true →
        next = []) := by
  cases phase with
  | startCalled => cases hactive
  | stopCalled => cases hactive
  | returned result => cases hactive
  | starting started rest =>
    obtain ⟨hstate,rfl,hslots⟩ := hholds
    cases rest with
    | nil =>
      exact ⟨started.reverse,rfl,.done rfl rfl rfl,fun h => (by cases h),fun h => (by cases h)⟩
    | cons service rest =>
      have hnew : service ∉ started := by
        have hnodup := nodup_orderedSlots wired
        rw [← hslots,List.nodup_append] at hnodup
        exact fun hin => hnodup.2.2 service hin service List.mem_cons_self rfl
      refine ⟨service :: started.reverse,?_,.running rfl ⟨hstate,rfl,hslots⟩,fun _ => rfl,
        fun h => (by cases h)⟩
      simp [Phase.step,Call.bracket,Bracket.apply,hnew]
  | startingService started service rest =>
    obtain ⟨hstate,rfl,hslots⟩ := hholds
    cases outcome with
    | ok _ =>
      refine ⟨service :: started.reverse,rfl,.running rfl ⟨hstate,?_,?_⟩,fun _ => rfl,
        fun h => by cases h⟩
      · simp
      · rw [← hslots]
        simp
    | error source =>
      refine ⟨started.reverse,?_,.running rfl ⟨hstate,rfl⟩,fun _ => rfl,fun h => (by cases h)⟩
      simp [Phase.step,Call.bracket,Bracket.apply]
  | unwinding sweep cause =>
    obtain ⟨hstate,rfl⟩ := hholds
    cases hstep : sweep.step outcome with
    | some result =>
      obtain ⟨next,calls⟩ := result
      simp only [Phase.step,hstep]
      exact ⟨next.left,(Sweep.step_some hstep).1,.running rfl ⟨hstate,rfl⟩,fun _ => rfl,
        fun h => by cases h⟩
    | none =>
      simp only [Phase.step,hstep]
      exact ⟨sweep.left,rfl,.done rfl rfl (Sweep.step_none hstep),fun h => (by cases h),
        fun h => by cases h⟩
  | stopping sweep =>
    obtain ⟨hstate,rfl⟩ := hholds
    cases hstep : sweep.step outcome with
    | some result =>
      obtain ⟨next,calls⟩ := result
      simp only [Phase.step,hstep]
      obtain ⟨hcalls,hsuffix⟩ := Sweep.step_some hstep
      refine ⟨next.left,hcalls,.running rfl ⟨hstate,rfl⟩,fun _ => rfl,fun _ hempty => ?_⟩
      rcases hempty with hempty | hreturned
      · rw [hempty] at hsuffix
        exact List.suffix_nil.mp hsuffix
      · cases hreturned
    | none =>
      have hleft := Sweep.step_none hstep
      have hnothing : sweep.left = (state.getD []).reverse := by
        rw [hleft,hstate]
        rfl
      simp only [Phase.step,hstep]
      cases sweep.firstError with
      | none =>
        exact ⟨sweep.left,rfl,.done rfl rfl hnothing,fun h => (by cases h),fun _ _ => hleft⟩
      | some first =>
        exact ⟨sweep.left,rfl,.done rfl rfl hnothing,fun h => (by cases h),fun _ _ => hleft⟩

theorem isReturned_of_isStop {phase : Phase} (h : phase.isStop = true) :
    phase.isReturned = false := by
  cases phase <;> trivial

theorem isReturned_of_active {phase : Phase} (h : phase.active = true) :
    phase.isReturned = false := by
  cases phase <;> trivial

/-- What holds between the turns of a run, given the services that are up. -/
structure World.Sound (wired : ServiceName → Bool) (up : List ServiceName) (world : World) :
    Prop where
  alone : ∀ (i j : Nat) (p q : Phase), world.calls[i]? = some p → world.calls[j]? = some q →
    p.active = true → q.active = true → i = j
  holds : ∀ (i : Nat) (p : Phase), world.calls[i]? = some p → p.active = true →
    p.Holds wired world.state up
  resting : (∀ (i : Nat) (p : Phase), world.calls[i]? = some p → p.active = false) →
    up = (world.state.getD []).reverse
  exclusive : ∀ (i j : Nat) (p q : Phase), world.calls[i]? = some p → world.calls[j]? = some q →
    p.isStop = true → q.isReturned = false → i = j
  quiet : world.stopped = true → up = [] ∧
    ∀ (i : Nat) (p : Phase), world.calls[i]? = some p → p.isReturned = false → p.isStop = true

theorem getElem?_concat_iff {calls : List Phase} {j : Nat} {p q : Phase} :
    (calls ++ [p])[j]? = some q ↔ (j = calls.length ∧ p = q) ∨ calls[j]? = some q := by
  by_cases hj : j < calls.length
  · rw [List.getElem?_append_left hj]
    simp [Nat.ne_of_lt hj]
  · have hnone : calls[j]? = none := List.getElem?_eq_none (Nat.le_of_not_lt hj)
    rw [hnone,List.getElem?_append_right (Nat.le_of_not_lt hj)]
    by_cases hlast : j = calls.length
    · simp [hlast]
    · obtain ⟨d,hd⟩ : ∃ d, j - calls.length = d+1 := ⟨j - calls.length - 1,by omega⟩
      simp [hlast,hd]

namespace World.Sound

variable {wired : ServiceName → Bool} {world : World} {up : List ServiceName}

theorem set (h : world.Sound wired up) {i : Nat} {p next : Phase}
    {state : Option (List ServiceName)} {stopped : Bool} {up' : List ServiceName}
    (hp : world.calls[i]? = some p)
    (hothers : ∀ (j : Nat) (q : Phase), j ≠ i → world.calls[j]? = some q → q.active = false)
    (hleaves : next.Leaves wired state up')
    (hkind : next.isReturned = false → next.isStop = p.isStop) (hopen : p.isReturned = false)
    (hquiet : stopped = true → up' = [] ∧ p.isStop = true ∧
      ∀ (j : Nat) (q : Phase), j ≠ i → world.calls[j]? = some q → q.isReturned = false →
        q.isStop = true) :
    (⟨state,world.calls.set i next,stopped⟩ : World).Sound wired up' := by
  constructor
  · intro j k q r hj hk hq hr
    rcases getElem?_set_cases hj with ⟨rfl,rfl⟩ | ⟨hji,hj⟩
    · rcases getElem?_set_cases hk with ⟨rfl,rfl⟩ | ⟨hki,hk⟩
      · rfl
      · simp [hothers k r hki hk] at hr
    · simp [hothers j q hji hj] at hq
  · intro j q hj hq
    rcases getElem?_set_cases hj with ⟨rfl,rfl⟩ | ⟨hji,hj⟩
    · exact hleaves.active hq
    · simp [hothers j q hji hj] at hq
  · intro hnone
    exact (hleaves.returned (hnone i next (List.getElem?_set_self (List.getElem?_eq_some_iff.mp hp).1))).2
  · intro j k q r hj hk hq hr
    rcases getElem?_set_cases hj with ⟨rfl,rfl⟩ | ⟨hji,hold⟩
    · rcases getElem?_set_cases hk with ⟨rfl,rfl⟩ | ⟨hki,hk⟩
      · rfl
      · exact h.exclusive j k p r hp hk (hkind (isReturned_of_isStop hq) ▸ hq) hr
    · rcases getElem?_set_cases hk with ⟨rfl,rfl⟩ | ⟨hki,hk⟩
      · exact h.exclusive j k q p hold hp hq hopen
      · exact h.exclusive j k q r hold hk hq hr
  · intro hstopped
    obtain ⟨hup,hstop,hrest⟩ := hquiet hstopped
    refine ⟨hup,fun j q hj hq => ?_⟩
    rcases getElem?_set_cases hj with ⟨rfl,rfl⟩ | ⟨hji,hj⟩
    · exact (hkind hq).trans hstop
    · exact hrest j q hji hj hq

theorem others (h : world.Sound wired up) {i : Nat} {p : Phase} (hp : world.calls[i]? = some p)
    (hactive : p.active = true) (j : Nat) (q : Phase) (hji : j ≠ i)
    (hj : world.calls[j]? = some q) : q.active = false := by
  cases hq : q.active with
  | false => rfl
  | true => exact absurd (h.alone j i q p hj hp hq hactive) hji

theorem quiet_set (h : world.Sound wired up) {i : Nat} {p next : Phase} {up' : List ServiceName}
    (hp : world.calls[i]? = some p) (hopen : p.isReturned = false)
    (hempty : p.isStop = true → up = [] ∨ next.isReturned = true → up' = [])
    (hstopped : (world.stopped || (p.isStop && next.isReturned)) = true) :
    up' = [] ∧ p.isStop = true ∧ ∀ (j : Nat) (q : Phase), j ≠ i → world.calls[j]? = some q →
      q.isReturned = false → q.isStop = true := by
  rcases Bool.or_eq_true_iff.mp hstopped with hbefore | hnow
  · obtain ⟨hup,hstops⟩ := h.quiet hbefore
    have hstop := hstops i p hp hopen
    exact ⟨hempty hstop (.inl hup),hstop,fun j q _ hj hq => hstops j q hj hq⟩
  · obtain ⟨hstop,hreturned⟩ := Bool.and_eq_true_iff.mp hnow
    refine ⟨hempty hstop (.inr hreturned),hstop,fun j q hji hj hq => ?_⟩
    exact absurd (h.exclusive i j p q hp hj hstop hq).symm hji

theorem advance_active (h : world.Sound wired up) {i : Nat} {p : Phase}
    (outcome : Except String Unit) (hp : world.calls[i]? = some p) (hactive : p.active = true) :
    ∃ next, ((world.turn wired (.advance i outcome)).1.map Call.bracket).foldlM Bracket.apply up =
        some next ∧
      (world.turn wired (.advance i outcome)).2.Sound wired next := by
  obtain ⟨next,hcalls,hleaves,hkind,hempty⟩ :=
    Phase.step_active outcome hactive (h.holds i p hp hactive)
  have hopen := isReturned_of_active hactive
  simp only [World.turn,hp]
  exact ⟨next,hcalls,h.set hp (h.others hp hactive) hleaves hkind hopen
    fun hstopped => h.quiet_set hp hopen hempty hstopped⟩

theorem refuse (h : world.Sound wired up) {i : Nat} {result : Except NodeError Unit}
    (hp : world.calls[i]? = some .startCalled) :
    { world with calls := world.calls.set i (.returned result) }.Sound wired up := by
  have hold : ∀ {j : Nat} {q : Phase}, (world.calls.set i (.returned result))[j]? = some q →
      q.isReturned = false → world.calls[j]? = some q := by
    intro j q hj hq
    rcases getElem?_set_cases hj with ⟨rfl,rfl⟩ | ⟨-,hj⟩
    · cases hq
    · exact hj
  constructor
  · intro j k q r hj hk hq hr
    exact h.alone j k q r (hold hj (isReturned_of_active hq)) (hold hk (isReturned_of_active hr))
      hq hr
  · intro j q hj hq
    exact h.holds j q (hold hj (isReturned_of_active hq)) hq
  · intro hnone
    refine h.resting fun j q hj => ?_
    by_cases hji : j = i
    · subst hji
      obtain rfl : Phase.startCalled = q := Option.some.inj (hp.symm.trans hj)
      rfl
    · exact hnone j q ((List.getElem?_set_ne (Ne.symm hji)).trans hj)
  · intro j k q r hj hk hq hr
    exact h.exclusive j k q r (hold hj (isReturned_of_isStop hq)) (hold hk hr) hq hr
  · intro hstopped
    obtain ⟨hup,hstops⟩ := h.quiet hstopped
    exact ⟨hup,fun j q hj hq => hstops j q (hold hj hq) hq⟩

/-- A start finds the state empty only when no other call is past its lock. -/
theorem none_active_of_start (h : world.Sound wired up) {i : Nat}
    (hp : world.calls[i]? = some .startCalled) (hstate : world.state = none) (j : Nat) (q : Phase)
    (hj : world.calls[j]? = some q) : q.active = false := by
  cases hq : q.active with
  | false => rfl
  | true =>
    have hholds := h.holds j q hj hq
    cases q with
    | startCalled => cases hq
    | stopCalled => cases hq
    | returned result => cases hq
    | starting started rest => cases hstate.symm.trans hholds.1
    | startingService started service rest => cases hstate.symm.trans hholds.1
    | unwinding sweep cause => cases hstate.symm.trans hholds.1
    | stopping sweep =>
      obtain rfl := h.exclusive j i _ _ hj hp rfl rfl
      cases hj.symm.trans hp

theorem none_active_of_stop (h : world.Sound wired up) {i : Nat}
    (hp : world.calls[i]? = some .stopCalled) (j : Nat) (q : Phase)
    (hj : world.calls[j]? = some q) : q.active = false := by
  cases hq : q.active with
  | false => rfl
  | true =>
    obtain rfl := h.exclusive i j _ q hp hj rfl (isReturned_of_active hq)
    cases hp.symm.trans hj
    cases hq

theorem advance (h : world.Sound wired up) (i : Nat) (outcome : Except String Unit) :
    ∃ next, ((world.turn wired (.advance i outcome)).1.map Call.bracket).foldlM Bracket.apply up =
        some next ∧
      (world.turn wired (.advance i outcome)).2.Sound wired next := by
  cases hp : world.calls[i]? with
  | none =>
    simp only [World.turn,hp]
    exact ⟨up,rfl,h⟩
  | some p =>
    cases hactive : p.active with
    | true => exact h.advance_active outcome hp hactive
    | false =>
      simp only [World.turn,hp]
      cases p with
      | starting started rest => cases hactive
      | startingService started service rest => cases hactive
      | unwinding sweep cause => cases hactive
      | stopping sweep => cases hactive
      | returned result =>
        obtain ⟨hi,hget⟩ := List.getElem?_eq_some_iff.mp hp
        have hsame : world.calls.set i (.returned result) = world.calls := by
          rw [← hget]
          exact List.set_getElem_self hi
        refine ⟨up,rfl,?_⟩
        simpa [Phase.step,Phase.isStop,hsame] using h
      | startCalled =>
        cases hstate : world.state with
        | some started =>
          refine ⟨up,rfl,?_⟩
          simpa [Phase.step,Phase.isStop,← hstate] using h.refuse hp
        | none =>
          have hnone := h.none_active_of_start hp hstate
          obtain rfl : up = [] := by simpa [hstate] using h.resting hnone
          refine ⟨[],rfl,h.set hp (fun j q _ => hnone j q) (.running rfl ⟨rfl,rfl,rfl⟩)
            (fun _ => rfl) rfl fun hstopped => h.quiet_set hp rfl (fun h => (by cases h)) hstopped⟩
      | stopCalled =>
        have hnone := h.none_active_of_stop hp
        have hup := h.resting hnone
        cases hstate : world.state with
        | none =>
          rw [hstate] at hup
          exact ⟨up,rfl,h.set hp (fun j q _ => hnone j q) (.done rfl rfl hup)
            (fun h => by cases h) rfl fun hstopped => h.quiet_set hp rfl (fun _ _ => hup) hstopped⟩
        | some started =>
          rw [hstate] at hup
          refine ⟨up,rfl,h.set hp (fun j q _ => hnone j q) (.running rfl ⟨rfl,hup⟩)
            (fun _ => rfl) rfl fun hstopped => h.quiet_set hp rfl (fun _ hempty => ?_) hstopped⟩
          exact hempty.resolve_right Bool.false_ne_true

theorem callStart (h : world.Sound wired up)
    (hserial : ∀ phase ∈ world.calls, phase.isStop = false) :
    (world.turn wired .start).2.Sound wired up := by
  have hactive : ∀ {j : Nat} {q : Phase}, (world.calls ++ [.startCalled])[j]? = some q →
      q.active = true → world.calls[j]? = some q := by
    intro j q hj hq
    rcases getElem?_concat_iff.mp hj with ⟨-,rfl⟩ | hj
    · cases hq
    · exact hj
  constructor
  · intro j k q r hj hk hq hr
    exact h.alone j k q r (hactive hj hq) (hactive hk hr) hq hr
  · intro j q hj hq
    exact h.holds j q (hactive hj hq) hq
  · intro hnone
    exact h.resting fun j q hj => hnone j q (getElem?_concat_iff.mpr (.inr hj))
  · intro j k q r hj _ hq _
    rcases getElem?_concat_iff.mp hj with ⟨-,rfl⟩ | hj
    · cases hq
    · cases hq.symm.trans (hserial q (List.mem_of_getElem? hj))
  · intro hstopped
    cases hstopped

theorem callStop (h : world.Sound wired up)
    (hserial : ∀ phase ∈ world.calls, phase.isReturned = true) :
    (world.turn wired .stop).2.Sound wired up := by
  have hnew : ∀ {j : Nat} {q : Phase}, (world.calls ++ [.stopCalled])[j]? = some q →
      q.isReturned = false → j = world.calls.length ∧ q = .stopCalled := by
    intro j q hj hq
    rcases getElem?_concat_iff.mp hj with ⟨hlast,rfl⟩ | hj
    · exact ⟨hlast,rfl⟩
    · cases hq.symm.trans (hserial q (List.mem_of_getElem? hj))
  constructor
  · intro j k q r hj hk hq hr
    exact (hnew hj (isReturned_of_active hq)).1.trans (hnew hk (isReturned_of_active hr)).1.symm
  · intro j q hj hq
    obtain ⟨-,rfl⟩ := hnew hj (isReturned_of_active hq)
    cases hq
  · intro hnone
    exact h.resting fun j q hj => hnone j q (getElem?_concat_iff.mpr (.inr hj))
  · intro j k q r hj hk hq hr
    exact (hnew hj (isReturned_of_isStop hq)).1.trans (hnew hk hr).1.symm
  · intro hstopped
    refine ⟨(h.quiet hstopped).1,fun j q hj hq => ?_⟩
    obtain ⟨-,rfl⟩ := hnew hj hq
    rfl

theorem turn (h : world.Sound wired up) {input : Turn} (hserial : world.Serial input) :
    ∃ next, ((world.turn wired input).1.map Call.bracket).foldlM Bracket.apply up = some next ∧
      (world.turn wired input).2.Sound wired next := by
  cases input with
  | start => exact ⟨up,rfl,h.callStart hserial⟩
  | stop => exact ⟨up,rfl,h.callStop hserial⟩
  | advance i outcome => exact h.advance i outcome

end World.Sound

theorem World.sound_idle (wired : ServiceName → Bool) : World.idle.Sound wired [] := by
  constructor <;> simp [World.idle]

/-- In every run in which no stop overlaps another call, whatever fails: the calls each service
sees alternate, services are asked to stop in the reverse of the order they were started, and
when a stop has returned and no start was called since, nothing is up. -/
theorem lifecycle_nested {wired : ServiceName → Bool} {s : World} {inputs : List Turn}
    {seen : List (List Call)}
    (hrun : Run (fun m i o n => m.Serial i ∧ m.turn wired i = (o,n)) .idle inputs seen s) :
    Nested (history seen) ∧
      (s.stopped = true → ∀ service, ¬Pending (history seen) service) := by
  have hup : ∃ up, nesting (history seen) = some up ∧ s.Sound wired up := by
    refine hrun.invariant (fun _ seen m => ∃ up, nesting (history seen) = some up ∧
      m.Sound wired up) ⟨[],rfl,World.sound_idle wired⟩ ?_
    rintro - seen m i calls n - ⟨up,hnesting,hsound⟩ ⟨hserial,hturn⟩
    obtain ⟨next,hcalls,hnext⟩ := hsound.turn hserial
    rw [hturn] at hcalls hnext
    refine ⟨next,?_,hnext⟩
    rw [history_concat,nesting,List.foldlM_append]
    exact Option.bind_eq_some_iff.mpr ⟨up,hnesting,hcalls⟩
  obtain ⟨up,hnesting,hsound⟩ := hup
  refine ⟨nested_of_nesting hnesting,fun hstopped service hpending => ?_⟩
  have hin := ((mem_nesting hnesting).2 service).mpr hpending
  rw [(hsound.quiet hstopped).1] at hin
  cases hin

section Overlap

def pair (service : ServiceName) : Bool := decide (service = .chain ∨ service = .p2p)

def steps (call count : Nat) : List Turn := List.replicate count (.advance call (.ok ()))

def seenIn (inputs : List Turn) : List (Bracket ServiceName) :=
  history (trace (World.turn pair) inputs .idle).1

def after (inputs : List Turn) : World := (trace (World.turn pair) inputs .idle).2

def cycle : List Turn := [Turn.start] ++ steps 0 6 ++ [Turn.stop] ++ steps 1 6

theorem lifecycle_cycle :
    (Nested (seenIn cycle) ∧ ∀ service, ¬Pending (seenIn cycle) service) ∧
      seenIn cycle = [.push .chain,.push .p2p,.pop .p2p,.pop .chain] := by
  have hmeets : Meets World.Serial (World.turn pair) cycle .idle := by decide +kernel
  have hnested := lifecycle_nested (run_meets hmeets)
  exact ⟨⟨hnested.1,hnested.2 (by decide +kernel)⟩,by decide +kernel⟩

/-- A stop that comes while a start is under way finds the empty list and returns, and the start
goes on. A start that comes while a stop is under way starts services that have not been asked
to stop. A second stop returns while the first has not asked them all. -/
theorem lifecycle_overlaps :
    ((after ([Turn.start] ++ steps 0 3 ++ [Turn.stop] ++ steps 1 2 ++ steps 0 3)).stopped = true ∧
        Pending (seenIn ([Turn.start] ++ steps 0 3 ++ [Turn.stop] ++ steps 1 2 ++ steps 0 3))
          .chain) ∧
      ¬Nested (seenIn ([Turn.start] ++ steps 0 6 ++ [Turn.stop] ++ steps 1 2 ++ [Turn.start] ++
        steps 2 2)) ∧
      (after ([Turn.start] ++ steps 0 6 ++ [Turn.stop] ++ steps 1 2 ++ [Turn.stop] ++
          steps 2 1)).stopped = true ∧
        Pending (seenIn ([Turn.start] ++ steps 0 6 ++ [Turn.stop] ++ steps 1 2 ++ [Turn.stop] ++
          steps 2 1)) .chain := by
  refine ⟨by decide +kernel,fun hnested => ?_,by decide +kernel⟩
  have hseen : seenIn ([Turn.start] ++ steps 0 6 ++ [Turn.stop] ++ steps 1 2 ++ [Turn.start] ++
      steps 2 2) =
      [.push .chain,.push .p2p,.pop .p2p] ++ .push .chain :: [] := by decide +kernel
  exact hnested.opens hseen (by decide)

end Overlap

end Devnet.Core
