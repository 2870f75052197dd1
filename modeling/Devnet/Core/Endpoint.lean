import Devnet.Lib.Effects

/-!
Start and stop of a service with one task behind it: an HTTP endpoint, or the p2p host. The
state cell is locked for a moment at a time: a start awaits its listener without the lock, a
stop awaits the task, and any number of calls interleave there. All the same at most one of
them is ever past its lock, and a service has one task in its life. The node drops a stop that
its deadline finds pending.
-/

set_option autoImplicit false

namespace Devnet.Core.Endpoint
open Machine

inductive Exit where
  | ok
  | failed (err : String)
  | panicked (err : String)
  | cancelled
  deriving DecidableEq

structure Task where
  cancelled : Bool
  aborted : Bool
  exit : Option Exit
  deriving DecidableEq

namespace Task

def spawned : Task := ⟨false,false,none⟩

def cancel (self : Task) : Task := { self with cancelled := true }

def abort (self : Task) : Task := { self with aborted := true }

def finish (how : Exit) (self : Task) : Task := { self with exit := self.exit.or (some how) }

def isFinished (self : Task) : Bool := self.exit.isSome

def marks (self : Task) : Bool × Bool := (self.cancelled,self.aborted)

end Task

/-- What the services of this shape differ in: their texts, what they make of the end of their
task, whether a stop first sends the task a message, and whether it awaits a task that it has
aborted. -/
structure Kind where
  alreadyStarted : String
  notStarted : String
  stopped : String
  midTransition : String
  exited : String
  serverExit : Exit → Except String Unit
  notifies : Bool
  awaitsAbort : Bool

def handleServerExit (kind : String) : Exit → Except String Unit
  | .ok => .ok ()
  | .failed err => .error (kind ++ " server task failed: " ++ err)
  | .panicked err => .error (kind ++ " server task panicked: " ++ err)
  | .cancelled => .ok ()

def endpointServer (kind : String) : Kind where
  alreadyStarted := kind ++ " service already started"
  notStarted := kind ++ " service not started"
  stopped := kind ++ " service stopped"
  midTransition := kind ++ " service mid-transition"
  exited := kind ++ " server task exited unexpectedly"
  serverExit := handleServerExit kind
  notifies := false
  awaitsAbort := true

def swarmExit : Exit → Except String Unit
  | .panicked err => .error ("p2p swarm task panicked: " ++ err)
  | _ => .ok ()

def p2pService : Kind where
  alreadyStarted := "host service already started"
  notStarted := "p2p service not started"
  stopped := "p2p service stopped"
  midTransition := "p2p service mid-transition"
  exited := "p2p swarm task exited unexpectedly"
  serverExit := swarmExit
  notifies := true
  awaitsAbort := false

/-- The error of `stop_one` when the node's deadline fires on a pending stop. -/
def deadlineExceeded : String := "shutdown deadline exceeded"

section
variable {Addr : Type}

structure RunningServer (Addr : Type) where
  join : Nat
  boundAddr : Addr
  deriving DecidableEq

inductive State (Addr : Type) where
  | idle
  | running (server : RunningServer Addr)
  | stopped
  | transitioning
  deriving DecidableEq

namespace State

def boundAddr : State Addr → Option Addr
  | .running server => some server.boundAddr
  | _ => none

def takeIdle (kind : Kind) : State Addr → Except String Unit × State Addr
  | .idle => (.ok (),.transitioning)
  | other => (.error kind.alreadyStarted,other)

def installRunning (server : RunningServer Addr) (_ : State Addr) : State Addr := .running server

def restoreIdle (_ : State Addr) : State Addr := .idle

def takeRunning : State Addr → Option (RunningServer Addr) × State Addr
  | .running server => (some server,.stopped)
  | other => (none,other)

def status (kind : Kind) (tasks : List Task) : State Addr → Except String Unit
  | .running server =>
    if (tasks[server.join]?).any Task.isFinished = true then .error kind.exited else .ok ()
  | .idle => .error kind.notStarted
  | .stopped => .error kind.stopped
  | .transitioning => .error kind.midTransition

end State

/-- Where a call is: before its lock, at an await, or returned. A stop that returned says
whether it was the one that took the task. -/
inductive Call (Addr : Type) where
  | startCalled
  | binding
  | installing (server : RunningServer Addr)
  | started (result : Except String Unit)
  | stopCalled
  | notifying (task : Nat)
  | joining (task : Nat)
  | returned (took : Bool) (result : Except String Unit)

namespace Call

def active : Call Addr → Bool
  | .binding => true
  | .installing _ => true
  | .notifying _ => true
  | .joining _ => true
  | _ => false

def opens : Call Addr → Bool
  | .started (.ok _) => true
  | _ => false

def closes : Call Addr → Bool
  | .returned took _ => took
  | _ => false

def task : Call Addr → Option Nat
  | .installing server => some server.join
  | .notifying task => some task
  | .joining task => some task
  | _ => none

/-- To the next await or the next lock, with what the listener answered. -/
def step (kind : Kind) (bind : Except String Addr) (state : State Addr) (tasks : List Task) :
    Call Addr → Call Addr × State Addr × List Task
  | .startCalled =>
    match state.takeIdle kind with
    | (.ok _,state) => (.binding,state,tasks)
    | (.error e,state) => (.started (.error e),state,tasks)
  | .binding =>
    match bind with
    | .error e => (.started (.error e),state.restoreIdle,tasks)
    | .ok addr => (.installing ⟨tasks.length,addr⟩,state,tasks ++ [Task.spawned])
  | .installing server => (.started (.ok ()),state.installRunning server,tasks)
  | .stopCalled =>
    match state.takeRunning with
    | (none,state) => (.returned false (.ok ()),state,tasks)
    | (some server,state) =>
      if kind.notifies = true then (.notifying server.join,state,tasks)
      else (.joining server.join,state,tasks.modify server.join Task.cancel)
  | .notifying task => (.joining task,state,tasks.modify task Task.cancel)
  | .joining task =>
    match (tasks[task]?).bind Task.exit with
    | none => (.joining task,state,tasks)
    | some how => (.returned true (kind.serverExit how),state,tasks)
  | call => (call,state,tasks)

/-- The node's deadline fires on a pending stop: the stop is polled once more, which aborts a
task it awaits, and is dropped if it is then still pending. A stop that awaits room for its
message does not watch the deadline. -/
def expire (kind : Kind) (tasks : List Task) : Call Addr → Call Addr × List Task
  | .notifying _ => (.returned true (.error deadlineExceeded),tasks)
  | .joining task =>
    (.returned true (if kind.awaitsAbort = true ∧ (tasks[task]?).all Task.isFinished = false
      then .error deadlineExceeded else .ok ()),tasks.modify task Task.abort)
  | call => (call,tasks)

end Call

structure World (Addr : Type) where
  state : State Addr
  calls : List (Call Addr)
  tasks : List Task

inductive Turn (Addr : Type) where
  | start
  | stop
  | advance (call : Nat) (bind : Except String Addr)
  | deadline (call : Nat)
  | exit (task : Nat) (how : Exit)

namespace World

def idle : World Addr := ⟨.idle,[],[]⟩

def turn (kind : Kind) (self : World Addr) : Turn Addr → World Addr
  | .start => { self with calls := self.calls ++ [.startCalled] }
  | .stop => { self with calls := self.calls ++ [.stopCalled] }
  | .advance call bind =>
    match self.calls[call]? with
    | none => self
    | some phase =>
      let (next,state,tasks) := phase.step kind bind self.state self.tasks
      ⟨state,self.calls.set call next,tasks⟩
  | .deadline call =>
    match self.calls[call]? with
    | none => self
    | some phase =>
      let (next,tasks) := phase.expire kind self.tasks
      ⟨self.state,self.calls.set call next,tasks⟩
  | .exit task how => { self with tasks := self.tasks.modify task (Task.finish how) }

def run (kind : Kind) (self : World Addr) (turns : List (Turn Addr)) : World Addr :=
  turns.foldl (turn kind) self

end World

/-- Where a service is in its one life, with the call that has it in its hands. -/
inductive Stage (Addr : Type) where
  | idle
  | binding (call : Nat)
  | installing (call : Nat) (addr : Addr)
  | running (addr : Addr)
  | notifying (call : Nat)
  | joining (call : Nat)
  | ended

namespace Stage

def state : Stage Addr → State Addr
  | .idle => .idle
  | .binding _ => .transitioning
  | .installing _ _ => .transitioning
  | .running addr => .running ⟨0,addr⟩
  | _ => .stopped

def holder : Stage Addr → Option (Nat × Call Addr)
  | .binding call => some (call,.binding)
  | .installing call addr => some (call,.installing ⟨0,addr⟩)
  | .notifying call => some (call,.notifying 0)
  | .joining call => some (call,.joining 0)
  | _ => none

def spawned : Stage Addr → Nat
  | .idle => 0
  | .binding _ => 0
  | _ => 1

theorem spawned_le (stage : Stage Addr) : stage.spawned ≤ 1 := by
  cases stage <;> simp [spawned]

def opened : Stage Addr → Bool
  | .idle => false
  | .binding _ => false
  | .installing _ _ => false
  | _ => true

def closed : Stage Addr → Bool
  | .ended => true
  | _ => false

theorem state_closed {stage : Stage Addr} (h : stage.closed = true) : stage.state = .stopped := by
  cases stage <;> first | rfl | cases h

def fresh : Stage Addr → Bool
  | .joining _ => false
  | .ended => false
  | _ => true

def fits (kind : Kind) : Stage Addr → Bool
  | .notifying _ => kind.notifies
  | _ => true

end Stage

/-- The calls made so far are those of a service at this stage: one call at most is past its
lock and not returned, and it is the holder. -/
structure Orderly (stage : Stage Addr) (calls : List (Call Addr)) : Prop where
  held : ∀ {j : Nat} {call : Call Addr}, stage.holder = some (j,call) → calls[j]? = some call
  only : ∀ {j : Nat} {call : Call Addr}, calls[j]? = some call → call.active = true →
    stage.holder = some (j,call)
  opened : ∀ {j : Nat} {call : Call Addr}, calls[j]? = some call → call.opens = true →
    stage.opened = true
  once : ∀ {j k : Nat} {call other : Call Addr}, calls[j]? = some call → call.opens = true →
    calls[k]? = some other → other.opens = true → j = k
  closed : ∀ {j : Nat} {call : Call Addr}, calls[j]? = some call → call.closes = true →
    stage.closed = true
  closing : stage.closed = true → ∃ (j : Nat) (call : Call Addr), calls[j]? = some call ∧
    call.closes = true

theorem Stage.holder_active {stage : Stage Addr} {j : Nat} {call : Call Addr}
    (h : stage.holder = some (j,call)) : call.active = true := by
  cases stage <;> simp only [Stage.holder,Option.some.injEq,Prod.mk.injEq,reduceCtorEq] at h <;>
    obtain ⟨-,rfl⟩ := h <;> rfl

def Call.stage (i : Nat) : Call Addr → Stage Addr
  | .binding => .binding i
  | .installing server => .installing i server.boundAddr
  | .notifying _ => .notifying i
  | .joining _ => .joining i
  | _ => .ended

theorem Stage.of_holder {stage : Stage Addr} {i : Nat} {call : Call Addr}
    (h : stage.holder = some (i,call)) :
    stage = call.stage i ∧ ∀ {task : Nat}, call.task = some task → task = 0 := by
  cases stage <;> simp only [Stage.holder,Option.some.injEq,Prod.mk.injEq,reduceCtorEq] at h <;>
    obtain ⟨rfl,rfl⟩ := h <;> refine ⟨rfl,?_⟩ <;> simp [Call.task]

def Call.quiet (call : Call Addr) : Bool := !call.active && !call.opens && !call.closes

theorem Orderly.quiet {stage : Stage Addr} {calls calls' : List (Call Addr)}
    (h : Orderly stage calls)
    (hheld : ∀ {j : Nat} {call : Call Addr}, call.quiet = false → calls[j]? = some call →
      calls'[j]? = some call)
    (hold : ∀ {j : Nat} {call : Call Addr}, calls'[j]? = some call →
      calls[j]? = some call ∨ call.quiet = true) : Orderly stage calls' := by
  have hquiet : ∀ {call : Call Addr}, call.quiet = true →
      call.active = false ∧ call.opens = false ∧ call.closes = false := by
    intro call hcall
    simpa [Call.quiet,and_assoc] using hcall
  constructor
  · intro j call hj
    exact hheld (by simp [Call.quiet,Stage.holder_active hj]) (h.held hj)
  · intro j call hj hcall
    rcases hold hj with hj | hq
    · exact h.only hj hcall
    · simp [(hquiet hq).1] at hcall
  · intro j call hj hcall
    rcases hold hj with hj | hq
    · exact h.opened hj hcall
    · simp [(hquiet hq).2.1] at hcall
  · intro j k first second hj hfirst hk hsecond
    rcases hold hj with hj | hq
    · rcases hold hk with hk | hq
      · exact h.once hj hfirst hk hsecond
      · simp [(hquiet hq).2.1] at hsecond
    · simp [(hquiet hq).2.1] at hfirst
  · intro j call hj hcall
    rcases hold hj with hj | hq
    · exact h.closed hj hcall
    · simp [(hquiet hq).2.2] at hcall
  · intro hclosed
    obtain ⟨j,call,hj,hcall⟩ := h.closing hclosed
    exact ⟨j,call,hheld (by simp [Call.quiet,hcall]) hj,hcall⟩

theorem Orderly.append {stage : Stage Addr} {calls : List (Call Addr)} {call : Call Addr}
    (h : Orderly stage calls) (hcall : call.quiet = true) : Orderly stage (calls ++ [call]) := by
  refine h.quiet ?_ ?_
  · intro j other _ hj
    rw [List.getElem?_append_left (List.getElem?_eq_some_iff.mp hj).1]
    exact hj
  · intro j other hj
    rw [List.getElem?_append] at hj
    split at hj
    · exact .inl hj
    · obtain rfl : other = call := by simpa using List.mem_of_getElem? hj
      exact .inr hcall

theorem Orderly.bystander {stage : Stage Addr} {calls : List (Call Addr)} {i : Nat}
    {phase next : Call Addr} (h : Orderly stage calls) (hi : calls[i]? = some phase)
    (hphase : phase.quiet = true) (hnext : next.quiet = true) :
    Orderly stage (calls.set i next) := by
  refine h.quiet ?_ ?_
  · intro j call hcall hj
    have hne : i ≠ j := by
      rintro rfl
      obtain rfl : phase = call := Option.some.inj (hi.symm.trans hj)
      simp [hphase] at hcall
    rw [List.getElem?_set_ne hne]
    exact hj
  · intro j call hj
    rcases getElem?_set_cases hj with ⟨-,rfl⟩ | ⟨-,hj⟩
    · exact .inr hnext
    · exact .inl hj

/-- From one stage to another by call `i`, which is then at `next`: the holder goes on, or a call
becomes the holder when there is none. -/
structure Follows (kind : Kind) (i : Nat) (next : Call Addr) (stage stage' : Stage Addr) :
    Prop where
  mine : ∀ {j : Nat} {call : Call Addr}, stage.holder = some (j,call) → j = i
  holder : stage'.holder = if next.active = true then some (i,next) else none
  first : next.opens = true → stage.opened = false
  opened : stage'.opened = (stage.opened || next.opens)
  unclosed : stage.closed = false
  closed : stage'.closed = next.closes
  fits : stage'.fits kind = true

theorem Orderly.move {kind : Kind} {stage stage' : Stage Addr} {calls : List (Call Addr)}
    {i : Nat} {phase next : Call Addr} (h : Orderly stage calls) (hi : calls[i]? = some phase)
    (hnext : Follows kind i next stage stage') : Orderly stage' (calls.set i next) := by
  have hlt : i < calls.length := (List.getElem?_eq_some_iff.mp hi).1
  constructor
  · intro j call hj
    rw [hnext.holder] at hj
    split at hj
    · obtain ⟨rfl,rfl⟩ : i = j ∧ next = call := by simpa using hj
      rw [List.getElem?_set_self hlt]
    · cases hj
  · intro j call hj hcall
    rcases getElem?_set_cases hj with ⟨rfl,rfl⟩ | ⟨hne,hj⟩
    · rw [hnext.holder,if_pos hcall]
    · exact absurd (hnext.mine (h.only hj hcall)) hne
  · intro j call hj hcall
    rcases getElem?_set_cases hj with ⟨-,rfl⟩ | ⟨-,hj⟩
    · simp [hnext.opened,hcall]
    · simp [hnext.opened,h.opened hj hcall]
  · intro j k first second hj hfirst hk hsecond
    rcases getElem?_set_cases hj with ⟨rfl,rfl⟩ | ⟨-,hold⟩
    · rcases getElem?_set_cases hk with ⟨rfl,-⟩ | ⟨-,hold⟩
      · rfl
      · exact absurd (h.opened hold hsecond) (by simp [hnext.first hfirst])
    · rcases getElem?_set_cases hk with ⟨-,rfl⟩ | ⟨-,hother⟩
      · exact absurd (h.opened hold hfirst) (by simp [hnext.first hsecond])
      · exact h.once hold hfirst hother hsecond
  · intro j call hj hcall
    rcases getElem?_set_cases hj with ⟨-,rfl⟩ | ⟨-,hj⟩
    · exact hnext.closed.trans hcall
    · exact absurd (h.closed hj hcall) (by simp [hnext.unclosed])
  · intro hstage
    exact ⟨i,next,List.getElem?_set_self hlt,hnext.closed.symm.trans hstage⟩

/-- What the stop that took the task has done to it when it returns: the task has ended or is
aborted, unless the deadline found the stop at its message. -/
def Settled (kind : Kind) (tasks : List Task) (result : Except String Unit) : Prop :=
  (∀ task ∈ tasks, task.isFinished = true ∨ task.aborted = true) ∨
    kind.notifies = true ∧ result = .error deadlineExceeded

/-- A world at this stage of the service. -/
structure Sound (kind : Kind) (stage : Stage Addr) (w : World Addr) : Prop where
  state : w.state = stage.state
  calls : Orderly stage w.calls
  tasks : w.tasks.length = stage.spawned
  fits : stage.fits kind = true
  fresh : stage.fresh = true → ∀ task ∈ w.tasks, task.marks = (false,false)
  settled : ∀ {j : Nat} {result : Except String Unit},
    w.calls[j]? = some (.returned true result) → Settled kind w.tasks result

theorem sound_idle (kind : Kind) : Sound kind .idle (World.idle : World Addr) := by
  refine ⟨rfl,⟨?_,?_,?_,?_,?_,?_⟩,rfl,rfl,?_,?_⟩ <;> simp [World.idle,Stage.holder,Stage.closed]

theorem Task.finish_settled {how : Exit} {task : Task}
    (h : task.isFinished = true ∨ task.aborted = true) :
    (task.finish how).isFinished = true ∨ (task.finish how).aborted = true := by
  rcases h with h | h
  · left
    obtain ⟨first,hfirst⟩ := Option.isSome_iff_exists.mp h
    simp [Task.finish,Task.isFinished,hfirst]
  · exact .inr h

theorem marks_exit (tasks : List Task) (i : Nat) (how : Exit) :
    (tasks.modify i (Task.finish how)).map Task.marks = tasks.map Task.marks := by
  apply List.ext_getElem?
  intro k
  simp only [List.getElem?_map,List.getElem?_modify]
  cases tasks[k]? with
  | none => rfl
  | some task =>
    simp only [Option.map_some]
    split <;> rfl

theorem Sound.exit {kind : Kind} {stage : Stage Addr} {w : World Addr} (h : Sound kind stage w)
    (task : Nat) (how : Exit) : Sound kind stage (w.turn kind (.exit task how)) := by
  have hold : ∀ other ∈ (w.turn kind (.exit task how)).tasks,
      ∃ old ∈ w.tasks, other = old ∨ other = old.finish how := by
    intro other hother
    obtain ⟨k,hk⟩ := List.mem_iff_getElem?.mp hother
    simp only [World.turn,List.getElem?_modify] at hk
    obtain ⟨old,hget,rfl⟩ := Option.map_eq_some_iff.mp hk
    refine ⟨old,List.mem_of_getElem? hget,?_⟩
    split <;> simp
  refine ⟨h.state,h.calls,?_,h.fits,?_,?_⟩
  · simp [World.turn,h.tasks]
  · intro hfresh other hother
    obtain ⟨old,hmem,rfl | rfl⟩ := hold other hother
    · exact h.fresh hfresh _ hmem
    · exact h.fresh hfresh old hmem
  · intro j result hj
    refine (h.settled hj).imp_left ?_
    intro hall other hother
    obtain ⟨old,hmem,rfl | rfl⟩ := hold other hother
    · exact hall _ hmem
    · exact Task.finish_settled (hall old hmem)

theorem Sound.bystander {kind : Kind} {stage : Stage Addr} {w : World Addr} {i : Nat}
    {phase next : Call Addr} (h : Sound kind stage w) (hi : w.calls[i]? = some phase)
    (hphase : phase.quiet = true) (hnext : next.quiet = true) :
    Sound kind stage ⟨w.state,w.calls.set i next,w.tasks⟩ := by
  refine ⟨h.state,h.calls.bystander hi hphase hnext,h.tasks,h.fits,h.fresh,?_⟩
  intro j result hj
  rcases getElem?_set_cases hj with ⟨-,rfl⟩ | ⟨-,hj⟩
  · simp [Call.quiet,Call.closes] at hnext
  · exact h.settled hj

/-- Before the stop has returned no call can be the one that took the task. -/
theorem Sound.open {kind : Kind} {stage : Stage Addr} {w : World Addr} (h : Sound kind stage w)
    (hstage : stage.closed = false) {j : Nat} {result : Except String Unit} :
    w.calls[j]? ≠ some (.returned true result) := by
  intro hj
  simp [h.calls.closed hj rfl] at hstage

theorem Sound.move {kind : Kind} {stage stage' : Stage Addr} {w : World Addr} {i : Nat}
    {phase next : Call Addr} {state : State Addr} {tasks : List Task} (h : Sound kind stage w)
    (hi : w.calls[i]? = some phase) (hnext : Follows kind i next stage stage')
    (hstate : state = stage'.state) (htasks : tasks.length = stage'.spawned)
    (hfresh : stage'.fresh = true → ∀ task ∈ tasks, task.marks = (false,false))
    (hsettled : ∀ {result : Except String Unit}, next = .returned true result →
      Settled kind tasks result) :
    Sound kind stage' ⟨state,w.calls.set i next,tasks⟩ := by
  refine ⟨hstate,h.calls.move hi hnext,htasks,hnext.fits,hfresh,?_⟩
  intro j result hj
  rcases getElem?_set_cases hj with ⟨-,heq⟩ | ⟨-,hj⟩
  · exact hsettled heq.symm
  · exact absurd hj (h.open hnext.unclosed)

/-- The service goes on to another stage. After the stop there is none to go to, and nothing
more is done to the task. -/
def Goes (kind : Kind) (stage : Stage Addr) (w w' : World Addr) : Prop :=
  ∃ stage', Sound kind stage' w' ∧
    (stage.closed = true → stage'.closed = true ∧
      w'.tasks.map Task.marks = w.tasks.map Task.marks)

theorem Sound.stays {kind : Kind} {stage : Stage Addr} {w w' : World Addr}
    (h : Sound kind stage w') (htasks : w'.tasks.map Task.marks = w.tasks.map Task.marks) :
    Goes kind stage w w' :=
  ⟨stage,h,fun hclosed => ⟨hclosed,htasks⟩⟩

theorem Sound.onward {kind : Kind} {stage : Stage Addr} {w w' : World Addr}
    (stage' : Stage Addr) (h : Sound kind stage' w') (hopen : stage.closed = false) : Goes kind stage w w' :=
  ⟨stage',h,fun hclosed => by simp [hopen] at hclosed⟩

theorem Sound.startCalled {kind : Kind} {stage : Stage Addr} {w : World Addr} {i : Nat}
    (h : Sound kind stage w) (hi : w.calls[i]? = some .startCalled) (bind : Except String Addr) :
    Goes kind stage w (w.turn kind (.advance i bind)) := by
  by_cases hidle : stage = .idle
  · subst hidle
    refine Sound.onward (.binding i) ?_ rfl
    simp only [World.turn,hi,Call.step,h.state,Stage.state,State.takeIdle]
    exact h.move hi ⟨by simp [Stage.holder],rfl,by simp [Call.opens],rfl,rfl,rfl,rfl⟩ rfl h.tasks
      h.fresh (by simp)
  · have hstep : Call.step kind bind w.state w.tasks .startCalled =
        (.started (.error kind.alreadyStarted),w.state,w.tasks) := by
      rw [h.state]
      cases stage <;> first | rfl | exact absurd rfl hidle
    simp only [World.turn,hi,hstep]
    exact (h.bystander hi rfl rfl).stays rfl

theorem Call.stage_holder {i j : Nat} {call other : Call Addr}
    (h : (call.stage i).holder = some (j,other)) : j = i := by
  cases call <;> simp only [Call.stage,Stage.holder,Option.some.injEq,Prod.mk.injEq,
    reduceCtorEq] at h <;> exact h.1.symm

theorem Sound.binding {kind : Kind} {stage : Stage Addr} {w : World Addr} {i : Nat}
    (h : Sound kind stage w) (hi : w.calls[i]? = some .binding) (bind : Except String Addr) :
    Goes kind stage w (w.turn kind (.advance i bind)) := by
  obtain ⟨rfl,-⟩ := Stage.of_holder (h.calls.only hi rfl)
  cases bind with
  | error e =>
    refine Sound.onward .idle ?_ rfl
    simp only [World.turn,hi,Call.step]
    exact h.move hi ⟨Call.stage_holder,rfl,by simp [Call.opens],rfl,rfl,rfl,rfl⟩ rfl h.tasks
      h.fresh (by simp)
  | ok addr =>
    refine Sound.onward (.installing i addr) ?_ rfl
    have hnone : w.tasks.length = 0 := h.tasks
    simp only [World.turn,hi,Call.step,hnone]
    have hempty : w.tasks = [] := List.eq_nil_of_length_eq_zero hnone
    exact h.move hi ⟨Call.stage_holder,rfl,by simp [Call.opens],rfl,rfl,rfl,rfl⟩ h.state
      (by simp [hnone,Stage.spawned]) (by simp [hempty,Task.spawned,Task.marks]) (by simp)

theorem Sound.installing {kind : Kind} {stage : Stage Addr} {w : World Addr} {i : Nat}
    {server : RunningServer Addr} (h : Sound kind stage w)
    (hi : w.calls[i]? = some (.installing server)) (bind : Except String Addr) :
    Goes kind stage w (w.turn kind (.advance i bind)) := by
  obtain ⟨rfl,hzero⟩ := Stage.of_holder (h.calls.only hi rfl)
  obtain ⟨join,addr⟩ := server
  obtain rfl : join = 0 := hzero rfl
  refine Sound.onward (.running addr) ?_ rfl
  simp only [World.turn,hi,Call.step]
  exact h.move hi ⟨Call.stage_holder,rfl,fun _ => rfl,rfl,rfl,rfl,rfl⟩ rfl h.tasks h.fresh
    (by simp)

theorem Sound.stopCalled {kind : Kind} {stage : Stage Addr} {w : World Addr} {i : Nat}
    (h : Sound kind stage w) (hi : w.calls[i]? = some .stopCalled) (bind : Except String Addr) :
    Goes kind stage w (w.turn kind (.advance i bind)) := by
  cases hstage : stage with
  | running addr =>
    subst hstage
    simp only [World.turn,hi,Call.step,h.state,Stage.state,State.takeRunning]
    by_cases hnotifies : kind.notifies = true
    · refine Sound.onward (.notifying i) ?_ rfl
      simp only [hnotifies,if_true]
      exact h.move hi ⟨by simp [Stage.holder],rfl,by simp [Call.opens],rfl,rfl,rfl,hnotifies⟩ rfl
        h.tasks h.fresh (by simp)
    · refine Sound.onward (.joining i) ?_ rfl
      simp only [hnotifies]
      exact h.move hi ⟨by simp [Stage.holder],rfl,by simp [Call.opens],rfl,rfl,rfl,rfl⟩ rfl
        ((List.length_modify ..).trans h.tasks) (by simp [Stage.fresh]) (by simp)
  | _ =>
    have hstep : Call.step kind bind w.state w.tasks .stopCalled =
        (.returned false (.ok ()),w.state,w.tasks) := by
      rw [h.state,hstage]
      rfl
    subst hstage
    simp only [World.turn,hi,hstep]
    exact (h.bystander hi rfl rfl).stays rfl

theorem Sound.notifying {kind : Kind} {stage : Stage Addr} {w : World Addr} {i task : Nat}
    (h : Sound kind stage w) (hi : w.calls[i]? = some (.notifying task))
    (bind : Except String Addr) : Goes kind stage w (w.turn kind (.advance i bind)) := by
  obtain ⟨rfl,hzero⟩ := Stage.of_holder (h.calls.only hi rfl)
  obtain rfl : task = 0 := hzero rfl
  refine Sound.onward (.joining i) ?_ rfl
  simp only [World.turn,hi,Call.step]
  exact h.move hi ⟨Call.stage_holder,rfl,by simp [Call.opens],rfl,rfl,rfl,rfl⟩ h.state
    ((List.length_modify ..).trans h.tasks) (by simp [Stage.fresh]) (by simp)

theorem Sound.only_task {kind : Kind} {stage : Stage Addr} {w : World Addr}
    (h : Sound kind stage w) (hspawned : stage.spawned = 1) : ∃ task, w.tasks = [task] :=
  List.length_eq_one_iff.mp (h.tasks.trans hspawned)

theorem Sound.joining {kind : Kind} {stage : Stage Addr} {w : World Addr} {i task : Nat}
    (h : Sound kind stage w) (hi : w.calls[i]? = some (.joining task))
    (bind : Except String Addr) : Goes kind stage w (w.turn kind (.advance i bind)) := by
  obtain ⟨rfl,hzero⟩ := Stage.of_holder (h.calls.only hi rfl)
  obtain rfl : task = 0 := hzero rfl
  obtain ⟨task,htask⟩ := h.only_task rfl
  have hget : (w.tasks[0]?).bind Task.exit = task.exit := by simp [htask]
  cases hexit : task.exit with
  | none =>
    refine Sound.onward (.joining i) ?_ rfl
    simp only [World.turn,hi,Call.step,hget,hexit]
    exact h.move hi ⟨Call.stage_holder,rfl,by simp [Call.opens],rfl,rfl,rfl,rfl⟩ h.state h.tasks
      (by simp [Stage.fresh]) (by simp)
  | some how =>
    refine Sound.onward .ended ?_ rfl
    simp only [World.turn,hi,Call.step,hget,hexit]
    refine h.move hi ⟨Call.stage_holder,rfl,by simp [Call.opens],rfl,rfl,rfl,rfl⟩ h.state h.tasks
      (by simp [Stage.fresh]) ?_
    intro result _
    left
    simp [htask,Task.isFinished,hexit]

theorem World.set_self {w : World Addr} {i : Nat} {phase : Call Addr}
    (hi : w.calls[i]? = some phase) : (⟨w.state,w.calls.set i phase,w.tasks⟩ : World Addr) = w := by
  obtain ⟨hlt,rfl⟩ := List.getElem?_eq_some_iff.mp hi
  rw [List.set_getElem_self]

theorem Sound.advance {kind : Kind} {stage : Stage Addr} {w : World Addr}
    (h : Sound kind stage w) (i : Nat) (bind : Except String Addr) :
    Goes kind stage w (w.turn kind (.advance i bind)) := by
  cases hi : w.calls[i]? with
  | none =>
    simp only [World.turn,hi]
    exact h.stays rfl
  | some phase =>
    cases phase with
    | startCalled => exact h.startCalled hi bind
    | binding => exact h.binding hi bind
    | installing server => exact h.installing hi bind
    | stopCalled => exact h.stopCalled hi bind
    | notifying task => exact h.notifying hi bind
    | joining task => exact h.joining hi bind
    | started result =>
      simp only [World.turn,hi,Call.step,World.set_self hi]
      exact h.stays rfl
    | returned took result =>
      simp only [World.turn,hi,Call.step,World.set_self hi]
      exact h.stays rfl

theorem Sound.deadline {kind : Kind} {stage : Stage Addr} {w : World Addr}
    (h : Sound kind stage w) (i : Nat) : Goes kind stage w (w.turn kind (.deadline i)) := by
  cases hi : w.calls[i]? with
  | none =>
    simp only [World.turn,hi]
    exact h.stays rfl
  | some phase =>
    cases phase with
    | notifying task =>
      obtain ⟨rfl,-⟩ := Stage.of_holder (h.calls.only hi rfl)
      refine Sound.onward .ended ?_ rfl
      simp only [World.turn,hi,Call.expire]
      refine h.move hi ⟨Call.stage_holder,rfl,by simp [Call.opens],rfl,rfl,rfl,rfl⟩ h.state
        h.tasks (by simp [Stage.fresh]) ?_
      intro result hresult
      right
      exact ⟨h.fits,by simpa using hresult.symm⟩
    | joining task =>
      obtain ⟨rfl,hzero⟩ := Stage.of_holder (h.calls.only hi rfl)
      obtain rfl : task = 0 := hzero rfl
      obtain ⟨task,htask⟩ := h.only_task rfl
      refine Sound.onward .ended ?_ rfl
      simp only [World.turn,hi,Call.expire]
      refine h.move hi ⟨Call.stage_holder,rfl,by simp [Call.opens],rfl,rfl,rfl,rfl⟩ h.state
        ((List.length_modify ..).trans h.tasks) (by simp [Stage.fresh]) ?_
      intro result _
      left
      simp [htask,Task.abort]
    | _ =>
      simp only [World.turn,hi,Call.expire,World.set_self hi]
      exact h.stays rfl

theorem Sound.call {kind : Kind} {stage : Stage Addr} {w : World Addr} (h : Sound kind stage w)
    {call : Call Addr} (hcall : call.quiet = true) :
    Sound kind stage { w with calls := w.calls ++ [call] } := by
  refine ⟨h.state,h.calls.append hcall,h.tasks,h.fits,h.fresh,?_⟩
  intro j result hj
  rw [List.getElem?_append] at hj
  split at hj
  · exact h.settled hj
  · obtain rfl : .returned true result = call := by simpa using List.mem_of_getElem? hj
    simp [Call.quiet,Call.closes] at hcall

theorem Sound.turn {kind : Kind} {stage : Stage Addr} {w : World Addr} (h : Sound kind stage w)
    (turn : Turn Addr) : Goes kind stage w (w.turn kind turn) := by
  cases turn with
  | start => exact Sound.stays (h.call rfl) rfl
  | stop => exact Sound.stays (h.call rfl) rfl
  | advance i bind => exact h.advance i bind
  | deadline i => exact h.deadline i
  | exit task how => exact (h.exit task how).stays (marks_exit w.tasks task how)

theorem Sound.run {kind : Kind} {stage : Stage Addr} {w : World Addr} (h : Sound kind stage w)
    (turns : List (Turn Addr)) : Goes kind stage w (w.run kind turns) := by
  induction turns generalizing stage w with
  | nil => exact h.stays rfl
  | cons turn turns ih =>
    obtain ⟨middle,hmiddle,hkept⟩ := h.turn turn
    obtain ⟨last,hlast,hrest⟩ := ih hmiddle
    refine ⟨last,hlast,?_⟩
    intro hclosed
    obtain ⟨hm,hmarks⟩ := hkept hclosed
    obtain ⟨hl,hmarks'⟩ := hrest hm
    exact ⟨hl,hmarks'.trans hmarks⟩

/-- The task of a service is in someone's hands: it is the running one, or a call in progress
has it. -/
def World.Holds (w : World Addr) (t : Nat) : Prop :=
  (∃ addr, w.state = .running ⟨t,addr⟩) ∨
    ∃ (j : Nat) (call : Call Addr), w.calls[j]? = some call ∧ call.active = true ∧
      call.task = some t

/-- While the service has a task, and before its stop has returned, someone has it. -/
theorem Sound.holds {kind : Kind} {stage : Stage Addr} {w : World Addr} (h : Sound kind stage w)
    (hspawned : stage.spawned = 1) (hopen : stage.closed = false) : w.Holds 0 := by
  cases stage with
  | running addr => exact .inl ⟨addr,h.state⟩
  | installing i addr => exact .inr ⟨i,_,h.calls.held rfl,rfl,rfl⟩
  | notifying i => exact .inr ⟨i,_,h.calls.held rfl,rfl,rfl⟩
  | joining i => exact .inr ⟨i,_,h.calls.held rfl,rfl,rfl⟩
  | idle => cases hspawned
  | binding i => cases hspawned
  | ended => cases hopen

theorem Sound.well {kind : Kind} {stage : Stage Addr} {w : World Addr} (h : Sound kind stage w)
    (hstatus : w.state.status kind w.tasks = .ok ()) : w.tasks = [Task.spawned] := by
  rw [h.state] at hstatus
  cases stage with
  | running addr =>
    obtain ⟨task,htask⟩ := h.only_task rfl
    obtain ⟨hcancelled,haborted⟩ := Prod.mk.inj (h.fresh rfl task (by simp [htask]))
    obtain ⟨cancelled,aborted,exit⟩ := task
    subst hcancelled haborted
    cases exit with
    | none => exact htask
    | some how => simp [htask,Stage.state,State.status,Task.isFinished] at hstatus
  | _ => cases hstatus

/-- However starts, stops, deadlines and the task interleave: a service spawns one task at
most and one start at most succeeds; a task that has not ended and was not aborted is in
someone's hands, unless the deadline found the stop that took it at its message; and a stop
that took the task leaves the service stopped, with the task ended or aborted under the same
proviso. A service that reports itself well has its one task running, untouched. -/
theorem one_task_one_life (kind : Kind) (turns : List (Turn Addr)) :
    (World.idle.run kind turns).tasks.length ≤ 1 ∧
    (∀ j k : Nat,
      (World.idle.run kind turns).calls[j]? = some (.started (.ok ())) →
      (World.idle.run kind turns).calls[k]? = some (.started (.ok ())) → j = k) ∧
    (∀ (t : Nat) (task : Task), (World.idle.run kind turns).tasks[t]? = some task →
      task.isFinished = false → task.aborted = false →
      (World.idle.run kind turns).Holds t ∨
        kind.notifies = true ∧ ∃ j : Nat,
          (World.idle.run kind turns).calls[j]? =
            some (.returned true (.error deadlineExceeded))) ∧
    (∀ (j : Nat) (result : Except String Unit),
      (World.idle.run kind turns).calls[j]? = some (.returned true result) →
      (World.idle.run kind turns).state = .stopped ∧
        Settled kind (World.idle.run kind turns).tasks result) ∧
    ((World.idle.run kind turns).state.status kind (World.idle.run kind turns).tasks = .ok () →
      (World.idle.run kind turns).tasks = [Task.spawned]) := by
  obtain ⟨stage,h,-⟩ := (sound_idle kind).run turns
  refine ⟨?_,?_,?_,?_,h.well⟩
  · rw [h.tasks]
    exact stage.spawned_le
  · intro j k hj hk
    exact h.calls.once hj rfl hk rfl
  · intro t task ht hlive haborted
    have hlt : t < stage.spawned := h.tasks ▸ (List.getElem?_eq_some_iff.mp ht).1
    have hle : stage.spawned ≤ 1 := stage.spawned_le
    obtain ⟨rfl,hspawned⟩ : t = 0 ∧ stage.spawned = 1 := by omega
    cases hclosed : stage.closed with
    | false => exact .inl (h.holds hspawned hclosed)
    | true =>
      right
      obtain ⟨j,call,hj,hcall⟩ := h.calls.closing hclosed
      cases call with
      | returned took result =>
        obtain rfl : took = true := hcall
        rcases h.settled hj with hall | ⟨hnotifies,rfl⟩
        · simpa [hlive,haborted] using hall task (List.mem_of_getElem? ht)
        · exact ⟨hnotifies,j,hj⟩
      | _ => cases hcall
  · intro j result hj
    have hclosed : stage.closed = true := h.calls.closed hj rfl
    refine ⟨?_,h.settled hj⟩
    exact h.state.trans (Stage.state_closed hclosed)

/-- The proviso is real. When the deadline fires on a stop that waits to send its message, the
task has been neither cancelled nor aborted, and nothing that is ever called on the service
will do either. It is then up to the task to see that its command channel has closed. -/
theorem dropped_stop_spares_task (kind : Kind) (turns later : List (Turn Addr)) (i t : Nat)
    (hi : (World.idle.run kind turns).calls[i]? = some (.notifying t)) :
    ((World.idle.run kind (turns ++ .deadline i :: later)).state = .stopped) ∧
      ∃ task, (World.idle.run kind (turns ++ .deadline i :: later)).tasks = [task] ∧
        task.cancelled = false ∧ task.aborted = false := by
  obtain ⟨stage,h,-⟩ := (sound_idle kind).run turns
  obtain ⟨rfl,-⟩ := Stage.of_holder (h.calls.only hi rfl)
  obtain ⟨task,htask⟩ := h.only_task rfl
  have hmarks : task.marks = (false,false) := h.fresh rfl task (by simp [htask])
  have hrun : World.idle.run kind (turns ++ .deadline i :: later) =
      ((World.idle.run kind turns).turn kind (.deadline i)).run kind later := by
    simp [World.run]
  have hturn : ((World.idle.run kind turns).turn kind (.deadline i)).tasks = [task] := by
    simp only [World.turn,hi,Call.expire,htask]
  have hcall : ((World.idle.run kind turns).turn kind (.deadline i)).calls[i]? =
      some (.returned true (.error deadlineExceeded)) := by
    simp only [World.turn,hi,Call.expire]
    exact List.getElem?_set_self (List.getElem?_eq_some_iff.mp hi).1
  obtain ⟨stage,hdropped,-⟩ := h.deadline i
  obtain ⟨last,hlast,hkept⟩ := hdropped.run later
  obtain ⟨hclosed,hsame⟩ := hkept (hdropped.calls.closed hcall rfl)
  rw [hrun]
  refine ⟨hlast.state.trans (Stage.state_closed hclosed),?_⟩
  rw [hturn,List.map_singleton,List.map_eq_singleton_iff] at hsame
  obtain ⟨last,hlast,heq⟩ := hsame
  exact ⟨last,hlast,Prod.mk.inj (heq.trans hmarks)⟩

def stalledStop : List (Turn Nat) :=
  [.start,.advance 0 (.ok 0),.advance 0 (.ok 9000),.advance 0 (.ok 0),.stop,.advance 1 (.ok 0)]

theorem dropped_stop_spares_task_p2p :
    (World.idle.run p2pService (stalledStop ++ .deadline 1 :: [.stop,.advance 2 (.ok 0)])).state =
        .stopped ∧
      ∃ task, (World.idle.run p2pService
          (stalledStop ++ .deadline 1 :: [.stop,.advance 2 (.ok 0)])).tasks = [task] ∧
        task.cancelled = false ∧ task.aborted = false :=
  dropped_stop_spares_task p2pService stalledStop _ 1 0 rfl

end

end Devnet.Core.Endpoint
