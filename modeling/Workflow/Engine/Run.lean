import Workflow.Engine.Basic
import Workflow.Work.Crew

/-!
# Running an engine

A run dispatches one state after the other, from the context's current state on, until a state
completes the run or a fault ends it. One step is `Engine.step`; a run is as many steps as it takes,
and `Engine.advance` makes at most a given number of them.
-/

namespace Workflow

structure Run where
  steps : Nat := 0
  /-- The state that was dispatched last. -/
  last : Option String := none
  /-- The calls of hooks, in order. -/
  calls : List HookCall := []
  deriving Inhabited

namespace Run

def call (run : Run) (hook : Nat) (notice : Notice) : Run :=
  { run with calls := run.calls ++ [⟨hook, notice⟩] }

def received (run : Run) (hook : Nat) : List Notice :=
  (run.calls.filter (·.hook == hook)).map HookCall.notice

end Run

/-- What a step leaves: a run that goes on, or one that has ended. -/
inductive Progress where
  | goesOn (run : Run)
  | ended (run : Run) (outcome : Except Fault Unit)
  deriving Inhabited

namespace Engine

variable (e : Engine)

def report (level : Level) (message : String) (fields : List (String × String)) (m : Moment) :
    Moment :=
  m.report level message (("workflow", e.name) :: fields)

/-- The moment after the start of a run: a context without a current state is put into the initial
one. -/
def start (m : Moment) : Moment :=
  let m := if m.context.currentState.isEmpty then m.update (·.enter e.initial) else m
  e.report .info "Workflow started" [("state", m.context.currentState)] m

def overrun (state : State) (limit : Span) : Fault :=
  .deadline ("state " ++ state.name ++ " exceeded " ++ toString limit.millis ++ "ms")

def dispatch (state : State) : Work (Except Fault Verdict) :=
  match e.timeoutFor state.name with
  | some limit => state.run.limited limit (overrun state limit)
  | none => state.run

def startNotice (state : State) : Notice :=
  { state := state.name, action := state.actionName, phase := .start }

def finishNotice (state : State) (outcome : Except Fault Verdict) : Notice :=
  { state := state.name
    action := state.actionName
    phase := .finish
    error := match outcome with
      | .ok _ => none
      | .error fault => some fault.message }

/-- Tells hooks one after the other; the first has number `i`. -/
def emitTo (notice : Notice) (i : Nat) : List Hook → Run → Work Run
  | [], run => .done run
  | hook :: hooks, run =>
    .after (hook.tell notice) (emitTo notice (i + 1) hooks (run.call i notice))

def emit (notice : Notice) (run : Run) : Work Run :=
  emitTo notice 0 e.hooks run

def runState (state : State) (run : Run) : Work (Run × Except Fault Verdict) :=
  (e.emit (startNotice state) run).bind fun run =>
    (e.dispatch state).bind fun outcome =>
      (e.emit (finishNotice state outcome) run).bind fun run => .done (run, outcome)

def firstOpen (current : String) (data : Data) : Except Fault Transition :=
  match Transition.firstOpen? data (e.outgoing current) with
  | .error fault => .error fault
  | .ok (some t) => .ok t
  | .ok none => .error (.noTransition current)

/-- Picks the edge to take from `current`: one to the preferred state if it is open, or else the
first one that is open. -/
def resolve (current preferred : String) : Work (Except Fault Transition) :=
  .look fun m =>
    if preferred.isEmpty then .done (e.firstOpen current m.data)
    else
      match Transition.firstOpen? m.data
        ((e.outgoing current).filter (·.target == preferred)) with
      | .error fault => .fail fault
      | .ok (some t) => .done (.ok t)
      | .ok none =>
        .after (·.report .debug "Preferred transition did not match, scanning all"
            [("from", current), ("preferred", preferred)])
          (.done (e.firstOpen current m.data))

def reroute (current target : String) (fault : Fault) (m : Moment) : Moment :=
  let message : Json := fault.message
  let m := e.report .warn "State failed, continuing at error target"
    [("state", current), ("target", target), ("error", fault.message)] m
  ((m.set "last_error" message).set (current ++ "_error") message).update fun ctx =>
    (ctx.addMove current target [("last_error", message)]).enter target

/-- Ends the run in the state that the verdict names, or where it stands. -/
def complete (current : String) (verdict : Verdict) (m : Moment) : Moment :=
  let target := if verdict.next.isEmpty then current else verdict.next
  let m := m.update fun ctx =>
    let ctx := if target = current then ctx else ctx.addMove current target verdict.data
    (ctx.merge verdict.data).enter target
  e.report .info "Workflow completed" [("state", target)] m

def take (current : String) (t : Transition) (verdict : Verdict) (m : Moment) : Moment :=
  let m := e.report .debug "Transition taken" [("from", current), ("to", t.target)] m
  m.update fun ctx =>
    ((ctx.addMove current t.target verdict.data).merge verdict.data).enter t.target

def isLast (verdict : Verdict) : Bool :=
  verdict.complete || e.isFinal verdict.next

def follow (current : String) (run : Run) : Except Fault Verdict → Work Progress
  | .error fault =>
    match e.errorTargets.get? current, fault.isInterrupt with
    | some target, false => .after (e.reroute current target fault) (.done (.goesOn run))
    | _, _ =>
      .after (e.report .error "State failed" [("state", current), ("error", fault.message)])
        (.done (.ended run (.error (.state current fault))))
  | .ok verdict =>
    if e.isLast verdict then .after (e.complete current verdict) (.done (.ended run (.ok ())))
    else
      (e.resolve current verdict.next).bind fun
        | .error fault => .done (.ended run (.error fault))
        | .ok t => .after (e.take current t verdict) (.done (.goesOn run))

/-- The number of states that a run may dispatch, if it has dispatched as many. -/
def spentLimit? (run : Run) : Option Nat :=
  e.maxSteps.filter (· ≤ run.steps)

/-- One step: the run is cancelled, has dispatched enough states, or dispatches its current one. -/
def step (run : Run) : Work Progress :=
  .look fun m =>
    let current := m.context.currentState
    if e.cancellation && m.cancelled then
      let stopped := run.last.getD current
      .after (e.report .warn "Workflow cancelled" [("state", stopped)])
        (.done (.ended run (.error (.cancelled stopped))))
    else
      match e.spentLimit? run with
      | some limit =>
        .after (e.report .error "Step limit reached"
            [("state", current), ("limit", toString limit)])
          (.done (.ended run (.error (.stepLimit current limit))))
      | none =>
        let run := { run with steps := run.steps + 1 }
        match e.states.get? current with
        | none => .done (.ended run (.error (.stateNotFound current)))
        | some state =>
          .after (fun m =>
              e.report .info "Entering state" [("state", current)]
                (m.update (·.visit current)))
            ((e.runState state { run with last := some current }).bind fun (run, outcome) =>
              e.follow current run outcome)

def advance : (fuel : Nat) → Run → Work Progress
  | 0, run => .done (.goesOn run)
  | fuel + 1, run =>
    (e.step run).bind fun
      | .goesOn run => advance fuel run
      | .ended run outcome => .done (.ended run outcome)

@[simp] theorem advance_zero (run : Run) : e.advance 0 run = .done (.goesOn run) := rfl

theorem advance_succ (fuel : Nat) (run : Run) :
    e.advance (fuel + 1) run =
      (e.step run).bind fun
        | .goesOn next => e.advance fuel next
        | .ended last outcome => .done (.ended last outcome) := rfl

/-- Further steps go on where the first ones stopped. -/
theorem advance_add (fuel more : Nat) (run : Run) :
    e.advance (fuel + more) run =
      (e.advance fuel run).bind fun
        | .goesOn next => e.advance more next
        | .ended last outcome => .done (.ended last outcome) := by
  induction fuel generalizing run with
  | zero => rw [Nat.zero_add, advance_zero, Work.done_bind]
  | succ fuel ih =>
    rw [Nat.succ_add, advance_succ, advance_succ, Work.bind_assoc]
    congr 1
    funext progress
    cases progress with
    | goesOn next => exact ih next
    | ended last outcome => rfl

def execute (fuel : Nat) : Work Progress :=
  .after e.start (e.advance fuel {})

end Engine

structure Finished where
  run : Run
  outcome : Except Fault Unit
  moment : Moment

/-- Carries out a run from a moment on. The run is cancelled after the given number of milliseconds,
if any; nothing comes of it if `fuel` steps and rounds are not enough. -/
def Engine.carryOut (e : Engine) (fuel : Nat) (cancelAt : Option Nat) (m : Moment) :
    Option Finished :=
  match (e.execute fuel).carryOut fuel cancelAt m with
  | some (.ended run outcome, moment) => some { run, outcome, moment }
  | _ => none

end Workflow
