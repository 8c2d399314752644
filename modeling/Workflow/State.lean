import Workflow.Action.Run

/-!
# States

A state has a name and a task. Running the task gives a verdict: which state to go on with, what to
add to the data, and whether the run is over.
-/

namespace Workflow

structure Verdict where
  /-- The preferred next state; empty when the transitions decide. -/
  next : String := ""
  data : Data := []
  /-- Whether the run ends in `next`, whatever the transitions. -/
  complete : Bool := false
  deriving Inhabited

namespace Verdict

def proceed : Verdict := {}

def goTo (state : String) : Verdict := { next := state }

def finish (state : String) : Verdict := { next := state, complete := true }

def isOpen (verdict : Verdict) : Bool :=
  verdict.next.isEmpty

def toJson (verdict : Verdict) : Json :=
  .object [("complete", verdict.complete), ("data", .object verdict.data),
    ("next_state", verdict.next)]

end Verdict

inductive Task where
  /-- Runs an action and leaves the rest to the transitions. -/
  | perform (action : Action)
  /-- Prefers one of two states, as the test says; without a test nothing is preferred. -/
  | route (test : Option Predicate) (yes no : Option String)
  /-- Ends the run. -/
  | stop
  /-- Always gives the same verdict. -/
  | answer (verdict : Verdict)
  deriving Inhabited

structure State where
  name : String
  task : Task
  deriving Inhabited

namespace State

def actionName (state : State) : String :=
  match state.task with
  | .perform action => action.name
  | _ => state.name

def isFinal (state : State) : Bool :=
  match state.task with
  | .stop => true
  | _ => false

def preference : Option String → Verdict
  | some state => .goTo state
  | none => .proceed

def run (state : State) : Work (Except Fault Verdict) :=
  match state.task with
  | .perform action =>
    .look fun m =>
      (action.run { owner := state.name, draws := m.context.dispatchDraws }).andThen fun () =>
        .done (.ok .proceed)
  | .route none _ _ => .done (.ok .proceed)
  | .route (some test) yes no =>
    .look fun m =>
      .done ((test.evaluate m.data).map fun isMet =>
        if isMet then preference yes else preference no)
  | .stop => .done (.ok (.finish state.name))
  | .answer verdict => .done (.ok verdict)

end State

end Workflow
