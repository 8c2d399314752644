import Workflow.Data
import Workflow.Span.Basic

/-!
# Workflow specifications

What a workflow is made of, as it is written down: named states with their actions, and guarded
edges between states.
-/

namespace Workflow

/-- A unit of work. Composite kinds have further specifications among their parameters. -/
structure ActionSpec where
  kind : String
  label : Option String := none
  params : Data := []
  deriving Inhabited

/-- The name of an action is its label, or its kind when it has none. -/
def ActionSpec.name (spec : ActionSpec) : String :=
  spec.label.getD spec.kind

structure StateSpec where
  name : String
  kind : String := "action"
  actions : List ActionSpec := []
  /-- The state to continue at when this one fails. -/
  onError : Option String := none
  /-- Seconds; zero means no limit. -/
  timeoutSecs : Option Nat := none
  params : Data := []
  metadata : Data := []
  deriving Inhabited

namespace StateSpec

def isFinal (spec : StateSpec) : Bool :=
  spec.kind == "final"

/-- The state's own time limit, if it has a positive one. -/
def timeout? (spec : StateSpec) : Option Span :=
  (spec.timeoutSecs.filter (0 < ·)).map Span.ofSeconds

end StateSpec

/-- A guarded edge. Edges are tried in the order in which they are listed, whatever their
priority. -/
structure EdgeSpec where
  origin : String
  target : String
  condition : String := "always"
  priority : Int := 0
  deriving Inhabited

structure Settings where
  /-- Whether a run looks for cancellation before each state. -/
  cancellation : Bool := true
  /-- Time limit in seconds of the states without one of their own; zero means no limit. -/
  actionTimeoutSecs : Nat := 0
  deriving Inhabited

structure WorkflowSpec where
  name : String
  initialState : String
  finalStates : List String := []
  settings : Settings := {}
  states : List StateSpec := []
  transitions : List EdgeSpec := []
  deriving Inhabited

namespace WorkflowSpec

/-- Adds a state; one of kind `final` is also listed among the final states. -/
def withState (spec : WorkflowSpec) (state : StateSpec) : WorkflowSpec :=
  { spec with
    finalStates :=
      if state.isFinal && !spec.finalStates.contains state.name then
        spec.finalStates ++ [state.name]
      else spec.finalStates
    states := spec.states ++ [state] }

def withTransition (spec : WorkflowSpec) (edge : EdgeSpec) : WorkflowSpec :=
  { spec with transitions := spec.transitions ++ [edge] }

def state? (spec : WorkflowSpec) (name : String) : Option StateSpec :=
  spec.states.find? (·.name == name)

def stateNames (spec : WorkflowSpec) : List String :=
  spec.states.map StateSpec.name

def declares (spec : WorkflowSpec) (name : String) : Bool :=
  spec.stateNames.contains name

def listsFinal (spec : WorkflowSpec) (name : String) : Bool :=
  spec.finalStates.contains name

end WorkflowSpec

end Workflow
