import Workflow.Engine.Basic
import Workflow.Graph
import Workflow.Journal
import Workflow.Registry.Build
import Workflow.Spec.Validation

/-!
# Engines from specifications

A specification is validated, its states and conditions are built, and the parts are put together.
States that cannot be reached are reported but do no harm.
-/

namespace Workflow

namespace Draft

def addSpecified (registry : Registry) (d : Draft) (spec : StateSpec) : Except Fault Draft := do
  let d := d.addState (← registry.buildState spec)
  let d := match spec.timeout? with
    | some limit => d.limitState spec.name limit
    | none => d
  return match spec.onError with
    | some target => d.onError spec.name target
    | none => d

def addEdge (d : Draft) (edge : EdgeSpec) : Except Fault Draft := do
  return d.addTransition (← Transition.ofText edge.origin edge.target edge.condition)

def ofSpec (registry : Registry) (hooks : List Hook) (maxSteps : Option Nat) (spec : WorkflowSpec) :
    Except Fault Draft := do
  spec.validate
  let start : Draft :=
    { name := spec.name
      initial := spec.initialState
      cancellation := spec.settings.cancellation
      maxSteps
      hooks }
  let withStates ←
    spec.states.foldlM (addSpecified registry)
      (start.limitStates (.ofSeconds spec.settings.actionTimeoutSecs))
  let withFinals := spec.finalStates.foldl addFinal withStates
  spec.transitions.foldlM addEdge withFinals

end Draft

namespace Engine

def unreachableEntries (spec : WorkflowSpec) : List Entry :=
  ((Graph.ofSpec spec).unreachableFrom spec.initialState).map fun state =>
    ⟨.warn, "State is unreachable from the initial state",
      [("workflow", spec.name), ("state", state)]⟩

def builtEntry (spec : WorkflowSpec) : Entry :=
  ⟨.debug, "Engine built",
    [("workflow", spec.name), ("states", toString spec.states.length),
      ("transitions", toString spec.transitions.length)]⟩

def ofSpec (registry : Registry) (hooks : List Hook) (maxSteps : Option Nat)
    (spec : WorkflowSpec) : List Entry × Except Fault Engine :=
  match Draft.ofSpec registry hooks maxSteps spec with
  | .error fault => ([], .error fault)
  | .ok draft =>
    let entries := unreachableEntries spec
    match draft.build with
    | .error fault => (entries, .error fault)
    | .ok engine => (entries ++ [builtEntry spec], .ok engine)

end Engine

end Workflow
