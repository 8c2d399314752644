import Workflow.Fault.Basic
import Workflow.Spec.Basic
import Workflow.Text.Blank

/-!
# Structural validity

The invariants that a specification must satisfy before anything is built from it. The first
violation found is reported: names first, then the states that other parts refer to, then what each
state declares.
-/

namespace Workflow.WorkflowSpec

def ensure (condition : Bool) (fault : Fault) : Except Fault Unit :=
  if condition then .ok () else .error fault

def checkHeader (spec : WorkflowSpec) : Except Fault Unit := do
  ensure (!Text.allBlank spec.name) (.invalid .missingField "workflow name is required")
  ensure (!Text.allBlank spec.initialState) (.invalid .missingField "initial_state is required")

/-- State names are not blank and differ from the ones before. -/
def checkNames (seen : List String) : List StateSpec → Except Fault Unit
  | [] => .ok ()
  | state :: states => do
    ensure (!Text.allBlank state.name) (.invalid .missingField "state name is required")
    ensure (!seen.contains state.name)
      (.invalid .uniqueName ("duplicate state: " ++ state.name))
    checkNames (state.name :: seen) states

def checkFinals (spec : WorkflowSpec) : List String → Except Fault Unit
  | [] => .ok ()
  | name :: names => do
    ensure (spec.declares name) (.invalid .missingEndpoint ("final state does not exist: " ++ name))
    checkFinals spec names

def checkEndpoint (spec : WorkflowSpec) (edge : EdgeSpec) (endpoint : String) : Except Fault Unit :=
  ensure (spec.declares endpoint) (.invalid .missingEndpoint
    ("transition " ++ edge.origin ++ " -> " ++ edge.target ++ " references unknown state: " ++
      endpoint))

def checkTransitions (spec : WorkflowSpec) : List EdgeSpec → Except Fault Unit
  | [] => .ok ()
  | edge :: edges => do
    spec.checkEndpoint edge edge.origin
    spec.checkEndpoint edge edge.target
    checkTransitions spec edges

def checkState (spec : WorkflowSpec) (state : StateSpec) : Except Fault Unit := do
  ensure (!(state.kind == "action" && state.actions.isEmpty))
    (.invalid .missingField ("action state declares no actions: " ++ state.name))
  match state.onError with
  | none => .ok ()
  | some target =>
    ensure (spec.declares target) (.invalid .missingEndpoint
      ("error target of " ++ state.name ++ " does not exist: " ++ target))

def checkStates (spec : WorkflowSpec) : List StateSpec → Except Fault Unit
  | [] => .ok ()
  | state :: states => do
    spec.checkState state
    checkStates spec states

def validate (spec : WorkflowSpec) : Except Fault Unit := do
  spec.checkHeader
  checkNames [] spec.states
  ensure (spec.declares spec.initialState)
    (.invalid .missingEndpoint ("initial state does not exist: " ++ spec.initialState))
  spec.checkFinals spec.finalStates
  spec.checkTransitions spec.transitions
  spec.checkStates spec.states

end Workflow.WorkflowSpec
