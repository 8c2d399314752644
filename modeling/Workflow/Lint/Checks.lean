import Workflow.Condition.Parser
import Workflow.Graph
import Workflow.Lint.Distance
import Workflow.Lint.Naming
import Workflow.Lint.Report
import Workflow.Registry.Basic
import Workflow.Spec.Codec
import Workflow.Text.Blank

/-!
# Linting

All that can be found wrong in a specification without running it. Where validation stops at the
first violation, this reports everything, in a fixed order: names, the states referred to, what each
state declares, the transitions, and last what only the graph as a whole shows.
-/

namespace Workflow.Lint

def quoted (name : String) : String :=
  "'" ++ name ++ "'"

def arrow (edge : EdgeSpec) : String :=
  "transition " ++ edge.origin ++ " -> " ++ edge.target

def when (condition : Bool) (finding : Finding) : Report :=
  if condition then [finding] else []

/-- The final states: those listed and those of kind `final`. -/
def finalStates (spec : WorkflowSpec) : List String :=
  spec.finalStates ++ (spec.states.filter StateSpec.isFinal).map StateSpec.name

def duplicateStateFinding (name : String) (count : Nat) : Finding where
  code := .duplicateState
  message := "state " ++ quoted name ++ " is declared " ++ toString count ++ " times"
  state := some name
  suggestion := "rename or remove the duplicate declarations"

def namingFinding (name : String) : Finding where
  code := .naming
  message := "state " ++ quoted name ++ " is not snake_case"
  state := some name
  suggestion := "rename it to " ++ quoted (String.ofList (toSnakeCase name.toList))

/-- What is found in the names of the states, once for each name. -/
def checkNames (spec : WorkflowSpec) : Report :=
  (dedup spec.stateNames).flatMap fun name =>
    let count := spec.stateNames.count name
    when (1 < count) (duplicateStateFinding name count) ++
      when (!isSnakeCase name.toList) (namingFinding name)

def noInitialFinding : Finding where
  code := .missingInitial
  message := "no initial state declared"
  state := none
  suggestion := "set initial_state to the state the workflow starts in"

def unknownInitialFinding (name : String) : Finding where
  code := .missingInitial
  message := "initial state " ++ quoted name ++ " does not exist"
  state := some name
  suggestion := "declare a state named " ++ quoted name ++ " or fix initial_state"

def checkInitial (spec : WorkflowSpec) : Report :=
  if Text.allBlank spec.initialState then [noInitialFinding]
  else when (!spec.declares spec.initialState) (unknownInitialFinding spec.initialState)

def noFinalFinding : Finding where
  code := .missingFinal
  message := "no final state declared"
  state := none
  suggestion := "add a state with kind = \"final\" or list one in final_states"

def unknownFinalFinding (name : String) : Finding where
  code := .missingFinal
  message := "final state " ++ quoted name ++ " does not exist"
  state := some name
  suggestion := "declare a state named " ++ quoted name ++ " with kind = \"final\""

def checkFinals (spec : WorkflowSpec) : Report :=
  when (finalStates spec).isEmpty noFinalFinding ++
    spec.finalStates.flatMap fun name => when (!spec.declares name) (unknownFinalFinding name)

/-- Suggests the name that was probably meant, or else `otherwise`. -/
def suggestName (spec : WorkflowSpec) (name otherwise : String) : String :=
  match closest? name spec.stateNames with
  | some candidate => "did you mean " ++ quoted candidate ++ "?"
  | none => otherwise

def endpointFinding (spec : WorkflowSpec) (edge : EdgeSpec) (endpoint : String) : Finding where
  code := .missingEndpoint
  message := arrow edge ++ " references unknown state " ++ quoted endpoint
  state := some endpoint
  suggestion := suggestName spec endpoint ("declare a state named " ++ quoted endpoint)

def checkEndpoints (spec : WorkflowSpec) : Report :=
  spec.transitions.flatMap fun edge =>
    [edge.origin, edge.target].flatMap fun endpoint =>
      when (!spec.declares endpoint) (endpointFinding spec edge endpoint)

mutual

/-- The kinds of all actions that are specified in a value, an action before those in its
parameters. An object with a `type` that is no specification of an action is passed over. -/
def kindsIn : Json → List String
  | .array items => kindsInItems items
  | .object fields =>
    match Table.get? "type" fields with
    | some (.string _) =>
      match ActionSpec.ofJson? false (.object fields) with
      | some spec => spec.kind :: kindsInParams fields
      | none => []
    | _ => kindsInFields fields
  | _ => []

def kindsInItems : List Json → List String
  | [] => []
  | item :: items => kindsIn item ++ kindsInItems items

def kindsInFields : List (String × Json) → List String
  | [] => []
  | (_, value) :: fields => kindsIn value ++ kindsInFields fields

def kindsInParams : List (String × Json) → List String
  | [] => []
  | (name, value) :: fields =>
    if name = "params" then
      match value with
      | .object params => kindsInFields params
      | _ => []
    else kindsInParams fields

end

def kindsOf (spec : ActionSpec) : List String :=
  spec.kind :: kindsInFields spec.params

/-- The kinds of actions that a state uses and the registry does not know, each once. -/
def unknownKinds (registry : Registry) (state : StateSpec) : List String :=
  dedup ((state.actions.flatMap kindsOf).filter fun kind => !registry.hasAction kind)

def emptyActionFinding (state : StateSpec) : Finding where
  code := .emptyActionState
  message := "action state " ++ quoted state.name ++ " declares no actions"
  state := some state.name
  suggestion := "add an action (use type = \"noop\" for a placeholder)"

def errorTargetFinding (spec : WorkflowSpec) (state : StateSpec) (target : String) : Finding where
  code := .unknownErrorTarget
  message := "error target " ++ quoted target ++ " of state " ++ quoted state.name ++
    " does not exist"
  state := some state.name
  suggestion := suggestName spec target "point on_error at an existing state"

def stateKindFinding (registry : Registry) (state : StateSpec) : Finding where
  code := .unknownType
  message := "state " ++ quoted state.name ++ " has unknown kind " ++ quoted state.kind
  state := some state.name
  suggestion := "use one of: " ++ String.intercalate ", " registry.stateKinds

def actionKindFinding (state : StateSpec) (kind : String) : Finding where
  code := .unknownType
  message := "state " ++ quoted state.name ++ " uses unknown action type " ++ quoted kind
  state := some state.name
  suggestion := "register the action type or use a builtin one"

def checkKinds (registry : Registry) (state : StateSpec) : Report :=
  when (!registry.hasState state.kind) (stateKindFinding registry state) ++
    (unknownKinds registry state).map (actionKindFinding state)

def checkState (spec : WorkflowSpec) (known : Option Registry) (state : StateSpec) : Report :=
  when (state.kind == "action" && state.actions.isEmpty) (emptyActionFinding state) ++
    (state.onError.toList.flatMap fun target =>
      when (!spec.declares target) (errorTargetFinding spec state target)) ++
    known.toList.flatMap (checkKinds · state)

def conditionFinding (edge : EdgeSpec) : Finding where
  code := .invalidCondition
  message := arrow edge ++ " has invalid condition " ++ quoted edge.condition
  state := some edge.origin
  suggestion := "use key == value, key != value, key, !key, or always"

def duplicateTransitionFinding (edge : EdgeSpec) : Finding where
  code := .duplicateTransition
  message := arrow edge ++ " is declared more than once"
  state := some edge.origin
  suggestion := "remove the duplicate transition"

def leavesFinalFinding (edge : EdgeSpec) : Finding where
  code := .leavesFinal
  message := arrow edge ++ " leaves a final state and never fires"
  state := some edge.origin
  suggestion := "remove it or make " ++ quoted edge.origin ++ " a non-final state"

def hasValidCondition (edge : EdgeSpec) : Bool :=
  match Condition.parse edge.condition with
  | .ok _ => true
  | .error _ => false

/-- Whether two edges say the same, up to blanks around their conditions. -/
def sameEdge (a b : EdgeSpec) : Bool :=
  a.origin == b.origin && a.target == b.target &&
    Text.trim a.condition.toList == Text.trim b.condition.toList

def checkEdges (spec : WorkflowSpec) (before : List EdgeSpec) : List EdgeSpec → Report
  | [] => []
  | edge :: edges =>
    when (!hasValidCondition edge) (conditionFinding edge) ++
      when (before.any (sameEdge edge)) (duplicateTransitionFinding edge) ++
      when ((finalStates spec).contains edge.origin) (leavesFinalFinding edge) ++
      checkEdges spec (edge :: before) edges

def unreachableFinding (spec : WorkflowSpec) (name : String) : Finding where
  code := .unreachable
  message := "state " ++ quoted name ++ " is unreachable from initial state " ++
    quoted spec.initialState
  state := some name
  suggestion := "add a transition into " ++ quoted name ++ " from a reachable state, or remove it"

def deadEndFinding (name : String) : Finding where
  code := .deadEnd
  message := "non-final state " ++ quoted name ++ " has no outgoing transitions"
  state := some name
  suggestion := "add a transition out of " ++ quoted name ++ " or make it final"

def cycleFinding (name : String) : Finding where
  code := .cycleWithoutExit
  message := "state " ++ quoted name ++ " is on a cycle that never reaches a final state"
  state := some name
  suggestion := "add a conditional transition from the cycle to a final state"

/-- The finding on a state that is not final: it has no successor, or it can be reached and lies on
a cycle from which no final state can be reached. -/
def checkExit (graph : Graph) (reachable exits : List String) (name : String) : Report :=
  if (graph.successors name).isEmpty then [deadEndFinding name]
  else
    when (reachable.contains name && !exits.contains name && graph.onCycle name)
      (cycleFinding name)

def checkGraph (spec : WorkflowSpec) : Report :=
  let graph := Graph.ofSpec spec
  let finals := finalStates spec
  (graph.unreachableFrom spec.initialState).map (unreachableFinding spec) ++
    (graph.states.filter fun name => !finals.contains name).flatMap
      (checkExit graph (graph.reachableFrom spec.initialState) (graph.canReach finals))

end Workflow.Lint

namespace Workflow

/-- All findings on a specification; with a registry, kinds are checked too. -/
def lint (known : Option Registry) (spec : WorkflowSpec) : Lint.Report :=
  Lint.checkNames spec ++ Lint.checkInitial spec ++ Lint.checkFinals spec ++
    Lint.checkEndpoints spec ++ spec.states.flatMap (Lint.checkState spec known) ++
    Lint.checkEdges spec [] spec.transitions ++
    if spec.declares spec.initialState then Lint.checkGraph spec else []

end Workflow
