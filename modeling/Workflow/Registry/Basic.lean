import Workflow.Spec.Basic
import Workflow.Table

/-!
# Registries

A registry says what each kind of action and state in a specification means. The built-in kinds make
up workflows; the trial kinds beside them follow a script, so that a workflow can be tried out.
-/

namespace Workflow

inductive ActionKind where
  | noop
  | set
  | copy
  | fail
  | delay
  | log
  | sequence
  | conditional
  | choice
  | retry
  | retryWithBackoff
  | fallback
  | validated
  | parallel
  | progressive
  /-- An action without effect, of the given name whatever its specification says. -/
  | named (name : String)
  | flaky
  | mark
  | cancel
  | raise
  | failPermanently
  | testedConditional
  | testedChoice
  | testedValidated
  | testedProgressive
  | retryWithPolicy
  deriving DecidableEq, Repr

inductive StateKind where
  | action
  | conditional
  | final
  /-- A state with a fixed verdict. -/
  | verdict
  /-- Another name of a kind. -/
  | alias (kind : String)
  deriving DecidableEq, Repr

structure Registry where
  actions : Table ActionKind := []
  states : Table StateKind := []
  deriving Inhabited

namespace Registry

def empty : Registry := {}

/-- Gives a meaning to a kind of action, in place of any earlier one. -/
def registerAction (r : Registry) (kind : String) (meaning : ActionKind) : Registry :=
  { r with actions := r.actions.put kind meaning }

/-- Gives a meaning to a kind of state, in place of any earlier one. -/
def registerState (r : Registry) (kind : String) (meaning : StateKind) : Registry :=
  { r with states := r.states.put kind meaning }

def hasAction (r : Registry) (kind : String) : Bool :=
  r.actions.has kind

def hasState (r : Registry) (kind : String) : Bool :=
  r.states.has kind

def actionKinds (r : Registry) : List String :=
  r.actions.names

def stateKinds (r : Registry) : List String :=
  r.states.names

def builtinActions : List (String × ActionKind) :=
  [("noop", .noop), ("set", .set), ("copy", .copy), ("fail", .fail), ("delay", .delay),
    ("log", .log), ("sequence", .sequence), ("conditional", .conditional),
    ("conditional_branch", .choice), ("retry", .retry), ("retry_with_backoff", .retryWithBackoff),
    ("try_with_fallback", .fallback), ("validated_sequence", .validated), ("parallel", .parallel),
    ("progressive", .progressive)]

def builtinStates : List (String × StateKind) :=
  [("action", .action), ("conditional", .conditional), ("final", .final)]

def builtins : Registry where
  actions := .ofEntries builtinActions
  states := .ofEntries builtinStates

def trialActions : List (String × ActionKind) :=
  [("scripted", .flaky), ("marker", .mark), ("cancel", .cancel), ("raise", .raise),
    ("x_fail", .failPermanently), ("x_conditional", .testedConditional),
    ("x_branch", .testedChoice), ("x_validated", .testedValidated),
    ("x_progressive", .testedProgressive), ("x_retry", .retryWithPolicy)]

def trial : Registry where
  actions := builtins.actions.merge trialActions
  states := builtins.states.put "result" .verdict

end Registry

end Workflow
