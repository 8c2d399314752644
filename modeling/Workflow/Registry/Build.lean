import Workflow.Action.Basic
import Workflow.Params
import Workflow.Registry.Basic
import Workflow.Retry.Codec
import Workflow.State

/-!
# Building actions and states

An action is built from its specification as its kind says, with the specifications among its
parameters built first or on the way. The parameters are read in a fixed order, and the first one
that does not fit is reported.
-/

namespace Workflow

mutual

def Json.depth : Json → Nat
  | array items => Json.itemsDepth items + 1
  | object fields => Json.fieldsDepth fields + 1
  | _ => 0

def Json.itemsDepth : List Json → Nat
  | [] => 0
  | item :: items => max item.depth (Json.itemsDepth items)

def Json.fieldsDepth : List (String × Json) → Nat
  | [] => 0
  | (_, value) :: fields => max value.depth (Json.fieldsDepth fields)

end

namespace ActionSpec

/-- More than the number of specifications that are nested in this one. -/
def depth (spec : ActionSpec) : Nat :=
  Json.fieldsDepth spec.params + 1

def parameters (spec : ActionSpec) : Params :=
  ⟨spec.name, spec.params⟩

end ActionSpec

namespace Params

variable (p : Params)

def condition (key : String) : Except Fault Predicate := do
  return .condition (← Condition.parse (← p.string key))

def condition? (key : String) : Except Fault (Option Predicate) := do
  match ← p.string? key with
  | some text => return some (.condition (← Condition.parse text))
  | none => return none

def predicate? (key : String) : Except Fault (Option Predicate) :=
  match p.value? key with
  | some description => (Predicate.ofJson description).map some
  | none => .ok none

def predicate (key : String) : Except Fault Predicate := do
  return (← p.predicate? key).getD (.constant false)

def fault? (key : String) : Option Fault :=
  (p.value? key).map Fault.ofJson

def part (key : String) (i : Nat) (values : Data) : Params :=
  ⟨p.owner ++ "." ++ key ++ "[" ++ toString i ++ "]", values⟩

def parts {α : Type} (key : String) (read : Params → Except Fault α) : Except Fault (List α) := do
  (← p.tables key).zipIdx.mapM fun (values, i) => read (p.part key i values)

end Params

namespace ActionKind

abbrev Builder := ActionSpec → Except Fault Action

def buildOptional (build : Builder) (p : Params) (key : String) : Except Fault (Option Action) := do
  match ← p.action? key with
  | some spec => return some (← build spec)
  | none => return none

def buildRequired (build : Builder) (p : Params) (key : String) : Except Fault Action := do
  build (← p.action key)

def buildSet (name : String) (p : Params) : Except Fault Action := do
  let key ← p.string "key"
  let value ← p.value "value"
  return .leaf name (.set key value)

def buildCopy (name : String) (p : Params) : Except Fault Action := do
  let origin ← p.string "from"
  let target ← p.string "to"
  return .leaf name (.copy origin target)

def buildFail (name : String) (p : Params) : Except Fault Action := do
  let message := (← p.string? "message").getD "action failed"
  let permanent := (← p.bool? "permanent").getD false
  return .leaf name (.fail message permanent)

def buildDelay (name : String) (p : Params) : Except Fault Action := do
  return .leaf name (.delay ((← p.span? "duration").getD .zero))

def buildLog (name : String) (p : Params) : Except Fault Action := do
  return .leaf name (.log (← p.string "message"))

def buildSequence (build : Builder) (name : String) (p : Params) : Except Fault Action := do
  return .sequence name (← (← p.actions "actions").mapM build)

def buildConditional (build : Builder) (name : String) (p : Params) : Except Fault Action := do
  let test ← p.condition "condition"
  let yes ← buildOptional build p "then"
  let no ← buildOptional build p "else"
  return .conditional name test yes no

def buildChoice (build : Builder) (name : String) (p : Params) : Except Fault Action := do
  let branches ← p.parts "branches" fun part => do
    let test ← part.condition "condition"
    let action ← buildRequired build part "action"
    return { action, test := some test }
  let default ← buildOptional build p "default"
  return .choice name branches default

def buildRetry (build : Builder) (name : String) (p : Params) : Except Fault Action := do
  let body ← buildRequired build p "action"
  let maxAttempts := (← p.count? "max_retries").getD 3
  let step := (← p.span? "backoff").getD (.ofSeconds 1)
  return .retry name { maxAttempts, backoff := .linear step } .nothing false body

def backoffPolicy (p : Params) : Except Fault RetryPolicy := do
  let base := (← p.span? "base_delay").getD (.ofMillis 1000)
  let factor := (← p.float? "factor").getD 2.0
  let most := (← p.span? "max_delay").getD (.ofSeconds 30)
  let maxAttempts := (← p.count? "max_attempts").getD 3
  let jitter := match ← p.float? "jitter" with
    | some spread => .proportional spread
    | none => .none
  let attemptTimeout ← p.span? "attempt_timeout"
  return { maxAttempts, backoff := .exponential base factor most, jitter, attemptTimeout }

def buildRetryWithBackoff (build : Builder) (name : String) (p : Params) :
    Except Fault Action := do
  let policy ← backoffPolicy p
  let body ← buildRequired build p "action"
  let veto := match ← p.strings? "non_retryable" with
    | some parts => .messages parts
    | none => .nothing
  return .retry name policy veto true body

def buildFallback (build : Builder) (name : String) (p : Params) : Except Fault Action := do
  let primary ← buildRequired build p "primary"
  let secondary ← buildRequired build p "fallback"
  return .fallback name primary secondary

def buildValidated (build : Builder) (name : String) (p : Params) : Except Fault Action := do
  let steps ← p.parts "steps" fun part => do
    let action ← buildRequired build part "action"
    let test ← part.condition? "validator"
    return { action, test }
  let continueOnError := (← p.bool? "continue_on_error").getD false
  return .validated name steps continueOnError

def mergeStrategy (p : Params) : Except Fault MergeStrategy := do
  match ← p.string? "merge" with
  | none => return .all
  | some text =>
    match MergeStrategy.ofName? text with
    | some strategy => return strategy
    | none => throw (p.mismatch "merge" "first | majority | all")

def buildParallel (build : Builder) (name : String) (p : Params) : Except Fault Action := do
  let strategy ← mergeStrategy p
  let branches ← (← p.actions "actions").mapM build
  let continueOnError := (← p.bool? "continue_on_error").getD false
  return .parallel name branches strategy continueOnError

def buildProgressive (build : Builder) (name : String) (p : Params) : Except Fault Action := do
  let steps ← p.parts "steps" fun part => do
    let action ← buildRequired build part "action"
    let test ← part.condition? "condition"
    let required := (← part.bool? "required").getD false
    return { action, test, required }
  return .progressive name steps

/-- Without a number of failures the action never succeeds. -/
def buildFlaky (name : String) (p : Params) : Except Fault Action := do
  let failures := (← p.count? "failures").getD 0xFFFFFFFF
  let permanent := (← p.bool? "permanent").getD false
  return .leaf name (.flaky failures permanent)

def buildMark (name : String) (p : Params) : Except Fault Action :=
  .ok (.leaf name (.mark (((p.value? "extra").bind Params.fields?).getD [])))

def buildFailPermanently (name : String) (p : Params) : Except Fault Action := do
  return .leaf name (.fail ((← p.string? "message").getD "") true)

def buildTestedConditional (build : Builder) (name : String) (p : Params) :
    Except Fault Action := do
  let test ← p.predicate "pred"
  let yes ← buildOptional build p "then"
  let no ← buildOptional build p "else"
  return .conditional name test yes no

def buildTestedChoice (build : Builder) (name : String) (p : Params) : Except Fault Action := do
  let branches ← p.parts "branches" fun part => do
    let test ← part.predicate "pred"
    let action ← buildRequired build part "action"
    return { action, test := some test }
  let default ← buildOptional build p "default"
  return .choice name branches default

def buildTestedSteps (build : Builder) (p : Params) : Except Fault (List (Step Action)) :=
  p.parts "steps" fun part => do
    let action ← buildRequired build part "action"
    let test ← part.predicate? "pred"
    let required := (← part.bool? "required").getD false
    return { action, test, required }

def buildTestedValidated (build : Builder) (name : String) (p : Params) : Except Fault Action := do
  let steps ← buildTestedSteps build p
  let continueOnError := (← p.bool? "continue_on_error").getD false
  return .validated name steps continueOnError

def buildTestedProgressive (build : Builder) (name : String) (p : Params) :
    Except Fault Action := do
  return .progressive name (← buildTestedSteps build p)

def buildRetryWithPolicy (build : Builder) (name : String) (p : Params) : Except Fault Action := do
  let body ← buildRequired build p "action"
  let policy ← p.require "policy" (p.optional "policy" "retry policy" RetryPolicy.ofJson?)
  let veto := match ← p.string? "retry_only_kind" with
    | some kind => .allBut kind
    | none => .nothing
  return .retry name policy veto true body

def build (nested : Builder) (spec : ActionSpec) (kind : ActionKind) : Except Fault Action :=
  let name := spec.name
  let p := spec.parameters
  match kind with
  | noop => .ok (.leaf name .noop)
  | set => buildSet name p
  | copy => buildCopy name p
  | fail => buildFail name p
  | delay => buildDelay name p
  | log => buildLog name p
  | sequence => buildSequence nested name p
  | conditional => buildConditional nested name p
  | choice => buildChoice nested name p
  | retry => buildRetry nested name p
  | retryWithBackoff => buildRetryWithBackoff nested name p
  | fallback => buildFallback nested name p
  | validated => buildValidated nested name p
  | parallel => buildParallel nested name p
  | progressive => buildProgressive nested name p
  | named name => .ok (.leaf name .noop)
  | flaky => buildFlaky name p
  | mark => buildMark name p
  | cancel => .ok (.leaf name (.cancel (p.fault? "error")))
  | raise => .ok (.leaf name (.raise ((p.fault? "error").getD (.failed ""))))
  | failPermanently => buildFailPermanently name p
  | testedConditional => buildTestedConditional nested name p
  | testedChoice => buildTestedChoice nested name p
  | testedValidated => buildTestedValidated nested name p
  | testedProgressive => buildTestedProgressive nested name p
  | retryWithPolicy => buildRetryWithPolicy nested name p

end ActionKind

namespace Registry

/-- Builds an action whose specifications are nested less deep than `fuel`. -/
def buildNested (r : Registry) : (fuel : Nat) → ActionSpec → Except Fault Action
  | 0, spec => .error (.unknownType "action" spec.kind)
  | fuel + 1, spec =>
    match r.actions.get? spec.kind with
    | some kind => kind.build (r.buildNested fuel) spec
    | none => .error (.unknownType "action" spec.kind)

def buildAction (r : Registry) (spec : ActionSpec) : Except Fault Action :=
  r.buildNested spec.depth spec

def buildActions (r : Registry) (specs : List ActionSpec) : Except Fault (List Action) :=
  specs.mapM r.buildAction

/-- The state of an action kind: several actions are run as a sequence with the name of the
state. -/
def buildActionState (r : Registry) (spec : StateSpec) : Except Fault State := do
  match ← r.buildActions spec.actions with
  | [] => throw (.invalid .missingField ("action state " ++ spec.name ++ " has no actions"))
  | [action] => return ⟨spec.name, .perform action⟩
  | actions => return ⟨spec.name, .perform (.sequence spec.name actions)⟩

def buildConditionalState (spec : StateSpec) : Except Fault State := do
  let p : Params := ⟨spec.name, spec.params⟩
  let test ← p.condition? "condition"
  let yes ← p.string? "then"
  let no ← p.string? "else"
  return ⟨spec.name, .route test yes no⟩

def buildVerdictState (spec : StateSpec) : Except Fault State := do
  let p : Params := ⟨spec.name, spec.params⟩
  let next := (← p.string? "next").getD ""
  let complete := (← p.bool? "complete").getD false
  let data := ((p.value? "data").bind Params.fields?).getD []
  return ⟨spec.name, .answer { next, data, complete }⟩

/-- The meaning of a kind of state, behind at most `fuel` other names. -/
def stateKind? (r : Registry) : (fuel : Nat) → String → Except Fault StateKind
  | 0, kind => .error (.unknownType "state" kind)
  | fuel + 1, kind =>
    match r.states.get? kind with
    | some (.alias other) => r.stateKind? fuel other
    | some meaning => .ok meaning
    | none => .error (.unknownType "state" kind)

def buildState (r : Registry) (spec : StateSpec) : Except Fault State := do
  match ← r.stateKind? (r.states.length + 1) spec.kind with
  | .action => r.buildActionState spec
  | .conditional => buildConditionalState spec
  | .final => return ⟨spec.name, .stop⟩
  | .verdict => buildVerdictState spec
  | .alias kind => throw (.unknownType "state" kind)

end Registry

end Workflow
