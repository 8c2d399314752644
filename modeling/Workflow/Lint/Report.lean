import Workflow.Json.Basic

/-!
# Findings

What is found in a specification: errors, which keep it from being built or from completing, and
warnings. Each finding has a code, and a suggestion for mending it.
-/

namespace Workflow.Lint

/-- The codes of the findings: those with `E` are errors, those with `W` warnings. -/
inductive Code where
  | duplicateState
  | missingInitial
  | missingFinal
  | missingEndpoint
  | emptyActionState
  | unreachable
  | unknownErrorTarget
  | invalidCondition
  | deadEnd
  | duplicateTransition
  | cycleWithoutExit
  | naming
  | leavesFinal
  | unknownType
  deriving DecidableEq, Repr

inductive Severity where
  | error
  | warning
  deriving DecidableEq, Repr

def Severity.text : Severity → String
  | error => "error"
  | warning => "warning"

namespace Code

def text : Code → String
  | duplicateState => "E001"
  | missingInitial => "E002"
  | missingFinal => "E003"
  | missingEndpoint => "E004"
  | emptyActionState => "E005"
  | unreachable => "E006"
  | unknownErrorTarget => "E007"
  | invalidCondition => "E008"
  | deadEnd => "W001"
  | duplicateTransition => "W002"
  | cycleWithoutExit => "W003"
  | naming => "W004"
  | leavesFinal => "W005"
  | unknownType => "W006"

def severity : Code → Severity
  | duplicateState | missingInitial | missingFinal | missingEndpoint | emptyActionState
  | unreachable | unknownErrorTarget | invalidCondition => .error
  | deadEnd | duplicateTransition | cycleWithoutExit | naming | leavesFinal | unknownType =>
    .warning

end Code

structure Finding where
  code : Code
  message : String
  /-- The state that the finding is about, if there is one. -/
  state : Option String
  suggestion : String
  deriving DecidableEq, Repr

namespace Finding

def severity (finding : Finding) : Severity :=
  finding.code.severity

def text (finding : Finding) : String :=
  finding.severity.text ++ "[" ++ finding.code.text ++ "]: " ++ finding.message ++ "\n  help: " ++
    finding.suggestion

def fields (finding : Finding) : List (String × Json) :=
  [("code", .string finding.code.text), ("severity", .string finding.severity.text),
    ("message", .string finding.message)] ++
    (finding.state.map fun state => ("state", Json.string state)).toList ++
    [("suggestion", .string finding.suggestion)]

end Finding

abbrev Report := List Finding

namespace Report

def errors (report : Report) : List Finding :=
  report.filter (·.severity == .error)

def warnings (report : Report) : List Finding :=
  report.filter (·.severity == .warning)

def hasErrors (report : Report) : Bool :=
  !report.errors.isEmpty

def isClean (report : Report) : Bool :=
  report.isEmpty

def withCode (report : Report) (code : Code) : List Finding :=
  report.filter (·.code == code)

end Report

end Workflow.Lint
