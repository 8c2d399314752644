import Workflow.Engine.Assembly
import Workflow.Engine.Run
import Workflow.Json.Reader
import Workflow.Lint.Checks
import Workflow.Spec.Source

/-!
# Commands

What can be asked on the command line: to show a workflow, to lint it or to run it. A command gets
the text of a workflow and gives what to print and a code to exit with.
-/

namespace Workflow

structure RunOptions where
  /-- Data to start with, as `key=value`. -/
  assignments : List String := []
  session : Option String := none
  maxSteps : Option Nat := none

inductive Command where
  | display
  | lint (json : Bool)
  | run (options : RunOptions)

structure Output where
  code : Nat := 0
  stdout : String := ""
  stderr : String := ""
  /-- How many milliseconds the workflow took. -/
  elapsed : Nat := 0

/-- What a command finds: the file, the variables, a session id to fall back on, and what may be
drawn at random. -/
structure Surroundings where
  path : String
  source : Source
  env : Table String
  freshSession : String
  draws : Draws := default

namespace Command

/-- The value of an option, if `arg` is the option with its value attached. -/
def attached? (option arg : String) : Option String :=
  let lead := (option ++ "=").toList
  if lead.isPrefixOf arg.toList then some (String.ofList (arg.toList.drop lead.length)) else none

def readCount? (text : String) : Option Nat :=
  let digits := match text.toList with
    | '+' :: cs => cs
    | cs => cs
  let n := Decimal.ofDigits digits
  if !digits.isEmpty && digits.all Char.isDigit && n < 0x10000000000000000 then some n else none

def readRunOptions? (options : RunOptions) : List String → Option RunOptions
  | [] => some options
  | "--set" :: value :: args =>
    readRunOptions? { options with assignments := options.assignments ++ [value] } args
  | "--session" :: value :: args => readRunOptions? { options with session := some value } args
  | "--max-steps" :: value :: args =>
    (readCount? value).bind fun n => readRunOptions? { options with maxSteps := some n } args
  | arg :: args =>
    match attached? "--set" arg, attached? "--session" arg, attached? "--max-steps" arg with
    | some value, _, _ =>
      readRunOptions? { options with assignments := options.assignments ++ [value] } args
    | _, some value, _ => readRunOptions? { options with session := some value } args
    | _, _, some value =>
      (readCount? value).bind fun n => readRunOptions? { options with maxSteps := some n } args
    | _, _, _ => none

def read? (name : String) (args : List String) : Option Command :=
  match name, args with
  | "show", [] => some display
  | "lint", [] => some (lint false)
  | "lint", ["--json"] => some (lint true)
  | "run", args => (readRunOptions? {} args).map run
  | _, _ => none

def indent (first rest text : String) : String :=
  first ++ String.intercalate ("\n" ++ rest) (text.splitOn "\n")

def padLeft (width : Nat) (text : String) : String :=
  String.ofList (List.replicate (width - text.length) ' ') ++ text

/-- The causes of a failure, one in a line; several are numbered. -/
def causeLines (causes : List String) : List String :=
  match causes with
  | [cause] => [indent "    " "    " cause]
  | causes =>
    causes.zipIdx.map fun (cause, i) => indent (padLeft 5 (toString i) ++ ": ") "       " cause

def failureText (message : String) (causes : List String) : String :=
  let listed := if causes.isEmpty then [] else ["", "Caused by:"] ++ causeLines causes
  String.intercalate "\n" (("Error: " ++ message) :: listed) ++ "\n"

def failWith (message : String) (causes : List String := []) : Output :=
  { code := 1, stderr := failureText message causes }

def failWithFault (fault : Fault) : Output :=
  failWith fault.message fault.sourceChain

def stateLines (spec : WorkflowSpec) (state : StateSpec) : List String :=
  let mark := if state.isFinal || spec.listsFinal state.name then " (final)" else ""
  let actions :=
    if state.actions.isEmpty then ""
    else " -> " ++ String.intercalate ", " (state.actions.map ActionSpec.name)
  ("  " ++ state.name ++ " [" ++ state.kind ++ "]" ++ mark ++ actions) ::
    (state.onError.map ("      on_error: " ++ ·)).toList

def edgeLine (edge : EdgeSpec) : String :=
  "  " ++ edge.origin ++ " -> " ++ edge.target ++ "  [" ++ edge.condition ++ "]"

def printed (lines : List String) : String :=
  String.join (lines.map (· ++ "\n"))

def overview (spec : WorkflowSpec) : String :=
  printed (["Workflow: " ++ spec.name, "Initial:  " ++ spec.initialState, "", "States:"] ++
    spec.states.flatMap (stateLines spec) ++ ["", "Transitions:"] ++
    spec.transitions.map edgeLine)

def lintText (spec : WorkflowSpec) (report : Lint.Report) : String :=
  if report.isClean then printed [spec.name ++ ": no findings"]
  else
    printed (report.map Lint.Finding.text ++
      ["", toString report.errors.length ++ " error(s), " ++ toString report.warnings.length ++
        " warning(s)"])

def lintJson (report : Lint.Report) : String :=
  printed [(Json.array (report.map fun finding => .object finding.fields)).pretty 0]

def lintOutput (json : Bool) (spec : WorkflowSpec) : Output :=
  let report := Workflow.lint (some .builtins) spec
  { code := if report.hasErrors then 1 else 0
    stdout := if json then lintJson report else lintText spec report }

/-- The key and the value of an assignment: the value is JSON if it can be read as such, and the
text itself otherwise. -/
def readAssignment (assignment : String) : Except String (String × Json) :=
  match assignment.toList.span (· != '=') with
  | (_, []) => .error ("expected KEY=VALUE, got '" ++ assignment ++ "'")
  | (key, _ :: value) =>
    let key := Text.trim key
    let value := String.ofList value
    if key.isEmpty then .error ("empty key in '" ++ assignment ++ "'")
    else .ok (String.ofList key, (Json.read? value).getD value)

def readAssignments (assignments : List String) : Except String Data := do
  return .ofEntries (← assignments.mapM readAssignment)

def runOutput (finished : Finished) : Output :=
  let failure : Output := match finished.outcome with
    | .ok () => {}
    | .error fault => failWithFault fault
  { failure with
    stdout := printed [finished.moment.context.snapshot.pretty 0]
    elapsed := finished.moment.now }

def runSpec (fuel : Nat) (around : Surroundings) (options : RunOptions) (spec : WorkflowSpec) :
    Option Output :=
  match (Engine.ofSpec .builtins [.tracing] options.maxSteps spec).2,
      readAssignments options.assignments with
  | .error fault, _ => some (failWithFault fault)
  | .ok _, .error message => some (failWith message)
  | .ok engine, .ok data =>
    let session := (options.session.or (around.env.get? "WAYPOINT_SESSION")).getD
      around.freshSession
    let context : Context := { identity := { session }, data, draws := around.draws }
    (engine.carryOut fuel none { context }).map runOutput

/-- Carries out a command; nothing if a run is not over after `fuel` steps and rounds. -/
def execute (fuel : Nat) (around : Surroundings) (command : Command) : Option Output :=
  match WorkflowSpec.ofSource around.path around.env around.source with
  | .error fault =>
    some (failWith ("loading " ++ around.path) (fault.message :: fault.sourceChain))
  | .ok spec =>
    match command with
    | display => some { stdout := overview spec }
    | lint json => some (lintOutput json spec)
    | run options => runSpec fuel around options spec

end Command

end Workflow
