/-!
# Faults

Everything that can go wrong, as a tree of causes: a fault may wrap the one that made it happen, and
an aggregate holds several side by side.
-/

namespace Workflow

inductive Violation where
  | uniqueName
  | missingEndpoint
  | missingField
  | invalidValue
  deriving DecidableEq, Repr

def Violation.text : Violation → String
  | uniqueName => "unique-name"
  | missingEndpoint => "missing-endpoint"
  | missingField => "missing-required-field"
  | invalidValue => "invalid-value"

inductive Misfit where
  | missing
  | typeMismatch (expected : String)
  deriving DecidableEq, Repr

def Misfit.text : Misfit → String
  | missing => "parameter not found"
  | typeMismatch expected => "type mismatch, expected " ++ expected

inductive Fault where
  | stateNotFound (state : String)
  | noTransition (origin : String)
  | transition (origin target : String) (cause : Fault)
  | state (state : String) (cause : Fault)
  | cancelled (place : String)
  | deadline (place : String)
  | stepLimit (state : String) (limit : Nat)
  | invalid (violation : Violation) (message : String)
  | config (message : String)
  | configNotFound (path : String)
  | unknownType (category kind : String)
  | parameter (name : String) (misfit : Misfit)
  | expression (text : String)
  | action (action : String) (cause : Fault)
  | failed (message : String)
  | permanent (cause : Fault)
  | exhausted (action : String) (attempts : Nat) (cause : Fault)
  | aggregate (context : String) (faults : List Fault)
  | io (message : String)
  deriving Inhabited

namespace Fault

def kind : Fault → String
  | stateNotFound _ => "StateNotFound"
  | noTransition _ => "TransitionNotFound"
  | transition .. => "Transition"
  | state .. => "State"
  | cancelled _ => "Cancelled"
  | deadline _ => "DeadlineExceeded"
  | stepLimit .. => "StepLimitExceeded"
  | invalid .. => "ConfigValidation"
  | config _ => "Config"
  | configNotFound _ => "ConfigNotFound"
  | unknownType .. => "UnknownType"
  | parameter .. => "Parameter"
  | expression _ => "Expression"
  | action .. => "Action"
  | failed _ => "ActionFailed"
  | permanent _ => "Permanent"
  | exhausted .. => "RetryExhausted"
  | aggregate .. => "Aggregate"
  | io _ => "Io"

mutual

def message : Fault → String
  | stateNotFound name => "State not found: " ++ name
  | noTransition origin => "No transition matched from state: " ++ origin
  | transition origin target cause =>
    "Transition " ++ origin ++ " -> " ++ target ++ " failed: " ++ message cause
  | state name cause => "State " ++ name ++ " failed: " ++ message cause
  | cancelled place => "Cancelled: " ++ place
  | deadline place => "Deadline exceeded: " ++ place
  | stepLimit name limit => "Step limit of " ++ toString limit ++ " reached in state: " ++ name
  | invalid violation text => "Config validation failed (" ++ violation.text ++ "): " ++ text
  | config text => "Config error: " ++ text
  | configNotFound path => "Config file not found: " ++ path
  | unknownType category kind => "Unknown " ++ category ++ " type: " ++ kind
  | parameter name misfit => "Parameter " ++ name ++ ": " ++ misfit.text
  | expression text => "Invalid condition expression: " ++ text
  | action name cause => "Action " ++ name ++ " failed: " ++ message cause
  | failed text => text
  | permanent cause => "Permanent error: " ++ message cause
  | exhausted name attempts cause =>
    "Action " ++ name ++ " failed after " ++ toString attempts ++ " attempts: " ++ message cause
  | aggregate context faults =>
    context ++ ": " ++ toString faults.length ++ " error(s): " ++
      String.intercalate "; " (messages faults)
  | io text => "I/O error: " ++ text

def messages : List Fault → List String
  | [] => []
  | fault :: faults => message fault :: messages faults

end

/-- The faults that this one wraps directly. -/
def causes : Fault → List Fault
  | transition _ _ cause | state _ cause | action _ cause | permanent cause | exhausted _ _ cause =>
    [cause]
  | aggregate _ faults => faults
  | _ => []

mutual

/-- The fault with all that it wraps at any depth. -/
def tree : Fault → List Fault
  | transition origin target cause => transition origin target cause :: tree cause
  | state name cause => state name cause :: tree cause
  | action name cause => action name cause :: tree cause
  | permanent cause => permanent cause :: tree cause
  | exhausted name attempts cause => exhausted name attempts cause :: tree cause
  | aggregate context faults => aggregate context faults :: trees faults
  | fault => [fault]

def trees : List Fault → List Fault
  | [] => []
  | fault :: faults => tree fault ++ trees faults

end

def anyCause (p : Fault → Bool) (fault : Fault) : Bool :=
  fault.tree.any p

def isPermanent : Fault → Bool
  | permanent _ => true
  | _ => false

/-- Whether the fault or anything it wraps asks not to be retried. -/
def isPermanentFailure (fault : Fault) : Bool :=
  fault.anyCause isPermanent

/-- Whether a cancellation or a deadline is among the causes. -/
def isInterrupt (fault : Fault) : Bool :=
  fault.anyCause fun
    | cancelled _ | deadline _ => true
    | _ => false

mutual

def root : Fault → Fault
  | transition _ _ cause | state _ cause | action _ cause | permanent cause | exhausted _ _ cause =>
    root cause
  | aggregate context faults => rootOf (aggregate context faults) faults
  | fault => fault

def rootOf (self : Fault) : List Fault → Fault
  | [] => self
  | fault :: _ => root fault

end

/-- Parts in parentheses, nothing when there are none. -/
def nested (parts : List String) : String :=
  if parts.isEmpty then "" else "(" ++ String.intercalate "," parts ++ ")"

mutual

/-- The kinds of the fault and of its causes, nested as they are. -/
def shape : Fault → String
  | aggregate context faults =>
    (aggregate context faults).kind ++ nested (shapes faults)
  | transition _ _ cause => "Transition" ++ nested [shape cause]
  | state _ cause => "State" ++ nested [shape cause]
  | action _ cause => "Action" ++ nested [shape cause]
  | permanent cause => "Permanent" ++ nested [shape cause]
  | exhausted _ _ cause => "RetryExhausted" ++ nested [shape cause]
  | fault => fault.kind

def shapes : List Fault → List String
  | [] => []
  | fault :: faults => shape fault :: shapes faults

end

mutual

/-- The messages of the causes one below the other, following the first one at each step. The text
of an input or output error counts as a cause of its own. -/
def sourceChain : Fault → List String
  | transition _ _ cause | state _ cause | action _ cause | permanent cause | exhausted _ _ cause =>
    message cause :: sourceChain cause
  | aggregate _ faults => firstChain faults
  | io text => [text]
  | _ => []

def firstChain : List Fault → List String
  | [] => []
  | fault :: _ => message fault :: sourceChain fault

end

end Fault

end Workflow
