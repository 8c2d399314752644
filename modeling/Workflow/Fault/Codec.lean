import Workflow.Fault.Basic
import Workflow.Json.Basic
import Workflow.Table

/-!
# Faults as JSON

A fault is described by an object: `kind` names its kind, `text` holds its state, name, message or
context, and further fields hold what else the kind has. Texts that are left out are empty, and a
description that names no known kind is a failed action.
-/

namespace Workflow

def Violation.ofName : String → Violation
  | "UniqueName" => uniqueName
  | "MissingEndpoint" => missingEndpoint
  | "MissingField" => missingField
  | _ => invalidValue

namespace Fault

def textField (fields : Table Json) (name : String) : String :=
  match fields.get? name with
  | some (.string s) => s
  | _ => ""

def numberField (fields : Table Json) (name : String) : Nat :=
  match fields.get? name with
  | some (.int n) => n.toNat
  | _ => 0

/-- The fault that an object describes, given the faults that its fields describe. -/
def ofFields (fields : Table Json) (single : Table Fault) (several : Table (List Fault)) : Fault :=
  let text := textField fields
  let main := text "text"
  let source := (single.get? "source").getD (failed "")
  match text "kind" with
  | "StateNotFound" => stateNotFound main
  | "TransitionNotFound" => noTransition main
  | "Transition" => transition (text "from") (text "to") source
  | "State" => state main source
  | "Cancelled" => cancelled main
  | "DeadlineExceeded" => deadline main
  | "StepLimitExceeded" => stepLimit main (numberField fields "limit")
  | "ConfigValidation" => invalid (Violation.ofName (text "config_kind")) main
  | "Config" => config main
  | "ConfigNotFound" => configNotFound main
  | "UnknownType" => unknownType (text "category") main
  | "Parameter" =>
    match fields.get? "expected" with
    | some (.string expected) => parameter main (.typeMismatch expected)
    | _ => parameter main .missing
  | "Expression" => expression main
  | "Action" => action main source
  | "Permanent" => permanent source
  | "RetryExhausted" => exhausted main (numberField fields "attempts") source
  | "Aggregate" => aggregate main ((several.get? "errors").getD [])
  | "Io" => io main
  | _ => failed main

mutual

def ofJson : Json → Fault
  | .object fields => ofFields fields (fieldFaults fields) (fieldLists fields)
  | _ => failed ""

def ofItems : Json → List Fault
  | .array items => itemFaults items
  | _ => []

def itemFaults : List Json → List Fault
  | [] => []
  | item :: items => ofJson item :: itemFaults items

def fieldFaults : List (String × Json) → Table Fault
  | [] => []
  | (name, value) :: fields => (name, ofJson value) :: fieldFaults fields

def fieldLists : List (String × Json) → Table (List Fault)
  | [] => []
  | (name, value) :: fields => (name, ofItems value) :: fieldLists fields

end

/-- What a report on a fault tells: its kind and message, the kinds of its causes, whether an
interrupt or a permanent failure is among them, and the message of its root. -/
def toJson (fault : Fault) : Json :=
  .object [("error", fault.kind), ("interrupt", fault.isInterrupt), ("message", fault.message),
    ("permanent", fault.isPermanentFailure), ("root", fault.root.message), ("shape", fault.shape)]

end Fault

end Workflow
