import Workflow.Fault.Basic
import Workflow.Json.Record
import Workflow.Span.Reading
import Workflow.Spec.Codec

/-!
# Typed parameters

Parameters are JSON values. Each accessor reads one of them as a type: integers also take floats
without a fraction, floats also take integers, and spans take text with a unit or a number of
seconds. A parameter that is missing or of another type is reported with the name of its owner.
-/

namespace Workflow

structure Params where
  owner : String
  values : Data

namespace Params

variable (p : Params)

def missing (key : String) : Fault :=
  .parameter (p.owner ++ "." ++ key) .missing

/-- A parameter that is there but is not of the expected type. -/
def mismatch (key expected : String) : Fault :=
  .parameter (p.owner ++ "." ++ key) (.typeMismatch expected)

def has (key : String) : Bool :=
  p.values.has key

def value? (key : String) : Option Json :=
  p.values.get? key

def optional {α : Type} (key expected : String) (read? : Json → Option α) :
    Except Fault (Option α) :=
  match p.value? key with
  | none => .ok none
  | some value =>
    match read? value with
    | some result => .ok (some result)
    | none => .error (p.mismatch key expected)

def require {α : Type} (key : String) (read : Except Fault (Option α)) : Except Fault α :=
  match read with
  | .ok (some result) => .ok result
  | .ok none => .error (p.missing key)
  | .error fault => .error fault

def value (key : String) : Except Fault Json :=
  p.require key (.ok (p.value? key))

def string? (key : String) : Except Fault (Option String) :=
  p.optional key "string" Json.string?

def string (key : String) : Except Fault String :=
  p.require key (p.string? key)

def bool? (key : String) : Except Fault (Option Bool) :=
  p.optional key "bool" Json.bool?

def bool (key : String) : Except Fault Bool :=
  p.require key (p.bool? key)

/-- A whole number: an integer of 64 bits with sign, or a float without a fraction below `2 ^ 63`
in magnitude. -/
def wholeNumber? (json : Json) : Option Int :=
  match json.asInt? with
  | some n => some n
  | none =>
    match json.asFloat? with
    | some x =>
      if x.floor == x && x.abs < 9223372036854775808.0 then some x.toInt64.toInt else none
    | none => none

def int? (key : String) : Except Fault (Option Int) :=
  p.optional key "integer" wholeNumber?

def int (key : String) : Except Fault Int :=
  p.require key (p.int? key)

/-- A whole number from zero to `2 ^ 32 - 1`. -/
def count? (key : String) : Except Fault (Option Nat) :=
  match p.int? key with
  | .ok none => .ok none
  | .ok (some n) =>
    if 0 ≤ n && n < 0x100000000 then .ok (some n.toNat)
    else .error (p.mismatch key "non-negative integer")
  | .error fault => .error fault

def float? (key : String) : Except Fault (Option Float) :=
  p.optional key "number" Json.asFloat?

def float (key : String) : Except Fault Float :=
  p.require key (p.float? key)

def spanOf? (json : Json) : Option Span :=
  match json with
  | .string text => Span.read? text
  | json => json.asFloat?.bind Span.ofSecondsFloat?

def span? (key : String) : Except Fault (Option Span) :=
  p.optional key "duration" spanOf?

def strings? (key : String) : Except Fault (Option (List String)) :=
  p.optional key "list of strings" (Json.items? Json.string?)

def actions (key : String) : Except Fault (List ActionSpec) :=
  p.require key (p.optional key "list of actions" (Json.items? (ActionSpec.ofJson? false)))

/-- An action specification; it has to be an object here. -/
def actionOf? : Json → Option ActionSpec
  | .object fields => ActionSpec.ofJson? false (.object fields)
  | _ => none

def action? (key : String) : Except Fault (Option ActionSpec) :=
  match p.value? key with
  | some .null => .ok none
  | _ => p.optional key "action" actionOf?

def action (key : String) : Except Fault ActionSpec :=
  p.require key (p.action? key)

def fields? : Json → Option Data
  | .object fields => some fields
  | _ => none

def tables (key : String) : Except Fault (List Data) :=
  p.require key (p.optional key "list of tables" (Json.items? fields?))

end Params

end Workflow
