import Workflow.Json.Basic
import Workflow.Table

/-!
# Records in JSON

A record is written as an object, with its fields by name, or as an array, with its fields by
position. Unknown names are passed over. A field may be required, have a default, or be optional; an
optional field is also absent when it is `null`.
-/

namespace Workflow.Json

inductive Record where
  | named (fields : Table Json)
  | listed (items : List Json)

namespace Record

/-- The record with `count` fields that a value holds. With `surplus`, an array may be longer than
the record. -/
def ofJson? (surplus : Bool) (count : Nat) : Json → Option Record
  | .object fields => some (named fields)
  | .array items => if surplus || items.length ≤ count then some (listed items) else none
  | _ => none

def field? (record : Record) (position : Nat) (name : String) : Option Json :=
  match record with
  | named fields => fields.get? name
  | listed items => items[position]?

variable {α : Type}

def required? (record : Record) (position : Nat) (name : String) (decode? : Json → Option α) :
    Option α :=
  (record.field? position name).bind decode?

def withDefault? (record : Record) (position : Nat) (name : String) (decode? : Json → Option α)
    (default : α) : Option α :=
  match record.field? position name with
  | some value => decode? value
  | none => some default

def optional? (record : Record) (position : Nat) (name : String) (decode? : Json → Option α) :
    Option (Option α) :=
  match record.field? position name with
  | none | some .null => some none
  | some value => (decode? value).map some

end Record

def string? : Json → Option String
  | string s => some s
  | _ => none

def bool? : Json → Option Bool
  | bool b => some b
  | _ => none

def word? : Json → Option Nat :=
  asNat? 0xFFFFFFFFFFFFFFFF

def halfWord? : Json → Option Nat :=
  asNat? 0xFFFFFFFF

def signedHalfWord? : Json → Option Int
  | int n => if -0x80000000 ≤ n && n < 0x80000000 then some n else none
  | _ => none

def items? {α : Type} (decode? : Json → Option α) : Json → Option (List α)
  | array items => items.mapM decode?
  | _ => none

/-- The fields of an object, with `null` for numbers that are not finite. -/
def table? : Json → Option (Table Json)
  | object fields => some (finiteFields fields)
  | _ => none

def ofOption {α : Type} (encode : α → Json) : Option α → Json
  | some value => encode value
  | none => null

end Workflow.Json
