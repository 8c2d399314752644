import Workflow.Decimal.Shortest
import Workflow.Json.Basic

/-!
# The text of JSON values

Compact text has no blanks; indented text puts each item and field on a line of its own. Only
quotation marks, backslashes and control characters below U+0020 are escaped.
-/

namespace Workflow.Json

/-- Floats are positional while the first digit stands for `10 ^ -5` to `10 ^ 15`. -/
def floatLayout : Decimal.Layout := ⟨-5, 15⟩

def hexDigit (n : Nat) : Char :=
  if n < 10 then Char.ofNat (48 + n) else Char.ofNat (87 + n)

def escape (c : Char) : List Char :=
  if c = '"' then ['\\', '"']
  else if c = '\\' then ['\\', '\\']
  else if c = '\n' then ['\\', 'n']
  else if c = '\r' then ['\\', 'r']
  else if c = '\t' then ['\\', 't']
  else if c.toNat = 8 then ['\\', 'b']
  else if c.toNat = 12 then ['\\', 'f']
  else if c.toNat < 32 then ['\\', 'u', '0', '0', hexDigit (c.toNat / 16), hexDigit (c.toNat % 16)]
  else [c]

def quote (s : String) : String :=
  "\"" ++ String.ofList (s.toList.flatMap escape) ++ "\""

def renderScalar : Json → String
  | null => "null"
  | bool true => "true"
  | bool false => "false"
  | int n => toString n
  | float x => if x.isFinite then floatLayout.writeFloat x else "null"
  | string s => quote s
  | array _ => ""
  | object _ => ""

mutual

def render : Json → String
  | array items => "[" ++ renderItems items ++ "]"
  | object fields => "\x7b" ++ renderFields fields ++ "\x7d"
  | value => renderScalar value

def renderItems : List Json → String
  | [] => ""
  | [item] => render item
  | item :: items => render item ++ "," ++ renderItems items

def renderFields : List (String × Json) → String
  | [] => ""
  | [(name, value)] => quote name ++ ":" ++ render value
  | (name, value) :: fields => quote name ++ ":" ++ render value ++ "," ++ renderFields fields

end

def margin (depth : Nat) : String :=
  "\n" ++ String.ofList (List.replicate (2 * depth) ' ')

mutual

/-- Indented text of a value that stands at nesting depth `depth`. -/
def pretty (depth : Nat) : Json → String
  | array [] => "[]"
  | array items => "[" ++ prettyItems (depth + 1) items ++ margin depth ++ "]"
  | object [] => "\x7b\x7d"
  | object fields => "\x7b" ++ prettyFields (depth + 1) fields ++ margin depth ++ "\x7d"
  | value => renderScalar value

def prettyItems (depth : Nat) : List Json → String
  | [] => ""
  | [item] => margin depth ++ pretty depth item
  | item :: items => margin depth ++ pretty depth item ++ "," ++ prettyItems depth items

def prettyFields (depth : Nat) : List (String × Json) → String
  | [] => ""
  | [(name, value)] => margin depth ++ quote name ++ ": " ++ pretty depth value
  | (name, value) :: fields =>
    margin depth ++ quote name ++ ": " ++ pretty depth value ++ "," ++ prettyFields depth fields

end

end Workflow.Json
