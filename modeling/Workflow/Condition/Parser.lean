import Workflow.Condition.Basic
import Workflow.Decimal.Reading
import Workflow.Fault.Basic
import Workflow.Text.Alphanumeric
import Workflow.Text.Blank

/-!
# Reading conditions

`always`, `key == literal`, `key != literal`, `key` or `!key`, where a key may start with `data.`.
The first comparison sign outside quotation marks divides key and literal. Literals are quoted text,
`true`, `false`, `null`, numbers, and any other text as it stands.
-/

namespace Workflow.Condition

inductive Comparison where
  | equal
  | unequal
  deriving DecidableEq, Repr

/-- The parts before and after the first comparison sign outside quotation marks. `quote` is the
mark that is open, `before` what has been passed, last character first. -/
def splitFrom? (quote : Option Char) (before : List Char) :
    List Char → Option (List Char × Comparison × List Char)
  | [] => none
  | c :: cs =>
    match quote with
    | some q => splitFrom? (if c = q then none else some q) (c :: before) cs
    | none =>
      if c = '"' || c = '\'' then splitFrom? (some c) (c :: before) cs
      else
        match c, cs with
        | '=', '=' :: rest => some (before.reverse, .equal, rest)
        | '!', '=' :: rest => some (before.reverse, .unequal, rest)
        | _, _ => splitFrom? none (c :: before) cs

def splitComparison? (cs : List Char) : Option (List Char × Comparison × List Char) :=
  splitFrom? none [] cs

def isKeyChar (c : Char) : Bool :=
  Text.isAlphanumeric c || c == '_' || c == '-' || c == '.'

def dropScope (cs : List Char) : List Char :=
  if "data.".toList.isPrefixOf cs then cs.drop 5 else cs

def key?OfText (cs : List Char) : Option String :=
  let key := dropScope (Text.trim cs)
  if !key.isEmpty && key.all isKeyChar then some (String.ofList key) else none

def unquote? (mark : Char) (cs : List Char) : Option String :=
  if 2 ≤ cs.length && cs.head? == some mark && cs.getLast? == some mark then
    some (String.ofList (cs.drop 1).dropLast)
  else none

def literal (cs : List Char) : Json :=
  let text := Text.trim cs
  match unquote? '"' text, unquote? '\'' text with
  | some s, _ => .string s
  | none, some s => .string s
  | none, none =>
    match String.ofList text with
    | "true" => .bool true
    | "false" => .bool false
    | "null" => .null
    | plain =>
      match Decimal.readInt? text with
      | some n => .int n
      | none =>
        match (Decimal.readFloat? text).filter Float.isFinite with
        | some x => .float x
        | none => .string plain

/-- The condition that a text states. A text that states none is reported without its outer
blanks. -/
def parse (text : String) : Except Fault Condition :=
  let cs := Text.trim text.toList
  let orFault (condition : Option Condition) : Except Fault Condition :=
    match condition with
    | some condition => .ok condition
    | none => .error (.expression (String.ofList cs))
  if cs.isEmpty || Text.eqIgnoringCase cs "always".toList then .ok always
  else
    match splitComparison? cs with
    | some (before, .equal, after) => orFault ((key?OfText before).map (equals · (literal after)))
    | some (before, .unequal, after) =>
      orFault ((key?OfText before).map (differs · (literal after)))
    | none =>
      match cs with
      | '!' :: rest => orFault ((key?OfText rest).map fails)
      | _ => orFault ((key?OfText cs).map holds)

end Workflow.Condition
