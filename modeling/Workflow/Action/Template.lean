import Workflow.Data
import Workflow.Json.Printer

/-!
# Message templates

A message may name keys of the context data in braces. The text of the value takes the place of the
name; strings stand without quotation marks, and a key that is absent leaves nothing.
-/

namespace Workflow.Template

def isKeyChar (c : Char) : Bool :=
  c.isAlphanum || c == '_' || c == '.' || c == '-'

def placeholder? : List Char → Option (String × List Char)
  | '\x7b' :: cs =>
    let key := cs.takeWhile isKeyChar
    match key, cs.dropWhile isKeyChar with
    | _ :: _, '\x7d' :: rest => some (String.ofList key, rest)
    | _, _ => none
  | _ => none

def valueText (data : Data) (key : String) : List Char :=
  match data.get? key with
  | some (.string s) => s.toList
  | some value => value.render.toList
  | none => []

/-- The text with its placeholders filled in, from the left; `fuel` bounds its length. -/
def fill (data : Data) : (fuel : Nat) → List Char → List Char
  | 0, cs => cs
  | _ + 1, [] => []
  | fuel + 1, c :: cs =>
    match placeholder? (c :: cs) with
    | some (key, rest) => valueText data key ++ fill data fuel rest
    | none => c :: fill data fuel cs

def render (data : Data) (message : String) : String :=
  let cs := message.toList
  String.ofList (fill data cs.length cs)

end Workflow.Template
