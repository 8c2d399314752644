import Workflow.Table
import Workflow.Text.Blank

/-!
# References to environment variables

A text may refer to environment variables as `${NAME}` or `${NAME:-fallback}`, where the fallback
has no closing brace. `pieces` cuts a text into its references and the characters between them, and
`expand` puts the values in; what has been put in is not looked at again.
-/

namespace Workflow.Environment

structure Reference where
  name : String
  fallback : Option String := none
  deriving DecidableEq, Repr

inductive Piece where
  | text (c : Char)
  | reference (r : Reference)
  deriving DecidableEq, Repr

def isNameStart (c : Char) : Bool :=
  c.isAlpha || c == '_'

def isNameChar (c : Char) : Bool :=
  c.isAlphanum || c == '_'

/-- What follows the name of a reference: its fallback, if it has one, and the text after it. -/
def closing? : List Char → Option (Option String × List Char)
  | '\x7d' :: cs => some (none, cs)
  | ':' :: '-' :: cs =>
    match cs.dropWhile (· != '\x7d') with
    | _ :: rest => some (some (String.ofList (cs.takeWhile (· != '\x7d'))), rest)
    | [] => none
  | _ => none

def reference? : List Char → Option (Reference × List Char)
  | '$' :: '\x7b' :: c :: cs =>
    if isNameStart c then
      match closing? (cs.dropWhile isNameChar) with
      | some (fallback, rest) =>
        some (⟨String.ofList (c :: cs.takeWhile isNameChar), fallback⟩, rest)
      | none => none
    else none
  | _ => none

theorem length_dropWhile_le {α : Type} (p : α → Bool) (l : List α) :
    (l.dropWhile p).length ≤ l.length :=
  (List.dropWhile_sublist p).length_le

theorem closing?_length {cs rest : List Char} {fallback : Option String}
    (h : closing? cs = some (fallback, rest)) : rest.length < cs.length := by
  unfold closing? at h
  split at h
  · simp at h
    simp [← h.2]
  · rename_i cs
    split at h
    · rename_i c after heq
      simp at h
      have hle := length_dropWhile_le (· != '\x7d') cs
      simp [heq] at hle
      simp [← h.2]
      omega
    · simp at h
  · simp at h

theorem reference?_length {cs rest : List Char} {r : Reference}
    (h : reference? cs = some (r, rest)) : rest.length < cs.length := by
  unfold reference? at h
  split at h
  · rename_i c cs
    split at h
    · split at h
      · rename_i fallback after heq
        simp at h
        have hlt := closing?_length heq
        have hle := length_dropWhile_le isNameChar cs
        simp [← h.2]
        omega
      · simp at h
    · simp at h
  · simp at h

/-- The references in a text, each taken at the first place where one starts, and the characters
between them. -/
def pieces : List Char → List Piece
  | [] => []
  | c :: cs =>
    match _h : reference? (c :: cs) with
    | some (r, rest) => .reference r :: pieces rest
    | none => .text c :: pieces cs
termination_by cs => cs.length
decreasing_by
  · exact reference?_length _h
  · simp

def names (text : String) : List String :=
  (pieces text.toList).filterMap fun
    | .reference r => some r.name
    | .text _ => none

/-- The text that a piece stands for; `none` for a variable that is not set and has no fallback. -/
def Piece.value? (env : Table String) : Piece → Option (List Char)
  | text c => some [c]
  | reference r => ((env.get? r.name).or r.fallback).map String.toList

/-- The variables that have no value, each once, in the order in which they are first met. -/
def unset (env : Table String) (pieces : List Piece) : List String :=
  pieces.foldl (fun names piece =>
    match piece with
    | .reference r =>
      if (piece.value? env).isSome || names.contains r.name then names
      else names ++ [r.name]
    | .text _ => names) []

/-- The text with every reference replaced by its value, or the variables that have none. -/
def expand (env : Table String) (text : String) : Except (List String) String :=
  let parts := pieces text.toList
  match unset env parts with
  | [] => .ok (String.ofList (parts.flatMap fun piece => (piece.value? env).getD []))
  | names => .error names

end Workflow.Environment
