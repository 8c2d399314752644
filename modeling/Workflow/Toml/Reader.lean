import Workflow.Toml.Value

/-!
# Reading TOML

A document is a sequence of lines, each a header, a pair of a key and a value, a comment or nothing.
Pairs go into the table that the last header opened.
-/

namespace Workflow.Toml

/-- What a header opens: a table, or one more table of an array. -/
inductive Header where
  | table (key : List String)
  | element (key : List String)

def readHeader? (fuel : Nat) (cs : List Char) : Option (Header × List Char) :=
  match cs with
  | '[' :: '[' :: cs =>
    match readKey? fuel cs with
    | some (key, ']' :: ']' :: cs) => some (.element key, cs)
    | _ => none
  | '[' :: cs =>
    match readKey? fuel cs with
    | some (key, ']' :: cs) => some (.table key, cs)
    | _ => none
  | _ => none

def Header.key : Header → List String
  | table key | element key => key

def Header.open? (header : Header) (document : Children) : Option Children :=
  let last := header.key.getLast?.getD ""
  changeAt? (match header with
    | table _ => openTable? last
    | element _ => openElement? last) header.key.dropLast document

/-- Reads line after line; `path` is the key of the last header. -/
def readLines : (fuel : Nat) → (path : List String) → (document : Children) → List Char →
    Option Children
  | 0, _, _, _ => none
  | fuel + 1, path, document, cs =>
    match skipLines fuel cs with
    | [] => some document
    | '[' :: cs => do
      let (header, cs) ← readHeader? fuel ('[' :: cs)
      let cs ← endLine? cs
      readLines fuel header.key (← header.open? document) cs
    | '#' :: cs =>
      match skipComment ('#' :: cs) with
      | [] => some document
      | _ => none
    | cs => do
      let (key, cs) ← readKey? fuel cs
      let cs ← skip? '=' cs
      let (value, cs) ← readValue? (2 * fuel + 2) (maxDepth - 1) (skipBlanks cs)
      let cs ← endLine? cs
      let assign := assignAt? key.dropLast (key.getLast?.getD "") (.value value)
      readLines fuel path (← changeAt? assign path document) cs

def skipMark : List Char → List Char
  | c :: cs => if c.toNat = 0xFEFF then cs else c :: cs
  | [] => []

def read? (text : String) : Option Json :=
  let cs := skipMark text.toList
  (readLines (cs.length + 1) [] [] cs).map fun document => .object (childrenToJson document)

end Workflow.Toml
