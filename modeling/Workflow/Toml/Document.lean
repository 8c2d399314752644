import Workflow.Json.Basic
import Workflow.Table

/-!
# TOML documents

A document under construction remembers of each table how it came to be, because that decides what
may still be added to it: a table that a header names is complete but for tables below it, a table
that only a longer header implies may still get a header of its own, and a table that dotted keys
made takes further dotted keys only.
-/

namespace Workflow.Toml

inductive Origin where
  | header
  | implied
  | dotted
  deriving DecidableEq, Repr

inductive Node where
  | value (json : Json)
  | table (origin : Origin) (children : List (String × Node))
  | tables (elements : List (List (String × Node)))
  deriving Inhabited

abbrev Children := Table Node

/-- The last table of an array of tables changed by `f`; the ones before stay. -/
def changeLast? (f : Children → Option Children) : List Children → Option (List Children)
  | [] => none
  | [last] => (f last).map fun last => [last]
  | first :: rest => (changeLast? f rest).map (first :: ·)

/-- Changes the table at the end of a path of headers, making the tables on the way that are not
there yet. An array of tables on the way stands for its last table. -/
def changeAt? (f : Children → Option Children) : (path : List String) → Children → Option Children
  | [], children => f children
  | key :: path, children =>
    match children.get? key with
    | none => (changeAt? f path []).map fun below => children.put key (.table .implied below)
    | some (.table origin below) =>
      (changeAt? f path below).map fun below => children.put key (.table origin below)
    | some (.tables elements) =>
      (changeLast? (changeAt? f path) elements).map fun elements =>
        children.put key (.tables elements)
    | some (.value _) => none

/-- A header names a table that is new or so far only implied. -/
def openTable? (key : String) (children : Children) : Option Children :=
  match children.get? key with
  | none => some (children.put key (.table .header []))
  | some (.table .implied below) => some (children.put key (.table .header below))
  | some _ => none

/-- A header in double brackets adds a table to an array of tables. -/
def openElement? (key : String) (children : Children) : Option Children :=
  match children.get? key with
  | none => some (children.put key (.tables [[]]))
  | some (.tables elements) => some (children.put key (.tables (elements ++ [[]])))
  | some _ => none

/-- Gives a new key its value. -/
def assign? (key : String) (node : Node) (children : Children) : Option Children :=
  if children.has key then none else some (children.put key node)

/-- Gives a value to the key at the end of a dotted path. The table that receives it must be one
that dotted keys made; `dotted` tells whether the table at hand is. -/
def assignDotted? (key : String) (node : Node) :
    (path : List String) → (dotted : Bool) → Children → Option Children
  | [], dotted, children => if dotted then assign? key node children else none
  | step :: path, _, children =>
    match children.get? step with
    | none =>
      (assignDotted? key node path true []).map fun below =>
        children.put step (.table .dotted below)
    | some (.table .header _) => none
    | some (.table origin below) =>
      (assignDotted? key node path (origin == .dotted) below).map fun below =>
        children.put step (.table origin below)
    | some (.tables elements) =>
      (changeLast? (assignDotted? key node path false) elements).map fun elements =>
        children.put step (.tables elements)
    | some (.value _) => none

def assignAt? (path : List String) (key : String) (node : Node) (children : Children) :
    Option Children :=
  if path.isEmpty then assign? key node children else assignDotted? key node path false children

mutual

def Node.toJson : Node → Json
  | .value json => json
  | .table _ children => .object (childrenToJson children)
  | .tables elements => .array (elementsToJson elements)

def childrenToJson : List (String × Node) → List (String × Json)
  | [] => []
  | (key, node) :: children => (key, node.toJson) :: childrenToJson children

def elementsToJson : List (List (String × Node)) → List Json
  | [] => []
  | children :: elements => .object (childrenToJson children) :: elementsToJson elements

end

end Workflow.Toml
