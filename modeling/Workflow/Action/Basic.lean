import Workflow.Predicate
import Workflow.Retry.Policy

/-!
# Actions

An action is a tree: its leaves change the context data, wait or fail, and its inner nodes say which
of their parts are run and what becomes of a part that fails. Every action has a name, under which
it records its outcome in the data.
-/

namespace Workflow

inductive Leaf where
  | noop
  | set (key : String) (value : Json)
  | copy (origin target : String)
  | fail (message : String) (permanent : Bool)
  | delay (span : Span)
  | log (message : String)
  /-- Changes the data and succeeds or fails as a function of them says. -/
  | apply (f : Data → Data × Except Fault Unit)
  /-- Fails the given number of times, and succeeds from then on. -/
  | flaky (failures : Nat) (permanent : Bool)
  /-- Marks that it has run, and sets some values. -/
  | mark (extra : Data)
  /-- Cancels the run, and then fails if a fault is given. -/
  | cancel (fault : Option Fault)
  | raise (fault : Fault)
  deriving Inhabited

inductive MergeStrategy where
  /-- That of the first branch that succeeded. -/
  | first
  /-- Those of all branches that succeeded, if these are more than half. -/
  | majority
  /-- Those of all branches that succeeded. -/
  | all
  deriving DecidableEq, Repr, Inhabited

namespace MergeStrategy

def ofName? (name : String) : Option MergeStrategy :=
  match String.ofList ((Text.trim name.toList).map Char.toLower) with
  | "first" => some first
  | "majority" => some majority
  | "all" => some all
  | _ => none

def name : MergeStrategy → String
  | first => "first"
  | majority => "majority"
  | all => "all"

/-- The results to merge, of `total` branches. -/
def select {α : Type} (total : Nat) (results : List α) : MergeStrategy → List α
  | first => results.take 1
  | majority => if total < 2 * results.length then results else []
  | all => results

end MergeStrategy

/-- The faults after which a retry makes no sense. -/
inductive Veto where
  | nothing
  /-- Those whose message contains one of the texts. -/
  | messages (parts : List String)
  /-- All but those of one kind. -/
  | allBut (kind : String)
  deriving Inhabited

def Veto.allows (fault : Fault) : Veto → Bool
  | nothing => true
  | messages parts => !parts.any fun part => Text.occursIn part.toList fault.message.toList
  | allBut kind => fault.kind == kind

/-- A part of a composite with the test that goes with it. -/
structure Step (α : Type) where
  action : α
  test : Option Predicate := none
  required : Bool := false

inductive Action where
  | leaf (name : String) (work : Leaf)
  /-- One after the other, until one fails. -/
  | sequence (name : String) (actions : List Action)
  /-- One of two, as the test says; either may be missing. -/
  | conditional (name : String) (test : Predicate) (yes no : Option Action)
  /-- The first whose test holds, or the default. -/
  | choice (name : String) (branches : List (Step Action)) (default : Option Action)
  /-- Again until it succeeds; the waits are recorded if `delays` says so. -/
  | retry (name : String) (policy : RetryPolicy) (veto : Veto) (delays : Bool) (body : Action)
  /-- The second if the first fails. -/
  | fallback (name : String) (primary secondary : Action)
  /-- One after the other, with a test of the data after each. -/
  | validated (name : String) (steps : List (Step Action)) (continueOnError : Bool)
  /-- Side by side, each on a copy of the context. -/
  | parallel (name : String) (branches : List Action) (strategy : MergeStrategy)
      (continueOnError : Bool)
  /-- One after the other, each only if its test holds; steps that are not required may fail. -/
  | progressive (name : String) (steps : List (Step Action))
  deriving Inhabited

def Action.name : Action → String
  | leaf name _ | sequence name _ | conditional name _ _ _ | choice name _ _ | retry name _ _ _ _
  | fallback name _ _ | validated name _ _ | parallel name _ _ _ | progressive name _ => name

end Workflow
