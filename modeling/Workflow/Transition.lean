import Workflow.Predicate

/-!
# Transitions

An edge between two states, open always or only when a predicate holds.
-/

namespace Workflow

structure Transition where
  origin : String
  target : String
  guard? : Option Predicate
  /-- Tells the guard to a reader. -/
  label : String
  deriving Inhabited

namespace Transition

def always (origin target : String) : Transition :=
  ⟨origin, target, none, "always"⟩

def guarded (origin target : String) (guard : Predicate) : Transition :=
  ⟨origin, target, some guard, "custom"⟩

/-- The edge with a condition as its guard; the condition that always holds needs none. -/
def ofCondition (origin target : String) (condition : Condition) : Transition :=
  let guard? := match condition with
    | .always => none
    | condition => some (.condition condition)
  ⟨origin, target, guard?, condition.display⟩

def ofText (origin target text : String) : Except Fault Transition :=
  (Condition.parse text).map (ofCondition origin target)

def isUnconditional (t : Transition) : Bool :=
  t.guard?.isNone

/-- Whether the edge is open; a guard that gives no answer is a fault of the transition. -/
def isOpen (t : Transition) (data : Data) : Except Fault Bool :=
  match t.guard? with
  | none => .ok true
  | some guard => (guard.evaluate data).mapError (.transition t.origin t.target)

/-- The first edge that is open. Edges after it are not looked at. -/
def firstOpen? (data : Data) : List Transition → Except Fault (Option Transition)
  | [] => .ok none
  | t :: ts =>
    match t.isOpen data with
    | .error fault => .error fault
    | .ok true => .ok (some t)
    | .ok false => firstOpen? data ts

end Transition

end Workflow
