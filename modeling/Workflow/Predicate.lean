import Workflow.Condition.Parser
import Workflow.Fault.Codec

/-!
# Predicates

A test on the context data that may also fail to give an answer.
-/

namespace Workflow

inductive Predicate where
  | condition (c : Condition)
  /-- The key holds exactly this value. -/
  | exactly (key : String) (value : Json)
  | failing (fault : Fault)
  | constant (b : Bool)
  | test (f : Data → Except Fault Bool)
  deriving Inhabited

namespace Predicate

def evaluate (data : Data) : Predicate → Except Fault Bool
  | condition c => .ok (c.isMet data)
  | exactly key value => .ok ((data.get? key).any (· == value))
  | failing fault => .error fault
  | constant b => .ok b
  | test f => f data

/-- The predicate that an object describes by its one field: a condition as text, a key with a
value, a fault or a constant. -/
def ofJson (json : Json) : Except Fault Predicate :=
  match json with
  | .object fields =>
    match Table.get? "expr" fields, Table.get? "equals" fields, Table.get? "error" fields with
    | some (.string text), _, _ => (Condition.parse text).map condition
    | _, some (.object pair), _ =>
      .ok (exactly (Fault.textField pair "key") ((Table.get? "value" pair).getD .null))
    | _, _, some fault => .ok (failing (Fault.ofJson fault))
    | _, _, _ =>
      match Table.get? "const" fields with
      | some (.bool b) => .ok (constant b)
      | _ => .ok (constant false)
  | _ => .ok (constant false)

end Predicate

end Workflow
