import Workflow.Data
import Workflow.Json.Printer

/-!
# Conditions

A condition looks at one key of the context data: it compares the value with a literal, or asks
whether it is true. A key that is absent equals nothing and is not true.
-/

namespace Workflow

inductive Condition where
  | always
  | equals (key : String) (value : Json)
  | differs (key : String) (value : Json)
  | holds (key : String)
  | fails (key : String)
  deriving Inhabited

namespace Condition

/-- Equality up to the form of numbers: two numbers are equal when their doubles are. -/
def sameValue (actual expected : Json) : Bool :=
  match actual.asFloat?, expected.asFloat? with
  | some a, some b => a == b
  | _, _ => actual == expected

def isMet (data : Data) : Condition → Bool
  | always => true
  | equals key value => (data.get? key).any (sameValue · value)
  | differs key value => !(data.get? key).any (sameValue · value)
  | holds key => (data.get? key).any Json.truthy
  | fails key => !(data.get? key).any Json.truthy

def key? : Condition → Option String
  | always => none
  | equals key _ | differs key _ | holds key | fails key => some key

def value? : Condition → Option Json
  | equals _ value | differs _ value => some value
  | _ => none

def form : Condition → String
  | always => "always"
  | equals .. => "equals"
  | differs .. => "not_equals"
  | holds _ => "truthy"
  | fails _ => "falsy"

def display : Condition → String
  | always => "always"
  | equals key value => "data." ++ key ++ " == " ++ value.render
  | differs key value => "data." ++ key ++ " != " ++ value.render
  | holds key => "data." ++ key
  | fails key => "!data." ++ key

/-- Equality of conditions; literals are compared as values, so `1` is not `1.0`. -/
def beq : Condition → Condition → Bool
  | always, always => true
  | equals k v, equals l w | differs k v, differs l w => k == l && v == w
  | holds k, holds l | fails k, fails l => k == l
  | _, _ => false

instance : BEq Condition := ⟨beq⟩

end Condition

end Workflow
