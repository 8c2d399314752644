/-!
# JSON values

Whole numbers and floating-point numbers are different values: `1` is not `1.0`. The fields of an
object are listed in increasing order of their names, each name once.
-/

namespace Workflow

inductive Json where
  | null
  | bool (b : Bool)
  | int (n : Int)
  | float (x : Float)
  | string (s : String)
  | array (items : List Json)
  | object (fields : List (String × Json))
  deriving Inhabited

namespace Json

mutual

/-- Equality of values; two floats are equal when they compare equal as numbers. -/
def beq : Json → Json → Bool
  | null, null => true
  | bool a, bool b => a == b
  | int a, int b => a == b
  | float a, float b => a == b
  | string a, string b => a == b
  | array as, array bs => beqItems as bs
  | object as, object bs => beqFields as bs
  | _, _ => false

def beqItems : List Json → List Json → Bool
  | [], [] => true
  | a :: as, b :: bs => beq a b && beqItems as bs
  | _, _ => false

def beqFields : List (String × Json) → List (String × Json) → Bool
  | [], [] => true
  | (k, a) :: as, (l, b) :: bs => k == l && beq a b && beqFields as bs
  | _, _ => false

end

instance : BEq Json := ⟨beq⟩

instance : Coe String Json := ⟨string⟩
instance : Coe Bool Json := ⟨bool⟩

def ofNat (n : Nat) : Json := int n

/-- The number as a double; a whole number is rounded to the nearest one. -/
def asFloat? : Json → Option Float
  | int n => some (Float.ofInt n)
  | float x => some x
  | _ => none

/-- The value as a 64-bit signed integer; floats are never integers here. -/
def asInt? : Json → Option Int
  | int n => if -0x8000000000000000 ≤ n && n < 0x8000000000000000 then some n else none
  | _ => none

/-- The value as an integer from zero to `limit`. -/
def asNat? (limit : Nat) : Json → Option Nat
  | int n => if 0 ≤ n && n ≤ limit then some n.toNat else none
  | _ => none

/-- `null`, `false`, zero and all that is empty are false, the rest is true. -/
def truthy : Json → Bool
  | null => false
  | bool b => b
  | int n => Float.ofInt n != 0.0
  | float x => x != 0.0
  | string s => !s.isEmpty
  | array items => !items.isEmpty
  | object fields => !fields.isEmpty

mutual

/-- JSON has neither infinities nor NaN: they become `null`. -/
def finite : Json → Json
  | float x => if x.isFinite then float x else null
  | array items => array (finiteItems items)
  | object fields => object (finiteFields fields)
  | value => value

def finiteItems : List Json → List Json
  | [] => []
  | item :: items => finite item :: finiteItems items

def finiteFields : List (String × Json) → List (String × Json)
  | [] => []
  | (name, value) :: fields => (name, finite value) :: finiteFields fields

end

end Json

end Workflow
