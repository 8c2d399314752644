import Workflow.Json.Basic
import Workflow.Table

/-!
# Context data

The values that a run works on, by their keys.
-/

namespace Workflow

abbrev Data := Table Json

namespace Data

def string? (data : Data) (key : String) : Option String :=
  match data.get? key with
  | some (.string s) => some s
  | _ => none

def bool? (data : Data) (key : String) : Option Bool :=
  match data.get? key with
  | some (.bool b) => some b
  | _ => none

def int? (data : Data) (key : String) : Option Int :=
  (data.get? key).bind Json.asInt?

/-- The entries of `later` that `data` does not have or has with another value. -/
def changes (data later : Data) : Data :=
  later.filter fun (key, value) => data.get? key != some value

end Data

end Workflow
