import Workflow.Moment

/-!
# Hooks

Observers of a run. A hook is told when the work of a state starts and when it finishes. It cannot
interfere with the run; all that it may do is to report.
-/

namespace Workflow

inductive Phase where
  | start
  | finish
  deriving DecidableEq, Repr

/-- What hooks are told when the work of a state starts and when it finishes. -/
structure Notice where
  state : String
  action : String
  phase : Phase
  /-- The message of the fault, if the work failed. -/
  error : Option String := none

namespace Notice

def text (notice : Notice) : String :=
  let phase := match notice.phase with
    | .start => "start"
    | .finish => "end"
  let error := match notice.error with
    | some message => ":" ++ message
    | none => ""
  notice.state ++ ":" ++ notice.action ++ ":" ++ phase ++ error

def entry (notice : Notice) : Entry :=
  let fields := [("state", notice.state), ("action", notice.action)]
  match notice.phase, notice.error with
  | .start, _ => ⟨.debug, "Action started", fields⟩
  | .finish, none => ⟨.debug, "Action finished", fields⟩
  | .finish, some error => ⟨.warn, "Action failed", fields ++ [("error", error)]⟩

end Notice

/-- A hook, by what it reports of each notice. -/
structure Hook where
  reports : Notice → List Entry

namespace Hook

def tracing : Hook where
  reports notice := [notice.entry]

def silent : Hook where
  reports _ := []

def tell (hook : Hook) (notice : Notice) (m : Moment) : Moment :=
  { m with journal := (hook.reports notice).reverse ++ m.journal }

end Hook

/-- A call of the hook with the given number. -/
structure HookCall where
  hook : Nat
  notice : Notice

end Workflow
