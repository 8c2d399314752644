import Workflow.Json.Basic

/-!
# The journal

What a run reports while it goes on: events with a level, a message and named fields.
-/

namespace Workflow

inductive Level where
  | error
  | warn
  | info
  | debug
  deriving DecidableEq, Repr

def Level.text : Level → String
  | error => "ERROR"
  | warn => "WARN"
  | info => "INFO"
  | debug => "DEBUG"

structure Entry where
  level : Level
  message : String
  fields : List (String × String)

/-- The entries of a journal, last one first. -/
abbrev Journal := List Entry

def Journal.inOrder (journal : Journal) : List Entry :=
  journal.reverse

end Workflow
