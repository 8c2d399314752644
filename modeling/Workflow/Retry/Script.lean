import Workflow.Retry.Loop

/-!
# Scripted operations

An operation that follows a script: each attempt may take its time and cancel the run, and ends as
its step says. The last step stands for all attempts after it.
-/

namespace Workflow

structure ScriptStep where
  pause : Option Span := none
  cancels : Bool := false
  outcome : Except Fault Json := .ok .null
  deriving Inhabited

namespace ScriptStep

def finish (step : ScriptStep) : Work (Except Fault Json) :=
  if step.cancels then .after Moment.cancel (.done step.outcome) else .done step.outcome

def run (step : ScriptStep) : Work (Except Fault Json) :=
  match step.pause with
  | some span => (Work.wait span { cancellable := false }).andThen fun () => step.finish
  | none => step.finish

end ScriptStep

def scriptedOperation (script : List ScriptStep) (n : Nat) : Work (Except Fault Json) :=
  ((script[n - 1]?).getD (script.getLastD {})).run

end Workflow
