import Workflow.Environment
import Workflow.Fault.Basic
import Workflow.Spec.Codec
import Workflow.Toml.Reader

/-!
# Specifications as TOML text

The text of a specification may refer to environment variables; they are put in before it is read.
Every problem is reported with the place that the text came from.
-/

namespace Workflow

/-- What looking for the text of a specification yields. -/
inductive Source where
  | text (content : String)
  | missing
  | unreadable (problem : String)

namespace WorkflowSpec

def ofToml (place : String) (env : Table String) (text : String) :
    Except Fault WorkflowSpec :=
  match Environment.expand env text with
  | .error names =>
    .error (.config (place ++ ": unset environment variable(s): " ++ Text.commaSeparated names))
  | .ok expanded =>
    match (Toml.read? expanded).bind (ofJson? true) with
    | some spec => .ok spec
    | none => .error (.config (place ++ ": TOML parse error"))

def ofSource (place : String) (env : Table String) : Source → Except Fault WorkflowSpec
  | .text content => ofToml place env content
  | .missing => .error (.configNotFound place)
  | .unreadable problem => .error (.config (place ++ ": " ++ problem))

def ofText (env : Table String) (text : String) : Except Fault WorkflowSpec :=
  ofToml "<inline>" env text

end WorkflowSpec

end Workflow
