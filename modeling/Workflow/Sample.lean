import Workflow.Spec.Source

/-!
# Sample workflows

Small workflows to try things out on.
-/

namespace Workflow.Sample

def noopState (name : String) : StateSpec :=
  { name, actions := [{ kind := "noop" }] }

def finalState (name : String) : StateSpec :=
  { name, kind := "final" }

def linear : WorkflowSpec :=
  let start : WorkflowSpec := { name := "linear", initialState := "a" }
  ((((start.withState (noopState "a")).withState (noopState "b")).withState
    (finalState "c")).withTransition { origin := "a", target := "b" }).withTransition
      { origin := "b", target := "c" }

/-- The edge that is open for one provider. -/
def providerEdge (name : String) : EdgeSpec :=
  { origin := "detect", target := name, condition := "data.provider == \"" ++ name ++ "\"" }

def provider : WorkflowSpec :=
  let start : WorkflowSpec := { name := "provider_setup", initialState := "detect" }
  let states := noopState "detect" :: ["salesforce", "hubspot", "manual"].map finalState
  let edges :=
    [providerEdge "salesforce", providerEdge "hubspot", { origin := "detect", target := "manual" }]
  edges.foldl WorkflowSpec.withTransition (states.foldl WorkflowSpec.withState start)

def onboardingText : String := "
name = \"onboarding\"
initial_state = \"collect\"
final_states = [\"done\"]

[settings]
cancellation = true
action_timeout_secs = 30

[[states]]
name = \"collect\"
on_error = \"recover\"

[[states.actions]]
type = \"set\"
name = \"mark_provider\"
params = \x7b key = \"provider\", value = \"hubspot\" \x7d

[[states.actions]]
type = \"try_with_fallback\"
name = \"fetch\"

[states.actions.params.primary]
type = \"fail\"
params = \x7b message = \"api unavailable\" \x7d

[states.actions.params.fallback]
type = \"set\"
params = \x7b key = \"records\", value = 12 \x7d

[[states]]
name = \"route\"
kind = \"conditional\"
params = \x7b condition = \"data.provider == \\\"hubspot\\\"\", then = \"done\", else = \"recover\" \x7d

[[states]]
name = \"recover\"

[[states.actions]]
type = \"log\"
params = \x7b message = \"recovering after \x7blast_error\x7d\" \x7d

[[states]]
name = \"done\"
kind = \"final\"

[[transitions]]
from = \"collect\"
to = \"route\"

[[transitions]]
from = \"route\"
to = \"done\"

[[transitions]]
from = \"route\"
to = \"recover\"

[[transitions]]
from = \"recover\"
to = \"done\"
"

def onboarding : Except Fault WorkflowSpec :=
  WorkflowSpec.ofText [] onboardingText

def ofName? : String → Option (Except Fault WorkflowSpec)
  | "linear" => some (.ok linear)
  | "provider" => some (.ok provider)
  | "onboarding" => some onboarding
  | _ => none

end Workflow.Sample
