import Workflow.Json.Record
import Workflow.Spec.Basic

/-!
# Specifications as JSON

Each part of a specification is a record (`Json.Record`). Writing gives every field by name, reading
also takes records by position and fills in the defaults. With `surplus`, records by position may be
longer than their fields.
-/

namespace Workflow

open Json (Record)

namespace ActionSpec

def ofRecord? (record : Record) : Option ActionSpec := do
  let kind ← record.required? 0 "type" Json.string?
  let label ← record.optional? 1 "name" Json.string?
  let params ← record.withDefault? 2 "params" Json.table? []
  return { kind, label, params }

def ofJson? (surplus : Bool) (json : Json) : Option ActionSpec :=
  (Record.ofJson? surplus 3 json).bind ofRecord?

def toJson (spec : ActionSpec) : Json :=
  .object [("name", Json.ofOption Json.string spec.label), ("params", .object spec.params),
    ("type", spec.kind)]

end ActionSpec

namespace StateSpec

def ofRecord? (surplus : Bool) (record : Record) : Option StateSpec := do
  let name ← record.required? 0 "name" Json.string?
  let kind ← record.withDefault? 1 "kind" Json.string? "action"
  let actions ← record.withDefault? 2 "actions" (Json.items? (ActionSpec.ofJson? surplus)) []
  let onError ← record.optional? 3 "on_error" Json.string?
  let timeoutSecs ← record.optional? 4 "timeout_secs" Json.word?
  let params ← record.withDefault? 5 "params" Json.table? []
  let metadata ← record.withDefault? 6 "metadata" Json.table? []
  return { name, kind, actions, onError, timeoutSecs, params, metadata }

def ofJson? (surplus : Bool) (json : Json) : Option StateSpec :=
  (Record.ofJson? surplus 7 json).bind (ofRecord? surplus)

def toJson (spec : StateSpec) : Json :=
  .object [("actions", .array (spec.actions.map ActionSpec.toJson)), ("kind", spec.kind),
    ("metadata", .object spec.metadata), ("name", spec.name),
    ("on_error", Json.ofOption Json.string spec.onError), ("params", .object spec.params),
    ("timeout_secs", Json.ofOption Json.ofNat spec.timeoutSecs)]

end StateSpec

namespace EdgeSpec

def ofRecord? (record : Record) : Option EdgeSpec := do
  let origin ← record.required? 0 "from" Json.string?
  let target ← record.required? 1 "to" Json.string?
  let condition ← record.withDefault? 2 "condition" Json.string? "always"
  let priority ← record.withDefault? 3 "priority" Json.signedHalfWord? 0
  return { origin, target, condition, priority }

def ofJson? (surplus : Bool) (json : Json) : Option EdgeSpec :=
  (Record.ofJson? surplus 4 json).bind ofRecord?

def toJson (spec : EdgeSpec) : Json :=
  .object [("condition", spec.condition), ("from", spec.origin), ("priority", .int spec.priority),
    ("to", spec.target)]

end EdgeSpec

namespace Settings

def ofRecord? (record : Record) : Option Settings := do
  let cancellation ← record.withDefault? 0 "cancellation" Json.bool? true
  let actionTimeoutSecs ← record.withDefault? 1 "action_timeout_secs" Json.word? 0
  return { cancellation, actionTimeoutSecs }

def ofJson? (surplus : Bool) (json : Json) : Option Settings :=
  (Record.ofJson? surplus 2 json).bind ofRecord?

def toJson (settings : Settings) : Json :=
  .object [("action_timeout_secs", .ofNat settings.actionTimeoutSecs),
    ("cancellation", settings.cancellation)]

end Settings

namespace WorkflowSpec

def ofRecord? (surplus : Bool) (record : Record) : Option WorkflowSpec := do
  let name ← record.required? 0 "name" Json.string?
  let initialState ← record.required? 1 "initial_state" Json.string?
  let finalStates ← record.withDefault? 2 "final_states" (Json.items? Json.string?) []
  let settings ← record.withDefault? 3 "settings" (Settings.ofJson? surplus) {}
  let states ← record.withDefault? 4 "states" (Json.items? (StateSpec.ofJson? surplus)) []
  let transitions ← record.withDefault? 5 "transitions" (Json.items? (EdgeSpec.ofJson? surplus)) []
  return { name, initialState, finalStates, settings, states, transitions }

def ofJson? (surplus : Bool) (json : Json) : Option WorkflowSpec :=
  (Record.ofJson? surplus 6 json).bind (ofRecord? surplus)

def toJson (spec : WorkflowSpec) : Json :=
  .object [("final_states", .array (spec.finalStates.map Json.string)),
    ("initial_state", spec.initialState), ("name", spec.name), ("settings", spec.settings.toJson),
    ("states", .array (spec.states.map StateSpec.toJson)),
    ("transitions", .array (spec.transitions.map EdgeSpec.toJson))]

end WorkflowSpec

end Workflow
