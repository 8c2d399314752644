import Workflow.Json.Record
import Workflow.Retry.Policy

/-!
# Retry policies as JSON

Spans are written as whole milliseconds.
-/

namespace Workflow

open Json (Record)

def Span.ofJson? (json : Json) : Option Span :=
  json.word?.map Span.ofMillis

def Span.millisJson (s : Span) : Json :=
  .ofNat s.millisWord

namespace Backoff

def ofRecord? (record : Record) : Option Backoff := do
  let base ← record.withDefault? 0 "base_ms" Span.ofJson? (.ofMillis 1000)
  let factor ← record.withDefault? 1 "factor" Json.asFloat? 2.0
  let most ← record.withDefault? 2 "max_ms" Span.ofJson? (.ofSeconds 30)
  return .exponential base factor most

/-- A whole number is the step of a linear backoff, a record an exponential one. -/
def ofJson? (json : Json) : Option Backoff :=
  match Span.ofJson? json with
  | some step => some (linear step)
  | none => (Record.ofJson? false 3 json).bind ofRecord?

def toJson : Backoff → Json
  | linear step => step.millisJson
  | exponential base factor most =>
    .object [("base_ms", base.millisJson), ("factor", .float factor), ("max_ms", most.millisJson)]

end Backoff

namespace Jitter

/-- The kind of jitter comes first in a record by position. -/
def ofRecord? (record : Record) : Option Jitter := do
  match ← record.required? 0 "type" Json.string?, record with
  | "none", .named _ => return none
  | "none", .listed [_] => return none
  | "proportional", _ => return proportional (← record.required? 1 "spread" Json.asFloat?)
  | _, _ => failure

def ofJson? (json : Json) : Option Jitter :=
  (Record.ofJson? false 2 json).bind ofRecord?

def toJson : Jitter → Json
  | none => .object [("type", "none")]
  | proportional spread => .object [("spread", .float spread), ("type", "proportional")]

end Jitter

namespace RetryPolicy

def ofRecord? (record : Record) : Option RetryPolicy := do
  let maxAttempts ← record.withDefault? 0 "max_attempts" Json.halfWord? 3
  let backoff ← record.withDefault? 1 "backoff" Backoff.ofJson?
    (.exponential (.ofMillis 1000) 2.0 (.ofSeconds 30))
  let jitter ← record.withDefault? 2 "jitter" Jitter.ofJson? .none
  let attemptTimeout ← record.optional? 3 "attempt_timeout_ms" Span.ofJson?
  return { maxAttempts, backoff, jitter, attemptTimeout }

def ofJson? (json : Json) : Option RetryPolicy :=
  (Record.ofJson? false 4 json).bind ofRecord?

def toJson (policy : RetryPolicy) : Json :=
  .object [("attempt_timeout_ms", Json.ofOption Span.millisJson policy.attemptTimeout),
    ("backoff", policy.backoff.toJson), ("jitter", policy.jitter.toJson),
    ("max_attempts", .ofNat policy.maxAttempts)]

end RetryPolicy

end Workflow
