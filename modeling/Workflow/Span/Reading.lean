import Workflow.Decimal.Reading
import Workflow.Span.Basic

/-!
# Spans written as text

A decimal followed by a unit, `ms`, `s`, `m` or `h`; without a unit it counts seconds. Blanks may
stand around the text and between the number and its unit.
-/

namespace Workflow.Span

def without? (ending cs : List Char) : Option (List Char) :=
  if ending.isSuffixOf cs then some (cs.take (cs.length - ending.length)) else none

/-- The number part of a text and the milliseconds that its unit stands for. -/
def splitUnit (cs : List Char) : List Char × Float :=
  match without? ['m', 's'] cs with
  | some number => (number, 1.0)
  | none =>
    match without? ['s'] cs with
    | some number => (number, 1000.0)
    | none =>
      match without? ['m'] cs with
      | some number => (number, 60000.0)
      | none =>
        match without? ['h'] cs with
        | some number => (number, 3600000.0)
        | none => (cs, 1000.0)

def read? (text : String) : Option Span := do
  let (number, unit) := splitUnit (Text.trim text.toList)
  let value ← Decimal.readFloat? (Text.trim number)
  let millis := value * unit
  if millis.isFinite && !(millis < 0.0) then some (ofNanos (millis * 1000000.0)) else none

/-- A number of seconds. -/
def ofSecondsFloat? (seconds : Float) : Option Span :=
  if seconds.isFinite && 0.0 ≤ seconds then some (ofNanos (seconds * 1e9)) else none

end Workflow.Span
