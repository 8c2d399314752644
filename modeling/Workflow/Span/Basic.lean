import Workflow.Json.Basic

/-!
# Spans of time

A span is a whole number of nanoseconds. The longest one is `2 ^ 64 - 1` seconds and 999 999 999
nanoseconds; arithmetic on spans stops there.
-/

namespace Workflow

structure Span where
  nanos : Nat
  deriving DecidableEq, Repr, Inhabited

namespace Span

def zero : Span := ⟨0⟩

def longest : Span := ⟨0xFFFFFFFFFFFFFFFF * 1000000000 + 999999999⟩

def ofMillis (n : Nat) : Span := ⟨1000000 * n⟩

def ofSeconds (n : Nat) : Span := ⟨1000000000 * n⟩

/-- The whole number of nanoseconds nearest to `x`, halves upwards, from zero to `2 ^ 64 - 1`. -/
def ofNanos (x : Float) : Span :=
  let whole := x.toUInt64
  let rest := if 0.5 ≤ x - whole.toFloat then 1 else 0
  ⟨min (whole.toNat + rest) 0xFFFFFFFFFFFFFFFF⟩

theorem nanos_ofNanos_lt (x : Float) : (ofNanos x).nanos < UInt64.size :=
  Nat.lt_of_le_of_lt (Nat.min_le_right _ _) (by decide)

def millis (s : Span) : Nat := s.nanos / 1000000

def millisWord (s : Span) : Nat := s.millis % 0x10000000000000000

/-- The `n`-fold span, at most the longest one. -/
def times (s : Span) (n : Nat) : Span := ⟨min (n * s.nanos) longest.nanos⟩

/-- How many milliseconds pass on the clock during the span, rounded up. -/
def ticks (s : Span) : Nat :=
  (s.nanos + 999999) / 1000000

def longestPause : Span := ofSeconds (30 * 365 * 86400)

/-- How many milliseconds pass on the clock during a pause for the span. -/
def pauseTicks (s : Span) : Nat := min s.ticks longestPause.ticks

def toJson (s : Span) : Json :=
  .object [("nanos", .ofNat (s.nanos % 1000000000)), ("secs", .ofNat (s.nanos / 1000000000))]

@[simp] theorem ticks_ofMillis (n : Nat) : (ofMillis n).ticks = n := by
  simp only [ticks, ofMillis]
  omega

@[simp] theorem millis_ofMillis (n : Nat) : (ofMillis n).millis = n := by
  simp only [millis, ofMillis]
  omega

end Span

end Workflow
