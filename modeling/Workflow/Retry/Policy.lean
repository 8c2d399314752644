import Workflow.Draw
import Workflow.Fault.Basic
import Workflow.Json.Record
import Workflow.Span.Basic

/-!
# Retry policies

How often an operation is tried and how long the waits between the attempts are. The wait before the
attempt after the first is number zero. As JSON, a linear backoff is its step in milliseconds and an
exponential one a record.
-/

namespace Workflow

inductive Backoff where
  /-- `step` before the second attempt, and longer by it each time. -/
  | linear (step : Span)
  /-- `base * factor ^ k`, at most `most`. -/
  | exponential (base : Span) (factor : Float) (most : Span)

inductive Jitter where
  | none
  /-- A random factor between `1 - spread` and `1 + spread`. -/
  | proportional (spread : Float)

structure RetryPolicy where
  maxAttempts : Nat := 3
  backoff : Backoff := .exponential (.ofMillis 1000) 2.0 (.ofSeconds 30)
  jitter : Jitter := .none
  /-- The time limit of each single attempt. -/
  attemptTimeout : Option Span := Option.none

/-- Whether one float is the larger; otherwise the second is taken, also for NaN. -/
def floatMax (x y : Float) : Float :=
  if y < x then x else y

/-- `x ^ n` by repeated squaring, the lowest binary digit of `n` first; `fuel` bounds the number of
digits. -/
def powerFrom (x : Float) (result : Float) : (fuel : Nat) → (n : Nat) → Float
  | 0, _ => result
  | fuel + 1, n =>
    let result := if n % 2 = 1 then result * x else result
    if n / 2 = 0 then result else powerFrom (x * x) result fuel (n / 2)

def power (x : Float) (n : Nat) : Float :=
  powerFrom x 1.0 32 n

namespace Span

def nanosFloat (s : Span) : Float :=
  Float.ofNat s.nanos

def seconds (s : Span) : Float :=
  Float.ofNat (s.nanos / 1000000000) + Float.ofNat (s.nanos % 1000000000) / 1e9

/-- The whole number nearest to the fraction; of two that are equally near, the even one. -/
def roundToEven (numerator denominator : Nat) : Nat :=
  let below := numerator / denominator
  let rest := numerator % denominator
  if denominator < 2 * rest || (2 * rest = denominator && below % 2 = 1) then below + 1 else below

/-- The span nearest to a number of seconds that is not negative. -/
def ofSecondsNearest (x : Float) : Span :=
  let bits := x.toBits.toNat
  let scale := bits / 0x10000000000000 % 2048
  let fraction := bits % 0x10000000000000
  let mantissa := if scale = 0 then fraction else 0x10000000000000 + fraction
  let scale := max scale 1
  -- the number is `mantissa * 2 ^ (scale - 1075)`
  ⟨roundToEven (mantissa * 1000000000 * Nat.pow 2 (scale - 1075)) (Nat.pow 2 (1075 - scale))⟩

end Span

namespace Backoff

def exponentialDelay (base : Span) (factor : Float) (most : Span) (k : Nat) : Span :=
  let nanos := base.nanosFloat * power (floatMax factor 0.0) (min k 0x7FFFFFFF)
  if !nanos.isFinite || most.nanosFloat ≤ nanos then most else Span.ofNanos nanos

def delay (k : Nat) : Backoff → Span
  | linear step => step.times (min (k + 1) 0xFFFFFFFF)
  | exponential base factor most => exponentialDelay base factor most k

end Backoff

namespace Jitter

/-- The spread that counts, between zero and one. -/
def clampedSpread (spread : Float) : Float :=
  if spread < 0.0 then 0.0 else if 1.0 < spread then 1.0 else spread

/-- The span changed by a factor that `sample`, a number from zero to one, picks. -/
def apply (sample : Float) (s : Span) : Jitter → Span
  | none => s
  | proportional spread =>
    let spread := clampedSpread spread
    Span.ofSecondsNearest (s.seconds * (1.0 - spread + sample * 2.0 * spread))

end Jitter

namespace RetryPolicy

/-- The wait with number `k`, given the number that is drawn for it. -/
def delay (policy : RetryPolicy) (draw : Draw) (k : Nat) : Span :=
  policy.jitter.apply draw.value (policy.backoff.delay k)

/-- At least one attempt is made. -/
def attempts (policy : RetryPolicy) : Nat :=
  max policy.maxAttempts 1

end RetryPolicy

end Workflow
