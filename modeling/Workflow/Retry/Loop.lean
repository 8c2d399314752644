import Workflow.Retry.Policy
import Workflow.Work.Basic

/-!
# Retrying

An operation is tried until it succeeds or one of four reasons ends the loop: no attempt is left,
the fault is permanent, the fault is not worth a retry, or the wait for the next attempt is cut
short. The outcome comes with a record of all attempts and of all retries that were scheduled.
-/

namespace Workflow

inductive RetryStop where
  | exhausted
  | permanent
  | rejected
  | interrupted
  deriving DecidableEq, Repr

structure RetryFailure where
  reason : RetryStop
  attempts : Nat
  fault : Fault

/-- The fault to show. A permanent fault that ended the loop is shown without its mark. -/
def RetryFailure.surfaced (failure : RetryFailure) : Fault :=
  match failure.reason, failure.fault with
  | .permanent, .permanent cause => cause
  | _, fault => fault

structure RetryEvent where
  attempt : Nat
  delay : Span
  fault : Fault

structure Retrier where
  policy : RetryPolicy
  /-- Names the operation in reports. -/
  label : String := "operation"
  /-- Whether a fault is worth another attempt. -/
  retryable : Fault → Bool := fun _ => true
  interrupts : Interrupts := {}
  /-- The number that is drawn for each wait. -/
  draws : Nat → Draw := fun _ => default

/-- The outcome of a retry loop with its attempts, each with its number and start, and its retries,
both in order. -/
structure Retried (α : Type) where
  result : Except RetryFailure α
  attempts : List (Nat × Nat)
  events : List RetryEvent

/-- The end of a loop, from its attempts and its retries, both last one first. -/
def Retried.ofLatest {α : Type} (result : Except RetryFailure α) (attempts : List (Nat × Nat))
    (events : List RetryEvent) : Retried α :=
  ⟨result, attempts.reverse, events.reverse⟩

namespace Retrier

variable {α : Type} (r : Retrier)

def delay (k : Nat) : Span :=
  r.policy.delay (r.draws k) k

def overrun (attempt : Nat) (limit : Span) : Fault :=
  .deadline (r.label ++ " attempt " ++ toString attempt ++ " exceeded " ++ toString limit.millis ++
    "ms")

def attempt (op : Nat → Work (Except Fault α)) (n : Nat) : Work (Except Fault α) :=
  match r.policy.attemptTimeout with
  | some limit => (op n).limited limit (r.overrun n limit)
  | none => op n

/-- Why the loop ends after a fault, if it does; `left` attempts may still be made. -/
def stop? (left : Nat) (fault : Fault) : Option RetryStop :=
  if fault.isPermanentFailure then some .permanent
  else if !r.retryable fault then some .rejected
  else if left = 0 then some .exhausted
  else none

def reportStop (n : Nat) (fault : Fault) (reason : RetryStop) (m : Moment) : Moment :=
  let fields :=
    [("operation", r.label), ("attempt", toString n), ("error", fault.message)]
  match reason with
  | .permanent => m.report .debug "Permanent error, not retrying" fields
  | .rejected => m.report .debug "Error rejected by classifier" fields
  | _ => m

def reportRetry (n : Nat) (fault : Fault) (delay : Span) (m : Moment) : Moment :=
  m.report .warn "Retrying operation"
    [("operation", r.label), ("attempt", toString n),
      ("max_attempts", toString r.policy.attempts), ("delay_ms", toString delay.millisWord),
      ("error", fault.message)]

/-- Attempt number `n` and all that follow, with `left` more after it; `attempts` and `events` are
those so far, last one first. Before each wait `onRetry` may record the retries, last one first. -/
def loop (op : Nat → Work (Except Fault α)) (onRetry : List RetryEvent → Moment → Moment) :
    (left n : Nat) → (attempts : List (Nat × Nat)) → (events : List RetryEvent) →
    Work (Retried α)
  | left, n, attempts, events =>
    .look fun start =>
      let attempts := (n, start.now) :: attempts
      (r.attempt op n).bind fun
        | .ok value => .done (.ofLatest (.ok value) attempts events)
        | .error fault =>
          match r.stop? left fault with
          | some reason =>
            .after (r.reportStop n fault reason)
              (.done (.ofLatest (.error ⟨reason, n, fault⟩) attempts events))
          | none =>
            match left with
            | 0 => .done (.ofLatest (.error ⟨.exhausted, n, fault⟩) attempts events)
            | left + 1 =>
              let delay := r.delay (n - 1)
              let events := ⟨n, delay, fault⟩ :: events
              .after (fun m => onRetry events (r.reportRetry n fault delay m))
                ((Work.wait delay r.interrupts).bind fun
                  | .ok () => loop op onRetry left (n + 1) attempts events
                  | .error interrupt =>
                    .done (.ofLatest (.error ⟨.interrupted, n, interrupt⟩) attempts events))

def run (op : Nat → Work (Except Fault α)) (onRetry : List RetryEvent → Moment → Moment) :
    Work (Retried α) :=
  r.loop op onRetry (r.policy.attempts - 1) 1 [] []

end Retrier

end Workflow
