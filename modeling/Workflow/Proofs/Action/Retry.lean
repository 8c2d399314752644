import Workflow.Action.Run
import Workflow.Proofs.Retry.Attempts

/-!
# Retry actions

A retry action is a retry loop whose waits end when the run is cancelled. So from the second one on
its attempts do not begin in a cancelled run.
-/

namespace Workflow

theorem Retrier.Account.not_cancelled {α : Type} {r : Retrier} {d : Drift}
    {op : Nat → Work (Except Fault α)} {onRetry : List RetryEvent → Moment → Moment} {n i : Nat}
    {past retries : List RetryEvent} {m m' : Moment} {tries : List (Attempt α)} {t : Attempt α}
    {result : Option (Except RetryFailure α)}
    (h : r.Account d op onRetry n past m tries retries result m')
    (hcancel : r.interrupts.cancellable = true) (ht : tries[i + 1]? = some t) :
    t.start.cancelled = false := by
  have hlt : i < tries.length := by
    have hlt' := (List.getElem?_eq_some_iff.1 ht).1
    omega
  obtain ⟨_, -, -, -, -, hfree⟩ := h.again i _ t (List.getElem?_eq_getElem hlt) ht
  by_contra hcancelled
  exact hfree (.inl ⟨hcancel, Bool.not_eq_false _ ▸ hcancelled⟩)

namespace Action

variable (site : Site) (name : String) (policy : RetryPolicy) (veto : Veto) (delays : Bool)
  (body : Action)

def attemptBody (n : Nat) : Work (Except Fault Unit) :=
  .after (·.record name "attempts" (.ofNat n)) (body.run (site.turn n))

def recordRetries : List RetryEvent → Moment → Moment :=
  if delays then recordDelays name else fun _ m => m

theorem run_retry :
    (retry name policy veto delays body).run site =
      ((retrier site name policy veto).run (attemptBody site name body)
        (recordRetries name delays)).bind fun retried =>
          .done (retried.result.mapError (retryFault name)) := by
  rw [run]
  rfl

variable {site name policy veto delays body} {d : Drift} {m m' : Moment}

/-- However far a retry action has got, this is the account of its attempts. -/
theorem account_of_retry {r : Option (Except Fault Unit)}
    (h : ((retry name policy veto delays body).run site).Reaches d m r m') :
    ∃ tries retries result,
      (retrier site name policy veto).Account d (attemptBody site name body)
          (recordRetries name delays) 1 [] m tries retries result m' ∧
        r = result.map (·.mapError (retryFault name)) ∧
        ∀ (i : Nat) (t : Attempt Unit), tries[i + 1]? = some t → t.start.cancelled = false := by
  have hloop : ∃ res, ((retrier site name policy veto).run (attemptBody site name body)
      (recordRetries name delays)).Reaches d m res m' ∧
        r = res.map fun retried => retried.result.mapError (retryFault name) := by
    rw [run_retry, Work.reaches_bind] at h
    rcases h with ⟨retried, m₁, hloop, h⟩ | ⟨rfl, hloop⟩
    · obtain ⟨rfl, rfl⟩ := Work.reaches_done.1 h
      exact ⟨some retried, hloop, rfl⟩
    · exact ⟨none, hloop, rfl⟩
  obtain ⟨res, hloop, rfl⟩ := hloop
  obtain ⟨tries, retries, haccount, -⟩ := Retrier.account_of_run hloop
  refine ⟨tries, retries, _, haccount, ?_, fun i t ht => haccount.not_cancelled rfl ht⟩
  rw [Option.map_map]
  rfl

end Action

end Workflow
