import Mathlib.Algebra.BigOperators.Intervals
import Workflow.Proofs.Action.RetryRecords

/-!
# When the attempts of a retry action begin

An attempt begins when the wait after the one before it is over, and a wait that is not cut short
lasts exactly as long as the policy says, at most as long as a pause can be. With linear backoff the
waits add up to a multiple of a triangular number.
-/

open Finset (range sum_range_succ)

namespace Workflow

/-- A pause that is not cut short ends when its span is over. -/
theorem Work.now_of_wait {span : Span} {interrupts : Interrupts} {d : Drift} {m m' : Moment}
    (h : (wait span interrupts).Reaches d m (some (.ok ())) m') :
    m'.now = m.now + span.pauseTicks := by
  obtain ⟨s, -, hlasts, ⟨hnone, -⟩ | ⟨wake, hwake, h⟩⟩ := h
  · cases hnone
  obtain ⟨houtcome, rfl⟩ := reaches_done.1 h
  cases wake with
  | cancelled | expired => cases houtcome
  | rested =>
    have hge : m.now + span.pauseTicks ≤ s.now := hwake.2.2
    change s.now = m.now + span.pauseTicks
    rcases hlasts with hnow | ⟨hle, -⟩
    · rw [hnow] at hge ⊢
      omega
    · exact le_antisymm hle hge

namespace Retrier

variable {α : Type} {r : Retrier} {d : Drift} {op : Nat → Work (Except Fault α)}
  {onRetry : List RetryEvent → Moment → Moment} {n : Nat} {past retries : List RetryEvent}
  {m m' : Moment} {tries : List (Attempt α)} {t : Attempt α} {fault : Fault}

theorem Waits.now_eq (hretry : ∀ events m, (onRetry events m).now = m.now)
    (h : r.Waits d onRetry n past fault m (some (.ok ())) m') :
    m'.now = m.now + (r.delay (n - 1)).pauseTicks := by
  rw [Work.now_of_wait h, hretry]
  rfl

theorem now_closing (r : Retrier) (n : Nat) (outcome : Except Fault α) (m : Moment) :
    (r.closing n outcome m).now = m.now := by
  cases outcome with
  | ok _ => rfl
  | error fault =>
    have hreport : ∀ reason, (r.reportStop n fault reason m).now = m.now := by
      intro reason
      cases reason <;> rfl
    exact hreport _

/-- Unless a wait is cut short, the loop ends with its last attempt. -/
theorem Closes.now_eq {result : Except RetryFailure α} (hcalm : ¬r.interrupts.Struck m'.toScene)
    (h : r.Closes d onRetry n past t retries (some result) m') : m'.now = t.finish.now := by
  generalize hend : some result = ended at h
  cases h with
  | working | waiting => cases hend
  | settled => exact now_closing _ _ _ _
  | interrupted _ _ _ hstruck => exact absurd hstruck hcalm

section Account

variable {result : Option (Except RetryFailure α)} {took : Nat → Nat}
  (hretry : ∀ events m, (onRetry events m).now = m.now)
  (htook : ∀ (i : Nat) (t : Attempt α), tries[i]? = some t →
    t.finish.now = t.start.now + took i)

include hretry htook

/-- Before an attempt begins, all attempts and waits before it have passed, and no more time. -/
theorem Account.start_now (h : r.Account d op onRetry 1 past m tries retries result m') {i : Nat}
    (ht : tries[i]? = some t) :
    t.start.now = m.now + ∑ j ∈ range i, took j +
      ∑ j ∈ range i, (r.delay j).pauseTicks := by
  induction i generalizing t with
  | zero =>
    have hfirst := h.first
    rw [List.head?_eq_getElem?, ht] at hfirst
    rw [Option.some.inj hfirst]
    rfl
  | succ i ih =>
    have hlt : i < tries.length := Nat.lt_of_succ_lt (List.getElem?_eq_some_iff.1 ht).1
    have hbefore := List.getElem?_eq_getElem hlt
    obtain ⟨fault, -, -, -, hwait, -⟩ := h.again i _ t hbefore ht
    rw [hwait.now_eq hretry, htook i _ hbefore, ih hbefore, Nat.add_sub_cancel_left,
      sum_range_succ, sum_range_succ]
    omega

theorem Account.finish_now {result : Except RetryFailure α}
    (h : r.Account d op onRetry 1 past m tries retries (some result) m')
    (hcalm : ¬r.interrupts.Struck m'.toScene) :
    m'.now = m.now + ∑ j ∈ range tries.length, took j +
      ∑ j ∈ range (tries.length - 1), (r.delay j).pauseTicks := by
  obtain ⟨k, t, hlength, ht, hcloses⟩ := h.last
  rw [hcloses.now_eq hcalm, htook k t ht, h.start_now hretry htook ht, hlength, sum_range_succ,
    Nat.add_sub_cancel]
  omega

end Account

end Retrier

/-- The wait with number `k` after a backoff of `b` milliseconds. The number of a wait fits 32 bits,
and a pause takes thirty years at most. -/
theorem RetryPolicy.pauseTicks_linear (n b : Nat) (draw : Draw) {k : Nat} (hk : k < 0xFFFFFFFF) :
    (({ maxAttempts := n, backoff := .linear (.ofMillis b) } : RetryPolicy).delay draw
      k).pauseTicks =
      min (b * (k + 1)) Span.longestPause.ticks := by
  have hmany : min (k + 1) 0xFFFFFFFF = k + 1 := Nat.min_eq_left hk
  have hnanos : (k + 1) * (1000000 * b) = 1000000 * (b * (k + 1)) := by
    rw [Nat.mul_left_comm, Nat.mul_comm (k + 1)]
  change min
    ((min ((min (k + 1) 0xFFFFFFFF) * (1000000 * b)) Span.longest.nanos + 999999) / 1000000)
    Span.longestPause.ticks = _
  rw [hmany, hnanos, show Span.longestPause.ticks = 946080000000 from rfl,
    show Span.longest.nanos = 18446744073709551615999999999 from rfl]
  omega

theorem Retrier.sum_delay_linear {r : Retrier} {n b : Nat}
    (hpolicy : r.policy = { maxAttempts := n, backoff := .linear (.ofMillis b) }) {i : Nat}
    (hi : i ≤ 0xFFFFFFFF) :
    ∑ j ∈ range i, (r.delay j).pauseTicks =
      ∑ j ∈ range i, min (b * (j + 1)) Span.longestPause.ticks := by
  refine Finset.sum_congr rfl fun j hj => ?_
  have hlt := Finset.mem_range.1 hj
  rw [Retrier.delay, hpolicy]
  exact RetryPolicy.pauseTicks_linear n b _ (by omega)

/-- As long as no wait is cut, the waits are a triangular number of steps. -/
theorem sum_linear {b i limit : Nat} (h : b * i ≤ limit) :
    ∑ j ∈ range i, min (b * (j + 1)) limit = b * (i * (i + 1) / 2) := by
  have hmin : ∀ j ∈ range i, min (b * (j + 1)) limit = b * (j + 1) := fun j hj =>
    Nat.min_eq_left ((Nat.mul_le_mul_left b (Finset.mem_range.1 hj)).trans h)
  have hshift : ∑ j ∈ range i, (j + 1) = ∑ j ∈ range (i + 1), j :=
    (Finset.sum_range_succ' (fun j => j) i).symm
  rw [Finset.sum_congr rfl hmin, ← Finset.mul_sum, hshift, Finset.sum_range_id, Nat.add_sub_cancel,
    Nat.mul_comm (i + 1)]

namespace Action

variable {name : String} {policy : RetryPolicy} {veto : Veto} {site : Site} {body : Action}
  {n : Nat} {t : Attempt Unit} {m m' : Moment}

def durationOf (tries : List (Attempt Unit)) (i : Nat) : Nat :=
  (tries[i]?.map fun t => t.finish.now - t.start.now).getD 0

theorem start_le_finish {outcome : Option (Except Fault Unit)}
    (h : ((retrier site name policy veto).attempt (attemptBody site name body) n).Reaches .free m
      outcome m') : m.now ≤ m'.now := by
  obtain ⟨ended, hrun⟩ := exists_body_of_attempt h
  exact (Work.Reaches.later (body.works_run _) hrun).now

theorem finish_of_account {onRetry : List RetryEvent → Moment → Moment}
    {past retries : List RetryEvent} {tries : List (Attempt Unit)}
    {result : Option (Except RetryFailure Unit)}
    (h : (retrier site name policy veto).Account .free (attemptBody site name body) onRetry n past m
      tries retries result m') {i : Nat} (ht : tries[i]? = some t) :
    t.finish.now = t.start.now + durationOf tries i := by
  have hle := start_le_finish (h.made i t ht)
  rw [durationOf, ht, Option.map_some, Option.getD_some, Nat.add_sub_of_le hle]

/-- Nothing but a cancellation strikes a retry without a deadline. -/
theorem not_struck_of_calm (hcalm : m.cancelled = false) :
    ¬(retrier site name policy veto).interrupts.Struck m.toScene := by
  rintro (⟨-, hcancelled⟩ | ⟨_, hdeadline, -⟩)
  · rw [hcalm] at hcancelled
    cases hcancelled
  · cases hdeadline

/-- No attempt at all is as good as one. -/
theorem run_retry_zero (name : String) (policy : RetryPolicy) (veto : Veto) (delays : Bool)
    (body : Action) (site : Site) :
    (retry name { policy with maxAttempts := 0 } veto delays body).run site =
      (retry name { policy with maxAttempts := 1 } veto delays body).run site := by
  rw [run_retry, run_retry, Retrier.run, Retrier.run]
  change (Retrier.loop _ _ _ 0 1 [] []).bind _ = (Retrier.loop _ _ _ 0 1 [] []).bind _
  rw [Retrier.loop, Retrier.loop]
  rfl

/-- The times of a retry with a backoff of `b` milliseconds and at most `n` attempts, from the times
that its attempts take. An attempt begins when those before it and the waits between them are over,
and unless it is cancelled the action ends with its last attempt. Wait number `j + 1` lasts
`b * (j + 1)` milliseconds or thirty years, whichever is less, so that the waits are triangular as
long as none reaches thirty years. -/
theorem retry_times {n : Nat} (hn : n ≤ 0xFFFFFFFF) (name : String) (b : Nat) (body : Action)
    (site : Site) (cancelAt : Option Nat) (m : Moment) :
    let policy (n : Nat) : RetryPolicy :=
      { maxAttempts := n, backoff := .linear (.ofMillis b) }
    let work := (retry name (policy n) .nothing false body).run site
    work = (retry name (policy (max n 1)) .nothing false body).run site ∧
    ∃ outcome m' tries retries result, ∃ took : Nat → Nat,
      (∃ fuel, ∀ more ≥ fuel, work.carryOut more cancelAt m = some (outcome, m')) ∧
      (retrier site name (policy n) .nothing).Account .free (attemptBody site name body)
        (recordRetries name false) 1 [] m tries retries (some result) m' ∧
      outcome = result.mapError (retryFault name) ∧
      (∀ (i : Nat) (t : Attempt Unit), tries[i]? = some t →
        t.finish.now = t.start.now + took i ∧
        t.start.now = m.now + ∑ j ∈ range i, took j +
          ∑ j ∈ range i, min (b * (j + 1)) Span.longestPause.ticks ∧
        (b * i ≤ Span.longestPause.ticks →
          t.start.now = m.now + ∑ j ∈ range i, took j + b * (i * (i + 1) / 2))) ∧
      (m'.cancelled = false →
        m'.now = m.now + ∑ j ∈ range tries.length, took j +
          ∑ j ∈ range (tries.length - 1), min (b * (j + 1)) Span.longestPause.ticks ∧
        (b * (tries.length - 1) ≤ Span.longestPause.ticks →
          m'.now = m.now + ∑ j ∈ range tries.length, took j +
            b * (tries.length * (tries.length - 1) / 2))) := by
  intro policy work
  refine ⟨?_, ?_⟩
  · cases n with
    | zero => exact run_retry_zero name (policy 1) .nothing false body site
    | succ n => rw [Nat.max_eq_left (Nat.le_add_left 1 n)]
  obtain ⟨outcome, m', hends, hreaches⟩ := exists_execution
    (retry name (policy n) .nothing false body) site cancelAt m
  obtain ⟨tries, retries, ended, haccount, hended, -⟩ := account_of_retry hreaches
  obtain ⟨result, rfl, rfl⟩ := Option.map_eq_some_iff.1 hended.symm
  have htook : ∀ (i : Nat) (t : Attempt Unit), tries[i]? = some t →
      t.finish.now = t.start.now + durationOf tries i := fun i t ht => finish_of_account haccount ht
  have hretry : ∀ events m, (recordRetries name false events m).now = m.now := fun _ _ => rfl
  have hpolicy : (retrier site name (policy n) .nothing).policy = policy n := rfl
  -- there are fewer waits than attempts, so their numbers are in range
  have hlength : tries.length ≤ max n 1 := haccount.length_le
  refine ⟨_, m', tries, retries, result, durationOf tries, hends, haccount, rfl, fun i t ht => ?_,
    fun hcalm => ?_⟩
  · have hlt := (List.getElem?_eq_some_iff.1 ht).1
    have hstart := haccount.start_now hretry htook ht
    rw [Retrier.sum_delay_linear hpolicy (by omega)] at hstart
    exact ⟨htook i t ht, hstart, fun hshort => by rw [hstart, sum_linear hshort]⟩
  · obtain ⟨k, -, hlast, -, -⟩ := haccount.last
    have hfinish := haccount.finish_now hretry htook (not_struck_of_calm hcalm)
    rw [Retrier.sum_delay_linear hpolicy (by omega)] at hfinish
    refine ⟨hfinish, fun hshort => ?_⟩
    rw [hfinish, sum_linear hshort, hlast, Nat.add_sub_cancel, Nat.mul_comm k]

/-- Three attempts that take five milliseconds each, with waits of ten and twenty between them. -/
theorem retry_times_delayed :
    let m : Moment := { context := { identity := { session := "s" } } }
    let body := sequence "s" [leaf "d" (.delay (.ofMillis 5)), leaf "busy" (.fail "busy" false)]
    let late := retry "r" { maxAttempts := 3, backoff := .linear (.ofMillis 10) } .nothing false
      body
    3 ≤ 0xFFFFFFFF ∧
    ∃ outcome m', ∃ tries : List (Attempt Unit), ∃ took : Nat → Nat,
      (late.run { owner := "s" }).carryOut 9 none m = some (outcome, m') ∧
      m'.cancelled = false ∧ m'.now = 45 ∧
      (∀ (i : Nat) (t : Attempt Unit), tries[i]? = some t → 10 * i ≤ Span.longestPause.ticks ∧
        t.start.now = m.now + ∑ j ∈ range i, took j + 10 * (i * (i + 1) / 2)) ∧
      m'.now = m.now + ∑ j ∈ range tries.length, took j +
        10 * (tries.length * (tries.length - 1) / 2) := by
  intro m body late
  have hthree : 3 ≤ 0xFFFFFFFF := by decide
  obtain ⟨-, outcome, m', tries, retries, result, took, hends, haccount, -, htimes, hend⟩ :=
    retry_times hthree "r" 10 body { owner := "s" } none m
  have hrun : ((late.run { owner := "s" }).carryOut 9 none m).map (fun done =>
      (done.2.cancelled, done.2.now)) = some (false, 45) := by
    decide +kernel
  obtain ⟨done, hdone, hresult⟩ := Option.map_eq_some_iff.1 hrun
  obtain rfl := execution_unique hdone hends
  obtain ⟨hcalm, hnow⟩ := Prod.mk.inj hresult
  have hlength : tries.length ≤ 3 := haccount.length_le
  have hthirty : 10 * 3 ≤ Span.longestPause.ticks := by decide
  refine ⟨hthree, outcome, m', tries, took, hdone, hcalm, hnow, fun i t ht => ?_,
    (hend hcalm).2 (by omega)⟩
  have hi := (List.getElem?_eq_some_iff.1 ht).1
  have hshort : 10 * i ≤ Span.longestPause.ticks := by omega
  exact ⟨hshort, (htimes i t ht).2.2 hshort⟩

/-- A wait of more than thirty years is cut to thirty years, though no span is too long: two
attempts that take no time and one wait of 300000 hours end before these are over. -/
theorem retry_times_cut :
    let m : Moment := { context := { identity := { session := "s" } } }
    let body := leaf "fail" (.fail "action failed" false)
    let patient := retry "r" { maxAttempts := 2, backoff := .linear (.ofMillis 1080000000000) }
      .nothing false body
    (∀ site, body.run site = .fail (.failed "action failed")) ∧
    2 * (Span.ofMillis 1080000000000).nanos ≤ Span.longest.nanos ∧
    ∃ outcome m', (patient.run { owner := "s" }).carryOut 9 none m = some (outcome, m') ∧
      m'.cancelled = false ∧ (m'.data.get? "r_attempts").bind (Json.asNat? 9) = some 2 ∧
      m'.now = 946080000000 ∧ m'.now ≠ m.now + 1080000000000 * (2 * (2 - 1) / 2) := by
  intro m body patient
  have hrun : ((patient.run { owner := "s" }).carryOut 9 none m).map (fun done =>
      (done.2.cancelled, (done.2.data.get? "r_attempts").bind (Json.asNat? 9), done.2.now)) =
        some (false, some 2, 946080000000) := by
    decide +kernel
  obtain ⟨⟨outcome, m'⟩, hdone, hresult⟩ := Option.map_eq_some_iff.1 hrun
  obtain ⟨hcalm, hattempts, hnow⟩ : m'.cancelled = false ∧
      (m'.data.get? "r_attempts").bind (Json.asNat? 9) = some 2 ∧ m'.now = 946080000000 := by
    simpa only [Prod.mk.injEq] using hresult
  refine ⟨fun _ => rfl, by decide, outcome, m', hdone, hcalm, hattempts, hnow, ?_⟩
  rw [hnow]
  decide

end Action

end Workflow
