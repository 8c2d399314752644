import Workflow.Proofs.Fault.Causes
import Workflow.Proofs.Work.Ends
import Workflow.Proofs.Work.Frame

/-!
# What a retry loop does

A loop makes its attempts one after the other, with a wait before each but the first. A fault is
followed by another attempt exactly when it is curable, worth a retry and not the last one allowed;
any other outcome ends the loop, and else only a wait that is cut short does.

`Retrier.Account` says all this of the attempts that were made, in order, also of a loop that is
still under way. It is proved by recursion on the loop, where the attempts begin with any number;
for the loop as a whole they begin with one.
-/

namespace Workflow

structure Attempt (α : Type) where
  start : Moment
  outcome : Option (Except Fault α)
  finish : Moment

def Interrupts.Struck (interrupts : Interrupts) (s : Scene) : Prop :=
  interrupts.cancellable = true ∧ s.cancelled = true ∨
    ∃ deadline ∈ interrupts.deadline, deadline ≤ s.now

namespace Interrupts

variable {interrupts : Interrupts} {instant : Nat} {s : Scene} {wake : Wake}

theorem Admits.struck (h : interrupts.Admits instant s wake) (hwake : wake ≠ .rested) :
    interrupts.Struck s := by
  cases wake with
  | rested => exact absurd rfl hwake
  | cancelled => exact .inl h
  | expired =>
    obtain ⟨deadline, hdeadline, hle⟩ := (Option.any_eq_true _ _).1 h.2
    exact .inr ⟨deadline, hdeadline, of_decide_eq_true hle⟩

theorem Admits.not_struck (h : interrupts.Admits instant s .rested) : ¬interrupts.Struck s := by
  obtain ⟨hcancel, hdeadline, -⟩ := h
  rintro (hstruck | ⟨deadline, hmem, hle⟩)
  · exact hcancel hstruck
  · rw [Option.mem_def] at hmem
    rw [hmem] at hdeadline
    exact of_decide_eq_false hdeadline hle

end Interrupts

namespace Retrier

variable {α : Type} (r : Retrier) (d : Drift) (op : Nat → Work (Except Fault α))
  (onRetry : List RetryEvent → Moment → Moment)

structure Retries (n : Nat) (fault : Fault) : Prop where
  curable : ¬∃ cause, fault.Wraps (.permanent cause)
  retryable : r.retryable fault = true
  left : n < max r.policy.maxAttempts 1

open Classical in
noncomputable def reason (fault : Fault) : RetryStop :=
  if ∃ cause, fault.Wraps (.permanent cause) then .permanent
  else if r.retryable fault = false then .rejected
  else .exhausted

noncomputable def settled (n : Nat) : Except Fault α → Except RetryFailure α
  | .ok value => .ok value
  | .error fault => .error ⟨r.reason fault, n, fault⟩

noncomputable def closing (n : Nat) : Except Fault α → Moment → Moment
  | .ok _, m => m
  | .error fault, m => r.reportStop n fault (r.reason fault) m

def event (n : Nat) (fault : Fault) : RetryEvent :=
  ⟨n, r.delay (n - 1), fault⟩

/-- A retry is scheduled after attempt number `n`, with those in `past` before it, last one first:
it is reported and handed over once, and this comes of the wait for the next attempt. -/
def Waits (n : Nat) (past : List RetryEvent) (fault : Fault) (m : Moment)
    (outcome : Option (Except Fault Unit)) (m' : Moment) : Prop :=
  (Work.wait (r.delay (n - 1)) r.interrupts).Reaches d
    (onRetry (r.event n fault :: past) (r.reportRetry n fault (r.delay (n - 1)) m))
    outcome m'

/-- Where the loop has got to with attempt number `n`, its last one: the retries that are scheduled
from then on, the result if there is one, and the moment. -/
inductive Closes (n : Nat) (past : List RetryEvent) (attempt : Attempt α) :
    List RetryEvent → Option (Except RetryFailure α) → Moment → Prop
  | working (hnone : attempt.outcome = none) : Closes n past attempt [] none attempt.finish
  | waiting {fault : Fault} {m' : Moment} (hfault : attempt.outcome = some (.error fault))
      (hretries : r.Retries n fault)
      (hwait : r.Waits d onRetry n past fault attempt.finish none m') :
    Closes n past attempt [r.event n fault] none m'
  | settled {outcome : Except Fault α} (houtcome : attempt.outcome = some outcome)
      (hstop : ∀ fault, outcome = .error fault → ¬r.Retries n fault) :
    Closes n past attempt [] (some (r.settled n outcome)) (r.closing n outcome attempt.finish)
  | interrupted {fault interrupt : Fault} {m' : Moment}
      (hfault : attempt.outcome = some (.error fault)) (hretries : r.Retries n fault)
      (hwait : r.Waits d onRetry n past fault attempt.finish (some (.error interrupt)) m')
      (hstruck : r.interrupts.Struck m'.toScene) :
    Closes n past attempt [r.event n fault] (some (.error ⟨.interrupted, n, interrupt⟩)) m'

/-- What is to be said of a loop from attempt number `n` on: its attempts and retries in order, and
where it has got to. The retries before are in `past`, last one first. -/
structure Account (n : Nat) (past : List RetryEvent) (m : Moment) (tries : List (Attempt α))
    (retries : List RetryEvent) (result : Option (Except RetryFailure α)) (m' : Moment) : Prop where
  first : tries.head?.map Attempt.start = some m
  made : ∀ (i : Nat) (t : Attempt α), tries[i]? = some t →
    (r.attempt op (n + i)).Reaches d t.start t.outcome t.finish
  /-- Each attempt but the first follows on a fault, for which a retry was scheduled. -/
  again : ∀ (i : Nat) (t u : Attempt α), tries[i]? = some t → tries[i + 1]? = some u →
    ∃ fault, t.outcome = some (.error fault) ∧ r.Retries (n + i) fault ∧
      retries[i]? = some (r.event (n + i) fault) ∧
      r.Waits d onRetry (n + i) ((retries.take i).reverse ++ past) fault t.finish (some (.ok ()))
        u.start ∧
      ¬r.interrupts.Struck u.start.toScene
  last : ∃ k t, tries.length = k + 1 ∧ tries[k]? = some t ∧
    r.Closes d onRetry (n + k) ((retries.take k).reverse ++ past) t (retries.drop k) result m'

variable {r d op onRetry} {n left : Nat} {past : List RetryEvent} {m m' : Moment}
  {tries : List (Attempt α)} {retries : List RetryEvent} {fault : Fault}

theorem stop?_eq_none (hleft : n + left = max r.policy.maxAttempts 1) :
    r.stop? left fault = none ↔ r.Retries n fault := by
  rw [stop?]
  split
  next hpermanent =>
    rw [Fault.isPermanentFailure_iff] at hpermanent
    exact ⟨fun h => (by cases h), fun h => absurd hpermanent h.curable⟩
  next hcurable =>
    rw [Fault.isPermanentFailure_iff] at hcurable
    split
    next hrejected =>
      rw [Bool.not_eq_true'] at hrejected
      refine ⟨fun h => (by cases h), fun h => ?_⟩
      rw [h.retryable] at hrejected
      cases hrejected
    next hretryable =>
      rw [Bool.not_eq_true', Bool.not_eq_false] at hretryable
      split
      · refine ⟨fun h => (by cases h), fun h => ?_⟩
        have hlt := h.left
        omega
      · exact ⟨fun _ => ⟨hcurable, hretryable, by omega⟩, fun _ => rfl⟩

theorem eq_reason_of_stop? {reason : RetryStop} (h : r.stop? left fault = some reason) :
    reason = r.reason fault := by
  rw [stop?] at h
  rw [Retrier.reason]
  split at h
  next hpermanent =>
    rw [Fault.isPermanentFailure_iff] at hpermanent
    rw [if_pos hpermanent]
    cases h
    rfl
  next hcurable =>
    rw [Fault.isPermanentFailure_iff] at hcurable
    rw [if_neg hcurable]
    split at h
    next hrejected =>
      rw [Bool.not_eq_true'] at hrejected
      rw [if_pos hrejected]
      cases h
      rfl
    next hretryable =>
      rw [Bool.not_eq_true', Bool.not_eq_false] at hretryable
      rw [hretryable, if_neg (by decide)]
      split at h
      · cases h
        rfl
      · cases h

theorem reason_ne_interrupted (r : Retrier) (fault : Fault) : r.reason fault ≠ .interrupted := by
  unfold reason
  split
  · exact RetryStop.noConfusion
  · split <;> exact RetryStop.noConfusion

theorem reaches_wait {span : Span} {interrupts : Interrupts} {outcome : Except Fault Unit}
    (h : (Work.wait span interrupts).Reaches d m (some outcome) m') :
    ∃ wake, interrupts.Admits (m.now + span.pauseTicks) m'.toScene wake ∧
      outcome = wake.outcome := by
  obtain ⟨s, -, -, ⟨hnone, -⟩ | ⟨wake, hwake, h⟩⟩ := h
  · cases hnone
  · obtain ⟨houtcome, rfl⟩ := Work.reaches_done.1 h
    exact ⟨wake, hwake, Option.some.inj houtcome⟩

theorem Waits.not_struck (h : r.Waits d onRetry n past fault m (some (.ok ())) m') :
    ¬r.interrupts.Struck m'.toScene := by
  obtain ⟨wake, hwake, houtcome⟩ := reaches_wait h
  cases wake with
  | rested => exact hwake.not_struck
  | cancelled | expired => cases houtcome

theorem Waits.struck {interrupt : Fault}
    (h : r.Waits d onRetry n past fault m (some (.error interrupt)) m') :
    r.interrupts.Struck m'.toScene := by
  obtain ⟨wake, hwake, houtcome⟩ := reaches_wait h
  apply hwake.struck
  rintro rfl
  cases houtcome

section Accounts

variable {result : Option (Except RetryFailure α)}

theorem Closes.account {t : Attempt α} (hstart : t.start = m)
    (hmade : (r.attempt op n).Reaches d m t.outcome t.finish)
    (h : r.Closes d onRetry n past t retries result m') :
    r.Account d op onRetry n past m [t] retries result m' where
  first := congrArg some hstart
  made i u hu := by
    cases i with
    | zero =>
      cases hu
      rw [hstart]
      exact hmade
    | succ i => cases hu
  again i u v hu hv := by cases hv
  last := ⟨0, t, rfl, rfl, h⟩

/-- An attempt that is followed by others comes before them. -/
theorem Account.cons {t : Attempt α} {next : Moment} (hstart : t.start = m)
    (hmade : (r.attempt op n).Reaches d m t.outcome t.finish)
    (hfault : t.outcome = some (.error fault)) (hretries : r.Retries n fault)
    (hwait : r.Waits d onRetry n past fault t.finish (some (.ok ())) next)
    (h : r.Account d op onRetry (n + 1) (r.event n fault :: past) next tries retries result m') :
    r.Account d op onRetry n past m (t :: tries) (r.event n fault :: retries) result m' where
  first := congrArg some hstart
  made i u hu := by
    cases i with
    | zero =>
      cases hu
      rw [hstart]
      exact hmade
    | succ i =>
      have hmade' := h.made i u hu
      rwa [Nat.add_right_comm] at hmade'
  again i u v hu hv := by
    cases i with
    | zero =>
      cases hu
      have hnext : v.start = next := by
        have hfirst := h.first
        rw [List.head?_eq_getElem?, show tries[0]? = some v from hv] at hfirst
        exact Option.some.inj hfirst
      rw [← hnext] at hwait
      exact ⟨fault, hfault, hretries, rfl, hwait, hwait.not_struck⟩
    | succ i =>
      obtain ⟨fault', hfault', hretries', hevent, hwait', hfree⟩ := h.again i u v hu hv
      rw [Nat.add_right_comm] at hretries' hevent hwait'
      refine ⟨fault', hfault', hretries', hevent, ?_, hfree⟩
      rw [List.take_succ_cons, List.reverse_cons, List.append_assoc]
      exact hwait'
  last := by
    obtain ⟨k, u, hlength, hu, hcloses⟩ := h.last
    refine ⟨k + 1, u, congrArg (· + 1) hlength, hu, ?_⟩
    rw [Nat.add_right_comm] at hcloses
    rw [List.take_succ_cons, List.reverse_cons, List.append_assoc]
    exact hcloses

/-- No more attempts are made than are allowed. -/
theorem Account.length_le (h : r.Account d op onRetry 1 past m tries retries result m') :
    tries.length ≤ max r.policy.maxAttempts 1 := by
  obtain ⟨k, u, hlength, hu, -⟩ := h.last
  cases k with
  | zero => omega
  | succ k =>
    obtain ⟨t, ht⟩ : ∃ t, tries[k]? = some t := ⟨_, List.getElem?_eq_getElem (by omega)⟩
    obtain ⟨fault, -, hretries, -⟩ := h.again k t u ht hu
    have hlt := hretries.left
    omega

end Accounts

def numbered (n : Nat) (tries : List (Attempt α)) : List (Nat × Nat) :=
  tries.mapIdx fun i t => (n + i, t.start.now)

theorem numbered_cons (n : Nat) (t : Attempt α) (tries : List (Attempt α)) :
    numbered n (t :: tries) = (n, t.start.now) :: numbered (n + 1) tries := by
  have hshift : (fun i (t : Attempt α) => (n + (i + 1), t.start.now)) =
      fun i t => (n + 1 + i, t.start.now) := by
    funext i t
    rw [Nat.add_right_comm, Nat.add_assoc]
  rw [numbered, List.mapIdx_cons, hshift, numbered, Nat.add_zero]

section Loop

variable {attempts : List (Nat × Nat)} {res : Option (Retried α)}

def Records (n : Nat) (attempts : List (Nat × Nat)) (past : List RetryEvent)
    (tries : List (Attempt α)) (retries : List RetryEvent) (res : Option (Retried α)) : Prop :=
  ∀ retried ∈ res, retried.attempts = attempts.reverse ++ numbered n tries ∧
    retried.events = past.reverse ++ retries

theorem records_none : Records n attempts past tries retries none := by
  intro retried h
  cases h

theorem records_ofLatest {result : Except RetryFailure α} {t : Attempt α} :
    Records n attempts past [t] []
      (some (Retried.ofLatest result ((n, t.start.now) :: attempts) past)) := by
  intro retried h
  cases h
  exact ⟨List.reverse_cons, (List.append_nil _).symm⟩

theorem Records.cons {t : Attempt α} {event : RetryEvent}
    (h : Records (n + 1) ((n, t.start.now) :: attempts) (event :: past) tries retries res) :
    Records n attempts past (t :: tries) (event :: retries) res := by
  intro retried hres
  obtain ⟨hattempts, hevents⟩ := h retried hres
  rw [hattempts, hevents, List.reverse_cons, List.reverse_cons, numbered_cons, List.append_assoc,
    List.append_assoc]
  exact ⟨rfl, rfl⟩

/-- The first attempt of a loop is its last one, or it is followed by what remains of the loop. -/
theorem reaches_loop (hleft : n + left = max r.policy.maxAttempts 1)
    (h : (r.loop op onRetry left n attempts past).Reaches d m res m') :
    ∃ t : Attempt α, t.start = m ∧ (r.attempt op n).Reaches d m t.outcome t.finish ∧
      ((∃ retries, r.Closes d onRetry n past t retries (res.map Retried.result) m' ∧
          Records n attempts past [t] retries res) ∨
        ∃ fault rest next, left = rest + 1 ∧ t.outcome = some (.error fault) ∧
          r.Retries n fault ∧ r.Waits d onRetry n past fault t.finish (some (.ok ())) next ∧
          (r.loop op onRetry rest (n + 1) ((n, m.now) :: attempts)
            (r.event n fault :: past)).Reaches d next res m') := by
  unfold loop at h
  rw [Work.reaches_look, Work.reaches_bind] at h
  rcases h with ⟨outcome, m₁, hmade, h⟩ | ⟨rfl, hmade⟩
  swap
  · exact ⟨⟨m, none, m'⟩, rfl, hmade, .inl ⟨[], .working rfl, records_none⟩⟩
  refine ⟨⟨m, some outcome, m₁⟩, rfl, hmade, ?_⟩
  cases outcome with
  | ok value =>
    obtain ⟨rfl, rfl⟩ := Work.reaches_done.1 h
    have hcloses : r.Closes d onRetry n past ⟨m, some (.ok value), m'⟩ []
        (some (r.settled n (.ok value))) (r.closing n (.ok value) m') := by
      apply Closes.settled rfl
      intro fault hfault
      cases hfault
    exact .inl ⟨[], hcloses, records_ofLatest⟩
  | error fault =>
    dsimp only at h
    split at h
    next reason hstop =>
      rw [Work.reaches_after, Work.reaches_done] at h
      obtain ⟨rfl, rfl⟩ := h
      have hno : ¬r.Retries n fault := by
        rw [← stop?_eq_none hleft, hstop]
        exact Option.some_ne_none reason
      cases eq_reason_of_stop? hstop
      let t : Attempt α := ⟨m, some (.error fault), m₁⟩
      have hcloses : r.Closes d onRetry n past t [] (some (r.settled n (.error fault)))
          (r.closing n (.error fault : Except Fault α) m₁) := by
        apply Closes.settled rfl
        intro fault' hfault
        cases hfault
        exact hno
      exact .inl ⟨[], hcloses, records_ofLatest⟩
    next hstop =>
      have hretries := (stop?_eq_none hleft).1 hstop
      cases left with
      | zero =>
        have hlt := hretries.left
        omega
      | succ rest =>
        rw [Work.reaches_after, Work.reaches_bind] at h
        rcases h with ⟨outcome, next, hwait, h⟩ | ⟨rfl, hwait⟩
        swap
        · exact .inl ⟨[r.event n fault], .waiting rfl hretries hwait, records_none⟩
        cases outcome with
        | ok _ => exact .inr ⟨fault, rest, next, rfl, rfl, hretries, hwait, h⟩
        | error interrupt =>
          obtain ⟨rfl, rfl⟩ := Work.reaches_done.1 h
          refine .inl ⟨[r.event n fault], .interrupted rfl hretries hwait (Waits.struck hwait), ?_⟩
          intro retried hres
          cases hres
          exact ⟨List.reverse_cons, List.reverse_cons⟩

theorem account_of_loop (hleft : n + left = max r.policy.maxAttempts 1)
    (h : (r.loop op onRetry left n attempts past).Reaches d m res m') :
    ∃ tries retries, r.Account d op onRetry n past m tries retries (res.map Retried.result) m' ∧
      Records n attempts past tries retries res := by
  induction left generalizing n attempts past m with
  | zero =>
    obtain ⟨t, hstart, hmade, ⟨retries, hcloses, hrecords⟩ | ⟨_, _, _, hrest, -⟩⟩ :=
      reaches_loop hleft h
    · exact ⟨[t], retries, hcloses.account hstart hmade, hrecords⟩
    · cases hrest
  | succ left ih =>
    obtain ⟨t, hstart, hmade, ⟨retries, hcloses, hrecords⟩ |
      ⟨fault, rest, next, hrest, hfault, hretries, hwait, hloop⟩⟩ := reaches_loop hleft h
    · exact ⟨[t], retries, hcloses.account hstart hmade, hrecords⟩
    · cases hrest
      obtain ⟨tries, retries, haccount, hrecords⟩ := ih (by omega) hloop
      rw [← hstart] at hrecords
      exact ⟨t :: tries, r.event n fault :: retries,
        haccount.cons hstart hmade hfault hretries hwait, hrecords.cons⟩

/-- However far a loop has got, there is an account of it. -/
theorem account_of_run (h : (r.run op onRetry).Reaches d m res m') :
    ∃ tries retries, r.Account d op onRetry 1 [] m tries retries (res.map Retried.result) m' ∧
      ∀ retried ∈ res, retried.attempts = numbered 1 tries ∧ retried.events = retries := by
  have hleft : 1 + (r.policy.attempts - 1) = max r.policy.maxAttempts 1 := by
    rw [RetryPolicy.attempts]
    omega
  exact account_of_loop hleft h

end Loop

theorem allows_report (m : Moment) (level : Level) (message : String)
    (fields : List (String × String)) :
    Drift.free.Allows m (m.report level message fields) :=
  ⟨Drift.free.refl _, rfl⟩

def steady : Retrier :=
  { policy := { backoff := .linear (.ofMillis 10) } }

def busy (_ : Nat) : Work (Except Fault Unit) :=
  .fail (.failed "busy")

end Retrier

end Workflow
