import Workflow.Proofs.Action.Course
import Workflow.Proofs.Action.Retry
import Workflow.Proofs.Registry.Mirrors

/-!
# What a retry action records

Three things keep count of the attempts of a retry action: the record of attempts, which each
attempt renews as it begins, the record of waits, which each retry extends before its wait, and the
count in the fault that is returned when no attempt is left. The account of a retry loop ties them
to the attempts that were made. Nothing but the loop touches the two records if the action that is
tried does not.
-/

namespace Workflow

namespace Retrier

variable {α : Type} {r : Retrier} {d : Drift} {op : Nat → Work (Except Fault α)}
  {onRetry : List RetryEvent → Moment → Moment} {n i : Nat} {past retries : List RetryEvent}
  {m m' : Moment} {tries : List (Attempt α)} {t : Attempt α} {result : Except RetryFailure α}

def Interrupted (result : Except RetryFailure α) : Prop :=
  ∃ failure, result = .error failure ∧ failure.reason = .interrupted

/-- All attempts that are allowed have been made and have failed, the last one with the fault, which
is neither permanent nor rejected. -/
structure Exhausts (r : Retrier) (tries : List (Attempt α)) (fault : Fault) : Prop where
  all : tries.length = max r.policy.maxAttempts 1
  failed : ∀ t ∈ tries, ∃ fault, t.outcome = some (.error fault)
  last : ∃ t, tries.getLast? = some t ∧ t.outcome = some (.error fault)
  curable : fault.isPermanentFailure = false
  retryable : r.retryable fault = true

theorem not_interrupted_settled (r : Retrier) (n : Nat) (outcome : Except Fault α) :
    ¬Interrupted (r.settled n outcome) := by
  rintro ⟨failure, hresult, hreason⟩
  cases outcome with
  | ok _ => cases hresult
  | error fault =>
    cases hresult
    exact r.reason_ne_interrupted fault hreason

/-- One more retry is scheduled in the end exactly if its wait is cut short. -/
theorem Closes.retries_eq (h : r.Closes d onRetry n past t retries (some result) m') :
    (retries = [] ∧ ¬Interrupted result) ∨
      ∃ fault, retries = [r.event n fault] ∧ Interrupted result := by
  generalize hend : some result = ended at h
  cases h with
  | working | waiting => cases hend
  | @settled outcome _ _ =>
    cases hend
    exact .inl ⟨rfl, r.not_interrupted_settled n outcome⟩
  | @interrupted fault interrupt _ _ _ _ _ =>
    cases hend
    exact .inr ⟨fault, rfl, _, rfl, rfl⟩

theorem Closes.attempts_eq {failure : RetryFailure}
    (h : r.Closes d onRetry n past t retries (some (.error failure)) m') : failure.attempts = n := by
  generalize hend : some (Except.error failure) = ended at h
  cases h with
  | working | waiting => cases hend
  | @settled outcome _ _ =>
    cases outcome with
    | ok _ => cases hend
    | error fault =>
      cases hend
      rfl
  | interrupted =>
    cases hend
    rfl

theorem reason_eq_exhausted_iff {fault : Fault} :
    r.reason fault = .exhausted ↔ fault.isPermanentFailure = false ∧ r.retryable fault = true := by
  rw [reason, ← Fault.isPermanentFailure_iff]
  cases fault.isPermanentFailure with
  | true => simp
  | false => cases r.retryable fault <;> simp

/-- A loop that is exhausted has ended with the fault of its last attempt. -/
theorem Closes.exhausted {count : Nat} {source : Fault}
    (h : r.Closes d onRetry n past t retries (some (.error ⟨.exhausted, count, source⟩)) m') :
    t.outcome = some (.error source) ∧ r.reason source = .exhausted ∧ ¬r.Retries n source := by
  generalize hend : some (Except.error _) = ended at h
  cases h with
  | working | waiting => cases hend
  | @settled outcome houtcome hstop =>
    cases outcome with
    | ok _ => cases hend
    | error fault =>
      obtain ⟨hreason, -, rfl⟩ := RetryFailure.mk.inj (Except.error.inj (Option.some.inj hend))
      exact ⟨houtcome, hreason.symm, hstop source rfl⟩
  | interrupted => cases hend

/-- A fault that is not followed by another attempt ends the loop. -/
theorem Closes.eq_settled {source : Fault}
    (h : r.Closes d onRetry n past t retries (some result) m')
    (houtcome : t.outcome = some (.error source)) (hno : ¬r.Retries n source) :
    result = r.settled n (.error source) := by
  generalize hend : some result = ended at h
  cases h with
  | working | waiting => cases hend
  | settled houtcome' _ =>
    cases houtcome.symm.trans houtcome'
    exact Option.some.inj hend
  | interrupted hfault hretries _ _ =>
    cases houtcome.symm.trans hfault
    exact absurd hretries hno

section Account

variable (h : r.Account d op onRetry 1 past m tries retries (some result) m')

include h

theorem Account.retry_before (hi : i + 1 < tries.length) :
    ∃ fault, retries[i]? = some (r.event (1 + i) fault) := by
  obtain ⟨fault, -, -, hretry, -⟩ := h.again i _ _
    (List.getElem?_eq_getElem (Nat.lt_of_succ_lt hi)) (List.getElem?_eq_getElem hi)
  exact ⟨fault, hretry⟩

/-- There is one retry fewer than there are attempts, or as many if a wait was cut short. -/
theorem Account.length_retries :
    (tries.length = retries.length + 1 ∧ ¬Interrupted result) ∨
      (tries.length = retries.length ∧ Interrupted result) := by
  obtain ⟨k, t, hlength, -, hcloses⟩ := h.last
  have hk : k ≤ retries.length := by
    cases k with
    | zero => exact Nat.zero_le _
    | succ k =>
      obtain ⟨fault, hretry⟩ := h.retry_before (i := k) (by omega)
      exact (List.getElem?_eq_some_iff.1 hretry).1
  have hdrop := List.length_drop (i := k) (l := retries)
  rcases hcloses.retries_eq with ⟨hnil, hno⟩ | ⟨fault, hone, hyes⟩
  · rw [hnil, List.length_nil] at hdrop
    exact .inl ⟨by omega, hno⟩
  · rw [hone, List.length_singleton] at hdrop
    exact .inr ⟨by omega, hyes⟩

/-- The retries wait as the policy says, by their numbers. -/
theorem Account.delay_eq {event : RetryEvent} (hevent : retries[i]? = some event) :
    event.delay = r.delay i := by
  have hdelay : ∀ fault, (r.event (1 + i) fault).delay = r.delay i := fun _ =>
    congrArg r.delay (Nat.add_sub_cancel_left 1 i)
  obtain ⟨k, t, hlength, -, hcloses⟩ := h.last
  by_cases hi : i < k
  · obtain ⟨fault, hretry⟩ := h.retry_before (i := i) (by omega)
    cases hretry.symm.trans hevent
    exact hdelay fault
  · have hdrop : (retries.drop k)[i - k]? = some event := by
      rw [List.getElem?_drop, Nat.add_sub_of_le (Nat.le_of_not_lt hi), hevent]
    rcases hcloses.retries_eq with ⟨hnil, -⟩ | ⟨fault, hone, -⟩
    · rw [hnil] at hdrop
      cases hdrop
    · rw [hone] at hdrop
      have hlt : i - k < 1 := (List.getElem?_eq_some_iff.1 hdrop).1
      obtain rfl : i = k := by omega
      rw [Nat.sub_self] at hdrop
      cases hdrop
      exact hdelay fault

theorem Account.map_delay :
    retries.map RetryEvent.delay = (List.range retries.length).map r.delay := by
  apply List.ext_getElem
  · rw [List.length_map, List.length_map, List.length_range]
  · intro i hi _
    rw [List.length_map] at hi
    rw [List.getElem_map, List.getElem_map, List.getElem_range]
    exact h.delay_eq (List.getElem?_eq_getElem hi)

theorem Account.attempts_eq {failure : RetryFailure} (hresult : result = .error failure) :
    failure.attempts = tries.length := by
  subst hresult
  obtain ⟨k, t, hlength, -, hcloses⟩ := h.last
  rw [hcloses.attempts_eq, hlength, Nat.add_comm]

theorem Account.exhausted_iff (source : Fault) :
    result = .error ⟨.exhausted, tries.length, source⟩ ↔ r.Exhausts tries source := by
  have hallowed := h.length_le
  obtain ⟨k, t, hlength, ht, hcloses⟩ := h.last
  have hlast : tries.getLast? = some t := by
    rw [List.getLast?_eq_getElem?, hlength]
    exact ht
  constructor
  · rintro rfl
    obtain ⟨houtcome, hreason, hno⟩ := hcloses.exhausted
    obtain ⟨hcurable, hretryable⟩ := reason_eq_exhausted_iff.1 hreason
    have hpermanent : ¬∃ cause, source.Wraps (.permanent cause) := by
      rw [← Fault.isPermanentFailure_iff, hcurable]
      exact Bool.noConfusion
    have hspent : ¬1 + k < max r.policy.maxAttempts 1 := fun hlt =>
      hno ⟨hpermanent, hretryable, hlt⟩
    refine ⟨by omega, fun u hu => ?_, ⟨t, hlast, houtcome⟩, hcurable, hretryable⟩
    obtain ⟨i, hi, rfl⟩ := List.mem_iff_getElem.1 hu
    by_cases hnext : i + 1 < tries.length
    · obtain ⟨fault, hfault, -⟩ := h.again i _ _ (List.getElem?_eq_getElem hi)
        (List.getElem?_eq_getElem hnext)
      exact ⟨fault, hfault⟩
    · obtain rfl : i = k := by omega
      rw [List.getElem?_eq_getElem hi] at ht
      cases ht
      exact ⟨source, houtcome⟩
  · rintro ⟨hall, -, ⟨u, hu, houtcome⟩, hcurable, hretryable⟩
    cases hlast.symm.trans hu
    have hno : ¬r.Retries (1 + k) source := fun hretries => by
      have hlt := hretries.left
      omega
    rw [hcloses.eq_settled houtcome hno, settled,
      reason_eq_exhausted_iff.2 ⟨hcurable, hretryable⟩, hlength, Nat.add_comm]

end Account

end Retrier

namespace Params

theorem nanos_of_spanOf? {json : Json} {span : Span} (h : spanOf? json = some span) :
    span.nanos < 2 ^ 64 := by
  unfold spanOf? at h
  split at h
  · simp only [Span.read?, bind, Option.bind_eq_some_iff, Option.ite_none_right_eq_some] at h
    obtain ⟨value, -, -, h⟩ := h
    cases h
    exact Span.nanos_ofNanos_lt _
  · obtain ⟨seconds, -, h⟩ := Option.bind_eq_some_iff.1 h
    simp only [Span.ofSecondsFloat?, Option.ite_none_right_eq_some] at h
    obtain ⟨-, h⟩ := h
    cases h
    exact Span.nanos_ofNanos_lt _

theorem nanos_of_span? {p : Params} {key : String} {span : Option Span}
    (h : p.span? key = .ok span) {default : Span} (hdefault : default.nanos < 2 ^ 64) :
    (span.getD default).nanos < 2 ^ 64 := by
  have hread := optional_eq_ok.1 h
  unfold held? at hread
  split at hread
  · cases hread
    exact hdefault
  · obtain ⟨span, hspan, rfl⟩ := Option.map_eq_some_iff.1 hread
    exact nanos_of_spanOf? hspan

end Params

namespace ActionKind

theorem nanos_of_backoffPolicy {p : Params} {policy : RetryPolicy}
    (h : backoffPolicy p = .ok policy) (k : Nat) : (policy.backoff.delay k).nanos < 2 ^ 64 := by
  unfold backoffPolicy at h
  obtain ⟨base, -, h⟩ := bind_eq_ok.1 h
  obtain ⟨factor, -, h⟩ := bind_eq_ok.1 h
  obtain ⟨most, hmost, h⟩ := bind_eq_ok.1 h
  obtain ⟨maxAttempts, -, h⟩ := bind_eq_ok.1 h
  obtain ⟨spread, -, h⟩ := bind_eq_ok.1 h
  obtain ⟨attemptTimeout, -, h⟩ := bind_eq_ok.1 h
  cases h
  dsimp only [Backoff.delay, Backoff.exponentialDelay]
  split
  · exact Params.nanos_of_span? hmost (by decide)
  · exact Span.nanos_ofNanos_lt _

/-- A retry with exponential backoff records its waits, and as a word each is what it is in whole
milliseconds: the policy has no delay that is too long for that. -/
theorem millisWord_of_build {nested : Builder} {spec : ActionSpec} {name : String}
    {policy : RetryPolicy} {veto : Veto} {delays : Bool} {body : Action}
    (h : retryWithBackoff.build nested spec = .ok (.retry name policy veto delays body)) :
    delays = true ∧ ∀ k, (policy.backoff.delay k).millisWord = (policy.backoff.delay k).millis := by
  obtain ⟨policy', hpolicy, h⟩ := bind_eq_ok.1 h
  obtain ⟨body', -, h⟩ := bind_eq_ok.1 h
  obtain ⟨parts, -, h⟩ := bind_eq_ok.1 h
  cases h
  refine ⟨rfl, fun k => Nat.mod_eq_of_lt ?_⟩
  exact (Nat.div_le_self _ _).trans_lt (nanos_of_backoffPolicy hpolicy k)

end ActionKind

theorem Work.context_of_wait {span : Span} {interrupts : Interrupts} {d : Drift} {m m' : Moment}
    {outcome : Option (Except Fault Unit)}
    (h : (wait span interrupts).Reaches d m outcome m') : m'.context = m.context := by
  obtain ⟨s, -, -, ⟨-, rfl⟩ | ⟨wake, -, h⟩⟩ := h
  · rfl
  · obtain ⟨-, rfl⟩ := reaches_done.1 h
    rfl

namespace Action

def waitRecord (delays : Bool) (retries : List RetryEvent) : Option Json :=
  if delays = true ∧ retries ≠ [] then
    some (.array (retries.map fun event => .ofNat event.delay.millisWord))
  else none

structure CountedIn (name : String) (delays : Bool) (attempts : Nat) (retries : List RetryEvent)
    (data : Data) : Prop where
  ordered : data.Ordered
  attempts : data.get? (name ++ "_" ++ "attempts") = some (.ofNat attempts)
  waits : data.get? (name ++ "_" ++ "delays_ms") = waitRecord delays retries

variable {site : Site} {name : String} {policy : RetryPolicy} {veto : Veto} {delays : Bool}
  {body : Action} {d : Drift} {n i attempts : Nat} {past earlier retries : List RetryEvent}
  {t : Attempt Unit} {tries : List (Attempt Unit)} {fault : Fault}
  {result : Except RetryFailure Unit} {m m' : Moment}

/-- In an attempt the body is run once, after the number of the attempt has been recorded. -/
theorem exists_body_of_attempt {outcome : Option (Except Fault Unit)}
    (h : ((retrier site name policy veto).attempt (attemptBody site name body) n).Reaches d m
      outcome m') :
    ∃ ended, (body.run (site.turn n)).Reaches d (m.record name "attempts" (.ofNat n)) ended m' := by
  unfold Retrier.attempt at h
  split at h
  · -- under a time limit the body may be dropped, and then it has got to somewhere
    obtain ⟨ended, m₁, hbody, -, ⟨-, h⟩ | ⟨-, -, rfl⟩ | ⟨-, -, h⟩⟩ := h
    · obtain ⟨-, rfl⟩ := Work.reaches_done.1 h
      exact ⟨ended, hbody⟩
    · exact ⟨ended, hbody⟩
    · obtain ⟨-, rfl⟩ := Work.reaches_done.1 h
      exact ⟨ended, hbody⟩
  · exact ⟨outcome, h⟩

/-- An attempt renews the record of attempts, and its body leaves both records alone. -/
theorem counted_of_attempt {outcome : Option (Except Fault Unit)}
    (hbody : body.Ignores [name ++ "_" ++ "attempts", name ++ "_" ++ "delays_ms"])
    (hordered : m.data.Ordered)
    (hwaits : m.data.get? (name ++ "_" ++ "delays_ms") = waitRecord delays retries)
    (h : ((retrier site name policy veto).attempt (attemptBody site name body) n).Reaches d m
      outcome m') :
    CountedIn name delays n retries m'.data := by
  obtain ⟨ended, hrun⟩ := exists_body_of_attempt h
  have hkeeps := hbody.keeps (m := m.record name "attempts" (.ofNat n)) (hordered.put _ _) hrun
  refine ⟨hkeeps.ordered, ?_, ?_⟩
  · rw [hkeeps.same _ (by simp)]
    exact Table.get?_put_self _ _ _
  · rw [hkeeps.same _ (by simp), ← hwaits]
    exact (Data.get?_put_own _ _ _ _ _).trans (if_neg (by decide))

/-- When a retry is scheduled, it is put on the record of waits. -/
theorem CountedIn.waiting {outcome : Option (Except Fault Unit)}
    (hcounted : CountedIn name delays attempts earlier m.data) (hpast : past.reverse = earlier)
    (h : (retrier site name policy veto).Waits d (recordRetries name delays) n past fault m outcome
      m') :
    CountedIn name delays attempts (earlier ++ [(retrier site name policy veto).event n fault])
      m'.data := by
  subst hpast
  have hdata : m'.data =
      (recordRetries name delays ((retrier site name policy veto).event n fault :: past) m).data := by
    rw [Moment.data, Work.context_of_wait h]
    cases delays <;> rfl
  rw [hdata]
  cases delays with
  | false =>
    refine ⟨hcounted.ordered, hcounted.attempts, hcounted.waits.trans ?_⟩
    simp [waitRecord]
  | true =>
    refine ⟨hcounted.ordered.put _ _, ?_, ?_⟩
    · refine Eq.trans ?_ hcounted.attempts
      exact (Data.get?_put_own _ _ _ _ _).trans (if_neg (by decide))
    · refine (Table.get?_put_self _ _ _).trans ?_
      simp [waitRecord]

theorem data_closing (r : Retrier) (n : Nat) (outcome : Except Fault Unit) (m : Moment) :
    (r.closing n outcome m).data = m.data := by
  cases outcome with
  | ok _ => rfl
  | error fault =>
    have hreport : ∀ reason, (r.reportStop n fault reason m).data = m.data := by
      intro reason
      cases reason <;> rfl
    exact hreport _

theorem CountedIn.closing (hcounted : CountedIn name delays attempts earlier t.finish.data)
    (hpast : past.reverse = earlier)
    (h : (retrier site name policy veto).Closes d (recordRetries name delays) n past t retries
      (some result) m') :
    CountedIn name delays attempts (earlier ++ retries) m'.data := by
  generalize hend : some result = ended at h
  cases h with
  | working | waiting => cases hend
  | settled => rwa [List.append_nil, data_closing]
  | interrupted _ _ hwait _ => exact hcounted.waiting hpast hwait

section Account

variable
  (hbody : body.Ignores [name ++ "_" ++ "attempts", name ++ "_" ++ "delays_ms"])
  (hordered : m.data.Ordered) (hfresh : m.data.get? (name ++ "_" ++ "delays_ms") = none)
  (h : (retrier site name policy veto).Account d (attemptBody site name body)
    (recordRetries name delays) 1 [] m tries retries (some result) m')

include hbody hordered hfresh h

/-- By the time that attempt number `i + 1` ends, so many attempts and the first `i` retries are on
record. -/
theorem counted_of_made (ht : tries[i]? = some t) :
    CountedIn name delays (1 + i) (retries.take i) t.finish.data := by
  induction i generalizing t with
  | zero =>
    obtain rfl : t.start = m := by
      have hfirst := h.first
      rw [List.head?_eq_getElem?, ht] at hfirst
      exact Option.some.inj hfirst
    exact counted_of_attempt hbody hordered (by simpa [waitRecord] using hfresh) (h.made 0 t ht)
  | succ i ih =>
    have hlt := (List.getElem?_eq_some_iff.1 ht).1
    obtain ⟨fault, -, -, hretry, hwait, -⟩ := h.again i _ t
      (List.getElem?_eq_getElem (Nat.lt_of_succ_lt hlt)) ht
    have hcounted := ih (List.getElem?_eq_getElem (Nat.lt_of_succ_lt hlt))
    have hstart := hcounted.waiting (by rw [List.append_nil, List.reverse_reverse]) hwait
    have htake : retries.take (i + 1) =
        retries.take i ++ [(retrier site name policy veto).event (1 + i) fault] := by
      rw [List.take_add_one, hretry]
      rfl
    rw [htake]
    exact counted_of_attempt hbody hstart.ordered hstart.waits (h.made (i + 1) t ht)

/-- In the end all attempts and all retries are on record. -/
theorem counted_of_account : CountedIn name delays tries.length retries m'.data := by
  obtain ⟨k, t, hlength, ht, hcloses⟩ := h.last
  have hcounted := counted_of_made hbody hordered hfresh h ht
  have hend := hcounted.closing (by rw [List.append_nil, List.reverse_reverse]) hcloses
  rw [List.take_append_drop] at hend
  rw [hlength, Nat.add_comm]
  exact hend

end Account

/-- The fault that is returned counts the attempts if the loop has run out of them, and only then.
-/
theorem mapError_eq_exhausted {label : String} {source : Fault} :
    result.mapError (retryFault name) = .error (.exhausted label n source) ↔
      label = name ∧ result = .error ⟨.exhausted, n, source⟩ := by
  cases result with
  | ok _ => simp [Except.mapError]
  | error failure =>
    obtain ⟨reason, count, fault⟩ := failure
    cases reason <;> simp [Except.mapError, retryFault, eq_comm]

theorem waitRecord_of_delays (hjitter : policy.jitter = .none)
    (h : retries.map RetryEvent.delay =
      (List.range retries.length).map (retrier site name policy veto).delay) :
    waitRecord delays retries =
      if delays = true ∧ retries ≠ [] then
        some (.array ((List.range retries.length).map fun k =>
          .ofNat (policy.backoff.delay k).millisWord))
      else none := by
  have hplain : (retrier site name policy veto).delay = fun k => policy.backoff.delay k := by
    funext k
    rw [Retrier.delay, RetryPolicy.delay, retrier, hjitter]
    rfl
  have hwords : retries.map (fun event => Json.ofNat event.delay.millisWord) =
      (retries.map RetryEvent.delay).map fun span => .ofNat span.millisWord := by
    rw [List.map_map]
    rfl
  rw [waitRecord, hwords, h, hplain, List.map_map]
  rfl

/-- A retry action whose body leaves its records alone tells by them, and by its fault, what it has
done: how often it has started the body, and how long it meant to wait in between. The retries fall
behind the attempts by one, unless the last wait was cut short. -/
theorem retry_recorded (hjitter : policy.jitter = .none)
    (hbody : body.Shuns (recordKeys (retry name policy veto delays body)))
    (hordered : m.data.Ordered)
    (hfresh : ∀ key ∈ recordKeys (retry name policy veto delays body), m.data.get? key = none)
    (site : Site) (cancelAt : Option Nat) :
    ∃ outcome m', (∃ fuel, ∀ more ≥ fuel,
        ((retry name policy veto delays body).run site).carryOut more cancelAt m =
          some (outcome, m')) ∧
      ∃ tries retries result,
        (retrier site name policy veto).Account .free (attemptBody site name body)
          (recordRetries name delays) 1 [] m tries retries (some result) m' ∧
        (∀ (i : Nat) (t : Attempt Unit), tries[i]? = some t → ∃ ended,
          (body.run (site.turn (1 + i))).Reaches .free
            (t.start.record name "attempts" (.ofNat (1 + i))) ended t.finish) ∧
        outcome = result.mapError (retryFault name) ∧
        m'.data.get? (name ++ "_" ++ "attempts") = some (.ofNat tries.length) ∧
        m'.data.get? (name ++ "_" ++ "delays_ms") =
          (if delays = true ∧ retries ≠ [] then
            some (.array ((List.range retries.length).map fun k =>
              .ofNat (policy.backoff.delay k).millisWord))
          else none) ∧
        (∀ nested spec, ActionKind.retryWithBackoff.build nested spec =
            .ok (retry name policy veto delays body) →
          delays = true ∧
            ∀ k, (policy.backoff.delay k).millisWord = (policy.backoff.delay k).millis) ∧
        ((tries.length = retries.length + 1 ∧ ¬Retrier.Interrupted result) ∨
          (tries.length = retries.length ∧ Retrier.Interrupted result)) ∧
        (∀ source, outcome = .error (.exhausted name tries.length source) ↔
          (retrier site name policy veto).Exhausts tries source) ∧
        (∀ label n source, outcome = .error (.exhausted label n source) →
          label = name ∧ n = tries.length) := by
  obtain ⟨outcome, m', hends, hreaches⟩ :=
    exists_execution (retry name policy veto delays body) site cancelAt m
  obtain ⟨tries, retries, ended, haccount, hended, -⟩ := account_of_retry hreaches
  obtain ⟨result, rfl, rfl⟩ := Option.map_eq_some_iff.1 hended.symm
  have hignores := (settles body hbody.2).ignores hbody.1
  have hcounted := counted_of_account hignores hordered (hfresh _ (by simp [recordKeys])) haccount
  refine ⟨_, m', hends, tries, retries, result, haccount,
    fun i t ht => exists_body_of_attempt (haccount.made i t ht), rfl, hcounted.attempts,
    hcounted.waits.trans (waitRecord_of_delays hjitter haccount.map_delay),
    fun _ _ => ActionKind.millisWord_of_build, haccount.length_retries, fun source => ?_, ?_⟩
  · rw [mapError_eq_exhausted, ← haccount.exhausted_iff source]
    exact and_iff_right rfl
  · intro label n source hexhausted
    obtain ⟨rfl, hresult⟩ := mapError_eq_exhausted.1 hexhausted
    exact ⟨rfl, haccount.attempts_eq hresult⟩

def hopeless : Action :=
  retry "r" { backoff := .linear (.ofMillis 10) } .nothing true (leaf "busy" (.fail "busy" false))

/-- The second wait is cut short after five milliseconds, but it is on record. -/
theorem retry_recorded_cancelled :
    let m : Moment := { context := { identity := { session := "s" } } }
    ∃ outcome m' tries retries result,
      (hopeless.run { owner := "s" }).carryOut 9 (some 15) m = some (outcome, m') ∧
      (retrier { owner := "s" } "r" { backoff := .linear (.ofMillis 10) } .nothing).Account .free
        (attemptBody { owner := "s" } "r" (leaf "busy" (.fail "busy" false)))
        (recordRetries "r" true) 1 [] m tries retries (some result) m' ∧
      m'.data.get? "r_attempts" = some (.ofNat tries.length) ∧
      m'.data.get? "r_delays_ms" = some (.array [.int 10, .int 20]) ∧
      tries.length = 2 ∧ retries.length = 2 ∧ Retrier.Interrupted result := by
  intro m
  have hbody : (leaf "busy" (.fail "busy" false)).Shuns hopeless.recordKeys :=
    ⟨List.disjoint_nil_left _, trivial⟩
  obtain ⟨outcome, m', hends, tries, retries, result, haccount, -, -, hattempts, hwaits, -, hcount,
    -, -⟩ := retry_recorded rfl hbody (m := m) Table.ordered_nil (fun _ _ => rfl) { owner := "s" }
      (some 15)
  have hrun : ((hopeless.run { owner := "s" }).carryOut 9 (some 15) m).map (fun done =>
      ((done.2.data.get? "r_attempts").bind (Json.asNat? 9),
        (done.2.data.get? "r_delays_ms").bind (Json.items? (Json.asNat? 99)))) =
          some (some 2, some [10, 20]) := by
    decide +kernel
  obtain ⟨done, hdone, hrecords⟩ := Option.map_eq_some_iff.1 hrun
  obtain rfl := execution_unique hdone hends
  obtain ⟨htwo, hlist⟩ := Prod.mk.inj hrecords
  rw [show "r" ++ "_" ++ "attempts" = "r_attempts" by decide] at hattempts
  rw [show "r" ++ "_" ++ "delays_ms" = "r_delays_ms" by decide] at hwaits
  have htries : tries.length = 2 := by
    rw [hattempts] at htwo
    have hread : tries.length ≤ 9 ∧ tries.length = 2 := by
      simpa [Json.asNat?, Json.ofNat] using htwo
    exact hread.2
  obtain ⟨hone, -⟩ | ⟨heq, hinterrupted⟩ := hcount
  · -- then only one wait would be on record
    obtain ⟨event, rfl⟩ := List.length_eq_one_iff.1 (Nat.succ_injective (hone.symm.trans htries))
    rw [hwaits, if_pos ⟨rfl, List.cons_ne_nil _ _⟩, List.length_singleton] at hlist
    exact absurd hlist (by decide)
  · have hretries : retries.length = 2 := heq.symm.trans htries
    have hsome : retries ≠ [] := List.ne_nil_of_length_pos (hretries ▸ Nat.two_pos)
    rw [if_pos ⟨rfl, hsome⟩, hretries] at hwaits
    exact ⟨outcome, m', tries, retries, result, hdone, haccount, hattempts, hwaits, htries, hretries,
      hinterrupted⟩

end Action

end Workflow
