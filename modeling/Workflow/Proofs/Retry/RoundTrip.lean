import Workflow.Proofs.Spec.RoundTrip
import Workflow.Retry.Codec

/-!
# Retry policies are read back from what they are written as

The bounds of the format are those of its words: a span is a whole number of milliseconds below
`2 ^ 64`, and the number of attempts is below `2 ^ 32`. Within these bounds nothing is lost. A
backoff does not say of which kind it is, but a linear one is written as a number and an exponential
one as a record, and no value is read as both.
-/

namespace Workflow

open Json (Faithful)
open Json.Record

theorem Json.faithful_float : Faithful Json.asFloat? Json.float fun _ => True where
  fits _ := trivial
  back _ := rfl

namespace Span

/-- What can be written of a span: whole milliseconds, no more of them than a word can count. -/
def Expressible (s : Span) : Prop :=
  ∃ n ≤ 0xFFFFFFFFFFFFFFFF, s = ofMillis n

theorem millisJson_ofMillis {n : Nat} (h : n ≤ 0xFFFFFFFFFFFFFFFF) :
    (ofMillis n).millisJson = .ofNat n := by
  rw [millisJson, millisWord, millis_ofMillis, Nat.mod_eq_of_lt (Nat.lt_succ_of_le h)]

theorem faithful : Faithful ofJson? millisJson Expressible where
  fits h := by
    obtain ⟨n, hread, rfl⟩ := Option.map_eq_some_iff.1 h
    exact ⟨n, Json.faithful_word.fits hread, rfl⟩
  back := by
    rintro _ ⟨n, hn, rfl⟩
    rw [millisJson_ofMillis hn, ofJson?, Json.faithful_word.back hn, Option.map_some]

end Span

namespace Backoff

def Expressible : Backoff → Prop
  | linear step => step.Expressible
  | exponential base _ most => base.Expressible ∧ most.Expressible

def IsLinear : Backoff → Prop
  | linear _ => True
  | exponential _ _ _ => False

theorem expressible_default :
    Expressible (.exponential (.ofMillis 1000) 2.0 (.ofSeconds 30)) :=
  ⟨⟨1000, by decide, rfl⟩, ⟨30000, by decide, rfl⟩⟩

variable {json : Json} {backoff : Backoff}

theorem exists_of_ofRecord? {record : Json.Record} (h : ofRecord? record = some backoff) :
    ∃ base factor most, backoff = exponential base factor most ∧ base.Expressible ∧
      most.Expressible := by
  obtain ⟨base, hbase, h⟩ := Option.bind_eq_some_iff.1 h
  obtain ⟨factor, -, h⟩ := Option.bind_eq_some_iff.1 h
  obtain ⟨most, hmost, h⟩ := Option.bind_eq_some_iff.1 h
  cases h
  exact ⟨base, factor, most, rfl,
    fits_of_withDefault? Span.faithful expressible_default.1 hbase,
    fits_of_withDefault? Span.faithful expressible_default.2 hmost⟩

/-- A value is read as a linear backoff or as an exponential one, as its shape says. -/
theorem cases_of_ofJson? (h : ofJson? json = some backoff) :
    (∃ n step, json = .int n ∧ backoff = linear step ∧ step.Expressible) ∨
      (∀ n, json ≠ .int n) ∧ ∃ base factor most, backoff = exponential base factor most ∧
        base.Expressible ∧ most.Expressible := by
  unfold ofJson? at h
  split at h
  next step hstep =>
    cases h
    cases json with
    | int n => exact .inl ⟨n, step, rfl, rfl, Span.faithful.fits hstep⟩
    | null | bool | float | string | array | object => cases hstep
  next =>
    obtain ⟨record, hrecord, h⟩ := Option.bind_eq_some_iff.1 h
    refine .inr ⟨?_, exists_of_ofRecord? h⟩
    rintro n rfl
    cases hrecord

theorem isLinear_iff_of_ofJson? (h : ofJson? json = some backoff) :
    backoff.IsLinear ↔ ∃ n, json = .int n := by
  rcases cases_of_ofJson? h with ⟨n, step, hjson, rfl, -⟩ | ⟨hshape, _, _, _, rfl, -, -⟩
  · exact iff_of_true trivial ⟨n, hjson⟩
  · exact iff_of_false id fun ⟨n, hjson⟩ => hshape n hjson

theorem isLinear_iff_toJson (backoff : Backoff) :
    backoff.IsLinear ↔ ∃ n, backoff.toJson = .int n := by
  cases backoff with
  | linear step => exact iff_of_true trivial ⟨_, rfl⟩
  | exponential base factor most => exact iff_of_false id fun ⟨_, hjson⟩ => nomatch hjson

theorem faithful : Faithful ofJson? toJson Expressible where
  fits h := by
    rcases cases_of_ofJson? h with ⟨_, step, -, rfl, hstep⟩ | ⟨-, _, _, _, rfl, hbase, hmost⟩
    · exact hstep
    · exact ⟨hbase, hmost⟩
  back {backoff} h := by
    cases backoff with
    | linear step => rw [toJson, ofJson?, Span.faithful.back h]
    | exponential base factor most =>
      have hspan : Span.ofJson? (toJson (.exponential base factor most)) = none := rfl
      rw [ofJson?, hspan, toJson, Json.Record.ofJson?, Option.bind_some, ofRecord?,
        withDefault?_encode Span.faithful base ?_ h.1,
        withDefault?_encode Json.faithful_float factor ?_ trivial,
        withDefault?_encode Span.faithful most ?_ h.2]
      all_goals rfl

end Backoff

theorem Jitter.faithful : Faithful Jitter.ofJson? Jitter.toJson fun _ => True where
  fits _ := trivial
  back {jitter} _ := by
    cases jitter with
    | none | proportional spread => rfl

namespace RetryPolicy

/-- What can be written of a policy: the bounds of its words, all else is free. -/
structure Expressible (policy : RetryPolicy) : Prop where
  maxAttempts : policy.maxAttempts ≤ 0xFFFFFFFF
  backoff : policy.backoff.Expressible
  attemptTimeout : ∀ limit ∈ policy.attemptTimeout, limit.Expressible

theorem faithful : Faithful ofJson? toJson Expressible where
  fits h := by
    obtain ⟨record, -, h⟩ := Option.bind_eq_some_iff.1 h
    obtain ⟨maxAttempts, hattempts, h⟩ := Option.bind_eq_some_iff.1 h
    obtain ⟨backoff, hbackoff, h⟩ := Option.bind_eq_some_iff.1 h
    obtain ⟨jitter, -, h⟩ := Option.bind_eq_some_iff.1 h
    obtain ⟨attemptTimeout, htimeout, h⟩ := Option.bind_eq_some_iff.1 h
    cases h
    exact ⟨(fits_of_withDefault? Json.faithful_halfWord (by decide) hattempts :),
      fits_of_withDefault? Backoff.faithful Backoff.expressible_default hbackoff,
      fits_of_optional? Span.faithful htimeout⟩
  back {policy} h := by
    rw [ofJson?, toJson, Json.Record.ofJson?, Option.bind_some, ofRecord?,
      withDefault?_encode Json.faithful_halfWord policy.maxAttempts ?_ h.maxAttempts,
      withDefault?_encode Backoff.faithful policy.backoff ?_ h.backoff,
      withDefault?_encode Jitter.faithful policy.jitter ?_ trivial,
      optional?_encode Span.faithful policy.attemptTimeout rfl ?_ h.attemptTimeout]
    all_goals rfl

/-- A policy that has been read is read again from what it is written as. The policies that can be
read of some value at all are the expressible ones, with every span of whole milliseconds that a
word can count, and no two of them are written alike: so neither a limit of the attempts that is
absent nor one that is there can be taken for the other. The shape of a value alone says, when it is
read and when it is written, whether a backoff is linear, and spans are written as what they
count. -/
theorem policy_read_back :
    (∀ (json : Json) (policy : RetryPolicy), ofJson? json = some policy →
      ofJson? policy.toJson = some policy) ∧
    (∀ policy : RetryPolicy, (∃ json, ofJson? json = some policy) ↔ policy.Expressible) ∧
    (∀ policy other : RetryPolicy, policy.Expressible → other.Expressible →
      policy.toJson = other.toJson → policy = other) ∧
    (∀ (json : Json) (backoff : Backoff), Backoff.ofJson? json = some backoff →
      (backoff.IsLinear ↔ ∃ n, json = .int n) ∧
      (backoff.IsLinear ↔ ∃ n, backoff.toJson = .int n)) ∧
    ∀ n ≤ 0xFFFFFFFFFFFFFFFF, (Span.ofMillis n).Expressible ∧
      (Span.ofMillis n).millisJson = .ofNat n := by
  refine ⟨fun json policy hread => faithful.back (faithful.fits hread),
    fun policy => ⟨fun ⟨_, hread⟩ => faithful.fits hread, fun h => ⟨_, faithful.back h⟩⟩,
    fun policy other h h' hjson => ?_, fun json backoff hread => ?_, fun n hn => ?_⟩
  · have hback := faithful.back h
    rw [hjson, faithful.back h'] at hback
    exact (Option.some.inj hback).symm
  · exact ⟨Backoff.isLinear_iff_of_ofJson? hread, backoff.isLinear_iff_toJson⟩
  · exact ⟨⟨n, hn, rfl⟩, Span.millisJson_ofMillis hn⟩

def boundary : Json :=
  .array [.int 5, .int 0xFFFFFFFFFFFFFFFF,
    .object [("shade", "red"), ("spread", .int 1), ("type", "proportional")], .int 0]

/-- A policy by position, with a step at the limit of its word: it comes back as a linear one, with
the limit of no time that it had. -/
theorem policy_read_back_boundary :
    ∃ policy : RetryPolicy, ofJson? boundary = some policy ∧
      policy.backoff = .linear (.ofMillis 0xFFFFFFFFFFFFFFFF) ∧
      policy.attemptTimeout = some .zero ∧ ofJson? policy.toJson = some policy :=
  ⟨_, rfl, rfl, rfl, policy_read_back.1 boundary _ rfl⟩

end RetryPolicy

end Workflow
