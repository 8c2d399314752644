import Mathlib.Data.List.Induction
import Workflow.Proofs.Engine.Assembly
import Workflow.Proofs.Engine.Step
import Workflow.Sample

/-!
# Which time limit a state has

A state has its own limit if that is positive, and otherwise the one for all states if that is
positive. A limit of zero is as good as none at all: a state whose own limit is zero is not thereby
without limit, but has the one for all states. So it is whether the limits come from a specification
or are set by hand, in any order.
-/

namespace Workflow

namespace Span

def positive? (s : Span) : Option Span :=
  if s.nanos = 0 then none else some s

theorem positive?_ofSeconds (n : Nat) :
    (ofSeconds n).positive? = ((some n).filter (0 < ·)).map ofSeconds := by
  rw [positive?, ofSeconds]
  cases n with
  | zero => rfl
  | succ n =>
    rw [if_neg (by dsimp only; omega), Option.filter_some, if_pos (decide_eq_true n.succ_pos)]
    rfl

end Span

namespace Engine

variable {e : Engine} {d : Draft} {r : Registry} {hooks : List Hook} {maxSteps : Option Nat}
  {spec : WorkflowSpec}

def runWithin (state : State) : Option Span → Work (Except Fault Verdict)
  | some limit => state.run.limited limit (overrun state limit)
  | none => state.run

/-- The engine has the limit for the name, and dispatches the state of that name within it. -/
structure Limits (e : Engine) (name : String) (limit : Option Span) : Prop where
  timeoutFor : e.timeoutFor name = limit
  dispatch : ∀ state, e.states.get? name = some state → e.dispatch state = runWithin state limit

theorem dispatch_eq_runWithin (e : Engine) (state : State) :
    e.dispatch state = runWithin state (e.timeoutFor state.name) := by
  unfold Engine.dispatch
  cases e.timeoutFor state.name with
  | none | some limit => rfl

theorem limits_timeoutFor (hbuild : d.build = .ok e) (name : String) :
    e.Limits name (e.timeoutFor name) where
  timeoutFor := rfl
  dispatch state hstate := by
    rw [dispatch_eq_runWithin, (Draft.mem_states_of_get? hbuild hstate).2]

theorem timeoutFor_of_ofSpec (h : (ofSpec r hooks maxSteps spec).2 = .ok e) {s : StateSpec}
    (hs : s ∈ spec.states) :
    e.timeoutFor s.name = ((s.timeoutSecs.filter (0 < ·)).or
      ((some spec.settings.actionTimeoutSecs).filter (0 < ·))).map Span.ofSeconds := by
  rw [ofSpec_eq_bind] at h
  obtain ⟨draft, hdraft, hbuild⟩ := bind_eq_ok.1 h
  obtain ⟨hvalid, states, ts, -, -, rfl⟩ := Draft.ofSpec_eq_ok.1 hdraft
  obtain ⟨table, -, -, -, rfl⟩ := Draft.build_eq_ok.1 hbuild
  have hown : (Draft.gather StateSpec.timeout? [] spec.states).get? s.name = s.timeout? := by
    have hfind : spec.states.find? (·.name == s.name) = some s :=
      (spec.state?_eq_some_iff hvalid.distinct).2 ⟨hs, rfl⟩
    rw [Draft.get?_gather _ hvalid.distinct, hfind, Table.get?_nil, Option.or_none]
    rfl
  calc ((Draft.gather StateSpec.timeout? [] spec.states).get? s.name).or
        (Span.ofSeconds spec.settings.actionTimeoutSecs).positive?
    _ = (s.timeout?).or
        (((some spec.settings.actionTimeoutSecs).filter (0 < ·)).map Span.ofSeconds) := by
      rw [hown, Span.positive?_ofSeconds]
    _ = _ := by
      rw [StateSpec.timeout?]
      cases s.timeoutSecs.filter (0 < ·) with
      | none | some secs => rfl

end Engine

namespace Draft

inductive Call where
  | addState (state : State)
  | addTransition (t : Transition)
  | startAt (state : String)
  | addFinal (state : String)
  | limitState (state : String) (limit : Span)
  | limitStates (limit : Span)
  | onError (state target : String)
  | cancellation (enabled : Bool)
  | maxSteps (limit : Nat)
  | addHook (hook : Hook)

def apply (d : Draft) : Call → Draft
  | .addState state => d.addState state
  | .addTransition t => d.addTransition t
  | .startAt state => d.startAt state
  | .addFinal state => d.addFinal state
  | .limitState state limit => d.limitState state limit
  | .limitStates limit => d.limitStates limit
  | .onError state target => d.onError state target
  | .cancellation enabled => { d with cancellation := enabled }
  | .maxSteps limit => { d with maxSteps := some limit }
  | .addHook hook => d.addHook hook

def Call.ownLimit? (name : String) : Call → Option Span
  | .limitState state limit => if state = name then some limit else none
  | _ => none

def Call.commonLimit? : Call → Option Span
  | .limitStates limit => some limit
  | _ => none

/-- Of the limits that have been set one after the other, the last one counts, unless it is zero. -/
def inForce (limits : List Span) : Option Span :=
  limits.getLast?.bind Span.positive?

theorem inForce_concat (limits : List Span) (limit : Span) :
    inForce (limits ++ [limit]) = limit.positive? := by
  rw [inForce, List.getLast?_concat, Option.bind_some]

/-- Only a call that sets a limit for the state changes the state's own limit. -/
theorem timeouts_apply (d : Draft) (call : Call) (name : String) :
    (d.apply call).timeouts.get? name =
      match call.ownLimit? name with
      | some limit => limit.positive?
      | none => d.timeouts.get? name := by
  cases call with
  | limitState state limit =>
    rw [apply, limitState, Call.ownLimit?]
    by_cases hname : state = name
    · subst hname
      rw [if_pos rfl]
      dsimp only [Span.positive?]
      split
      · exact Table.get?_erase_self _ _
      · exact Table.get?_put_self _ _ _
    · rw [if_neg hname]
      dsimp only
      split
      · exact Table.get?_erase_of_ne _ (Ne.symm hname)
      · exact Table.get?_put_of_ne _ _ (Ne.symm hname)
  | addState _ | addTransition _ | startAt _ | addFinal _ | limitStates _ | onError _ _
  | cancellation _ | maxSteps _ | addHook _ => rfl

/-- Only a call that sets a limit for all states changes that limit. -/
theorem defaultTimeout_apply (d : Draft) (call : Call) :
    (d.apply call).defaultTimeout =
      match call.commonLimit? with
      | some limit => limit.positive?
      | none => d.defaultTimeout := by
  cases call <;> rfl

/-- A limit that is changed only by the calls that set it is, in the end, the one in force among
those that they have set. -/
theorem inForce_of_apply (read : Draft → Option Span) (set? : Call → Option Span)
    (hread : ∀ d call, read (apply d call) =
      match set? call with
      | some limit => limit.positive?
      | none => read d)
    {d : Draft} (hd : read d = none) (calls : List Call) :
    read (calls.foldl apply d) = inForce (calls.filterMap set?) := by
  induction calls using List.reverseRecOn with
  | nil => exact hd
  | append_singleton calls call ih =>
    rw [List.foldl_concat, hread, List.filterMap_append, List.filterMap_cons, List.filterMap_nil]
    cases set? call with
    | none => rw [List.append_nil, ih]
    | some limit => rw [inForce_concat]

theorem timeoutFor_of_calls {e : Engine} {title : String} {calls : List Call}
    (h : (calls.foldl apply { name := title }).build = .ok e) (name : String) :
    e.timeoutFor name =
      (inForce (calls.filterMap (Call.ownLimit? name))).or
        (inForce (calls.filterMap Call.commonLimit?)) := by
  obtain ⟨table, -, -, -, rfl⟩ := build_eq_ok.1 h
  have hown := inForce_of_apply (·.timeouts.get? name) (Call.ownLimit? name)
    (timeouts_apply · · name) (d := { name := title }) rfl calls
  have hcommon := inForce_of_apply Draft.defaultTimeout Call.commonLimit? defaultTimeout_apply
    (d := { name := title }) rfl calls
  rw [← hown, ← hcommon]
  rfl

end Draft

namespace Engine

variable {e e' : Engine} {r : Registry} {hooks : List Hook} {maxSteps : Option Nat}
  {spec : WorkflowSpec}

theorem limits_of_specified {s : StateSpec} (he : (ofSpec r hooks maxSteps spec).2 = .ok e)
    (hs : s ∈ spec.states) :
    e.Limits s.name (((s.timeoutSecs.filter (0 < ·)).or
        ((some spec.settings.actionTimeoutSecs).filter (0 < ·))).map Span.ofSeconds) ∧
      (s.timeoutSecs = some 0 →
        (e.timeoutFor s.name = none ↔ spec.settings.actionTimeoutSecs = 0)) := by
  have hspec := timeoutFor_of_ofSpec he hs
  rw [ofSpec_eq_bind] at he
  obtain ⟨draft, -, hbuild⟩ := bind_eq_ok.1 he
  refine ⟨hspec ▸ limits_timeoutFor hbuild s.name, fun hzero => ?_⟩
  rw [hspec, hzero, Option.map_eq_none_iff, Option.or_eq_none_iff, Option.filter_eq_none_iff,
    Option.filter_eq_none_iff]
  simp

theorem limits_of_calls {title : String} {calls : List Draft.Call}
    (he : (calls.foldl Draft.apply { name := title }).build = .ok e) (name : String) :
    e.Limits name ((Draft.inForce (calls.filterMap (Draft.Call.ownLimit? name))).or
      (Draft.inForce (calls.filterMap Draft.Call.commonLimit?))) :=
  Draft.timeoutFor_of_calls he name ▸ limits_timeoutFor he name

/-- The limit of a state of a specification is its own one if that is positive, and else the one for
all states if that is positive. Without a positive one of its own it is free of limits only if the
limit for all states is zero, too. Set by hand, in any order, the limit that was set last for the
state counts if it is positive, and else the one that was set last for all states. -/
theorem limits_of_positive {s : StateSpec} {title : String} {calls : List Draft.Call}
    (he : (ofSpec r hooks maxSteps spec).2 = .ok e) (hs : s ∈ spec.states)
    (he' : (calls.foldl Draft.apply { name := title }).build = .ok e') (name : String) :
    e.Limits s.name (((s.timeoutSecs.filter (0 < ·)).or
        ((some spec.settings.actionTimeoutSecs).filter (0 < ·))).map Span.ofSeconds) ∧
      (s.timeoutSecs = some 0 →
        (e.timeoutFor s.name = none ↔ spec.settings.actionTimeoutSecs = 0)) ∧
      e'.Limits name ((Draft.inForce (calls.filterMap (Draft.Call.ownLimit? name))).or
        (Draft.inForce (calls.filterMap Draft.Call.commonLimit?))) :=
  have hspec := limits_of_specified he hs
  ⟨hspec.1, hspec.2, limits_of_calls he' name⟩

def unhurried : WorkflowSpec :=
  let start : WorkflowSpec :=
    { name := "unhurried", initialState := "a", settings := { actionTimeoutSecs := 1 } }
  let state : StateSpec :=
    { name := "a"
      timeoutSecs := some 0
      actions := [{ kind := "retry", params := [("action", .object [("type", "fail")])] }] }
  ((start.withState state).withState (Sample.finalState "b")).withTransition
    { origin := "a", target := "b" }

def timedByHand : List Draft.Call :=
  [.addState ⟨"a", .stop⟩, .startAt "a", .limitState "a" (.ofMillis 5),
    .limitStates (.ofSeconds 1), .addHook .silent, .limitState "a" .zero]

def lateIn : Except Fault Unit → Option (String × String)
  | .error (.state state (.deadline place)) => some (state, place)
  | _ => none

theorem limits_of_positive_unhurried :
    ∃ s e done e', s ∈ unhurried.states ∧ s.timeoutSecs = some 0 ∧
      (ofSpec .builtins [] none unhurried).2 = .ok e ∧
      e.carryOut 9 none { context := { identity := { session := "s" } } } = some done ∧
      lateIn done.outcome = some (s.name, "state a exceeded 1000ms") ∧
      (timedByHand.foldl Draft.apply { name := "timed" }).build = .ok e' ∧
      e.Limits s.name (some (.ofSeconds 1)) ∧ e.timeoutFor s.name ≠ none ∧
      e'.Limits "a" (some (.ofSeconds 1)) := by
  obtain ⟨e, done, he, hdone, houtcome⟩ := exists_finished
    (fun done => lateIn done.outcome) .builtins [] none unhurried 9 none
    { context := { identity := { session := "s" } } } (some ("a", "state a exceeded 1000ms"))
    (by decide +kernel)
  obtain ⟨e', he'⟩ : ∃ e', (timedByHand.foldl Draft.apply { name := "timed" }).build = .ok e' :=
    ⟨_, rfl⟩
  have hs : unhurried.states.headD (Sample.finalState "b") ∈ unhurried.states :=
    List.mem_cons_self
  obtain ⟨hlimits, hzero, hlimits'⟩ := limits_of_positive he hs he' "a"
  exact ⟨_, e, done, e', hs, rfl, he, hdone, houtcome, he', hlimits, mt (hzero rfl).1 (by decide),
    hlimits'⟩

end Engine

end Workflow
