import Workflow.Proofs.Engine.Assembly
import Workflow.Proofs.Engine.Trace

/-!
# What hooks are told

Hooks are told of each state that a run dispatches, when its work starts and when it finishes, and
of nothing else. What they are told goes together with the path of the context: both are read off
one log of the states that the run has dispatched, whatever came of each of them and however the run
has ended. All hooks are told the same.

An entry of the log is a `Dispatch`, with the moments before and after the work of the state.
`Worked` says how that work may end: in its own way, or dropped when the time of the state was up.
-/

namespace Workflow

def Progress.run : Progress → Run
  | .goesOn run => run
  | .ended run _ => run

namespace Engine

variable {e : Engine} {d : Draft} {state : State} {run : Run} {m m' m₁ m₂ : Moment}
  {outcome : Except Fault Verdict}

inductive Worked (e : Engine) (state : State) (m : Moment) :
    Except Fault Verdict → Moment → Prop
  | own {outcome : Except Fault Verdict} {m' : Moment}
      (hrun : state.run.Reaches .free m (some outcome) m') : Worked e state m outcome m'
  | late {limit : Span} {m' : Moment} (hlimit : e.timeoutFor state.name = some limit)
      (hrun : state.run.Reaches .free m none m') (hnow : m'.now = m.now + limit.ticks) :
      Worked e state m (.error (overrun state limit)) m'

theorem worked_of_dispatch (h : (e.dispatch state).Reaches .free m (some outcome) m') :
    e.Worked state m outcome m' := by
  unfold dispatch at h
  split at h
  next limit hlimit =>
    obtain ⟨u, m₁, hrun, hle, ⟨hu, h⟩ | ⟨-, hn, -⟩ | ⟨rfl, hge, h⟩⟩ := h
    · obtain ⟨hr, rfl⟩ := Work.reaches_done.1 h
      cases u with
      | none => cases hu
      | some own =>
        cases hr
        exact .own hrun
    · cases hn
    · obtain ⟨hr, rfl⟩ := Work.reaches_done.1 h
      cases hr
      exact .late hlimit hrun (Nat.le_antisymm hle hge)
  next => exact .own h

structure Dispatch where
  state : State
  before : Moment
  outcome : Except Fault Verdict
  after : Moment

namespace Dispatch

def notices (x : Dispatch) : List Notice :=
  [startNotice x.state, finishNotice x.state x.outcome]

def calls (e : Engine) (x : Dispatch) : List HookCall :=
  e.calls (startNotice x.state) ++ e.calls (finishNotice x.state x.outcome)

/-- The engine has dispatched its current state, and the work of it has ended like this. -/
structure Holds (e : Engine) (x : Dispatch) : Prop where
  current : x.state.name = x.before.context.currentState
  state : e.states.get? x.state.name = some x.state
  work : (e.dispatch x.state).Reaches .free (e.entered x.state x.before) (some x.outcome) x.after

end Dispatch

/-- The dispatches in the log, each with what has followed it, lead from the first moment to the
other one. -/
inductive Course (e : Engine) (first : Moment) : List Dispatch → Moment → Prop
  | start : Course e first [] first
  | dispatched {log : List Dispatch} {x : Dispatch} {run : Run} {progress : Progress}
      {m₂ m' : Moment} (h : Course e first log x.before) (hx : x.Holds e)
      (hm : e.Tells (finishNotice x.state x.outcome) x.after m₂)
      (hfollow : e.Followed x.state.name run m₂ x.outcome progress m') :
      Course e first (log ++ [x]) m'
  | noted {log : List Dispatch} {m m' : Moment} (h : Course e first log m) (hm : m.Noted m') :
      Course e first log m'

variable {first : Moment} {log : List Dispatch}

/-- What follows the work of a state adds nothing to the path, and no hook is told of it. -/
theorem Followed.leaves {current : String} {progress : Progress}
    (h : e.Followed current run m outcome progress m') :
    progress.run = run ∧ m'.context.path = m.context.path := by
  cases h with
  | rerouted _ _ => exact ⟨rfl, rfl⟩
  | failed hm _ | stuck hm _ _ => exact ⟨rfl, congrArg Context.path hm.context⟩
  | completed _ => exact ⟨rfl, (e.trace_of_complete _ _ _).1⟩
  | moved hm _ _ =>
    have hpath := congrArg Context.path hm.context
    exact ⟨rfl, hpath⟩

theorem Course.holds (h : e.Course first log m) : ∀ x ∈ log, x.Holds e := by
  induction h with
  | start => exact fun _ hx => by cases hx
  | dispatched _ hx _ _ ih =>
    intro y hy
    rcases List.mem_append.1 hy with hy | hy
    · exact ih y hy
    · exact List.mem_singleton.1 hy ▸ hx
  | noted _ _ ih => exact ih

/-- The path has grown by the names of the states that have been dispatched. -/
theorem Course.path (h : e.Course first log m) :
    m.context.path = first.context.path ++ log.map (·.state.name) := by
  induction h with
  | start => exact (List.append_nil _).symm
  | dispatched _ hx hm hfollow ih =>
    have hvisited := (trace_of_dispatch hx.work hm.noted).2.1
    rw [hfollow.leaves.2, hvisited, ih, List.map_append, List.map_singleton, List.append_assoc,
      hx.current]
  | noted _ hm ih => rw [hm.context, ih]

/-- A run that has made the dispatches in the log, and has told the hooks so. -/
structure Observed (e : Engine) (first : Moment) (log : List Dispatch) (run : Run) (m : Moment) :
    Prop where
  course : e.Course first log m
  calls : run.calls = log.flatMap (Dispatch.calls e)

theorem observed_of_stepped {progress : Progress} (hbuild : d.build = .ok e)
    (h : e.Observed first log run m) (hstep : e.Stepped .free run m progress m') :
    ∃ log, e.Observed first log progress.run m' := by
  cases hstep with
  | cancelled hm _ _ | spent hm _ => exact ⟨log, h.course.noted hm, h.calls⟩
  | lost _ _ => exact ⟨log, h.course, h.calls⟩
  | @dispatched state outcome _ m₁ m₂ _ _ _ hstate hwork hm hfollow =>
    have hname := (Draft.mem_states_of_get? hbuild hstate).2
    rw [← hname] at hstate hfollow
    have hholds : Dispatch.Holds e ⟨state, m, outcome, m₁⟩ := ⟨hname, hstate, hwork⟩
    refine ⟨log ++ [⟨state, m, outcome, m₁⟩], h.course.dispatched hholds hm hfollow, ?_⟩
    rw [hfollow.leaves.1, after, List.flatMap_append, ← h.calls, List.flatMap_singleton,
      List.append_assoc]
    rfl

theorem mem_calls {notice : Notice} {call : HookCall} :
    call ∈ e.calls notice ↔ call.hook < e.hooks.length ∧ call.notice = notice := by
  rw [calls, List.mem_map]
  constructor
  · rintro ⟨i, hi, rfl⟩
    exact ⟨List.mem_range.1 hi, rfl⟩
  · rintro ⟨hhook, rfl⟩
    exact ⟨call.hook, List.mem_range.2 hhook, rfl⟩

/-- Each hook is told of the notice once. -/
theorem heard_calls {i : Nat} (hi : i < e.hooks.length) (notice : Notice) :
    ((e.calls notice).filter (·.hook == i)).map HookCall.notice = [notice] := by
  have honce : (List.range e.hooks.length).filter (· == i) = [i] := by
    rw [List.filter_beq, List.count_eq_one_of_mem List.nodup_range (List.mem_range.2 hi),
      List.replicate_one]
  rw [calls, List.filter_map, Function.comp_def, honce]
  rfl

theorem Observed.received (h : e.Observed first log run m) {i : Nat} (hi : i < e.hooks.length) :
    run.received i = log.flatMap Dispatch.notices := by
  rw [Run.received, h.calls, List.filter_flatMap, List.map_flatMap]
  congr 1
  funext x
  rw [Dispatch.calls, List.filter_append, List.map_append, heard_calls hi, heard_calls hi]
  rfl

theorem Observed.called (h : e.Observed first log run m) :
    ∀ call ∈ run.calls, call.hook < e.hooks.length := by
  intro call hcall
  rw [h.calls, List.mem_flatMap] at hcall
  obtain ⟨x, -, hcall⟩ := hcall
  rcases List.mem_append.1 hcall with hcall | hcall <;> exact (mem_calls.1 hcall).1

/-- For every run that returns there is a log of what it has dispatched. All hooks are told that the
work of a state starts right before it does, and that it has finished right after that. The states
in the log are those that the run has added to the path, in this order, and each hook has been told,
for each of them, that its work started and then that it finished, with the message of the fault if
the work failed or took too long; of nothing else. -/
theorem observers_told_path (hbuild : d.build = .ok e) {fuel : Nat} {cancelAt : Option Nat}
    {done : Finished} (h : e.carryOut fuel cancelAt m = some done) :
    ∃ log : List Dispatch, e.Course (e.start m) log done.moment ∧
      (∀ x ∈ log, e.Worked x.state (e.entered x.state x.before) x.outcome x.after) ∧
      done.moment.context.path = m.context.path ++ log.map (·.state.name) ∧
      (∀ i < e.hooks.length, done.run.received i =
        log.flatMap fun x =>
          [⟨x.state.name, x.state.actionName, .start, none⟩,
            ⟨x.state.name, x.state.actionName, .finish,
              match x.outcome with
              | .ok _ => none
              | .error fault => some fault.message⟩]) ∧
      ∀ call ∈ done.run.calls, call.hook < e.hooks.length := by
  obtain ⟨log, hobserved⟩ := carryOut_induction
    (P := fun run m' => ∃ log, e.Observed (e.start m) log run m')
    (Q := fun run _ m' => ∃ log, e.Observed (e.start m) log run m')
    (fun ⟨_, h⟩ hstep => observed_of_stepped hbuild h hstep)
    (fun ⟨_, h⟩ hstep => observed_of_stepped hbuild h hstep) ⟨[], .start, rfl⟩ h
  have hcourse := hobserved.course
  refine ⟨log, hcourse, fun x hx => worked_of_dispatch (hcourse.holds x hx).work, ?_,
    fun i hi => hobserved.received hi, hobserved.called⟩
  rw [hcourse.path, context_start]
  rfl

def diverted : WorkflowSpec :=
  let start : WorkflowSpec := { name := "diverted", initialState := "a" }
  let state : StateSpec :=
    { name := "a", actions := [{ kind := "fail" }], onError := some "b" }
  (((start.withState state).withState (Sample.noopState "b")).withState
    (Sample.finalState "c")).withTransition { origin := "b", target := "c" }

theorem observers_told_path_diverted :
    ∃ d e done, Draft.build d = .ok e ∧ e.hooks = [.silent, .tracing] ∧
      e.carryOut 9 none { context := { identity := { session := "s" } } } = some done ∧
      ∃ log : List Dispatch, log.map (·.state.name) = ["a", "b", "c"] ∧
        done.run.received 0 = log.flatMap Dispatch.notices ∧
        done.run.received 1 = log.flatMap Dispatch.notices := by
  obtain ⟨e, done, he, hdone, hpath⟩ := exists_run .builtins [.silent, .tracing] none diverted 9
    none { context := { identity := { session := "s" } } } ["a", "b", "c"] (by decide +kernel)
  have hhooks : e.hooks = [.silent, .tracing] := (assembled_of_ofSpec he).hooks
  rw [ofSpec_eq_bind] at he
  obtain ⟨d, -, hbuild⟩ := bind_eq_ok.1 he
  obtain ⟨log, -, -, hlog, htold, -⟩ := observers_told_path hbuild hdone
  rw [hhooks] at htold
  exact ⟨d, e, done, hbuild, hhooks, hdone, log, hlog.symm.trans hpath, htold 0 (by decide),
    htold 1 (by decide)⟩

end Engine

end Workflow
