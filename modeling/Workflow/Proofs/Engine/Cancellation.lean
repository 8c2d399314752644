import Workflow.Proofs.Action.Retry
import Workflow.Proofs.Engine.Assembly
import Workflow.Proofs.Engine.Trace
import Workflow.Proofs.Work.Cancel

/-!
# Cancelled runs

A run that looks for cancellation dispatches no state once it has been cancelled. None of its pauses
withstands cancellation, and so it ends at the instant of the cancellation at the latest.
-/

namespace Workflow

theorem State.pauses_run (state : State) : state.run.Pauses Interrupts.Cancels := by
  have h := Work.closed_pauses Interrupts.Cancels
  unfold State.run
  cases state.task with
  | perform action => exact fun _ => h.andThen (action.pauses_run _) fun _ => h.done _
  | route test yes no =>
    cases test with
    | none => trivial
    | some test => exact fun _ => trivial
  | stop | answer verdict => trivial

def Moment.Settles (m m' : Moment) : Prop :=
  m.cancelled = true → m'.cancelled = true ∧ m'.context.path = m.context.path

namespace Moment.Settles

variable {m₁ m₂ m₃ : Moment}

theorem of_eq (hcancelled : m₂.cancelled = m₁.cancelled)
    (hpath : m₂.context.path = m₁.context.path) :
    Settles m₁ m₂ :=
  fun h => ⟨hcancelled.trans h, hpath⟩

theorem of_not_cancelled (h : m₁.cancelled = false) : Settles m₁ m₂ := by
  intro hcancelled
  rw [h] at hcancelled
  cases hcancelled

theorem trans (h : Settles m₁ m₂) (h' : Settles m₂ m₃) : Settles m₁ m₃ := by
  intro hcancelled
  obtain ⟨hcancelled', hpath⟩ := h hcancelled
  obtain ⟨hcancelled'', hpath'⟩ := h' hcancelled'
  exact ⟨hcancelled'', hpath'.trans hpath⟩

theorem of_works (h : m₁.Works m₂) : Settles m₁ m₂ :=
  fun hcancelled => ⟨h.cancelled hcancelled, by rw [h.context]⟩

end Moment.Settles

def Rules.ofCancelled : Rules where
  rests := Interrupts.Cancels
  forks := True
  acts := Moment.Settles

theorem Rules.chain_ofCancelled : Rules.ofCancelled.Chain .free where
  refl _ := .of_eq rfl rfl
  trans := Moment.Settles.trans
  wait _ _ hs hcancelled := ⟨hs.2 hcancelled, rfl⟩

namespace Engine

variable {e : Engine} {hooks : List Hook} {maxSteps : Option Nat} {spec : WorkflowSpec}

theorem dispatch_abides (state : State) (m : Moment) :
    (e.dispatch state).Abides .ofCancelled m := by
  have honly : state.run.Only Moment.Settles := state.works_run.imp fun _ _ => .of_works
  have hrun : state.run.Abides .ofCancelled m := honly.abides state.pauses_run trivial m
  unfold dispatch
  split
  · exact ⟨hrun, fun _ _ => trivial⟩
  · exact hrun

theorem emit_abides (notice : Notice) (run : Run) (m : Moment) :
    (e.emit notice run).Abides .ofCancelled m :=
  emit_induction (P := fun w => ∀ m, w.Abides .ofCancelled m) notice (fun _ _ => trivial)
    (fun _ _ hw _ => ⟨.of_eq rfl rfl, hw _⟩) run m

theorem follow_abides (current : String) (run : Run) (outcome : Except Fault Verdict) (m : Moment) :
    (e.follow current run outcome).Abides .ofCancelled m := by
  cases outcome with
  | error fault =>
    simp only [follow]
    split
    · exact ⟨.of_eq rfl rfl, trivial⟩
    · exact ⟨.of_eq rfl rfl, trivial⟩
  | ok verdict =>
    simp only [follow]
    split
    · exact ⟨.of_eq rfl (e.trace_of_complete current verdict m).1, trivial⟩
    · apply Work.abides_bind
      · refine ⟨.of_eq rfl rfl, ?_⟩
        dsimp only
        split
        · trivial
        · split
          · trivial
          · trivial
          · exact ⟨.of_eq rfl rfl, trivial⟩
      · intro picked m
        cases picked with
        | error fault => trivial
        | ok t => exact ⟨.of_eq rfl rfl, trivial⟩

/-- A step dispatches a state only as long as the run has not been cancelled. -/
theorem step_abides (hcancel : e.cancellation = true) (run : Run) (m : Moment) :
    (e.step run).Abides .ofCancelled m := by
  refine ⟨.of_eq rfl rfl, ?_⟩
  dsimp only [id]
  split
  · exact ⟨.of_eq rfl rfl, trivial⟩
  next hgoes =>
    rw [hcancel, Bool.true_and, Bool.not_eq_true] at hgoes
    split
    · exact ⟨.of_eq rfl rfl, trivial⟩
    · split
      · trivial
      next state _ =>
        refine ⟨.of_not_cancelled hgoes, Work.abides_bind ?_ fun result m => ?_⟩
        · refine Work.abides_bind (emit_abides _ _ _) fun run m => ?_
          refine Work.abides_bind (dispatch_abides state m) fun outcome m => ?_
          exact Work.abides_bind (emit_abides _ _ m) fun run m => trivial
        · exact follow_abides _ _ _ m

theorem execute_abides (hcancel : e.cancellation = true) (fuel : Nat) (m : Moment) :
    (e.execute fuel).Abides .ofCancelled m := by
  have hadvance : ∀ (fuel : Nat) (run : Run) (m : Moment),
      (e.advance fuel run).Abides .ofCancelled m := by
    intro fuel
    induction fuel with
    | zero => exact fun _ _ => trivial
    | succ fuel ih =>
      intro run m
      rw [advance_succ]
      apply Work.abides_bind (step_abides hcancel run m)
      intro progress m
      cases progress with
      | goesOn next => exact ih next m
      | ended last outcome => trivial
  refine ⟨?_, hadvance fuel {} _⟩
  unfold start
  dsimp only
  split <;> exact .of_eq rfl rfl

/-- A run that is cancelled after `n` milliseconds does not wait beyond that. -/
structure Prompt (e : Engine) (fuel n : Nat) (m : Moment) (done : Finished) : Prop where
  elapsed : done.moment.now ≤ m.now + n
  clock : ∀ p, (Crew.of (e.execute fuel) [.cancelAfter (.ofMillis n)] m).Passes p →
    p.moment.now ≤ m.now + n
  /-- From the cancellation on the clock stands still and no state is dispatched. -/
  stands : ∀ p, (Crew.of (e.execute fuel) [.cancelAfter (.ofMillis n)] m).Passes p →
    p.moment.cancelled = true →
      done.moment.now = p.moment.now ∧ done.moment.context.path = p.moment.context.path
  /-- Of every execution of a retry, and so of all that the run comes to: wherever it has got to,
  from the second one on none of its attempts has begun when the run had been cancelled. -/
  retries : ∀ {name : String} {policy : RetryPolicy} {veto : Veto} {delays : Bool} {body : Action}
    {site : Site} {d : Drift} {start finish : Moment} {r : Option (Except Fault Unit)},
    ((Action.retry name policy veto delays body).run site).Reaches d start r finish →
      ∃ tries retries result,
        (Action.retrier site name policy veto).Account d (Action.attemptBody site name body)
            (Action.recordRetries name delays) 1 [] start tries retries result finish ∧
          r = result.map (·.mapError (Action.retryFault name)) ∧
          ∀ (i : Nat) (t : Attempt Unit), tries[i + 1]? = some t → t.start.cancelled = false

/-- Every run that looks for cancellation is over when it is cancelled. -/
theorem cancellation_prompt (he : (ofSpec .builtins hooks maxSteps spec).2 = .ok e)
    (hsettings : spec.settings.cancellation = true) {fuel n : Nat} {m : Moment} {done : Finished}
    (h : e.carryOut fuel (some n) m = some done) : Prompt e fuel n m done := by
  have hcancel : e.cancellation = true := (assembled_of_ofSpec he).cancellation.trans hsettings
  simp only [carryOut] at h
  split at h
  next run outcome m' hrun =>
    cases h
    obtain ⟨hnow, hpasses⟩ := Work.carryOut_cancelled (tame_execute fuel)
      (fun m => ⟨⟨Nat.le_refl _, fun _ => rfl⟩, rfl⟩) (execute_abides hcancel fuel)
      Rules.chain_ofCancelled (fun _ hrests => hrests) hrun
    refine ⟨hnow, fun p hp => (hpasses p hp).1, fun p hp hcancelled => ?_,
      Action.account_of_retry⟩
    obtain ⟨-, hstands, hsettles⟩ := hpasses p hp
    exact ⟨(hstands hcancelled).2, (hsettles hcancelled).2⟩
  · cases h

def stubborn : WorkflowSpec :=
  let start : WorkflowSpec := { name := "stubborn", initialState := "a" }
  let state : StateSpec :=
    { name := "a",
      actions := [{ kind := "retry", params := [("action", .object [("type", "fail")])] }] }
  ((start.withState state).withState (Sample.finalState "b")).withTransition
    { origin := "a", target := "b" }

theorem cancellation_prompt_stubborn :
    ∃ e done, (ofSpec .builtins [] none stubborn).2 = .ok e ∧
      stubborn.settings.cancellation = true ∧
      e.carryOut 9 (some 5) { context := { identity := { session := "s" } } } = some done ∧
      (done.moment.context.path, done.moment.now) = (["a"], 5) ∧
      Prompt e 9 5 { context := { identity := { session := "s" } } } done := by
  obtain ⟨e, done, he, hdone, hresult⟩ := exists_finished
    (fun done => (done.moment.context.path, done.moment.now)) .builtins [] none stubborn 9 (some 5)
    { context := { identity := { session := "s" } } } (["a"], 5) (by decide +kernel)
  exact ⟨e, done, he, rfl, hdone, hresult, cancellation_prompt he rfl hdone⟩

end Engine

end Workflow
