import Workflow.Proofs.Engine.Resumption
import Workflow.Proofs.Engine.Retimed
import Workflow.Proofs.Work.Ends

/-!
# Times make no difference

Where nothing is dropped for being late and nobody cancels the run, only the data and the random
numbers decide on what a run does: replace the delays and the backoffs of fixed retries by others,
and with the same numbers the run comes to the same outcome, tells its hooks the same and leaves the
same context. Merely the time that passes is another one, and the order in which parallel branches
are done.
-/

namespace Workflow

namespace Action

variable {P : Leaf → Prop} {L : RetryPolicy → Prop}

mutual

theorem All.and : (action : Action) → action.All P (fun _ => True) →
    action.All (fun _ => True) L → action.All P L
  | .leaf _ _, hP, _ => hP
  | .sequence _ actions, hP, hL => AllOf.and actions hP hL
  | .conditional _ _ yes no, hP, hL => ⟨AllOption.and yes hP.1 hL.1, AllOption.and no hP.2 hL.2⟩
  | .choice _ branches default, hP, hL =>
    ⟨AllSteps.and branches hP.1 hL.1, AllOption.and default hP.2 hL.2⟩
  | .retry _ _ _ _ body, hP, hL => ⟨hL.1, All.and body hP.2 hL.2⟩
  | .fallback _ primary secondary, hP, hL =>
    ⟨All.and primary hP.1 hL.1, All.and secondary hP.2 hL.2⟩
  | .validated _ steps _, hP, hL => AllSteps.and steps hP hL
  | .parallel _ branches _ _, hP, hL => AllOf.and branches hP hL
  | .progressive _ steps, hP, hL => AllSteps.and steps hP hL

theorem AllOption.and : (action : Option Action) → AllOption P (fun _ => True) action →
    AllOption (fun _ => True) L action → AllOption P L action
  | none, _, _ => trivial
  | some action, hP, hL => All.and action hP hL

theorem AllOf.and : (actions : List Action) → AllOf P (fun _ => True) actions →
    AllOf (fun _ => True) L actions → AllOf P L actions
  | [], _, _ => trivial
  | action :: actions, hP, hL => ⟨All.and action hP.1 hL.1, AllOf.and actions hP.2 hL.2⟩

theorem AllSteps.and : (steps : List (Step Action)) → AllSteps P (fun _ => True) steps →
    AllSteps (fun _ => True) L steps → AllSteps P L steps
  | [], _, _ => trivial
  | ⟨action, _, _⟩ :: steps, hP, hL => ⟨All.and action hP.1 hL.1, AllSteps.and steps hP.2 hL.2⟩

end

end Action

namespace Work

variable {α β : Type} {V : α → β → Prop} {w₁ : Work α} {w₂ : Work β}

theorem Agree.symm (h : Agree V w₁ w₂) : Agree (fun b a => V a b) w₂ w₁ := by
  intro m₂ m₁ m₂' m₁' v₂ v₁ hm h₂ h₁
  obtain ⟨hv, hm'⟩ := h _ _ _ _ _ _ ⟨hm.context.symm, hm.cancelled.symm⟩ h₁ h₂
  exact ⟨hv, hm'.context.symm, hm'.cancelled.symm⟩

end Work

namespace State

def Patient (state : State) : Prop :=
  ∀ action, state.task = .perform action → action.All (fun _ => True) RetryPolicy.Patient

variable {state state' : State}

theorem Retimed.actionName_eq (h : state.Retimed state') : state'.actionName = state.actionName := by
  cases h with
  | perform name h => exact h.name_eq
  | same => rfl

theorem agree_run (h : state.Retimed state')
    (hall : ∀ action, state.task = .perform action → action.All Leaf.Builtin RetryPolicy.Patient) :
    Work.Agree Eq state.run state'.run := by
  have hperform : ∀ {name : String} {action action' : Action}, action.Retimed action' →
      action.All Leaf.Builtin RetryPolicy.Patient →
        Work.Agree Eq (State.run ⟨name, .perform action⟩) (State.run ⟨name, .perform action'⟩) :=
    fun hr hall => by
      refine Work.agree_look fun m₁ m₂ hm => ?_
      rw [hm.context]
      exact (Action.agree_retimed _ _ hr hall).andThen fun _ => Work.agree_done rfl
  cases h with
  | perform name h => exact hperform h (hall _ rfl)
  | same =>
    obtain ⟨name, task⟩ := state
    cases task with
    | perform action => exact hperform (.refl action) (hall action rfl)
    | route test yes no =>
      cases test with
      | none => exact Work.agree_done rfl
      | some test =>
        refine Work.agree_look fun m₁ m₂ hm => ?_
        rw [hm.data]
        exact Work.agree_done rfl
    | stop | answer verdict => exact Work.agree_done rfl

end State

namespace Engine

/-- The engine limits neither the time of a state nor that of an attempt. -/
structure Patient (e : Engine) : Prop where
  states (name : String) : e.timeoutFor name = none
  attempts (name : String) (state : State) : e.states.get? name = some state → state.Patient

variable {e e' : Engine} {hooks : List Hook} {maxSteps : Option Nat}
  {spec spec' : WorkflowSpec} {run : Run} {m m' : Moment}

section Alike

variable {m₁ m₂ m₁' m₂' : Moment}

theorem alike_of_noted (hm : m₁.Alike m₂) (h₁ : m₁.Noted m₁') (h₂ : m₂.Noted m₂') :
    m₁'.Alike m₂' :=
  ⟨h₁.context.trans (hm.context.trans h₂.context.symm),
    h₁.cancelled.trans (hm.cancelled.trans h₂.cancelled.symm)⟩

theorem alike_report (hm : m₁.Alike m₂) (level : Level) (message : String)
    (fields₁ fields₂ : List (String × String)) :
    (e.report level message fields₁ m₁).Alike (e.report level message fields₂ m₂) :=
  alike_of_noted hm (e.noted_report _ _ _ m₁) (e.noted_report _ _ _ m₂)

theorem alike_start (hm : m₁.Alike m₂) : (e.start m₁).Alike (e.start m₂) := by
  unfold start
  rw [hm.context]
  split
  · exact alike_report (hm.update _) _ _ _ _
  · exact alike_report hm _ _ _ _

theorem alike_reroute (hm : m₁.Alike m₂) (current target : String) (fault : Fault) :
    (e.reroute current target fault m₁).Alike (e.reroute current target fault m₂) := by
  unfold reroute
  refine Moment.Alike.update ?_ _
  exact ((alike_report hm _ _ _ _).update (·.set _ _)).update (·.set _ _)

theorem alike_complete (hm : m₁.Alike m₂) (current : String) (verdict : Verdict) :
    (e.complete current verdict m₁).Alike (e.complete current verdict m₂) :=
  alike_report (hm.update _) _ _ _ _

theorem alike_take (hm : m₁.Alike m₂) (current : String) (t : Transition) (verdict : Verdict) :
    (e.take current t verdict m₁).Alike (e.take current t verdict m₂) := by
  unfold take
  exact (alike_report hm _ _ _ _).update _

end Alike

theorem agree_resolve (e : Engine) (current preferred : String) :
    Work.Agree Eq (e.resolve current preferred) (e.resolve current preferred) := by
  refine Work.agree_look fun m₁ m₂ hm => ?_
  rw [hm.data]
  split
  · exact Work.agree_done rfl
  · split
    · exact Work.agree_done rfl
    · exact Work.agree_done rfl
    · exact Work.agree_after (fun _ _ hm => hm.report _ _ _) (Work.agree_done rfl)

theorem agree_follow (e : Engine) (current : String) (run : Run) (outcome : Except Fault Verdict) :
    Work.Agree Eq (e.follow current run outcome) (e.follow current run outcome) := by
  cases outcome with
  | error fault =>
    simp only [follow]
    split
    · exact Work.agree_after (fun _ _ hm => alike_reroute hm _ _ _) (Work.agree_done rfl)
    · exact Work.agree_after (fun _ _ hm => alike_report hm _ _ _ _) (Work.agree_done rfl)
  | ok verdict =>
    simp only [follow]
    split
    · exact Work.agree_after (fun _ _ hm => alike_complete hm _ _) (Work.agree_done rfl)
    · refine (e.agree_resolve current verdict.next).bind ?_
      rintro picked _ rfl
      cases picked with
      | error fault => exact Work.agree_done rfl
      | ok t => exact Work.agree_after (fun _ _ hm => alike_take hm _ _ _) (Work.agree_done rfl)

theorem agree_emit (notice : Notice) (run : Run) :
    Work.Agree Eq (e.emit notice run) (e.emit notice run) :=
  emit_induction (P := fun w => Work.Agree Eq w w) notice (fun _ => Work.agree_done rfl)
    (fun hook _ hw => Work.agree_after
      (fun _ _ hm => alike_of_noted hm (noted_tell hook notice _) (noted_tell hook notice _)) hw)
      run

theorem agree_runState {state state' : State} (hr : state.Retimed state')
    (hwork : Work.Agree Eq (e.dispatch state) (e.dispatch state')) (run : Run) :
    Work.Agree Eq (e.runState state run) (e.runState state' run) := by
  have hname : state'.name = state.name := (Draft.isFinal_of_retimed hr).2
  have hstart : startNotice state' = startNotice state := by
    rw [startNotice, hname, hr.actionName_eq, ← startNotice]
  have hfinish : ∀ outcome, finishNotice state' outcome = finishNotice state outcome :=
    fun outcome => by
      unfold finishNotice
      rw [hname, hr.actionName_eq]
  unfold runState
  rw [hstart]
  refine (agree_emit _ run).bind ?_
  rintro told _ rfl
  refine hwork.bind ?_
  rintro outcome _ rfl
  rw [hfinish]
  refine (agree_emit _ told).bind ?_
  rintro last _ rfl
  exact Work.agree_done rfl

theorem Patient.agree_dispatch (h : e.Patient) (ha : Assembled .builtins hooks maxSteps spec e)
    {name : String} {state state' : State} (hstate : e.states.get? name = some state)
    (hr : state.Retimed state') : Work.Agree Eq (e.dispatch state) (e.dispatch state') := by
  obtain ⟨s, -, -, hbuilt, -⟩ := ha.spec_of_state hstate
  unfold dispatch
  rw [h.states, h.states]
  exact State.agree_run hr fun action htask =>
    (Registry.leaves_of_buildState hbuilt htask).and _ (h.attempts name state hstate action htask)

/-- Engines that differ in times only make the same steps. -/
theorem Patient.agree_step (h : e.Patient) (ha : Assembled .builtins hooks maxSteps spec e)
    (hr : e.Retimed e') (run : Run) : Work.Agree Eq (e.step run) (e'.step run) := by
  obtain @⟨states, hstates⟩ := hr
  have hlimit : spentLimit? { e with states } run = e.spentLimit? run := rfl
  refine Work.agree_look fun m₁ m₂ hm => ?_
  rw [hm.cancelled, hm.context, hlimit]
  dsimp only
  split
  · exact Work.agree_after (fun _ _ hm => alike_report hm _ _ _ _) (Work.agree_done rfl)
  · split
    · exact Work.agree_after (fun _ _ hm => alike_report hm _ _ _ _) (Work.agree_done rfl)
    · have hfound := hstates m₂.context.currentState
      cases hstate : e.states.get? m₂.context.currentState with
      | none =>
        rw [hstate] at hfound
        generalize states.get? m₂.context.currentState = state? at hfound ⊢
        cases hfound
        exact Work.agree_done rfl
      | some state =>
        rw [hstate] at hfound
        generalize states.get? m₂.context.currentState = state? at hfound ⊢
        cases hfound with
        | some hr =>
          refine Work.agree_after (fun _ _ hm => alike_report (hm.update _) _ _ _ _)
            ((agree_runState hr (h.agree_dispatch ha hstate hr) _).bind ?_)
          rintro ⟨next, outcome⟩ _ rfl
          exact e.agree_follow _ next outcome

theorem Patient.agree_advance (h : e.Patient) (ha : Assembled .builtins hooks maxSteps spec e)
    (hr : e.Retimed e') (fuel : Nat) (run : Run) :
    Work.Agree Eq (e.advance fuel run) (e'.advance fuel run) := by
  induction fuel generalizing run with
  | zero => exact Work.agree_done rfl
  | succ fuel ih =>
    rw [advance_succ, advance_succ]
    refine (h.agree_step ha hr run).bind ?_
    rintro progress _ rfl
    cases progress with
    | goesOn next => exact ih next
    | ended last outcome => exact Work.agree_done rfl

theorem Patient.agree_execute (h : e.Patient) (ha : Assembled .builtins hooks maxSteps spec e)
    (hr : e.Retimed e') (fuel : Nat) : Work.Agree Eq (e.execute fuel) (e'.execute fuel) := by
  have hadvance := h.agree_advance ha hr fuel {}
  obtain ⟨-⟩ := hr
  exact Work.agree_after (fun _ _ hm => alike_start hm) hadvance

theorem calm_execute (ha : Assembled .builtins hooks maxSteps spec e) (fuel : Nat) :
    (e.execute fuel).Only Drift.calm.Allows := by
  refine only_execute (fun m m' hnow hcancelled _ => ⟨⟨hnow.ge, hcancelled⟩, hnow⟩) ?_ fuel
  intro name state hstate
  obtain ⟨s, -, -, hbuilt, -⟩ := ha.spec_of_state hstate
  have hrefl : ∀ m : Moment, Drift.calm.Allows m m := fun m => (Moment.Tidies.refl m).allows
  unfold State.run
  cases htask : state.task with
  | perform action =>
    have hleaves := Registry.leaves_of_buildState hbuilt htask
    exact Work.only_look hrefl fun _ =>
      Work.only_andThen ((Action.tidies_run hleaves _).imp fun _ _ h => h.allows) fun _ => trivial
  | route test yes no =>
    cases test with
    | none => trivial
    | some test => exact Work.only_look hrefl fun _ => trivial
  | stop | answer verdict => trivial

theorem blind_follow (e : Engine) (current : String) (run : Run)
    (outcome : Except Fault Verdict) : (e.follow current run outcome).Blind := by
  have hclosed := Work.closed_blind
  cases outcome with
  | error fault =>
    simp only [follow]
    split
    · exact hclosed.after (e.steady_reroute _ _ _) (hclosed.done _)
    · exact hclosed.after (e.steady_report _ _ _) (hclosed.done _)
  | ok verdict =>
    simp only [follow]
    split
    · exact hclosed.after (e.steady_complete _ _) (hclosed.done _)
    · apply hclosed.bind
      · apply hclosed.look
        · intro m m' hm
          simp only [hm.data]
        intro m
        split
        · exact hclosed.done _
        · split
          · exact hclosed.done _
          · exact hclosed.done _
          · exact hclosed.after (Moment.Steady.permits.report _ _ _ Moment.Steady.permits.id)
              (hclosed.done _)
      · intro picked
        cases picked with
        | error fault => exact hclosed.done _
        | ok t => exact hclosed.after (e.steady_take _ _ _) (hclosed.done _)

theorem blind_emit (notice : Notice) (run : Run) : (e.emit notice run).Blind := by
  have hclosed := Work.closed_blind
  refine emit_induction notice (fun _ => hclosed.done _) (fun hook _ hw => hclosed.after ?_ hw) run
  exact fun m m' hm hc =>
    ⟨((noted_tell hook notice m).symm.trans hm).trans (noted_tell hook notice m'), hc⟩

theorem Assembled.blind_step (h : Assembled .builtins hooks maxSteps spec e) (run : Run) :
    (e.step run).Blind := by
  have hclosed := Work.closed_blind
  have hpermits := Moment.Steady.permits
  apply hclosed.look
  · intro m m' hm
    simp only [hm.cancelled, hm.context]
  intro m
  dsimp only
  split
  · exact hclosed.after (e.steady_report _ _ _) (hclosed.done _)
  · split
    · exact hclosed.after (e.steady_report _ _ _) (hclosed.done _)
    · split
      · exact hclosed.done _
      next state hstate =>
        apply hclosed.after (hpermits.report _ _ _ (hpermits.id.update _))
        apply hclosed.bind
        · apply hclosed.bind (blind_emit _ _)
          intro told
          apply hclosed.bind (h.blind_dispatch hstate)
          exact fun outcome => hclosed.bind (blind_emit _ told) fun _ => hclosed.done _
        · rintro ⟨next, outcome⟩
          exact e.blind_follow _ next outcome

theorem Assembled.blind_execute (h : Assembled .builtins hooks maxSteps spec e) (fuel : Nat) :
    (e.execute fuel).Blind := by
  have hclosed := Work.closed_blind
  have hadvance : ∀ (fuel : Nat) (run : Run), (e.advance fuel run).Blind := fun fuel => by
    induction fuel with
    | zero => exact fun _ => hclosed.done _
    | succ fuel ih =>
      intro run
      rw [advance_succ]
      apply hclosed.bind (h.blind_step run)
      intro progress
      cases progress with
      | goesOn next => exact ih next
      | ended last outcome => exact hclosed.done _
  exact hclosed.after e.steady_start (hadvance fuel {})

def onward (e : Engine) (rest : Nat) : Progress → Work Progress
  | .goesOn next => e.advance rest next
  | .ended last outcome => .done (.ended last outcome)

/-- A run that has ended ends in the same way when it may make more steps. -/
theorem Assembled.carryOut_of_more (h : Assembled .builtins hooks maxSteps spec e)
    (hm : m.cancelled = false) {steps more fuel : Nat} (hle : steps ≤ more)
    {outcome : Except Fault Unit}
    (hrun : (e.execute steps).carryOut fuel none m = some (.ended run outcome, m')) :
    ∃ m₁, (e.execute more).carryOut fuel none m = some (.ended run outcome, m₁) ∧ m'.Noted m₁ := by
  obtain ⟨rest, rfl⟩ := Nat.exists_eq_add_of_le hle
  have hmore : e.execute (steps + rest) = (e.execute steps).bind (e.onward rest) := by
    rw [execute, advance_add]
    rfl
  have hecho : ((e.execute steps).bind .done).Echoes Unfinished
      (fun progress _ progress' _ => progress' = progress)
      ((e.execute steps).bind (e.onward rest)) := by
    refine (h.blind_execute steps).bind_echoes fun progress m m' hm hc => ?_
    cases progress with
    | goesOn next => exact .early ⟨next, rfl⟩
    | ended last outcome => exact .done rfl
  rw [Work.bind_done, ← hmore] at hecho
  obtain ⟨progress, m₁, hrun', rfl, hnoted⟩ := hecho.carryOut hm hrun nofun
  exact ⟨m₁, hrun', hnoted⟩

/-- Nobody cancels it, and the engine comes to the outcome: with the steps that the run has made,
with what it has told its hooks and with the context at its end. -/
def ComesTo (e : Engine) (m : Moment) (run : Run) (outcome : Except Fault Unit) (ctx : Context) :
    Prop :=
  ∃ fuel m', e.carryOut fuel none m = some ⟨run, outcome, m'⟩ ∧ m'.context = ctx

/-- An engine comes to the same as another one if the two agree however many steps they make. -/
theorem comesTo_of_agree (ha : Assembled .builtins hooks maxSteps spec e)
    (ha' : Assembled .builtins hooks maxSteps spec' e')
    (hagree : ∀ fuel, Work.Agree Eq (e.execute fuel) (e'.execute fuel)) (hm : m.cancelled = false)
    {outcome : Except Fault Unit} {ctx : Context} (h : e.ComesTo m run outcome ctx) :
    e'.ComesTo m run outcome ctx := by
  obtain ⟨fuel, m₁, hrun, rfl⟩ := h
  have hnone : ∀ n ∈ (none : Option Nat), ∀ m : Moment, Drift.calm.Allows m m.cancel := nofun
  have hreaches := Work.reaches_of_carryOut (calm_execute ha fuel) hnone (carryOut_eq_some.1 hrun)
  obtain ⟨progress, m₂, rounds, hrun'⟩ := Work.exists_carryOut (calm_execute ha' fuel) hnone m
  have hreaches' :=
    Work.reaches_of_carryOut (calm_execute ha' fuel) hnone (hrun' rounds (Nat.le_refl _))
  obtain ⟨rfl, halike⟩ := hagree fuel _ _ _ _ _ _ ⟨rfl, rfl⟩ hreaches hreaches'
  -- as many steps as rounds, enough of both
  obtain ⟨m₃, hrun₃, hnoted⟩ := ha'.carryOut_of_more hm (Nat.le_max_left fuel rounds)
    (hrun' (max fuel rounds) (Nat.le_max_right _ _))
  exact ⟨_, m₃, carryOut_eq_some.2 hrun₃, hnoted.context.trans halike.context.symm⟩

/-- For every specification that is accepted, sets no time limits, and is started from any context:
with other delays and other backoffs of fixed retries, at whatever depth and also in parallel
branches, it is accepted as well and comes to the same. -/
theorem comesTo_iff_of_retimed (he : (ofSpec .builtins hooks maxSteps spec).2 = .ok e)
    (hpatient : e.Patient)
    (hr : spec.Retimed spec') (hm : m.cancelled = false) :
    ∃ e', (ofSpec .builtins hooks maxSteps spec').2 = .ok e' ∧
      ∀ run outcome ctx, e.ComesTo m run outcome ctx ↔ e'.ComesTo m run outcome ctx := by
  obtain ⟨e', he', hr⟩ := mirrors_ofSpec hr e he
  have ha := assembled_of_ofSpec he
  have ha' := assembled_of_ofSpec he'
  have hagree := fun fuel => hpatient.agree_execute ha hr fuel
  have hback : ∀ fuel, Work.Agree Eq (e'.execute fuel) (e.execute fuel) := fun fuel => by
    intro m₁ m₂ _ _ _ _ hm h₁ h₂
    obtain ⟨hprogress, hm'⟩ := (hagree fuel).symm _ _ _ _ _ _ hm h₁ h₂
    exact ⟨hprogress.symm, hm'⟩
  exact ⟨e', he', fun run outcome ctx =>
    ⟨comesTo_of_agree ha ha' hagree hm, comesTo_of_agree ha' ha hback hm⟩⟩

def raceAction (duration? : Option Json) : ActionSpec :=
  let wait : Json :=
    .object [("params", .object (duration?.toList.map fun duration => ("duration", duration))),
      ("type", "delay")]
  let set : Json :=
    .object [("params", .object [("key", "x"), ("value", .int 2)]), ("type", "set")]
  { kind := "parallel", params := [("actions", .array [wait, set])] }

def race (duration? : Option Json) : WorkflowSpec :=
  let start : WorkflowSpec := { name := "race", initialState := "a" }
  let state : StateSpec := { name := "a", actions := [raceAction duration?] }
  ((start.withState state).withState (Sample.finalState "b")).withTransition
    { origin := "a", target := "b" }

theorem race_retimed : (race none).Retimed (race (some (.int 5))) := by
  have hspan : (Params.held? Params.spanOf? (some (.int 5))).isSome = true := by decide +kernel
  have hdelay : ActionSpec.RetimedTo 1 { kind := "delay" }
      { kind := "delay", params := [("duration", .int 5)] } :=
    .of_get? "duration" rfl rfl hspan fun other hother => if_neg hother
  have hbranches : List.Forall₂ (ActionSpec.RetimedTo 1)
      [{ kind := "delay" }, { kind := "set", params := [("key", "x"), ("value", .int 2)] }]
      [{ kind := "delay", params := [("duration", .int 5)] },
        { kind := "set", params := [("key", "x"), ("value", .int 2)] }] :=
    .cons hdelay (.cons (.refl 1 _) .nil)
  have hrace : (raceAction none).Retimed (raceAction (some (.int 5))) := by
    refine ⟨2, .of_get? "actions" rfl rfl (Option.Rel.some hbranches) fun other hother => ?_⟩
    exact (if_neg hother).trans (if_neg hother).symm
  exact ⟨.cons ⟨.cons hrace .nil⟩ (.cons ⟨.nil⟩ .nil)⟩

theorem comesTo_iff_of_retimed_race :
    ∃ e e' run outcome ctx,
      (ofSpec .builtins [] none (race none)).2 = .ok e ∧ e.Patient ∧
      (race none).Retimed (race (some (.int 5))) ∧
      (ofSpec .builtins [] none (race (some (.int 5)))).2 = .ok e' ∧
      (ctx.path, (ctx.data.get? "x").bind Json.asInt?) = (["a", "b"], some 2) ∧
      e.ComesTo { context := { identity := { session := "s" } } } run outcome ctx ∧
      e'.ComesTo { context := { identity := { session := "s" } } } run outcome ctx ∧
      (e.carryOut 9 none { context := { identity := { session := "s" } } }).map
        (·.moment.now) = some 0 ∧
      (e'.carryOut 9 none { context := { identity := { session := "s" } } }).map
        (·.moment.now) = some 5000 := by
  let e : Engine :=
    { name := "race"
      states := [("a", ⟨"a", .perform (.parallel "parallel"
          [.leaf "delay" (.delay .zero), .leaf "set" (.set "x" (.int 2))] .all false)⟩),
        ("b", ⟨"b", .stop⟩)]
      transitions := [.always "a" "b"]
      initial := "a"
      finals := ["b"]
      defaultTimeout := none
      timeouts := []
      errorTargets := []
      cancellation := true
      maxSteps := none
      hooks := [] }
  let start : Moment := { context := { identity := { session := "s" } } }
  have he : (ofSpec .builtins [] none (race none)).2 = .ok e := rfl
  have hpatient : e.Patient := by
    refine ⟨fun _ => rfl, fun name state hstate action htask => ?_⟩
    rw [Table.get?_cons, Table.get?_cons] at hstate
    split at hstate
    · cases hstate
      cases htask
      exact ⟨trivial, trivial, trivial⟩
    · split at hstate
      · cases hstate
        cases htask
      · cases hstate
  have hrun : ((e.carryOut 9 none start).map fun done =>
      (done.moment.context.path, (done.moment.context.data.get? "x").bind Json.asInt?)) =
        some (["a", "b"], some 2) := by
    decide +kernel
  obtain ⟨⟨run, outcome, m'⟩, hdone, hresult⟩ := Option.map_eq_some_iff.1 hrun
  have hcomes : e.ComesTo start run outcome m'.context := ⟨9, m', hdone, rfl⟩
  have hcancelled : start.cancelled = false := rfl
  obtain ⟨e', he', hsame⟩ := comesTo_iff_of_retimed he hpatient race_retimed hcancelled
  obtain ⟨e₁, done, he₁, hdone, hnow⟩ := exists_finished (·.moment.now) .builtins [] none
    (race (some (.int 5))) 9 none start 5000 (by decide +kernel)
  cases he₁.symm.trans he'
  exact ⟨e, e', run, outcome, m'.context, he, hpatient, race_retimed, he', hresult, hcomes,
    (hsame _ _ _).1 hcomes, by decide +kernel, hdone ▸ congrArg some hnow⟩

end Engine

end Workflow
