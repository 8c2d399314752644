import Workflow.Engine.Assembly
import Workflow.Engine.Run
import Workflow.Proofs.Action.Frame
import Workflow.Proofs.Work.Crew

/-!
# What a step of an engine can do

`Engine.Stepped` lists the ways in which a step may end, with the moment at that point, and
`Engine.stepped_of_reaches` says that there are no others. What holds of a run is proved by cases on
`Stepped` and by induction on the number of steps.
-/

namespace Workflow

def Work.Gives {α : Type} (w : Work α) (m : Moment) (value : α) : Prop :=
  ∃ m₁, m.Noted m₁ ∧ ∀ d r m', w.Reaches d m r m' ↔ r = some value ∧ m' = m₁

theorem State.works_run (state : State) : state.run.Only Moment.Works := by
  unfold State.run
  cases state.task with
  | perform action =>
    exact Work.only_look Moment.Works.refl fun _ =>
      Work.only_andThen (action.works_run _) fun _ => trivial
  | route test yes no =>
    cases test with
    | none => trivial
    | some test => exact Work.only_look Moment.Works.refl fun _ => trivial
  | stop | answer verdict => trivial

namespace Transition

theorem firstOpen?_some {data : Data} {ts : List Transition} {t : Transition}
    (h : firstOpen? data ts = .ok (some t)) : t ∈ ts ∧ t.isOpen data = .ok true := by
  induction ts with
  | nil => cases h
  | cons t' ts ih =>
    simp only [firstOpen?] at h
    split at h
    · cases h
    next hopen =>
      cases h
      exact ⟨List.mem_cons_self, hopen⟩
    · exact ⟨List.mem_cons_of_mem _ (ih h).1, (ih h).2⟩

theorem firstOpen?_none {data : Data} {ts : List Transition}
    (h : firstOpen? data ts = .ok none) : ∀ t ∈ ts, t.isOpen data = .ok false := by
  induction ts with
  | nil => exact fun _ hmem => by cases hmem
  | cons t' ts ih =>
    simp only [firstOpen?] at h
    split at h
    · cases h
    · cases h
    next hclosed =>
      intro t hmem
      rcases List.mem_cons.1 hmem with rfl | hmem
      · exact hclosed
      · exact ih h t hmem

theorem firstOpen?_error {data : Data} {ts : List Transition} {fault : Fault}
    (h : firstOpen? data ts = .error fault) :
    ∃ t ∈ ts, t.isOpen data = .error fault := by
  induction ts with
  | nil => cases h
  | cons t' ts ih =>
    simp only [firstOpen?] at h
    split at h
    next hfault =>
      cases h
      exact ⟨t', List.mem_cons_self, hfault⟩
    · cases h
    · obtain ⟨t, hmem, hfault⟩ := ih h
      exact ⟨t, List.mem_cons_of_mem _ hmem, hfault⟩

end Transition

namespace Engine

variable (e : Engine)

theorem noted_report (level : Level) (message : String) (fields : List (String × String))
    (m : Moment) : m.Noted (e.report level message fields m) :=
  .report _ _ _ _

def calls (notice : Notice) : List HookCall :=
  (List.range e.hooks.length).map (⟨·, notice⟩)

def informed (notice : Notice) (m : Moment) : Moment :=
  { m with journal := (e.hooks.flatMap (·.reports notice)).reverse ++ m.journal }

theorem noted_tell (hook : Hook) (notice : Notice) (m : Moment) : m.Noted (hook.tell notice m) :=
  ⟨rfl, rfl, rfl, rfl⟩

/-- Between the two moments all hooks have been told of the notice, and nothing else was done. -/
structure Tells (notice : Notice) (m m' : Moment) : Prop where
  eq : m' = e.informed notice m

theorem Tells.noted {e : Engine} {notice : Notice} {m m' : Moment} (h : e.Tells notice m m') :
    m.Noted m' :=
  h.eq ▸ ⟨rfl, rfl, rfl, rfl⟩

theorem reaches_emitTo {notice : Notice} {hooks : List Hook} {i : Nat} {run : Run} {d : Drift}
    {m m' : Moment} {r : Option Run} :
    (emitTo notice i hooks run).Reaches d m r m' ↔
      r = some { run with
        calls := run.calls ++ (List.range' i hooks.length).map (⟨·, notice⟩) } ∧
      m' = { m with journal := (hooks.flatMap (·.reports notice)).reverse ++ m.journal } := by
  induction hooks generalizing i run m with
  | nil =>
    rw [emitTo, Work.reaches_done, List.length_nil, List.range'_zero, List.map_nil,
      List.append_nil]
    rfl
  | cons hook hooks ih =>
    rw [emitTo, Work.reaches_after, ih, List.length_cons, List.range'_succ, List.map_cons,
      List.flatMap_cons, List.reverse_append, List.append_assoc, Run.call, Hook.tell,
      List.append_assoc]
    rfl

theorem reaches_emit {notice : Notice} {run : Run} {d : Drift} {m m' : Moment}
    {r : Option Run} :
    (e.emit notice run).Reaches d m r m' ↔
      r = some { run with calls := run.calls ++ e.calls notice } ∧ m' = e.informed notice m := by
  rw [emit, reaches_emitTo, ← List.range_eq_range']
  rfl

variable {e} in
/-- What is true of a run that is at hand and is kept by telling a hook is true of telling all. -/
theorem emit_induction {P : Work Run → Prop} (notice : Notice) (hdone : ∀ run, P (.done run))
    (htell : ∀ (hook : Hook) (w : Work Run), P w → P (.after (hook.tell notice) w)) (run : Run) :
    P (e.emit notice run) := by
  have hrest : ∀ (hooks : List Hook) (i : Nat) (run : Run), P (emitTo notice i hooks run) :=
    fun hooks => by
      induction hooks with
      | nil => exact fun _ => hdone
      | cons hook hooks ih => exact fun i run => htell hook _ (ih (i + 1) (run.call i notice))
  exact hrest e.hooks 0 run

def pick (current preferred : String) (data : Data) : Except Fault Transition :=
  if preferred.isEmpty then e.firstOpen current data
  else
    match Transition.firstOpen? data ((e.outgoing current).filter (·.target == preferred)) with
    | .error fault => .error fault
    | .ok (some t) => .ok t
    | .ok none => e.firstOpen current data

variable {e}
variable {d : Drift} {current preferred : String} {m m' : Moment} {run : Run}

/-- The edge that is picked leaves the current state and is open. -/
theorem pick_eq_ok {data : Data} {t : Transition} (h : e.pick current preferred data = .ok t) :
    t ∈ e.outgoing current ∧ t.isOpen data = .ok true := by
  have hfirst : e.firstOpen current data = .ok t →
      t ∈ e.outgoing current ∧ t.isOpen data = .ok true := fun h => by
    unfold firstOpen at h
    split at h
    · cases h
    next hsome =>
      cases h
      exact Transition.firstOpen?_some hsome
    · cases h
  unfold pick at h
  split at h
  · exact hfirst h
  · split at h
    · cases h
    next hsome =>
      cases h
      obtain ⟨hmem, hopen⟩ := Transition.firstOpen?_some hsome
      exact ⟨List.mem_of_mem_filter hmem, hopen⟩
    · exact hfirst h

/-- When no edge is picked, all that leave the current state are closed, or one of them has failed
to give an answer. -/
theorem pick_eq_error {data : Data} {fault : Fault}
    (h : e.pick current preferred data = .error fault) :
    fault = .noTransition current ∧ (∀ t ∈ e.outgoing current, t.isOpen data = .ok false) ∨
      ∃ t ∈ e.outgoing current, t.isOpen data = .error fault := by
  have hfirst : e.firstOpen current data = .error fault →
      fault = .noTransition current ∧ (∀ t ∈ e.outgoing current, t.isOpen data = .ok false) ∨
        ∃ t ∈ e.outgoing current, t.isOpen data = .error fault := fun h => by
    unfold firstOpen at h
    split at h
    next hfault =>
      cases h
      exact .inr (Transition.firstOpen?_error hfault)
    · cases h
    next hnone =>
      cases h
      exact .inl ⟨rfl, Transition.firstOpen?_none hnone⟩
  unfold pick at h
  split at h
  · exact hfirst h
  · split at h
    next hfault =>
      cases h
      obtain ⟨t, hmem, hfault⟩ := Transition.firstOpen?_error hfault
      exact .inr ⟨t, List.mem_of_mem_filter hmem, hfault⟩
    · cases h
    · exact hfirst h

/-- The search leaves nothing behind but what it has reported. -/
theorem resolve_gives (e : Engine) (current preferred : String) (m : Moment) :
    (e.resolve current preferred).Gives m (e.pick current preferred m.data) := by
  unfold Work.Gives resolve pick
  simp only [Work.reaches_look]
  split
  · exact ⟨m, .refl m, fun _ _ _ => Work.reaches_done⟩
  · cases Transition.firstOpen? m.data ((e.outgoing current).filter (·.target == preferred)) with
    | error fault => exact ⟨m, .refl m, fun _ _ _ => Work.reaches_done⟩
    | ok found =>
      cases found with
      | some t => exact ⟨m, .refl m, fun _ _ _ => Work.reaches_done⟩
      | none => exact ⟨_, .report _ _ _ _, fun _ _ _ => Work.reaches_done⟩

theorem resolve_reaches {outcome : Except Fault Transition}
    (h : (e.resolve current preferred).Reaches d m (some outcome) m') :
    outcome = e.pick current preferred m.data ∧ m.Noted m' := by
  obtain ⟨m₁, hm, hreaches⟩ := e.resolve_gives current preferred m
  obtain ⟨hr, rfl⟩ := (hreaches _ _ _).1 h
  exact ⟨Option.some.inj hr, hm⟩

inductive Followed (e : Engine) (current : String) (run : Run) (m : Moment) :
    Except Fault Verdict → Progress → Moment → Prop
  | rerouted {fault : Fault} {target : String} (htarget : e.errorTargets.get? current = some target)
      (hfault : fault.isInterrupt = false) :
      Followed e current run m (.error fault) (.goesOn run) (e.reroute current target fault m)
  | failed {fault : Fault} {m' : Moment} (hm : m.Noted m')
      (hfault : e.errorTargets.get? current = none ∨ fault.isInterrupt = true) :
      Followed e current run m (.error fault) (.ended run (.error (.state current fault))) m'
  | completed {verdict : Verdict} (hlast : e.isLast verdict = true) :
      Followed e current run m (.ok verdict) (.ended run (.ok ())) (e.complete current verdict m)
  | stuck {verdict : Verdict} {fault : Fault} {m' : Moment} (hm : m.Noted m')
      (hlast : e.isLast verdict = false)
      (hpick : e.pick current verdict.next m.data = .error fault) :
      Followed e current run m (.ok verdict) (.ended run (.error fault)) m'
  | moved {verdict : Verdict} {t : Transition} {m₁ : Moment} (hm : m.Noted m₁)
      (hlast : e.isLast verdict = false) (hpick : e.pick current verdict.next m.data = .ok t) :
      Followed e current run m (.ok verdict) (.goesOn run) (e.take current t verdict m₁)

theorem followed_of_reaches {outcome : Except Fault Verdict} {progress : Progress}
    (h : (e.follow current run outcome).Reaches d m (some progress) m') :
    e.Followed current run m outcome progress m' := by
  cases outcome with
  | error fault =>
    simp only [follow] at h
    split at h
    next target htarget hfault =>
      obtain ⟨hr, rfl⟩ := Work.reaches_done.1 (Work.reaches_after.1 h)
      cases hr
      exact .rerouted htarget hfault
    next hnone =>
      obtain ⟨hr, rfl⟩ := Work.reaches_done.1 (Work.reaches_after.1 h)
      cases hr
      refine .failed (e.noted_report _ _ _ _) ?_
      cases htarget : e.errorTargets.get? current with
      | none => exact .inl rfl
      | some target =>
        exact .inr (Bool.not_eq_false _ ▸ fun hfault => hnone target htarget hfault)
  | ok verdict =>
    simp only [follow] at h
    split at h
    next hlast =>
      obtain ⟨hr, rfl⟩ := Work.reaches_done.1 (Work.reaches_after.1 h)
      cases hr
      exact .completed hlast
    next hlast =>
      rw [Bool.not_eq_true] at hlast
      obtain ⟨picked, m₁, hresolve, h⟩ := Work.reaches_bind_some.1 h
      obtain ⟨hpicked, hm⟩ := resolve_reaches hresolve
      split at h
      next fault =>
        obtain ⟨hr, rfl⟩ := Work.reaches_done.1 h
        cases hr
        exact .stuck hm hlast hpicked.symm
      next t =>
        obtain ⟨hr, rfl⟩ := Work.reaches_done.1 (Work.reaches_after.1 h)
        cases hr
        exact .moved hm hlast hpicked.symm

def entered (e : Engine) (state : State) (m : Moment) : Moment :=
  e.informed (startNotice state)
    (e.report .info "Entering state" [("state", m.context.currentState)]
      (m.update (·.visit m.context.currentState)))

def after (e : Engine) (run : Run) (current : String) (state : State)
    (outcome : Except Fault Verdict) : Run where
  steps := run.steps + 1
  last := some current
  calls := run.calls ++ e.calls (startNotice state) ++ e.calls (finishNotice state outcome)

/-- What a step may do. -/
inductive Stepped (e : Engine) (d : Drift) (run : Run) (m : Moment) : Progress → Moment → Prop
  | cancelled {m' : Moment} (hm : m.Noted m') (hcancel : e.cancellation = true)
      (hm' : m.cancelled = true) :
      Stepped e d run m
        (.ended run (.error (.cancelled (run.last.getD m.context.currentState)))) m'
  | spent {limit : Nat} {m' : Moment} (hm : m.Noted m') (hlimit : e.spentLimit? run = some limit) :
      Stepped e d run m (.ended run (.error (.stepLimit m.context.currentState limit))) m'
  | lost (hlimit : e.spentLimit? run = none)
      (hstate : e.states.get? m.context.currentState = none) :
      Stepped e d run m
        (.ended { run with steps := run.steps + 1 }
          (.error (.stateNotFound m.context.currentState))) m
  | dispatched {state : State} {outcome : Except Fault Verdict} {progress : Progress}
      {m₁ m₂ m' : Moment} (hcancel : (e.cancellation && m.cancelled) = false)
      (hlimit : e.spentLimit? run = none)
      (hstate : e.states.get? m.context.currentState = some state)
      (hwork : (e.dispatch state).Reaches d (e.entered state m) (some outcome) m₁)
      (hm : e.Tells (finishNotice state outcome) m₁ m₂)
      (hfollow : e.Followed m.context.currentState
        (e.after run m.context.currentState state outcome) m₂ outcome progress m') :
      Stepped e d run m progress m'

theorem stepped_of_reaches {progress : Progress}
    (h : (e.step run).Reaches d m (some progress) m') : e.Stepped d run m progress m' := by
  unfold step at h
  rw [Work.reaches_look] at h
  dsimp only at h
  split at h
  next hcancel =>
    obtain ⟨hr, rfl⟩ := Work.reaches_done.1 (Work.reaches_after.1 h)
    cases hr
    rw [Bool.and_eq_true] at hcancel
    exact .cancelled (e.noted_report _ _ _ _) hcancel.1 hcancel.2
  next hcancel =>
    rw [Bool.not_eq_true] at hcancel
    split at h
    next limit hlimit =>
      obtain ⟨hr, rfl⟩ := Work.reaches_done.1 (Work.reaches_after.1 h)
      cases hr
      exact .spent (e.noted_report _ _ _ _) hlimit
    next hlimit =>
      split at h
      next hstate =>
        obtain ⟨hr, rfl⟩ := Work.reaches_done.1 h
        cases hr
        exact .lost hlimit hstate
      next state hstate =>
        obtain ⟨⟨run', outcome⟩, m₂, hrun, hfollow⟩ :=
          Work.reaches_bind_some.1 (Work.reaches_after.1 h)
        unfold runState at hrun
        obtain ⟨told, m₁, hstart, hrun⟩ := Work.reaches_bind_some.1 hrun
        obtain ⟨hr, rfl⟩ := e.reaches_emit.1 hstart
        cases hr
        obtain ⟨outcome', m₁, hwork, hrun⟩ := Work.reaches_bind_some.1 hrun
        obtain ⟨told, m₂, hfinish, hdone⟩ := Work.reaches_bind_some.1 hrun
        obtain ⟨hr, rfl⟩ := e.reaches_emit.1 hfinish
        cases hr
        obtain ⟨hr, rfl⟩ := Work.reaches_done.1 hdone
        cases hr
        exact .dispatched hcancel hlimit hstate hwork ⟨rfl⟩ (followed_of_reaches hfollow)

def Answers (state : State) (verdict : Verdict) : Prop :=
  match state.task with
  | .perform _ => verdict = .proceed
  | .route test yes no =>
    test = none ∧ verdict = .proceed ∨
      test ≠ none ∧ (verdict = State.preference yes ∨ verdict = State.preference no)
  | .stop => verdict = .finish state.name
  | .answer fixed => verdict = fixed

theorem answers_of_run {state : State} {verdict : Verdict}
    (h : state.run.Reaches d m (some (.ok verdict)) m') : Answers state verdict := by
  unfold State.run at h
  unfold Answers
  split at h
  next action htask =>
    rw [htask]
    obtain ⟨outcome, m₁, -, h⟩ := Work.reaches_bind_some.1 (Work.reaches_look.1 h)
    cases outcome with
    | ok _ =>
      cases (Work.reaches_done.1 h).1
      rfl
    | error fault => cases (Work.reaches_done.1 h).1
  next yes no htask =>
    rw [htask]
    cases (Work.reaches_done.1 h).1
    exact .inl ⟨rfl, rfl⟩
  next test yes no htask =>
    rw [htask]
    refine .inr ⟨nofun, ?_⟩
    rw [Work.reaches_look, Work.reaches_done] at h
    have hverdict := Option.some.inj h.1
    cases htest : test.evaluate m.data with
    | error fault =>
      rw [htest] at hverdict
      cases hverdict
    | ok isMet =>
      rw [htest] at hverdict
      cases isMet with
      | true => exact .inl (Except.ok.inj hverdict)
      | false => exact .inr (Except.ok.inj hverdict)
  next htask =>
    rw [htask]
    cases (Work.reaches_done.1 h).1
    rfl
  next fixed htask =>
    rw [htask]
    cases (Work.reaches_done.1 h).1
    rfl

theorem answers_of_dispatch {state : State} {verdict : Verdict}
    (h : (e.dispatch state).Reaches d m (some (.ok verdict)) m') : Answers state verdict := by
  unfold dispatch at h
  split at h
  · exact answers_of_run (Work.reaches_of_limited h)
  · exact answers_of_run h

/-- What holds at the start and is kept by each step that goes on leads to what holds at the end. -/
theorem advance_induction {P : Run → Moment → Prop} {Q : Run → Except Fault Unit → Moment → Prop}
    (hgoes : ∀ {run run' m m'}, P run m → e.Stepped d run m (.goesOn run') m' → P run' m')
    (hends : ∀ {run run' outcome m m'}, P run m → e.Stepped d run m (.ended run' outcome) m' →
      Q run' outcome m')
    {fuel : Nat} {run run' : Run} {outcome : Except Fault Unit} {m m' : Moment} (hstart : P run m)
    (h : (e.advance fuel run).Reaches d m (some (.ended run' outcome)) m') : Q run' outcome m' := by
  induction fuel generalizing run m with
  | zero =>
    obtain ⟨hr, -⟩ := Work.reaches_done.1 h
    cases hr
  | succ fuel ih =>
    rw [advance_succ] at h
    obtain ⟨progress, m₁, hstep, h⟩ := Work.reaches_bind_some.1 h
    have hstepped := stepped_of_reaches hstep
    cases progress with
    | goesOn next => exact ih (hgoes hstart hstepped) h
    | ended last outcome' =>
      obtain ⟨hr, rfl⟩ := Work.reaches_done.1 h
      cases hr
      exact hends hstart hstepped

section Only

variable {R : Moment → Moment → Prop}
  (hR : ∀ m m' : Moment,
    m'.now = m.now → m'.cancelled = m.cancelled → m'.starts = m.starts → R m m')
  (hstates : ∀ name state, e.states.get? name = some state → state.run.Only R)

include hR hstates

omit hR in
theorem only_dispatch {name : String} {state : State} (h : e.states.get? name = some state) :
    (e.dispatch state).Only R := by
  unfold dispatch
  split
  · exact Work.only_limited (hstates name state h)
  · exact hstates name state h

omit hstates in
theorem only_follow (current : String) (run : Run) (outcome : Except Fault Verdict) :
    (e.follow current run outcome).Only R := by
  cases outcome with
  | error fault =>
    simp only [follow]
    split
    · exact Work.only_after (fun m => hR _ _ rfl rfl rfl) trivial
    · exact Work.only_after (fun m => hR _ _ rfl rfl rfl) trivial
  | ok verdict =>
    simp only [follow]
    split
    · exact Work.only_after (fun m => hR _ _ rfl rfl rfl) trivial
    · refine Work.only_bind (Work.only_look (fun m => hR _ _ rfl rfl rfl) fun m => ?_) fun picked => ?_
      · split
        · trivial
        · split
          · trivial
          · trivial
          · exact Work.only_after (fun m => hR _ _ rfl rfl rfl) trivial
      · cases picked with
        | error fault => trivial
        | ok t => exact Work.only_after (fun m => hR _ _ rfl rfl rfl) trivial

theorem only_step (run : Run) : (e.step run).Only R := by
  have hemit : ∀ (notice : Notice) (run : Run), (e.emit notice run).Only R := fun notice =>
    emit_induction notice (fun _ => trivial) fun _ _ hw =>
      Work.only_after (fun m => hR _ _ rfl rfl rfl) hw
  refine Work.only_look (fun m => hR _ _ rfl rfl rfl) fun m => ?_
  dsimp only
  split
  · exact Work.only_after (fun m => hR _ _ rfl rfl rfl) trivial
  · split
    · exact Work.only_after (fun m => hR _ _ rfl rfl rfl) trivial
    · split
      · trivial
      next state hstate =>
        refine Work.only_after (fun m => hR _ _ rfl rfl rfl) (Work.only_bind ?_ fun result => ?_)
        · exact Work.only_bind (hemit _ _) fun run =>
            Work.only_bind (only_dispatch hstates hstate) fun outcome =>
              Work.only_bind (hemit _ _) fun run => trivial
        · exact only_follow hR _ _ _

theorem only_execute (fuel : Nat) : (e.execute fuel).Only R := by
  have hadvance : ∀ (fuel : Nat) (run : Run), (e.advance fuel run).Only R := fun fuel => by
    induction fuel with
    | zero => exact fun _ => trivial
    | succ fuel ih =>
      intro run
      rw [advance_succ]
      refine Work.only_bind (only_step hR hstates run) fun progress => ?_
      cases progress with
      | goesOn next => exact ih next
      | ended last outcome => trivial
  refine Work.only_after (fun m => ?_) (hadvance fuel {})
  unfold start
  dsimp only
  split <;> exact hR _ _ rfl rfl rfl

end Only

/-- While a state is at work, only the data of the context change. -/
theorem later_of_dispatch {state : State} {r : Option (Except Fault Verdict)}
    (h : (e.dispatch state).Reaches .free m r m') : m.Later m' := by
  refine Work.Reaches.later ?_ h
  unfold dispatch
  split
  · exact Work.only_limited state.works_run
  · exact state.works_run

/-- A run changes the scene in no way that others do not reckon with. -/
theorem tame_execute (fuel : Nat) : (e.execute fuel).Only Drift.free.Allows := by
  refine only_execute (fun m m' hnow hcancel _ => ?_) (fun _ state _ => ?_) fuel
  · exact ⟨⟨hnow.ge, fun hc => hcancel.trans hc⟩, hnow⟩
  · exact state.works_run.imp fun _ _ => Moment.Works.allows

theorem carryOut_eq_some {fuel : Nat} {cancelAt : Option Nat} {done : Finished} :
    e.carryOut fuel cancelAt m = some done ↔
      (e.execute fuel).carryOut fuel cancelAt m =
        some (.ended done.run done.outcome, done.moment) := by
  simp only [carryOut]
  constructor
  · intro h
    split at h
    next hrun =>
      cases h
      exact hrun
    · cases h
  · intro h
    rw [h]

/-- What the steps of a run lead to, from the moment at which it is carried out. -/
theorem carryOut_induction {P : Run → Moment → Prop} {Q : Run → Except Fault Unit → Moment → Prop}
    (hgoes : ∀ {run run' m m'}, P run m → e.Stepped .free run m (.goesOn run') m' → P run' m')
    (hends : ∀ {run run' outcome m m'}, P run m →
      e.Stepped .free run m (.ended run' outcome) m' → Q run' outcome m')
    {fuel : Nat} {cancelAt : Option Nat} {done : Finished} (hstart : P {} (e.start m))
    (h : e.carryOut fuel cancelAt m = some done) : Q done.run done.outcome done.moment := by
  have hreaches := Work.reaches_of_carryOut (tame_execute fuel)
    (fun _ _ _ => ⟨⟨Nat.le_refl _, fun _ => rfl⟩, rfl⟩) (carryOut_eq_some.1 h)
  exact advance_induction hgoes hends hstart hreaches

/-- A specification has an engine and a run if something about the run can be computed. -/
theorem exists_finished {β : Type} (f : Finished → β) (r : Registry) (hooks : List Hook)
    (maxSteps : Option Nat) (spec : WorkflowSpec) (fuel : Nat) (cancelAt : Option Nat) (m : Moment)
    (result : β)
    (h : ((ofSpec r hooks maxSteps spec).2.toOption.bind fun e =>
      (e.carryOut fuel cancelAt m).map f) = some result) :
    ∃ e done, (ofSpec r hooks maxSteps spec).2 = .ok e ∧ e.carryOut fuel cancelAt m = some done ∧
      f done = result := by
  obtain ⟨e, he, h⟩ := Option.bind_eq_some_iff.1 h
  obtain ⟨done, hdone, hresult⟩ := Option.map_eq_some_iff.1 h
  refine ⟨e, done, ?_, hdone, hresult⟩
  cases hengine : (ofSpec r hooks maxSteps spec).2 with
  | error fault =>
    rw [hengine] at he
    cases he
  | ok e' =>
    rw [hengine] at he
    cases he
    rfl

theorem exists_run (r : Registry) (hooks : List Hook) (maxSteps : Option Nat)
    (spec : WorkflowSpec) (fuel : Nat) (cancelAt : Option Nat) (m : Moment) (path : List String)
    (h : ((ofSpec r hooks maxSteps spec).2.toOption.bind fun e =>
      (e.carryOut fuel cancelAt m).map fun done => done.moment.context.path) = some path) :
    ∃ e done, (ofSpec r hooks maxSteps spec).2 = .ok e ∧ e.carryOut fuel cancelAt m = some done ∧
      done.moment.context.path = path :=
  exists_finished _ r hooks maxSteps spec fuel cancelAt m path h

end Engine

end Workflow
