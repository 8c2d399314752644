import Workflow.Proofs.Action.Builtin
import Workflow.Proofs.Engine.Outcome
import Workflow.Proofs.Work.Echo

/-!
# Steps under different limits

The step limit plays no part in how an engine is put together, and engines that differ in it only
make the same steps, as long as neither limit has been reached: what a step does depends neither on
the limit nor on what the run has counted so far.
-/

namespace Workflow

theorem foldlM_map {σ ι : Type} {f : σ → ι → Except Fault σ} {g : σ → σ}
    (h : ∀ s i, f (g s) i = (f s i).map g) (is : List ι) (s : σ) :
    is.foldlM f (g s) = (is.foldlM f s).map g := by
  induction is generalizing s with
  | nil => rfl
  | cons i is ih =>
    rw [List.foldlM_cons, List.foldlM_cons, h]
    cases f s i with
    | error fault => rfl
    | ok s' => exact ih s'

namespace Draft

variable {d : Draft} {hooks : List Hook} {limit : Option Nat}

def limitTo (d : Draft) (limit : Option Nat) : Draft :=
  { d with maxSteps := limit }

theorem addSpecified_limitTo (r : Registry) (d : Draft) (spec : StateSpec) :
    addSpecified r (d.limitTo limit) spec = (addSpecified r d spec).map (·.limitTo limit) := by
  unfold addSpecified
  cases r.buildState spec with
  | error fault => rfl
  | ok state =>
    cases spec.timeout? with
    | none | some span =>
      cases spec.onError with
      | none | some target => rfl

theorem addEdge_limitTo (d : Draft) (edge : EdgeSpec) :
    addEdge (d.limitTo limit) edge = (addEdge d edge).map (·.limitTo limit) := by
  unfold addEdge
  cases Transition.ofText edge.origin edge.target edge.condition with
  | error fault | ok t => rfl

theorem ofSpec_limitTo (r : Registry) (hooks : List Hook) (maxSteps : Option Nat)
    (spec : WorkflowSpec) :
    ofSpec r hooks limit spec = (ofSpec r hooks maxSteps spec).map (·.limitTo limit) := by
  let start : Draft :=
    { name := spec.name
      initial := spec.initialState
      cancellation := spec.settings.cancellation
      maxSteps
      hooks }
  let timed := start.limitStates (.ofSeconds spec.settings.actionTimeoutSecs)
  have hstates : spec.states.foldlM (addSpecified r) (timed.limitTo limit) =
      (spec.states.foldlM (addSpecified r) timed).map (·.limitTo limit) :=
    foldlM_map (addSpecified_limitTo r) _ _
  unfold ofSpec
  cases spec.validate with
  | error fault => rfl
  | ok _ =>
    change (spec.states.foldlM (addSpecified r) (timed.limitTo limit) >>= fun d =>
        spec.transitions.foldlM addEdge (spec.finalStates.foldl addFinal d)) =
      (spec.states.foldlM (addSpecified r) timed >>= fun d =>
        spec.transitions.foldlM addEdge (spec.finalStates.foldl addFinal d)).map (·.limitTo limit)
    rw [hstates]
    cases spec.states.foldlM (addSpecified r) timed with
    | error fault => rfl
    | ok d =>
      have hfinals : spec.finalStates.foldl addFinal (d.limitTo limit) =
          (spec.finalStates.foldl addFinal d).limitTo limit := by
        rw [foldl_addFinal, foldl_addFinal]
        rfl
      have hedges : spec.transitions.foldlM addEdge
          ((spec.finalStates.foldl addFinal d).limitTo limit) =
            (spec.transitions.foldlM addEdge (spec.finalStates.foldl addFinal d)).map
              (·.limitTo limit) := foldlM_map addEdge_limitTo _ _
      rw [← hfinals] at hedges
      exact hedges

end Draft

namespace Engine

def limitTo (e : Engine) (limit : Option Nat) : Engine :=
  { e with maxSteps := limit }

theorem build_limitTo (d : Draft) (limit : Option Nat) :
    (d.limitTo limit).build = d.build.map (·.limitTo limit) := by
  have hstates : (d.limitTo limit).states = d.states := rfl
  have hreferences : (d.limitTo limit).references = d.references := rfl
  have hinitial : (d.limitTo limit).initial = d.initial := rfl
  unfold Draft.build
  rw [hstates, hreferences, hinitial]
  cases Draft.stateTable [] d.states with
  | error fault => rfl
  | ok table =>
    cases hempty : d.initial.isEmpty with
    | true => rfl
    | false =>
      cases hnames : Draft.checkNames table d.references with
      | error fault =>
        simp only [bind, Except.bind, hnames]
        rfl
      | ok _ =>
        simp only [bind, Except.bind, hnames]
        rfl

theorem ofSpec_limitTo {r : Registry} {hooks : List Hook} {maxSteps limit : Option Nat}
    {spec : WorkflowSpec} {e : Engine} (h : (ofSpec r hooks maxSteps spec).2 = .ok e) :
    (ofSpec r hooks limit spec).2 = .ok (e.limitTo limit) := by
  unfold ofSpec at h ⊢
  rw [Draft.ofSpec_limitTo r hooks maxSteps spec]
  cases hd : Draft.ofSpec r hooks maxSteps spec with
  | error fault =>
    rw [hd] at h
    cases h
  | ok d =>
    rw [hd] at h
    dsimp only [Except.map] at h ⊢
    rw [build_limitTo]
    cases hbuild : d.build with
    | error fault =>
      rw [hbuild] at h
      cases h
    | ok e' =>
      rw [hbuild] at h
      cases h
      rfl

end Engine

theorem Registry.leaves_of_buildState {spec : StateSpec} {state : State}
    (h : builtins.buildState spec = .ok state) {action : Action}
    (htask : state.task = .perform action) : action.All Leaf.Builtin fun _ => True := by
  obtain ⟨meaning, hkind, h⟩ := bind_eq_ok.1 h
  rcases stateKind?_builtins hkind with ⟨-, rfl⟩ | ⟨-, rfl⟩ | ⟨-, rfl⟩
  · obtain ⟨action', rfl, hall⟩ := builtin_buildActionState h
    cases htask
    exact hall
  · obtain ⟨test, yes, no, rfl⟩ := buildConditionalState_eq_ok h
    cases htask
  · cases h
    cases htask

theorem State.blind_run {state : State}
    (h : ∀ action, state.task = .perform action → action.All Leaf.Builtin fun _ => True) :
    state.run.Blind := by
  have hclosed := Work.closed_blind
  unfold State.run
  cases htask : state.task with
  | perform action =>
    apply hclosed.look
    · intro m m' hm
      simp only [hm.context]
    · exact fun m => hclosed.andThen (action.blind_run (h action htask) _) fun _ => hclosed.done _
  | route test yes no =>
    cases test with
    | none => trivial
    | some test =>
      apply hclosed.look
      · intro m m' hm
        simp only [hm.data]
      · exact fun m => hclosed.done _
  | stop | answer verdict => trivial

namespace Engine

variable {e : Engine} {hooks : List Hook} {a b maxSteps : Option Nat} {spec : WorkflowSpec}
  {run run' : Run}

theorem Assembled.blind_dispatch (h : Assembled .builtins hooks maxSteps spec e) {name : String}
    {state : State} (hstate : e.states.get? name = some state) : (e.dispatch state).Blind := by
  obtain ⟨s, -, -, hbuilt, -⟩ := h.spec_of_state hstate
  have hrun : state.run.Blind :=
    State.blind_run fun _ htask => Registry.leaves_of_buildState hbuilt htask
  unfold dispatch
  split
  · exact Work.closed_blind.limited _ _ hrun
  · exact hrun

def ranOut : Except Fault Unit → Bool
  | .error (.stepLimit _ _) => true
  | _ => false

/-- What two steps leave that are made side by side: both runs go on, or both have ended in the same
way. `run'` is the run from which the second step is made. -/
inductive Abreast (run' : Run) : Progress → Moment → Progress → Moment → Prop
  | goesOn {next next' : Run} {m m' : Moment} (hsteps : next'.steps = run'.steps + 1)
      (hcurrent : m.context.currentState ≠ "") :
      Abreast run' (.goesOn next) m (.goesOn next') m'
  | ended {last last' : Run} {outcome : Except Fault Unit} {m m' : Moment}
      (hout : ranOut outcome = false) :
      Abreast run' (.ended last outcome) m (.ended last' outcome) m'

theorem ranOut_of_pick {current preferred : String} {data : Data} {fault : Fault}
    (h : e.pick current preferred data = .error fault) : ranOut (.error fault) = false := by
  rcases pick_eq_error h with ⟨rfl, -⟩ | ⟨t, -, hfault⟩
  · rfl
  · unfold Transition.isOpen at hfault
    split at hfault
    · cases hfault
    next guard _ =>
      cases hguard : guard.evaluate data with
      | error cause =>
        rw [hguard] at hfault
        cases hfault
        rfl
      | ok isMet =>
        rw [hguard] at hfault
        cases hfault

theorem steady_report (e : Engine) (level : Level) (message : String)
    (fields : List (String × String)) : Moment.Steady (e.report level message fields) :=
  Moment.Steady.permits.report _ _ _ Moment.Steady.permits.id

theorem steady_reroute (e : Engine) (current target : String) (fault : Fault) :
    Moment.Steady (e.reroute current target fault) := by
  let message : Json := fault.message
  have hpermits := Moment.Steady.permits
  have hset := hpermits.set (current ++ "_error") message
    (hpermits.set "last_error" message (e.steady_report .warn
      "State failed, continuing at error target"
      [("state", current), ("target", target), ("error", fault.message)]))
  exact hset.update fun ctx =>
    (ctx.addMove current target [("last_error", message)]).enter target

theorem steady_complete (e : Engine) (current : String) (verdict : Verdict) :
    Moment.Steady (e.complete current verdict) :=
  Moment.Steady.permits.report _ _ _ (Moment.Steady.permits.id.update _)

theorem steady_take (e : Engine) (current : String) (t : Transition) (verdict : Verdict) :
    Moment.Steady (e.take current t verdict) :=
  (e.steady_report .debug "Transition taken" [("from", current), ("to", t.target)]).update fun ctx =>
    ((ctx.addMove current t.target verdict.data).merge verdict.data).enter t.target

/-- Telling the hooks is of no consequence but for the journal. -/
theorem drifts_emit (e : Engine) {β : Type} (notice : Notice) (run : Run) (k : Run → Work β)
    (m : Moment) :
    Work.Drifts m ((e.emit notice run).bind k) (e.informed notice m)
      (k { run with calls := run.calls ++ e.calls notice }) := by
  have hrest : ∀ (hooks : List Hook) (i : Nat) (run : Run) (m : Moment),
      Work.Drifts m ((emitTo notice i hooks run).bind k)
        { m with journal := (hooks.flatMap (·.reports notice)).reverse ++ m.journal }
        (k { run with
          calls := run.calls ++ (List.range' i hooks.length).map (⟨·, notice⟩) }) :=
    fun hooks => by
      induction hooks with
      | nil =>
        intro i run m
        rw [List.length_nil, List.range'_zero, List.map_nil, List.append_nil]
        exact .refl _ _
      | cons hook hooks ih =>
        intro i run m
        refine .act (noted_tell hook notice m) ?_
        have h := ih (i + 1) (run.call i notice) (hook.tell notice m)
        rw [Run.call, Hook.tell, List.append_assoc, ← List.append_assoc, ← List.reverse_append] at h
        exact h
  rw [calls, List.range_eq_range']
  exact hrest e.hooks 0 run m

/-- Picking an edge is of no consequence but for the journal. -/
theorem drifts_resolve {β : Type} (current preferred : String)
    (k : Except Fault Transition → Work β) (m : Moment) :
    ∃ m₁, Work.Drifts m ((e.resolve current preferred).bind k) m₁
      (k (e.pick current preferred m.data)) := by
  have hlook : ∀ {next : Moment → Work (Except Fault Transition)} {w : Work β},
      (∃ m₁, Work.Drifts m ((next m).bind k) m₁ w) →
        ∃ m₁, Work.Drifts m ((Work.look next).bind k) m₁ w :=
    fun ⟨m₁, h⟩ => ⟨m₁, .act (.refl m) h⟩
  unfold resolve pick
  apply hlook
  split
  · exact ⟨m, .refl _ _⟩
  · cases Transition.firstOpen? m.data
        ((e.outgoing current).filter (·.target == preferred)) with
    | error fault => exact ⟨m, .refl _ _⟩
    | ok found =>
      cases found with
      | some t => exact ⟨m, .refl _ _⟩
      | none =>
        refine ⟨m.report .debug "Preferred transition did not match, scanning all"
          [("from", current), ("preferred", preferred)], ?_⟩
        exact .act (.report m _ _ _) (.refl _ _)

def leave (e : Engine) (current : String) (verdict : Verdict) (run : Run) :
    Except Fault Transition → Work Progress
  | .error fault => .done (.ended run (.error fault))
  | .ok t => .after (e.take current t verdict) (.done (.goesOn run))

theorem follow_open (e : Engine) (current : String) {verdict : Verdict} (run : Run)
    (h : e.isLast verdict = false) :
    e.follow current run (.ok verdict) =
      (e.resolve current verdict.next).bind (e.leave current verdict run) := by
  simp only [follow, h, Bool.false_eq_true, if_false]
  congr 1

/-- What follows the work of a state does not depend on the runs so far. -/
theorem Assembled.follow_echoes (h : Assembled .builtins hooks maxSteps spec e) (current : String)
    {next next' : Run} (hsteps : next'.steps = run'.steps + 1) (outcome : Except Fault Verdict) :
    (e.follow current next outcome).Echoes (fun _ => False) (Abreast run')
      (e.follow current next' outcome) := by
  intro m m' hm hc
  cases outcome with
  | error fault =>
    simp only [follow]
    split
    next target htarget _ =>
      obtain ⟨hnoted, hcancelled⟩ := e.steady_reroute current target fault m m' hm hc
      refine .act hnoted hcancelled (.done (.goesOn hsteps ?_))
      exact h.name_ne_empty (h.errorTarget_declared htarget)
    · obtain ⟨hnoted, hcancelled⟩ := e.steady_report _ _ _ m m' hm hc
      exact .act hnoted hcancelled (.done (.ended rfl))
  | ok verdict =>
    by_cases hlast : e.isLast verdict = true
    · obtain ⟨hnoted, hcancelled⟩ := e.steady_complete current verdict m m' hm hc
      simp only [follow, if_pos hlast]
      exact .act hnoted hcancelled (.done (.ended rfl))
    · rw [Bool.not_eq_true] at hlast
      rw [e.follow_open current next hlast, e.follow_open current next' hlast]
      obtain ⟨m₁, hfirst⟩ := e.drifts_resolve current verdict.next (e.leave current verdict next) m
      obtain ⟨m₁', hsecond⟩ :=
        e.drifts_resolve current verdict.next (e.leave current verdict next') m'
      have hm₁ : m₁.Noted m₁' := (hfirst.noted.symm.trans hm).trans hsecond.noted
      have hc₁ : m₁.cancelled = false := hfirst.noted.cancelled.trans hc
      refine hfirst.first (hsecond.second ?_)
      rw [hm.data]
      cases hpick : e.pick current verdict.next m.data with
      | error fault => exact .done (.ended (ranOut_of_pick hpick))
      | ok t =>
        obtain ⟨hnoted, hcancelled⟩ := e.steady_take current t verdict m₁ m₁' hm₁ hc₁
        refine .act hnoted hcancelled (.done (.goesOn hsteps ?_))
        exact h.name_ne_empty (h.target_declared (List.mem_filter.1 (pick_eq_ok hpick).1).1)

/-- Telling the hooks of two runs keeps what they have counted. -/
theorem emit_echoes {β β' : Type} {early : β → Prop} {V : β → Moment → β' → Moment → Prop}
    {notice : Notice} {k : Run → Work β} {k' : Run → Work β'}
    (hk : ∀ next next' : Run, next.steps = run.steps → next'.steps = run'.steps →
      (k next).Echoes early V (k' next')) :
    ((e.emit notice run).bind k).Echoes early V ((e.emit notice run').bind k') := by
  intro m m' hm hc
  have hfirst := e.drifts_emit notice run k m
  have hsecond := e.drifts_emit notice run' k' m'
  have hm₁ := (hfirst.noted.symm.trans hm).trans hsecond.noted
  have hc₁ := hfirst.noted.cancelled.trans hc
  refine hfirst.first (hsecond.second ?_)
  apply hk
  · rfl
  · rfl
  · exact hm₁
  · exact hc₁

/-- Two runs that differ in what they have counted so far, under limits that have not been reached,
make the same step. -/
theorem Assembled.step_echoes (h : Assembled .builtins hooks maxSteps spec e)
    (hlimit : (e.limitTo a).spentLimit? run = none)
    (hlimit' : (e.limitTo b).spentLimit? run' = none) :
    ((e.limitTo a).step run).Echoes (fun _ => False) (Abreast run') ((e.limitTo b).step run') := by
  have hpermits := Moment.Steady.permits
  intro m m' hm hc
  refine .act hm hc ?_
  simp only [id, hc, hm.cancelled, Bool.and_false, Bool.false_eq_true, if_false, hlimit, hlimit',
    hm.context]
  cases hstate : e.states.get? m.context.currentState with
  | none =>
    have hstate₁ : (e.limitTo a).states.get? m.context.currentState = none := hstate
    have hstate₂ : (e.limitTo b).states.get? m.context.currentState = none := hstate
    rw [hstate₁, hstate₂]
    exact .done (.ended rfl)
  | some state =>
    have hstate₁ : (e.limitTo a).states.get? m.context.currentState = some state := hstate
    have hstate₂ : (e.limitTo b).states.get? m.context.currentState = some state := hstate
    rw [hstate₁, hstate₂]
    have hentering : Moment.Steady fun m₁ => e.report .info "Entering state"
        [("state", m.context.currentState)] (m₁.update (·.visit m.context.currentState)) :=
      hpermits.report _ _ _ (hpermits.id.update _)
    obtain ⟨hm₁, hc₁⟩ := hentering m m' hm hc
    refine .act hm₁ hc₁ ?_
    simp only [runState, Work.bind_assoc]
    refine (emit_echoes fun next next' hnext hnext' => ?_) _ _ hm₁ hc₁
    refine Work.Blind.bind_echoes (h.blind_dispatch hstate) fun outcome => ?_
    refine emit_echoes fun last last' hlast hlast' => ?_
    exact h.follow_echoes _ (hlast'.trans hnext') outcome

end Engine

end Workflow
