import Workflow.Proofs.Engine.Buildable

/-!
# The order of declarations

Of the order in which a specification is written down only the order of the edges out of the same
state counts. A run looks up states, time limits and error targets by their names, and of the edges
it never looks at any but those that leave one state.
-/

namespace Workflow

/-- The specifications have the same header, the same final states and the same states in any
order, and the same edges out of each state in the same order. -/
structure WorkflowSpec.Reordered (spec spec' : WorkflowSpec) : Prop where
  name : spec'.name = spec.name
  initialState : spec'.initialState = spec.initialState
  settings : spec'.settings = spec.settings
  /-- However they are made final: by being listed or by their kind. -/
  finals (name : String) : spec'.Ends name ↔ spec.Ends name
  states : spec.states.Perm spec'.states
  transitions (origin : String) :
    spec'.transitions.filter (·.origin == origin) = spec.transitions.filter (·.origin == origin)

namespace WorkflowSpec

variable {spec spec' : WorkflowSpec}

theorem Ends.declared (h : spec.Valid) {name : String} (hname : spec.Ends name) :
    name ∈ spec.stateNames := by
  rcases hname with hlisted | ⟨state, hstate, rfl, -⟩
  · exact h.finals name hlisted
  · exact List.mem_map_of_mem hstate

namespace Reordered

theorem mem_transitions (h : spec.Reordered spec') {edge : EdgeSpec} :
    edge ∈ spec'.transitions ↔ edge ∈ spec.transitions := by
  have hmem : ∀ s : WorkflowSpec,
      edge ∈ s.transitions ↔ edge ∈ s.transitions.filter (·.origin == edge.origin) := fun s => by
    rw [List.mem_filter, and_iff_left (beq_self_eq_true _)]
  rw [hmem spec', h.transitions, ← hmem spec]

theorem symm (h : spec.Reordered spec') : spec'.Reordered spec where
  name := h.name.symm
  initialState := h.initialState.symm
  settings := h.settings.symm
  finals name := (h.finals name).symm
  states := h.states.symm
  transitions origin := (h.transitions origin).symm

theorem stateNames (h : spec.Reordered spec') : spec.stateNames.Perm spec'.stateNames :=
  h.states.map StateSpec.name

theorem valid (h : spec.Reordered spec') (hvalid : spec.Valid) : spec'.Valid := by
  have hdeclared : ∀ name, name ∈ spec.stateNames → name ∈ spec'.stateNames :=
    fun _ => h.stateNames.mem_iff.1
  refine
    { name := h.name ▸ hvalid.name
      initialName := h.initialState ▸ hvalid.initialName
      names := fun name hname => hvalid.names name (h.stateNames.mem_iff.2 hname)
      distinct := h.stateNames.nodup_iff.1 hvalid.distinct
      initial := h.initialState ▸ hdeclared _ hvalid.initial
      finals := fun name hname => hdeclared _ (((h.finals name).1 (.inl hname)).declared hvalid)
      edges := fun edge hedge => ?_
      actions := fun state hstate => hvalid.actions state (h.states.mem_iff.2 hstate)
      errorTargets := fun state hstate target htarget => hdeclared _ <|
        hvalid.errorTargets state (h.states.mem_iff.2 hstate) target htarget }
  have hends := hvalid.edges edge (h.mem_transitions.1 hedge)
  exact ⟨hdeclared _ hends.1, hdeclared _ hends.2⟩

theorem state?_eq (h : spec.Reordered spec') (hvalid : spec.Valid) (name : String) :
    spec'.state? name = spec.state? name := by
  apply Option.ext
  intro state
  rw [spec.state?_eq_some_iff hvalid.distinct, spec'.state?_eq_some_iff (h.valid hvalid).distinct,
    h.states.mem_iff]

end Reordered

end WorkflowSpec

namespace Engine

structure Equivalent (e e' : Engine) : Prop where
  name : e'.name = e.name
  initial : e'.initial = e.initial
  cancellation : e'.cancellation = e.cancellation
  maxSteps : e'.maxSteps = e.maxSteps
  hooks : e'.hooks = e.hooks
  states (name : String) : e'.states.get? name = e.states.get? name
  outgoing (name : String) : e'.outgoing name = e.outgoing name
  isFinal (name : String) : e'.isFinal name = e.isFinal name
  timeoutFor (name : String) : e'.timeoutFor name = e.timeoutFor name
  errorTargets (name : String) : e'.errorTargets.get? name = e.errorTargets.get? name

namespace Equivalent

variable {e e' : Engine}

theorem report_eq (h : e.Equivalent e') : e'.report = e.report := by
  unfold report
  rw [h.name]

theorem emit_eq (h : e.Equivalent e') : e'.emit = e.emit := by
  unfold emit
  rw [h.hooks]

theorem runState_eq (h : e.Equivalent e') : e'.runState = e.runState := by
  unfold runState dispatch
  simp only [h.emit_eq, h.timeoutFor]

theorem resolve_eq (h : e.Equivalent e') : e'.resolve = e.resolve := by
  unfold resolve firstOpen
  simp only [h.outgoing]

theorem follow_eq (h : e.Equivalent e') : e'.follow = e.follow := by
  unfold follow reroute complete take isLast
  simp only [h.report_eq, h.errorTargets, h.isFinal, h.resolve_eq]

theorem step_eq (h : e.Equivalent e') : e'.step = e.step := by
  unfold step spentLimit?
  simp only [h.cancellation, h.maxSteps, h.report_eq, h.states, h.runState_eq, h.follow_eq]

theorem advance_eq (h : e.Equivalent e') (fuel : Nat) (run : Run) :
    e'.advance fuel run = e.advance fuel run := by
  induction fuel generalizing run with
  | zero => rfl
  | succ fuel ih =>
    rw [advance_succ, advance_succ, h.step_eq]
    congr 1
    funext progress
    cases progress with
    | goesOn next => exact ih next
    | ended last outcome => rfl

/-- The runs of the two engines are the same. -/
theorem carryOut_eq (h : e.Equivalent e') (fuel : Nat) (cancelAt : Option Nat) (m : Moment) :
    e'.carryOut fuel cancelAt m = e.carryOut fuel cancelAt m := by
  have hstart : e'.start = e.start := by
    unfold start
    simp only [h.initial, h.report_eq]
  have hexecute : e'.execute fuel = e.execute fuel := by
    rw [execute, execute, hstart, h.advance_eq]
  rw [carryOut, carryOut, hexecute]

end Equivalent

variable {r : Registry} {hooks : List Hook} {maxSteps : Option Nat}
  {spec spec' : WorkflowSpec} {e e' : Engine}

/-- What an engine takes over from the header of its specification and from the time limits. -/
theorem settings_of_ofSpec (h : (ofSpec r hooks maxSteps spec).2 = .ok e) :
    e.name = spec.name ∧ ∀ name, e.timeoutFor name =
      ((spec.state? name).bind StateSpec.timeout?).or
        (if (Span.ofSeconds spec.settings.actionTimeoutSecs).nanos = 0 then none
          else some (.ofSeconds spec.settings.actionTimeoutSecs)) := by
  rw [ofSpec_eq_bind] at h
  obtain ⟨draft, hdraft, hbuild⟩ := bind_eq_ok.1 h
  obtain ⟨hvalid, states, ts, -, -, rfl⟩ := Draft.ofSpec_eq_ok.1 hdraft
  obtain ⟨table, -, -, -, rfl⟩ := Draft.build_eq_ok.1 hbuild
  refine ⟨rfl, fun name => ?_⟩
  have hget := Draft.get?_gather StateSpec.timeout? hvalid.distinct [] name
  rw [Table.get?_nil, Option.or_none] at hget
  exact congrArg (Option.or · _) hget

/-- The edges out of a state come of those that are specified, in their order. -/
theorem Assembled.outgoing (h : Assembled r hooks maxSteps spec e) (name : String) :
    List.Forall₂ (fun (edge : EdgeSpec) t =>
        Transition.ofText edge.origin edge.target edge.condition = .ok t)
      (spec.transitions.filter (·.origin == name)) (e.outgoing name) := by
  refine List.rel_filter (fun edge t ht => ?_) h.transitions
  obtain ⟨c, -, rfl⟩ := Transition.ofText_eq_ok ht
  exact Iff.rfl

theorem equivalent_of_reordered (h : spec.Reordered spec')
    (he : (ofSpec .builtins hooks maxSteps spec).2 = .ok e)
    (he' : (ofSpec .builtins hooks maxSteps spec').2 = .ok e') : e.Equivalent e' := by
  have ha := assembled_of_ofSpec he
  have ha' := assembled_of_ofSpec he'
  obtain ⟨hname, htimeouts⟩ := settings_of_ofSpec he
  obtain ⟨hname', htimeouts'⟩ := settings_of_ofSpec he'
  have hstate? := h.state?_eq ha.valid
  have hunique : Relator.RightUnique fun (edge : EdgeSpec) t =>
      Transition.ofText edge.origin edge.target edge.condition = .ok t :=
    fun _ _ _ ht ht' => Except.ok.inj (ht.symm.trans ht')
  refine
    { name := by rw [hname, hname', h.name]
      initial := by rw [ha.initial, ha'.initial, h.initialState]
      cancellation := by rw [ha.cancellation, ha'.cancellation, h.settings]
      maxSteps := ha'.maxSteps.trans ha.maxSteps.symm
      hooks := ha'.hooks.trans ha.hooks.symm
      states := fun name => Option.ext fun state => ?_
      outgoing := fun name => ?_
      isFinal := fun name => ?_
      timeoutFor := fun name => by rw [htimeouts, htimeouts', hstate?, h.settings]
      errorTargets := fun name => by rw [ha.errorTargets, ha'.errorTargets, hstate?] }
  · rw [ha.states, ha'.states, hstate?]
  · have hout := ha'.outgoing name
    rw [h.transitions] at hout
    exact List.right_unique_forall₂' hunique hout (ha.outgoing name)
  · rw [Bool.eq_iff_iff, Engine.isFinal, Engine.isFinal, List.contains_iff_mem,
      List.contains_iff_mem, ha.mem_finals, ha'.mem_finals, h.finals]

theorem exists_ofSpec_of_reordered (h : spec.Reordered spec')
    (he : ∃ e, (ofSpec r hooks maxSteps spec).2 = .ok e) :
    ∃ e', (ofSpec r hooks maxSteps spec').2 = .ok e' := by
  obtain ⟨hvalid, hstates, hconditions⟩ := exists_ofSpec_iff.1 he
  exact exists_ofSpec_iff.2 ⟨h.valid hvalid,
    fun state hstate => hstates state (h.states.mem_iff.2 hstate),
    fun edge hedge => hconditions edge (h.mem_transitions.1 hedge)⟩

/-- Only the order of the edges out of the same state matters: specifications that differ in any
other order can be built alike, and all runs of the one engine are runs of the other. -/
theorem carryOut_eq_of_reordered (hooks : List Hook) (maxSteps : Option Nat)
    (h : spec.Reordered spec') :
    ((∃ e, (ofSpec .builtins hooks maxSteps spec).2 = .ok e) ↔
      ∃ e', (ofSpec .builtins hooks maxSteps spec').2 = .ok e') ∧
    ∀ e e', (ofSpec .builtins hooks maxSteps spec).2 = .ok e →
      (ofSpec .builtins hooks maxSteps spec').2 = .ok e' →
      ∀ fuel cancelAt m, e'.carryOut fuel cancelAt m = e.carryOut fuel cancelAt m := by
  refine ⟨⟨exists_ofSpec_of_reordered h, exists_ofSpec_of_reordered h.symm⟩, ?_⟩
  intro e e' he he' fuel cancelAt m
  exact (equivalent_of_reordered h he he').carryOut_eq fuel cancelAt m

def backwards : WorkflowSpec :=
  { Sample.linear with
    finalStates := []
    states := Sample.linear.states.reverse
    transitions := Sample.linear.transitions.reverse }

theorem reordered_backwards : Sample.linear.Reordered backwards where
  name := rfl
  initialState := rfl
  settings := rfl
  finals name := by
    have hkind : backwards.HasKind name "final" ↔ Sample.linear.HasKind name "final" :=
      exists_congr fun _ => and_congr_left fun _ => List.mem_reverse
    have hlisted : name ∈ Sample.linear.finalStates → Sample.linear.HasKind name "final" := by
      intro hname
      obtain rfl : name = "c" := List.mem_singleton.1 hname
      exact ⟨Sample.finalState "c", .tail _ (.tail _ (.head _)), rfl, rfl⟩
    rw [WorkflowSpec.Ends, WorkflowSpec.Ends, hkind]
    exact ⟨fun h => .inr (h.resolve_left List.not_mem_nil), fun h => .inr (h.elim hlisted id)⟩
  states := (List.reverse_perm _).symm
  transitions origin := by
    by_cases ha : origin = "a"
    · subst ha
      rfl
    · by_cases hb : origin = "b"
      · subst hb
        rfl
      · simp [backwards, Sample.linear, WorkflowSpec.withState, WorkflowSpec.withTransition,
          Ne.symm ha, Ne.symm hb]

theorem carryOut_eq_of_reordered_backwards :
    ∃ e e' done, (ofSpec .builtins [] none Sample.linear).2 = .ok e ∧
      (ofSpec .builtins [] none backwards).2 = .ok e' ∧
      done.moment.context.path = ["a", "b", "c"] ∧
      e'.carryOut 9 none { context := { identity := { session := "s" } } } = some done := by
  obtain ⟨e, done, he, hdone, hpath⟩ := exists_run .builtins [] none Sample.linear 9 none
    { context := { identity := { session := "s" } } } ["a", "b", "c"] rfl
  obtain ⟨hbuilt, hruns⟩ := carryOut_eq_of_reordered [] none reordered_backwards
  obtain ⟨e', he'⟩ := hbuilt.1 ⟨e, he⟩
  exact ⟨e, e', done, he, he', hpath, (hruns e e' he he' 9 none _).trans hdone⟩

end Engine

end Workflow
