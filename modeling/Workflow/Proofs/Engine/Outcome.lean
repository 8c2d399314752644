import Workflow.Proofs.Engine.Assembly
import Workflow.Proofs.Engine.Trace

/-!
# The outcome of a run

For an engine that has been built from a specification with the built-in kinds there are only five
ways in which a run may end, and the context that it leaves confirms each of them. The invariant is
that the current state is always a declared one, and that the run has kept count of the states that
it has dispatched.
-/

namespace Workflow

def WorkflowSpec.HasKind (spec : WorkflowSpec) (name kind : String) : Prop :=
  ∃ s ∈ spec.states, s.name = name ∧ s.kind = kind

def WorkflowSpec.Ends (spec : WorkflowSpec) (name : String) : Prop :=
  name ∈ spec.finalStates ∨ spec.HasKind name "final"

namespace Engine

variable {hooks : List Hook} {maxSteps : Option Nat} {spec : WorkflowSpec} {e : Engine}
  {run run' : Run}
  {m m' m₁ m₂ : Moment} {ctx₀ : Context}

theorem Assembled.mem_finals (h : Assembled .builtins hooks maxSteps spec e) {name : String} :
    name ∈ e.finals ↔ spec.Ends name := by
  rw [h.finals, WorkflowSpec.Ends, WorkflowSpec.HasKind]
  refine or_congr_right ⟨?_, ?_⟩
  · rintro ⟨s, hs, hname, state, hbuilt, hfinal⟩
    refine ⟨s, hs, hname, ?_⟩
    rcases Registry.task_of_buildState hbuilt with ⟨-, action, ht⟩ | ⟨-, test, yes, no, ht⟩ | ⟨hk, -⟩
    · rw [State.isFinal, ht] at hfinal
      cases hfinal
    · rw [State.isFinal, ht] at hfinal
      cases hfinal
    · exact hk
  · rintro ⟨s, hs, hname, hkind⟩
    obtain ⟨state, hbuilt⟩ := h.built s hs
    refine ⟨s, hs, hname, state, hbuilt, ?_⟩
    rcases Registry.task_of_buildState hbuilt with ⟨hk, -⟩ | ⟨hk, -⟩ | ⟨-, ht⟩
    · exact absurd (hkind.symm.trans hk) (by decide)
    · exact absurd (hkind.symm.trans hk) (by decide)
    · rw [State.isFinal, ht]

/-- What a state of a built-in kind may answer. -/
theorem Assembled.answers (h : Assembled .builtins hooks maxSteps spec e) {name : String}
    {state : State}
    {verdict : Verdict} (hstate : e.states.get? name = some state)
    (hverdict : Answers state verdict) :
    spec.HasKind name "action" ∧ verdict = .proceed ∨
      spec.HasKind name "conditional" ∧ verdict.complete = false ∨
        spec.HasKind name "final" ∧ verdict = .finish name := by
  obtain ⟨s, hs, hname, hbuilt, hname'⟩ := h.spec_of_state hstate
  have hpreference : ∀ choice, (State.preference choice).complete = false := fun choice => by
    cases choice <;> rfl
  unfold Answers at hverdict
  rcases Registry.task_of_buildState hbuilt with ⟨hk, action, ht⟩ |
    ⟨hk, test, yes, no, ht⟩ | ⟨hk, ht⟩
  · rw [ht] at hverdict
    exact .inl ⟨⟨s, hs, hname, hk⟩, hverdict⟩
  · rw [ht] at hverdict
    refine .inr (.inl ⟨⟨s, hs, hname, hk⟩, ?_⟩)
    rcases hverdict with ⟨-, rfl⟩ | ⟨-, rfl | rfl⟩
    · rfl
    · exact hpreference yes
    · exact hpreference no
  · rw [ht, hname'] at hverdict
    exact .inr (.inr ⟨⟨s, hs, hname, hk⟩, hverdict⟩)

theorem Assembled.firstState_declared (h : Assembled .builtins hooks maxSteps spec e)
    {ctx : Context}
    (hctx : ctx.currentState = "" ∨ ctx.currentState ∈ spec.stateNames) :
    e.firstState ctx ∈ spec.stateNames := by
  unfold firstState
  split
  · exact h.initial ▸ h.valid.initial
  next hne => exact hctx.resolve_left fun hempty => hne (String.isEmpty_iff.2 hempty)

/-- A step that goes on leads to a declared state. -/
theorem Assembled.declared_of_goes (h : Assembled .builtins hooks maxSteps spec e)
    (hstep : e.Stepped .free run m (.goesOn run') m') :
    m'.context.currentState ∈ spec.stateNames := by
  cases hstep with
  | dispatched _ _ _ _ _ hfollow =>
    cases hfollow with
    | rerouted htarget _ => exact h.errorTarget_declared htarget
    | moved _ _ hpick => exact h.target_declared (List.mem_filter.1 (pick_eq_ok hpick).1).1

/-- What the context that a run has left says about its outcome; `visited` are the states that the
run has dispatched, from `first` on. -/
inductive Confirmed (maxSteps : Option Nat) (spec : WorkflowSpec) (first : String)
    (visited : List String) (ctx : Context) : Except Fault Unit → Prop
  | ok (hends : spec.Ends ctx.currentState) : Confirmed maxSteps spec first visited ctx (.ok ())
  | state {fault : Fault} (hlast : visited.getLast? = some ctx.currentState)
      (hfault : (spec.state? ctx.currentState).bind StateSpec.onError = none ∨
        fault.isInterrupt = true) :
      Confirmed maxSteps spec first visited ctx (.error (.state ctx.currentState fault))
  | noTransition (hlast : visited.getLast? = some ctx.currentState)
      (hclosed : ∀ edge ∈ spec.transitions, edge.origin = ctx.currentState →
        ∃ c, Condition.parse edge.condition = .ok c ∧ c.isMet ctx.data = false) :
      Confirmed maxSteps spec first visited ctx (.error (.noTransition ctx.currentState))
  | cancelled :
      Confirmed maxSteps spec first visited ctx
        (.error (.cancelled (visited.getLast?.getD first)))
  | stepLimit {limit : Nat} (hlimit : maxSteps = some limit) (hlength : visited.length = limit) :
      Confirmed maxSteps spec first visited ctx (.error (.stepLimit ctx.currentState limit))

structure Counted (maxSteps : Option Nat) (spec : WorkflowSpec) (e : Engine) (ctx₀ : Context)
    (run : Run) (ctx : Context) (visited : List String) : Prop where
  path : ctx.path = ctx₀.path ++ visited
  steps : run.steps = visited.length
  last : run.last = visited.getLast?
  first : visited = [] → ctx.currentState = e.firstState ctx₀
  current : ctx.currentState ∈ spec.stateNames
  limit : ∀ limit ∈ maxSteps, visited.length ≤ limit

variable {visited : List String}

theorem spentLimit?_eq_some {limit : Nat} (h : e.spentLimit? run = some limit) :
    e.maxSteps = some limit ∧ limit ≤ run.steps := by
  obtain ⟨hmax, hle⟩ := Option.filter_eq_some_iff.1 h
  exact ⟨hmax, of_decide_eq_true hle⟩

theorem lt_of_spentLimit?_eq_none {limit : Nat} (h : e.spentLimit? run = none)
    (hmax : e.maxSteps = some limit) : run.steps < limit := by
  by_contra hle
  have hsome : e.spentLimit? run = some limit :=
    Option.filter_eq_some_iff.2 ⟨hmax, decide_eq_true (Nat.le_of_not_lt hle)⟩
  rw [h] at hsome
  cases hsome

/-- The count once the current state has been dispatched. -/
theorem Counted.dispatched (ha : Assembled .builtins hooks maxSteps spec e) (state : State)
    (outcome : Except Fault Verdict) {ctx : Context}
    (h : Counted maxSteps spec e ctx₀ run m.context visited)
    (hlimit : e.spentLimit? run = none)
    (hpath : ctx.path = m.context.path ++ [m.context.currentState])
    (hcurrent : ctx.currentState ∈ spec.stateNames) :
    Counted maxSteps spec e ctx₀ (e.after run m.context.currentState state outcome) ctx
      (visited ++ [m.context.currentState]) where
  path := by rw [hpath, h.path, List.append_assoc]
  steps := by rw [after, h.steps, List.length_append, List.length_singleton]
  last := by rw [after, List.getLast?_concat]
  first hnil := by simp at hnil
  current := hcurrent
  limit limit hmem := by
    have hlt := lt_of_spentLimit?_eq_none hlimit (ha.maxSteps.trans hmem)
    rw [h.steps] at hlt
    rw [List.length_append, List.length_singleton]
    exact hlt

theorem Counted.goes (ha : Assembled .builtins hooks maxSteps spec e)
    (h : ∃ visited, Counted maxSteps spec e ctx₀ run m.context visited)
    (hstep : e.Stepped .free run m (.goesOn run') m') :
    ∃ visited, Counted maxSteps spec e ctx₀ run' m'.context visited := by
  obtain ⟨visited, h⟩ := h
  have hdeclared := ha.declared_of_goes hstep
  cases hstep with
  | dispatched _ hlimit _ hwork hm hfollow =>
    obtain ⟨-, hpath, -⟩ := trace_of_dispatch hwork hm.noted
    cases hfollow with
    | rerouted _ _ => exact ⟨_, h.dispatched ha _ _ hlimit hpath hdeclared⟩
    | moved hm' _ _ =>
      rw [← hm'.context] at hpath
      exact ⟨_, h.dispatched ha _ _ hlimit hpath hdeclared⟩

/-- A run that returns has been counted, and its context confirms the outcome. -/
def Concluded (maxSteps : Option Nat) (spec : WorkflowSpec) (e : Engine) (ctx₀ : Context)
    (outcome : Except Fault Unit) (ctx : Context) : Prop :=
  ∃ visited, ctx.path = ctx₀.path ++ visited ∧ (∀ limit ∈ maxSteps, visited.length ≤ limit) ∧
    Confirmed maxSteps spec (e.firstState ctx₀) visited ctx outcome

theorem Counted.ends (ha : Assembled .builtins hooks maxSteps spec e) {outcome : Except Fault Unit}
    (h : ∃ visited, Counted maxSteps spec e ctx₀ run m.context visited)
    (hstep : e.Stepped .free run m (.ended run' outcome) m') :
    Concluded maxSteps spec e ctx₀ outcome m'.context := by
  obtain ⟨visited, h⟩ := h
  cases hstep with
  | cancelled hm _ _ =>
    refine ⟨visited, hm.context ▸ h.path, h.limit, ?_⟩
    have hstopped : run.last.getD m.context.currentState =
        visited.getLast?.getD (e.firstState ctx₀) := by
      rw [h.last]
      cases visited with
      | nil => exact h.first rfl
      | cons first rest => rw [List.getLast?_cons]; rfl
    rw [hstopped]
    exact .cancelled
  | spent hm hlimit =>
    obtain ⟨hmax, hle⟩ := spentLimit?_eq_some hlimit
    rw [ha.maxSteps] at hmax
    refine ⟨visited, hm.context ▸ h.path, h.limit, ?_⟩
    rw [← hm.context]
    exact .stepLimit hmax (Nat.le_antisymm (h.limit _ hmax) (h.steps ▸ hle))
  | lost _ hnone =>
    obtain ⟨state, hstate⟩ := ha.exists_state h.current
    rw [hnone] at hstate
    cases hstate
  | @dispatched state _ _ m₁ m₂ _ _ hlimit hstate hwork hm hfollow =>
    obtain ⟨-, hpath, hcurrent⟩ := trace_of_dispatch hwork hm.noted
    have hcount := h.dispatched ha state (.ok .proceed) hlimit hpath (hcurrent ▸ h.current)
    have hlast : (visited ++ [m.context.currentState]).getLast? = some m.context.currentState :=
      List.getLast?_concat
    cases hfollow with
    | failed hm' hfault =>
      refine ⟨_, hm'.context ▸ hcount.path, hcount.limit, ?_⟩
      rw [ha.errorTargets] at hfault
      rw [← hm'.context] at hcurrent
      rw [← hcurrent] at hlast hfault ⊢
      exact .state hlast hfault
    | stuck hm' _ hpick =>
      refine ⟨_, hm'.context ▸ hcount.path, hcount.limit, ?_⟩
      have hdata : m'.context.data = m₂.data := congrArg Context.data hm'.context
      rcases pick_eq_error hpick with ⟨rfl, hclosed⟩ | ⟨t, hmem, hfault⟩
      · have hedges : ∀ edge ∈ spec.transitions, edge.origin = m.context.currentState →
            ∃ c, Condition.parse edge.condition = .ok c ∧ c.isMet m'.context.data = false := by
          intro edge hedge horigin
          obtain ⟨t, ht, c, hparse, horigin', -, hopen⟩ := ha.transition_of_edge hedge
          have hout : t ∈ e.outgoing m.context.currentState :=
            List.mem_filter.2 ⟨ht, beq_iff_eq.2 (horigin'.trans horigin)⟩
          refine ⟨c, hparse, ?_⟩
          rw [hdata]
          exact Except.ok.inj ((hopen m₂.data).symm.trans (hclosed t hout))
        rw [← hm'.context] at hcurrent
        rw [← hcurrent] at hlast hedges ⊢
        exact .noTransition hlast hedges
      · -- the guards of a specification always give an answer
        obtain ⟨ht, -⟩ := List.mem_filter.1 hmem
        obtain ⟨edge, -, c, -, -, -, hopen⟩ := ha.edge_of_transition ht
        cases (hopen m₂.data).symm.trans hfault
    | @completed verdict hfinal =>
      have hpath' := (e.trace_of_complete m.context.currentState verdict m₂).1
      refine ⟨_, hpath'.trans hcount.path, hcount.limit, .ok ?_⟩
      have htarget : (e.complete m.context.currentState verdict m₂).context.currentState =
          if verdict.next.isEmpty then m.context.currentState else verdict.next := rfl
      rw [htarget]
      rcases Bool.or_eq_true_iff.1 hfinal with hcomplete | hfinal
      · rcases ha.answers hstate (answers_of_dispatch hwork) with ⟨-, rfl⟩ | ⟨-, hopen⟩ | ⟨hkind, rfl⟩
        · cases hcomplete
        · rw [hopen] at hcomplete
          cases hcomplete
        · rw [Verdict.finish, ite_id]
          exact .inr hkind
      · have hmem : verdict.next ∈ e.finals := List.contains_iff_mem.1 hfinal
        have hne : verdict.next ≠ "" := ha.name_ne_empty (ha.final_declared hmem)
        rw [if_neg (mt String.isEmpty_iff.1 hne)]
        exact ha.mem_finals.1 hmem

/-- Every outcome of a run is one that the context confirms, and no run dispatches more states than
its limit allows. -/
theorem outcome_confirmed {fuel : Nat} {cancelAt : Option Nat} {m : Moment} {done : Finished}
    (he : (ofSpec .builtins hooks maxSteps spec).2 = .ok e)
    (hm : m.context.currentState = "" ∨ m.context.currentState ∈ spec.stateNames)
    (h : e.carryOut fuel cancelAt m = some done) :
    Concluded maxSteps spec e m.context done.outcome done.moment.context := by
  have ha := assembled_of_ofSpec he
  have hfirst := ha.firstState_declared hm
  have hstart : ∃ visited,
      Counted maxSteps spec e m.context {} (e.start m).context visited := by
    rw [context_start]
    exact ⟨[], (List.append_nil _).symm, rfl, rfl, fun _ => rfl, hfirst, fun _ _ => Nat.zero_le _⟩
  exact carryOut_induction
    (P := fun run m' => ∃ visited, Counted maxSteps spec e m.context run m'.context visited)
    (Q := fun _ outcome m' => Concluded maxSteps spec e m.context outcome m'.context)
    (Counted.goes ha) (Counted.ends ha) hstart h

theorem outcome_confirmed_linear :
    ∃ e done, (ofSpec .builtins [] (some 2) Sample.linear).2 = .ok e ∧
      e.carryOut 9 none { context := { identity := { session := "s" } } } = some done ∧
      done.moment.context.path = ["a", "b"] ∧
      Concluded (some 2) Sample.linear e { identity := { session := "s" } } done.outcome
        done.moment.context := by
  obtain ⟨e, done, he, hdone, hpath⟩ := exists_run .builtins [] (some 2) Sample.linear 9 none
    { context := { identity := { session := "s" } } } ["a", "b"] rfl
  exact ⟨e, done, he, hdone, hpath, outcome_confirmed he (.inl rfl) hdone⟩

end Engine

end Workflow
