import Workflow.Proofs.Engine.Outcome
import Workflow.Proofs.Engine.Resolution
import Workflow.Proofs.Lint.Traps

/-!
# Dead ends

Linting reports a state that is not final as a dead end if nothing follows it in the graph, and
there an error target follows a state just as the target of a transition does. So a state that no
transition leaves is passed over as soon as it has an error target, although a run gets stuck there
whenever the work of the state succeeds: the error target is for runs in which it fails.
-/

namespace Workflow

namespace Engine

variable {hooks : List Hook} {maxSteps : Option Nat} {spec : WorkflowSpec} {e : Engine}
  {name : String}

/-- Once the work of the state has succeeded, the run can only end for want of a transition. -/
def Strands (e : Engine) (name : String) : Prop :=
  ∀ state, e.states.get? name = some state → ∀ m verdict m',
    (e.dispatch state).Reaches .free m (some (.ok verdict)) m' →
      ∀ run, (e.follow name run (.ok verdict)).Gives m' (.ended run (.error (.noTransition name)))

/-- A state of kind `action` has no verdict but to proceed. -/
theorem Assembled.proceeds (h : Assembled .builtins hooks maxSteps spec e)
    (hkind : spec.HasKind name "action") {state : State} {verdict : Verdict}
    (hstate : e.states.get? name = some state) (hverdict : Answers state verdict) :
    verdict = .proceed := by
  obtain ⟨s, hs, hname, hkind⟩ := hkind
  have hother : ∀ kind, spec.HasKind name kind → kind = "action" := by
    rintro kind ⟨s', hs', hname', rfl⟩
    have heq : s' = s := List.inj_on_of_nodup_map h.valid.distinct hs' hs (hname'.trans hname.symm)
    exact heq ▸ hkind
  rcases h.answers hstate hverdict with ⟨-, hproceed⟩ | ⟨hcond, -⟩ | ⟨hfinal, -⟩
  · exact hproceed
  · exact absurd (hother _ hcond) (by decide)
  · exact absurd (hother _ hfinal) (by decide)

theorem Assembled.strands (h : Assembled .builtins hooks maxSteps spec e)
    (hkind : spec.HasKind name "action") (hedges : ∀ edge ∈ spec.transitions, edge.origin ≠ name) :
    e.Strands name := by
  intro state hstate m verdict m' hwork run
  obtain rfl := h.proceeds hkind hstate (answers_of_dispatch hwork)
  have hnone : e.outgoing name = [] := by
    rw [Engine.outgoing, List.filter_eq_nil_iff]
    intro t ht horigin
    obtain ⟨edge, hedge, -, -, horigin', -, -⟩ := h.edge_of_transition ht
    exact hedges edge hedge (horigin'.symm.trans (eq_of_beq horigin))
  -- To proceed is no preference, and there is nothing to choose from.
  have hpick : e.pick name Verdict.proceed.next m'.data = .error (.noTransition name) := by
    have hopen : e.firstOpen name m'.data = .error (.noTransition name) := by
      rw [firstOpen, hnone]
      rfl
    exact hopen
  have hgives := e.resolve_gives name Verdict.proceed.next m'
  rw [hpick] at hgives
  obtain ⟨m₁, hm, hreaches⟩ := follow_reaches_iff hgives h.isFinal_empty
  exact ⟨m₁, hm, fun d r m' => hreaches d run r m'⟩

end Engine

namespace Lint

variable {spec : WorkflowSpec} {known : Option Registry} {name : String}

def ReportsDeadEnd (known : Option Registry) (spec : WorkflowSpec) (name : String) : Prop :=
  ∃ finding ∈ lint known spec, finding.code = .deadEnd ∧ finding.state = some name

theorem successors_eq_nil_iff (hname : name ∈ spec.stateNames) :
    (Graph.ofSpec spec).successors name = [] ↔
      (∀ edge ∈ spec.transitions, edge.origin ≠ name) ∧
        ∀ state ∈ spec.states, state.name = name → state.onError = none := by
  rw [List.eq_nil_iff_forall_not_mem]
  simp only [Graph.mem_successors_ofSpec]
  constructor
  · intro hnone
    refine ⟨?_, ?_⟩
    · rintro edge hedge rfl
      exact hnone _ (.transition hedge hname)
    · rintro state hstate rfl
      refine Option.eq_none_iff_forall_ne_some.2 fun target htarget => ?_
      exact hnone _ (.onError hstate htarget)
  · rintro ⟨hedges, hstates⟩ target (⟨hedge, -⟩ | ⟨hstate, htarget⟩)
    · exact hedges _ hedge rfl
    · rw [hstates _ hstate rfl] at htarget
      cases htarget

theorem reportsDeadEnd_iff :
    ReportsDeadEnd known spec name ↔ spec.initialState ∈ spec.stateNames ∧
      name ∈ spec.stateNames ∧ name ∉ finalStates spec ∧
        (∀ edge ∈ spec.transitions, edge.origin ≠ name) ∧
          ∀ state ∈ spec.states, state.name = name → state.onError = none := by
  constructor
  · rintro ⟨finding, hmem, hcode, hstate⟩
    obtain ⟨hinitial, other, hother, hfinal, hnext, rfl⟩ := (mem_lint_iff_deadEnd hcode).1 hmem
    cases hstate
    exact ⟨hinitial, hother, hfinal, (successors_eq_nil_iff hother).1 hnext⟩
  · rintro ⟨hinitial, hname, hfinal, hnext⟩
    exact ⟨deadEndFinding name, (mem_lint_iff_deadEnd rfl).2
      ⟨hinitial, name, hname, hfinal, (successors_eq_nil_iff hname).2 hnext, rfl⟩, rfl, rfl⟩

/-- A declared state that is not final is reported as a dead end exactly if no transition has it as
its origin and none of its declarations has an error target either, and nothing else is said of a
dead end than that it has no outgoing transitions. If no transition has a state of kind `action` as
its origin, then, reported or not, a run fails for want of a transition whenever the work of the
state succeeds. -/
theorem deadEnd_reported_iff (known : Option Registry)
    (hinitial : spec.initialState ∈ spec.stateNames)
    (hname : name ∈ spec.stateNames) (hfinal : name ∉ finalStates spec) :
    (ReportsDeadEnd known spec name ↔
      (∀ edge ∈ spec.transitions, edge.origin ≠ name) ∧
        ∀ state ∈ spec.states, state.name = name → state.onError = none) ∧
    (∀ finding ∈ lint known spec, finding.code = .deadEnd → finding.state = some name →
      finding = deadEndFinding name) ∧
    ((∀ edge ∈ spec.transitions, edge.origin ≠ name) → spec.HasKind name "action" →
      ∀ hooks maxSteps e,
        (Engine.ofSpec .builtins hooks maxSteps spec).2 = .ok e → e.Strands name) := by
  refine ⟨?_, fun finding hmem hcode hstate => ?_, fun hedges hkind hooks maxSteps e he => ?_⟩
  · rw [reportsDeadEnd_iff, and_iff_right hinitial, and_iff_right hname, and_iff_right hfinal]
  · obtain ⟨-, other, -, -, -, rfl⟩ := (mem_lint_iff_deadEnd hcode).1 hmem
    cases hstate
    rfl
  · exact (Engine.assembled_of_ofSpec he).strands hkind hedges

def brittle : WorkflowSpec :=
  let start : WorkflowSpec := { name := "brittle", initialState := "a" }
  (start.withState { Sample.noopState "a" with onError := some "c" }).withState
    (Sample.finalState "c")

/-- Linting finds nothing wrong with it, and yet no run on it can succeed. -/
theorem deadEnd_reported_iff_brittle :
    (∀ edge ∈ brittle.transitions, edge.origin ≠ "a") ∧ lint (some .builtins) brittle = [] ∧
      ¬ReportsDeadEnd (some .builtins) brittle "a" ∧
      ∃ e done, (Engine.ofSpec .builtins [] none brittle).2 = .ok e ∧ e.Strands "a" ∧
        e.carryOut 9 none { context := { identity := { session := "s" } } } = some done ∧
        done.outcome = .error (.noTransition "a") := by
  have hedges : ∀ edge ∈ brittle.transitions, edge.origin ≠ "a" := List.forall_mem_nil _
  have hname : "a" ∈ brittle.stateNames := by decide
  have hfinal : "a" ∉ finalStates brittle := by decide
  have hexact := deadEnd_reported_iff (some .builtins) (by decide) hname hfinal
  obtain ⟨e, done, he, hdone, houtcome⟩ := Engine.exists_finished Finished.outcome .builtins [] none
    brittle 9 none { context := { identity := { session := "s" } } }
    (.error (.noTransition "a")) rfl
  refine ⟨hedges, by decide +kernel, fun hreports => ?_, e, done, he, ?_, hdone, houtcome⟩
  · exact absurd ((hexact.1.1 hreports).2 _ List.mem_cons_self rfl) nofun
  · exact hexact.2.2 hedges ⟨_, List.mem_cons_self, rfl, rfl⟩ [] none e he

end Lint

end Workflow
