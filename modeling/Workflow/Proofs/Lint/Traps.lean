import Workflow.Proofs.Graph.Paths
import Workflow.Proofs.Lint.Codes
import Workflow.Proofs.Spec.Valid
import Workflow.Sample

/-!
# Traps

A trap is a state that can be reached and from which no final state can be. In a trap either some
state has no successor, or the successors go round in a cycle: one of the two is always found by
linting. The cycle comes from counting: a state that is not led back to can reach fewer states by
way of a successor than it can itself.
-/

namespace Workflow

namespace Graph

variable {g : Graph} {spec : WorkflowSpec} {state : String}

theorem length_reachableFrom_lt {next : String} (hnext : next ∈ g.successors state)
    (hback : ¬Leads g.successors next state) :
    (g.reachableFrom next).length < (g.reachableFrom state).length := by
  have hnew : state ∉ g.reachableFrom next := by
    rw [mem_reachableFrom]
    exact hback
  have hnodup : (state :: g.reachableFrom next).Nodup :=
    List.nodup_cons.2 ⟨hnew, nodup_reachableFrom⟩
  have hsub : state :: g.reachableFrom next ⊆ g.reachableFrom state := by
    intro name h
    rw [mem_reachableFrom]
    rcases List.mem_cons.1 h with rfl | h
    · exact .refl _
    · exact (Leads.step hnext).trans (mem_reachableFrom.1 h)
  have hlength := (hnodup.subperm hsub).length_le
  rw [List.length_cons] at hlength
  omega

/-- Where every state has a successor, a cycle can be reached. -/
theorem exists_onCycle (hnext : ∀ name, Leads g.successors state name → g.successors name ≠ []) :
    ∃ name, Leads g.successors state name ∧ g.onCycle name = true := by
  induction hn : (g.reachableFrom state).length using Nat.strong_induction_on
    generalizing state with
  | _ n ih =>
    obtain ⟨next, hmem⟩ := List.exists_mem_of_ne_nil _ (hnext state (.refl state))
    by_cases hback : Leads g.successors next state
    · exact ⟨state, .refl state, onCycle_iff.2 ⟨next, hmem, hback⟩⟩
    · have hlt := length_reachableFrom_lt hmem hback
      rw [hn] at hlt
      obtain ⟨name, hname, hcycle⟩ := ih _ hlt
        (fun name hname => hnext name ((Leads.step hmem).trans hname)) rfl
      exact ⟨name, (Leads.step hmem).trans hname, hcycle⟩

theorem closed_ofSpec (hspec : spec.Valid) : (ofSpec spec).Closed := by
  rintro ⟨a, b⟩ h
  rw [mem_states_ofSpec, mem_states_ofSpec]
  rcases mem_edges_ofSpec.1 h with ⟨edge, hedge, rfl, rfl⟩ | ⟨source, hsource, rfl, htarget⟩
  · exact hspec.edges edge hedge
  · have hname : source.name ∈ spec.stateNames := List.mem_map_of_mem hsource
    exact ⟨hname, hspec.errorTargets source hsource b htarget⟩

end Graph

namespace Lint

variable {spec : WorkflowSpec} {known : Option Registry} {finding : Finding} {name : String}

/-- Dead ends and cycles without exit are found state by state, in those that are not final. -/
theorem mem_lint_iff_mem_checkExit (hcode : finding.code ∈ [.deadEnd, .cycleWithoutExit]) :
    finding ∈ lint known spec ↔ spec.initialState ∈ spec.stateNames ∧
      ∃ name ∈ spec.stateNames, name ∉ finalStates spec ∧
        finding ∈ checkExit (Graph.ofSpec spec)
          ((Graph.ofSpec spec).reachableFrom spec.initialState)
          ((Graph.ofSpec spec).canReach (finalStates spec)) name := by
  have hunreachable : finding ∉ ((Graph.ofSpec spec).unreachableFrom spec.initialState).map
      (unreachableFinding spec) := fun hmem => by
    obtain ⟨_, -, rfl⟩ := List.mem_map.1 hmem
    exact absurd hcode (by decide : Code.unreachable ∉ [.deadEnd, .cycleWithoutExit])
  rw [mem_lint_iff_mem_checkGraph (.tail _ hcode), checkGraph, List.mem_append,
    or_iff_right hunreachable, List.mem_flatMap]
  refine and_congr_right fun _ => exists_congr fun name => ?_
  rw [List.mem_filter, Graph.mem_states_ofSpec, Bool.not_eq_true', ← Bool.not_eq_true,
    List.contains_iff_mem, and_assoc]

theorem mem_lint_iff_deadEnd (hcode : finding.code = .deadEnd) :
    finding ∈ lint known spec ↔ spec.initialState ∈ spec.stateNames ∧
      ∃ name ∈ spec.stateNames, name ∉ finalStates spec ∧
        (Graph.ofSpec spec).successors name = [] ∧ finding = deadEndFinding name := by
  rw [mem_lint_iff_mem_checkExit (hcode ▸ .head _)]
  refine and_congr_right fun _ => exists_congr fun name => and_congr_right fun _ =>
    and_congr_right fun _ => ?_
  unfold checkExit
  split
  next hend => rw [List.mem_singleton, and_iff_right (List.isEmpty_iff.1 hend)]
  next hnext =>
    refine iff_of_false (fun hmem => ?_) fun h => hnext (List.isEmpty_iff.2 h.1)
    rw [(mem_when.1 hmem).2] at hcode
    cases hcode

def Trapped (spec : WorkflowSpec) (name : String) : Prop :=
  ∀ final ∈ finalStates spec, ¬Graph.Leads (Graph.ofSpec spec).successors name final

theorem Trapped.leads {other : String} (h : Trapped spec name)
    (hleads : Graph.Leads (Graph.ofSpec spec).successors name other) : Trapped spec other :=
  fun final hfinal hother => h final hfinal (hleads.trans hother)

theorem Trapped.not_final (h : Trapped spec name) : name ∉ finalStates spec :=
  fun hfinal => h name hfinal (.refl name)

theorem Trapped.not_mem_canReach (hspec : spec.Valid) (h : Trapped spec name) :
    name ∉ (Graph.ofSpec spec).canReach (finalStates spec) := by
  rw [(Graph.closed_ofSpec hspec).mem_canReach]
  rintro ⟨final, hfinal, hleads⟩
  exact h final hfinal hleads

theorem deadEnd_mem_lint (hspec : spec.Valid) (hname : name ∈ spec.stateNames)
    (hfinal : name ∉ finalStates spec) (hnext : (Graph.ofSpec spec).successors name = []) :
    deadEndFinding name ∈ lint known spec :=
  (mem_lint_iff_deadEnd rfl).2 ⟨hspec.initial, name, hname, hfinal, hnext, rfl⟩

theorem cycle_mem_lint (hspec : spec.Valid)
    (hreach : Graph.Leads (Graph.ofSpec spec).successors spec.initialState name)
    (htrapped : Trapped spec name) (hcycle : (Graph.ofSpec spec).onCycle name = true) :
    cycleFinding name ∈ lint known spec := by
  have hname : name ∈ spec.stateNames := Graph.mem_states_ofSpec.1
    ((Graph.closed_ofSpec hspec).mem_states (Graph.mem_states_ofSpec.2 hspec.initial) hreach)
  obtain ⟨next, hnext, -⟩ := Graph.onCycle_iff.1 hcycle
  have hsome : ((Graph.ofSpec spec).successors name).isEmpty = false :=
    List.isEmpty_eq_false_iff_exists_mem.2 ⟨next, hnext⟩
  have hexit := htrapped.not_mem_canReach hspec
  rw [← Graph.mem_reachableFrom] at hreach
  refine (mem_lint_iff_mem_checkExit (.tail _ (.head _))).2
    ⟨hspec.initial, name, hname, htrapped.not_final, ?_⟩
  rw [checkExit, hsome]
  simp [when, hreach, hexit, hcycle]

/-- From a trap that can be reached one comes to a state that linting reports, as a dead end or as
one of a cycle without exit. -/
theorem exists_finding_of_trapped (known : Option Registry) (hspec : spec.Valid)
    (hreach : Graph.Leads (Graph.ofSpec spec).successors spec.initialState name)
    (htrapped : Trapped spec name) :
    ∃ other, Graph.Leads (Graph.ofSpec spec).successors name other ∧
      (deadEndFinding other ∈ lint known spec ∨ cycleFinding other ∈ lint known spec) := by
  by_cases hnext : ∀ other, Graph.Leads (Graph.ofSpec spec).successors name other →
      (Graph.ofSpec spec).successors other ≠ []
  · obtain ⟨other, hother, hcycle⟩ := Graph.exists_onCycle hnext
    exact ⟨other, hother,
      .inr (cycle_mem_lint hspec (hreach.trans hother) (htrapped.leads hother) hcycle)⟩
  · push Not at hnext
    obtain ⟨other, hother, hend⟩ := hnext
    have hname : other ∈ spec.stateNames := Graph.mem_states_ofSpec.1
      ((Graph.closed_ofSpec hspec).mem_states (Graph.mem_states_ofSpec.2 hspec.initial)
        (hreach.trans hother))
    exact ⟨other, hother,
      .inl (deadEnd_mem_lint hspec hname (htrapped.leads hother).not_final hend)⟩

/-- A valid specification in which neither a dead end nor a cycle without exit is found has no
trap. -/
theorem final_reachable_of_lint (known : Option Registry) (spec : WorkflowSpec)
    (hspec : spec.validate = .ok ())
    (hend : ∀ finding ∈ lint known spec, finding.code ≠ .deadEnd)
    (hcycle : ∀ finding ∈ lint known spec, finding.code ≠ .cycleWithoutExit) :
    finalStates spec ≠ [] ∧
      ∀ name, Graph.Leads (Graph.ofSpec spec).successors spec.initialState name →
        ∃ final ∈ finalStates spec, Graph.Leads (Graph.ofSpec spec).successors name final := by
  rw [WorkflowSpec.validate_eq_ok] at hspec
  have hexit : ∀ name, Graph.Leads (Graph.ofSpec spec).successors spec.initialState name →
      ∃ final ∈ finalStates spec, Graph.Leads (Graph.ofSpec spec).successors name final := by
    intro name hreach
    by_contra hnone
    have htrapped : Trapped spec name :=
      fun final hfinal hleads => hnone ⟨final, hfinal, hleads⟩
    obtain ⟨other, -, hfound | hfound⟩ := exists_finding_of_trapped known hspec hreach htrapped
    · exact hend _ hfound rfl
    · exact hcycle _ hfound rfl
  obtain ⟨final, hfinal, -⟩ := hexit spec.initialState (.refl _)
  exact ⟨List.ne_nil_of_mem hfinal, hexit⟩

/-- A cycle with an exit is no trap. -/
theorem final_reachable_of_lint_looping :
    ∃ final ∈ finalStates (Sample.linear.withTransition { origin := "b", target := "a" }),
      Graph.Leads (Graph.ofSpec (Sample.linear.withTransition
        { origin := "b", target := "a" })).successors "b" final := by
  have hreach : "b" ∈ (Graph.ofSpec (Sample.linear.withTransition
      { origin := "b", target := "a" })).reachableFrom "a" := by decide +kernel
  exact (final_reachable_of_lint none _ (by rfl) (by decide +kernel) (by decide +kernel)).2 "b"
    (Graph.mem_reachableFrom.1 hreach)

end Lint

end Workflow
