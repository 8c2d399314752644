import Workflow.Proofs.Graph.Paths
import Workflow.Proofs.Lint.Unreachable

/-!
# One more transition

A transition from a declared state that is added to a specification, wherever it stands among the
others, adds one edge to the graph. A path through the wired graph either avoids this edge, or it
leads to its origin and from its target on, both times without the edge. So the transition takes
reports of unreachable states back and never adds one: if its origin can be reached, exactly the
states to which paths lead from its target are no longer reported, and otherwise nothing changes.
-/

namespace Workflow

section Paths

open Relation

variable {α : Type} {r s : α → α → Prop} {u v a b : α}

/-- Whether a path leads to the end with one more edge, which it may pass. -/
theorem reflTransGen_insert_iff (h : ∀ x y, s x y ↔ r x y ∨ (x = u ∧ y = v)) :
    ReflTransGen s a b ↔ ReflTransGen r a b ∨ (ReflTransGen r a u ∧ ReflTransGen r v b) := by
  have hmono : ∀ {x y}, ReflTransGen r x y → ReflTransGen s x y := fun hpath =>
    ReflTransGen.mono (fun x y hstep => (h x y).2 (.inl hstep)) _ _ hpath
  have hnew : s u v := (h u v).2 (.inr ⟨rfl, rfl⟩)
  constructor
  · intro hpath
    induction hpath with
    | refl => exact .inl .refl
    | @tail x y _ hstep ih =>
      rcases (h x y).1 hstep with hold | ⟨rfl, rfl⟩
      · exact ih.imp (·.tail hold) (And.imp_right (·.tail hold))
      -- the path comes to the origin of the edge, however often it has passed it before
      · exact .inr ⟨ih.elim id And.left, .refl⟩
  · rintro (hold | ⟨hto, hon⟩)
    · exact hmono hold
    · exact ((hmono hto).tail hnew).trans (hmono hon)

end Paths

namespace WorkflowSpec

variable {spec : WorkflowSpec} {edge : EdgeSpec} {transitions : List EdgeSpec} {a b : String}

theorem edge_wired_iff (horigin : edge.origin ∈ spec.stateNames)
    (hwired : transitions.Perm (edge :: spec.transitions)) :
    ({ spec with transitions } : WorkflowSpec).Edge a b ↔
      spec.Edge a b ∨ (a = edge.origin ∧ b = edge.target) := by
  constructor
  · rintro (⟨hedge, hdeclared⟩ | ⟨hstate, htarget⟩)
    · rcases List.mem_cons.1 (hwired.mem_iff.1 hedge) with rfl | hedge
      · exact .inr ⟨rfl, rfl⟩
      · exact .inl (.transition hedge hdeclared)
    · exact .inl (.onError hstate htarget)
  · rintro ((⟨hedge, hdeclared⟩ | ⟨hstate, htarget⟩) | ⟨rfl, rfl⟩)
    · exact .transition (hwired.mem_iff.2 (List.mem_cons_of_mem _ hedge)) hdeclared
    · exact .onError hstate htarget
    · exact .transition (hwired.mem_iff.2 List.mem_cons_self) horigin

end WorkflowSpec

namespace Lint

open Relation

variable {spec : WorkflowSpec} {known : Option Registry} {name : String}

def ReportsUnreachable (known : Option Registry) (spec : WorkflowSpec) (name : String) : Prop :=
  ∃ finding ∈ lint known spec, finding.code = .unreachable ∧ finding.state = some name

theorem reportsUnreachable_iff :
    ReportsUnreachable known spec name ↔
      spec.initialState ∈ spec.stateNames ∧ name ∈ spec.stateNames ∧
        ¬ReflTransGen spec.Edge spec.initialState name := by
  rw [← Graph.mem_unreachableFrom]
  constructor
  · rintro ⟨finding, hmem, hcode, hname⟩
    obtain ⟨hinitial, other, hother, rfl⟩ := mem_unreachableFrom_of_mem_lint hmem hcode
    cases hname
    exact ⟨hinitial, hother⟩
  · rintro ⟨hinitial, hname⟩
    refine ⟨unreachableFinding spec name, ?_, rfl, rfl⟩
    exact (mem_lint_iff_mem_checkGraph (.head _)).2
      ⟨hinitial, List.mem_append_left _ (List.mem_map_of_mem hname)⟩

/-- With a transition from a declared state that is added to a specification, linting still reports
the declared states that cannot be reached, but this only ever takes reports back. If its origin
could be reached before, the reports that are left are those on states to which no path leads from
its target either, so that nothing on a path from the target is reported; if its origin could not be
reached, all reports are left. -/
theorem reportsUnreachable_wired (known : Option Registry) (spec : WorkflowSpec) (edge : EdgeSpec)
    (transitions : List EdgeSpec) (horigin : edge.origin ∈ spec.stateNames)
    (hwired : transitions.Perm (edge :: spec.transitions)) :
    let wired : WorkflowSpec := { spec with transitions }
    (∀ name, ReportsUnreachable known wired name ↔
        spec.initialState ∈ spec.stateNames ∧ name ∈ spec.stateNames ∧
          ¬ReflTransGen wired.Edge spec.initialState name) ∧
      (∀ name, ReportsUnreachable known wired name → ReportsUnreachable known spec name) ∧
      (ReflTransGen spec.Edge spec.initialState edge.origin →
        (∀ name, ReportsUnreachable known wired name ↔
          ReportsUnreachable known spec name ∧ ¬ReflTransGen spec.Edge edge.target name) ∧
        ∀ name, ReflTransGen wired.Edge edge.target name →
          ¬ReportsUnreachable known wired name) ∧
      (¬ReflTransGen spec.Edge spec.initialState edge.origin →
        ∀ name, ReportsUnreachable known wired name ↔ ReportsUnreachable known spec name) := by
  intro wired
  have hedge : ∀ a b, wired.Edge a b ↔ spec.Edge a b ∨ (a = edge.origin ∧ b = edge.target) :=
    fun _ _ => WorkflowSpec.edge_wired_iff horigin hwired
  have hreports : ∀ name, ReportsUnreachable known wired name ↔
      ReportsUnreachable known spec name ∧
        ¬(ReflTransGen spec.Edge spec.initialState edge.origin ∧
          ReflTransGen spec.Edge edge.target name) := by
    intro name
    have hpath := reflTransGen_insert_iff (a := spec.initialState) (b := name) hedge
    rw [reportsUnreachable_iff, reportsUnreachable_iff, and_assoc, and_assoc, ← not_or, ← hpath]
    rfl
  refine ⟨fun _ => reportsUnreachable_iff, fun name h => ((hreports name).1 h).1,
    fun hreached => ⟨fun name => ?_, ?_⟩, ?_⟩
  · rw [hreports, and_iff_right hreached]
  · intro name hon h
    have hto : ReflTransGen wired.Edge spec.initialState edge.target :=
      (reflTransGen_insert_iff hedge).2 (.inr ⟨hreached, .refl⟩)
    exact (reportsUnreachable_iff.1 h).2.2 (hto.trans hon)
  · intro hmissed name
    rw [hreports, and_iff_left fun h => hmissed h.1]

def unwired : WorkflowSpec :=
  (Sample.linear.withState (Sample.noopState "audit")).withTransition
    { origin := "audit", target := "c" }

def auditEdge : EdgeSpec := { origin := "a", target := "audit", condition := "data.audit" }

/-- The state is reported until the first state leads to it. -/
theorem reportsUnreachable_wired_audit :
    ReportsUnreachable (some .builtins) unwired "audit" ∧
      ¬ReportsUnreachable (some .builtins) (unwired.withTransition auditEdge) "audit" := by
  have hmissed : ¬ReflTransGen unwired.Edge unwired.initialState "audit" := by
    rw [← Graph.leads_ofSpec, ← Graph.mem_reachableFrom]
    decide
  have hreported : ReportsUnreachable (some .builtins) unwired "audit" :=
    reportsUnreachable_iff.2 ⟨by decide, by decide, hmissed⟩
  have hwired := reportsUnreachable_wired (some .builtins) unwired auditEdge
    (unwired.transitions ++ [auditEdge]) (by decide) (List.perm_append_singleton _ _)
  exact ⟨hreported, (hwired.2.2.1 .refl).2 "audit" .refl⟩

end Lint

end Workflow
