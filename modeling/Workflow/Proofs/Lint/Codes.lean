import Workflow.Lint.Checks
import Workflow.Proofs.Spec.Valid

/-!
# Which check reports what

Each check reports findings of a few codes of its own. So all findings with one code come from one
check: those on names from the check of the names, those on how the states hang together from the
check of the graph, which is made only if the initial state is declared.
-/

namespace Workflow.Lint

variable {spec : WorkflowSpec} {known : Option Registry} {codes others : List Code}
  {report other : Report} {finding : Finding} {condition : Bool}

def Within (codes : List Code) (report : Report) : Prop :=
  ∀ finding ∈ report, finding.code ∈ codes

theorem Within.append (h : Within codes report) (h' : Within codes other) :
    Within codes (report ++ other) :=
  List.forall_mem_append.2 ⟨h, h'⟩

theorem Within.not_mem (h : Within codes report) (hcode : finding.code ∈ others)
    (hdisjoint : ∀ code ∈ codes, code ∉ others) : finding ∉ report :=
  fun hmem => hdisjoint finding.code (h finding hmem) hcode

theorem within_singleton (h : finding.code ∈ codes) : Within codes [finding] :=
  List.forall_mem_singleton.2 h

theorem mem_when {reported : Finding} :
    finding ∈ when condition reported ↔ condition = true ∧ finding = reported := by
  cases condition with
  | false => exact iff_of_false List.not_mem_nil fun h => nomatch h.1
  | true => exact List.mem_singleton.trans (and_iff_right rfl).symm

theorem within_when (h : finding.code ∈ codes) : Within codes (when condition finding) := by
  intro reported hmem
  rw [(mem_when.1 hmem).2]
  exact h

theorem within_flatMap {α : Type} {as : List α} {f : α → Report} (h : ∀ a, Within codes (f a)) :
    Within codes (as.flatMap f) :=
  List.forall_mem_flatMap.2 fun a _ => h a

theorem within_map {α : Type} {as : List α} {f : α → Finding} (h : ∀ a, (f a).code ∈ codes) :
    Within codes (as.map f) :=
  List.forall_mem_map.2 fun a _ => h a

theorem within_checkNames : Within [.duplicateState, .naming] (checkNames spec) :=
  within_flatMap fun _ => (within_when (.head _)).append (within_when (.tail _ (.head _)))

theorem within_checkInitial : Within [.missingInitial] (checkInitial spec) := by
  unfold checkInitial
  split
  · exact within_singleton (.head _)
  · exact within_when (.head _)

theorem within_checkFinals : Within [.missingFinal] (checkFinals spec) :=
  (within_when (.head _)).append (within_flatMap fun _ => within_when (.head _))

theorem within_checkEndpoints : Within [.missingEndpoint] (checkEndpoints spec) :=
  within_flatMap fun _ => within_flatMap fun _ => within_when (.head _)

theorem within_checkStates : Within [.emptyActionState, .unknownErrorTarget, .unknownType]
    (spec.states.flatMap (checkState spec known)) := by
  refine within_flatMap fun state => .append (.append ?_ ?_) ?_
  · exact within_when (.head _)
  · exact within_flatMap fun _ => within_when (.tail _ (.head _))
  · have hunknown : Code.unknownType ∈ [.emptyActionState, .unknownErrorTarget, .unknownType] :=
      .tail _ (.tail _ (.head _))
    exact within_flatMap fun _ => (within_when hunknown).append (within_map fun _ => hunknown)

theorem within_checkEdges (before edges : List EdgeSpec) :
    Within [.invalidCondition, .duplicateTransition, .leavesFinal]
      (checkEdges spec before edges) := by
  induction edges generalizing before with
  | nil => exact List.forall_mem_nil _
  | cons edge edges ih =>
    refine .append (.append (.append ?_ ?_) ?_) (ih _)
    · exact within_when (.head _)
    · exact within_when (.tail _ (.head _))
    · exact within_when (.tail _ (.tail _ (.head _)))

theorem within_checkExits (graph : Graph) (reachable exits names : List String) :
    Within [.deadEnd, .cycleWithoutExit]
      (names.flatMap (checkExit graph reachable exits)) := by
  refine within_flatMap fun name => ?_
  unfold checkExit
  split
  · exact within_singleton (.head _)
  · exact within_when (.tail _ (.head _))

theorem within_checkGraph :
    Within [.unreachable, .deadEnd, .cycleWithoutExit] (checkGraph spec) :=
  .append (within_map fun _ => .head _)
    fun finding hmem => .tail _ (within_checkExits _ _ _ _ finding hmem)

/-- Names are reported as not being in snake case by the check of the names and by no other. -/
theorem mem_lint_iff_mem_checkNames (hcode : finding.code ∈ [.duplicateState, .naming]) :
    finding ∈ lint known spec ↔ finding ∈ checkNames spec := by
  have hgraph : finding ∉ if spec.declares spec.initialState then checkGraph spec else [] := by
    split
    · exact within_checkGraph.not_mem hcode (by decide)
    · exact List.not_mem_nil
  simp only [lint, List.mem_append, hgraph, or_false,
    within_checkInitial.not_mem hcode (by decide), within_checkFinals.not_mem hcode (by decide),
    within_checkEndpoints.not_mem hcode (by decide), within_checkStates.not_mem hcode (by decide),
    (within_checkEdges _ _).not_mem hcode (by decide)]

/-- How the states hang together is reported by the check of the graph and by no other. -/
theorem mem_lint_iff_mem_checkGraph
    (hcode : finding.code ∈ [.unreachable, .deadEnd, .cycleWithoutExit]) :
    finding ∈ lint known spec ↔
      spec.initialState ∈ spec.stateNames ∧ finding ∈ checkGraph spec := by
  have hgraph : (finding ∈ if spec.declares spec.initialState then checkGraph spec else []) ↔
      spec.initialState ∈ spec.stateNames ∧ finding ∈ checkGraph spec := by
    rw [List.mem_ite_nil_right, spec.declares_iff]
  simp only [lint, List.mem_append, hgraph, false_or, within_checkNames.not_mem hcode (by decide),
    within_checkInitial.not_mem hcode (by decide), within_checkFinals.not_mem hcode (by decide),
    within_checkEndpoints.not_mem hcode (by decide), within_checkStates.not_mem hcode (by decide),
    (within_checkEdges _ _).not_mem hcode (by decide)]

end Workflow.Lint
