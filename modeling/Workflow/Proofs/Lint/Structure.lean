import Mathlib.Data.List.Nodup
import Mathlib.Data.List.TakeWhile
import Workflow.Lint.Checks
import Workflow.Proofs.Spec.Valid

/-!
# Linting and validity

Validation stops at the first violation, linting reports everything. Apart from blank names, which
linting passes over, a specification is valid exactly when none of its findings is structural.
-/

namespace Workflow

/-- Something is left of a text after trimming exactly when it is not blank. -/
theorem Text.allBlank_eq_false_iff {s : String} : allBlank s = false ↔ trim s.toList ≠ [] := by
  have hblank : trim s.toList = [] ↔ allBlank s = true := by
    rw [trim, trimEnd, trimStart, List.reverse_eq_nil_iff, List.dropWhile_eq_nil_iff, allBlank,
      List.all_eq_true]
    constructor
    · intro hrest c hc
      rw [← List.takeWhile_append_dropWhile (p := isBlank) (l := s.toList)] at hc
      rcases List.mem_append.1 hc with hc | hc
      · exact List.mem_takeWhile_imp hc
      · exact hrest c (List.mem_reverse.2 hc)
    · exact fun hall c hc => hall c ((List.dropWhile_sublist _).subset (List.mem_reverse.1 hc))
  rw [ne_eq, hblank, Bool.not_eq_true]

namespace Lint

/-- Whether the finding is about how the parts of a specification refer to each other: a state is
declared twice, declares no actions, or is referred to and not declared. That there is no final
state at all is not among these findings. -/
def Finding.isStructural (finding : Finding) : Bool :=
  match finding.code with
  | .duplicateState | .missingInitial | .missingEndpoint | .emptyActionState
  | .unknownErrorTarget => true
  | .missingFinal => finding.state.isSome
  | _ => false

def Sound (report : Report) : Prop :=
  ∀ finding ∈ report, finding.isStructural = false

variable {spec : WorkflowSpec} {known : Option Registry} {finding : Finding} {condition : Bool}

theorem sound_append {report other : Report} :
    Sound (report ++ other) ↔ Sound report ∧ Sound other :=
  List.forall_mem_append

theorem sound_flatMap {α : Type} {as : List α} {f : α → Report} :
    Sound (as.flatMap f) ↔ ∀ a ∈ as, Sound (f a) :=
  List.forall_mem_flatMap

theorem sound_map {α : Type} {as : List α} {f : α → Finding}
    (h : ∀ a, (f a).isStructural = false) : Sound (as.map f) := by
  intro finding hmem
  obtain ⟨a, -, rfl⟩ := List.mem_map.1 hmem
  exact h a

theorem sound_when (h : finding.isStructural = false) : Sound (when condition finding) := by
  cases condition with
  | false => exact List.forall_mem_nil _
  | true => exact List.forall_mem_singleton.2 h

theorem sound_when_iff (h : finding.isStructural = true) :
    Sound (when condition finding) ↔ condition = false := by
  cases condition with
  | false => exact iff_of_true (List.forall_mem_nil _) rfl
  | true =>
    refine iff_of_false (fun hsound => ?_) nofun
    rw [hsound finding List.mem_cons_self] at h
    cases h

theorem sound_when_undeclared (h : finding.isStructural = true) {name : String} :
    Sound (when (!spec.declares name) finding) ↔ name ∈ spec.stateNames := by
  rw [sound_when_iff h, Bool.not_eq_false', spec.declares_iff]

theorem sound_checkNames : Sound (checkNames spec) ↔ spec.stateNames.Nodup := by
  have hname : ∀ name, Sound (when (1 < spec.stateNames.count name)
      (duplicateStateFinding name (spec.stateNames.count name)) ++
        when (!isSnakeCase name.toList) (namingFinding name)) ↔
          spec.stateNames.count name ≤ 1 := by
    intro name
    rw [sound_append, sound_when_iff rfl, decide_eq_false_iff_not, Nat.not_lt]
    exact and_iff_left (sound_when rfl)
  rw [checkNames, sound_flatMap, List.nodup_iff_count_le_one]
  constructor
  · intro h name
    by_cases hmem : name ∈ spec.stateNames
    · exact (hname name).1 (h name (mem_dedup.2 hmem))
    · rw [List.count_eq_zero_of_not_mem hmem]
      exact Nat.zero_le 1
  · exact fun h name _ => (hname name).2 (h name)

theorem sound_checkInitial : Sound (checkInitial spec) ↔
    Text.allBlank spec.initialState = false ∧ spec.initialState ∈ spec.stateNames := by
  rw [checkInitial]
  split
  next hblank =>
    rw [hblank]
    exact iff_of_false (fun hsound => nomatch hsound _ List.mem_cons_self) (fun h => nomatch h.1)
  next hblank =>
    rw [sound_when_undeclared rfl, and_iff_right (Bool.eq_false_iff.2 hblank)]

theorem sound_checkFinals :
    Sound (checkFinals spec) ↔ ∀ name ∈ spec.finalStates, name ∈ spec.stateNames := by
  rw [checkFinals, sound_append, and_iff_right (sound_when rfl), sound_flatMap]
  exact forall₂_congr fun name _ => sound_when_undeclared rfl

theorem sound_checkEndpoints : Sound (checkEndpoints spec) ↔ ∀ edge ∈ spec.transitions,
    edge.origin ∈ spec.stateNames ∧ edge.target ∈ spec.stateNames := by
  rw [checkEndpoints, sound_flatMap]
  refine forall₂_congr fun edge _ => ?_
  rw [sound_flatMap, List.forall_mem_cons, List.forall_mem_singleton, sound_when_undeclared rfl,
    sound_when_undeclared rfl]

theorem sound_checkKinds (registry : Registry) (state : StateSpec) :
    Sound (checkKinds registry state) :=
  sound_append.2 ⟨sound_when rfl, sound_map fun _ => rfl⟩

theorem sound_checkState {state : StateSpec} : Sound (checkState spec known state) ↔
    (state.kind = "action" → state.actions ≠ []) ∧
      ∀ target ∈ state.onError, target ∈ spec.stateNames := by
  have hkinds : Sound (known.toList.flatMap (checkKinds · state)) :=
    sound_flatMap.2 fun registry _ => sound_checkKinds registry state
  have hactions : (state.kind == "action" && state.actions.isEmpty) = false ↔
      (state.kind = "action" → state.actions ≠ []) := by
    simp
  rw [checkState, sound_append, sound_append, and_iff_left hkinds, sound_when_iff rfl, hactions,
    sound_flatMap]
  refine and_congr_right fun _ => forall_congr' fun target => ?_
  rw [Option.mem_toList]
  exact imp_congr_right fun _ => sound_when_undeclared rfl

theorem sound_checkEdges (before edges : List EdgeSpec) : Sound (checkEdges spec before edges) := by
  induction edges generalizing before with
  | nil => exact List.forall_mem_nil _
  | cons edge edges ih =>
    refine sound_append.2 ⟨sound_append.2 ⟨sound_append.2 ⟨?_, ?_⟩, ?_⟩, ih _⟩ <;>
      exact sound_when rfl

theorem sound_checkGraph : Sound (checkGraph spec) := by
  have hexit : ∀ graph reachable exits name, Sound (checkExit graph reachable exits name) := by
    intro graph reachable exits name
    unfold checkExit
    split
    · exact List.forall_mem_singleton.2 rfl
    · exact sound_when rfl
  exact sound_append.2 ⟨sound_map fun _ => rfl, sound_flatMap.2 fun name _ => hexit _ _ _ name⟩

/-- A report without structural findings says all that validity does, but for blank names. -/
theorem sound_lint : Sound (lint known spec) ↔
    spec.stateNames.Nodup ∧
      (Text.allBlank spec.initialState = false ∧ spec.initialState ∈ spec.stateNames) ∧
      (∀ name ∈ spec.finalStates, name ∈ spec.stateNames) ∧
      (∀ edge ∈ spec.transitions,
        edge.origin ∈ spec.stateNames ∧ edge.target ∈ spec.stateNames) ∧
      ∀ state ∈ spec.states, (state.kind = "action" → state.actions ≠ []) ∧
        ∀ target ∈ state.onError, target ∈ spec.stateNames := by
  have hgraph : Sound (if spec.declares spec.initialState then checkGraph spec else []) := by
    split
    · exact sound_checkGraph
    · exact List.forall_mem_nil _
  rw [lint, sound_append, and_iff_left hgraph, sound_append, and_iff_left (sound_checkEdges _ _),
    sound_append, sound_append, sound_append, sound_append, sound_checkNames, sound_checkInitial,
    sound_checkFinals, sound_checkEndpoints, sound_flatMap, and_assoc, and_assoc, and_assoc]
  simp only [sound_checkState]

/-- A specification is valid exactly when something is left of its own name and of each of its
states' after trimming, and linting finds no structural error in it, whatever kinds are known. -/
theorem validate_iff_lint (known : Option Registry) (spec : WorkflowSpec) :
    spec.validate = .ok () ↔
      (Text.trim spec.name.toList ≠ [] ∧ ∀ name ∈ spec.stateNames, Text.trim name.toList ≠ []) ∧
      ∀ finding ∈ lint known spec, finding.isStructural = false := by
  simp only [spec.validate_eq_ok, ← Text.allBlank_eq_false_iff]
  refine Iff.trans ?_ (and_congr_right' sound_lint.symm)
  constructor
  · intro h
    exact ⟨⟨h.name, h.names⟩, h.distinct, ⟨h.initialName, h.initial⟩, h.finals, h.edges,
      fun state hmem => ⟨h.actions state hmem, h.errorTargets state hmem⟩⟩
  · rintro ⟨⟨hname, hnames⟩, hdistinct, ⟨hblank, hinitial⟩, hfinals, hedges, hstates⟩
    exact ⟨hname, hblank, hnames, hdistinct, hinitial, hfinals, hedges,
      fun state hmem => (hstates state hmem).1, fun state hmem => (hstates state hmem).2⟩

end Lint

end Workflow
