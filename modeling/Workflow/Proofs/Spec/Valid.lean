import Mathlib.Data.List.Nodup
import Workflow.Spec.Validation

/-!
# Valid specifications

What the checks of a specification amount to: `WorkflowSpec.validate` accepts a specification
exactly when it is `WorkflowSpec.Valid`.
-/

namespace Workflow

variable {α β : Type}

theorem bind_eq_ok {x : Except Fault α} {f : α → Except Fault β} {b : β} :
    (x >>= f) = .ok b ↔ ∃ a, x = .ok a ∧ f a = .ok b := by
  cases x with
  | error fault =>
    constructor
    · intro h
      cases h
    · rintro ⟨a, h, -⟩
      cases h
  | ok a =>
    constructor
    · exact fun h => ⟨a, rfl, h⟩
    · rintro ⟨a', h, hf⟩
      cases h
      exact hf

theorem bind_unit_eq_ok {x : Except Fault Unit} {y : Except Fault β} {b : β} :
    (x >>= fun _ => y) = .ok b ↔ x = .ok () ∧ y = .ok b :=
  bind_eq_ok.trans ⟨fun ⟨_, hx, hy⟩ => ⟨hx, hy⟩, fun ⟨hx, hy⟩ => ⟨(), hx, hy⟩⟩

namespace WorkflowSpec

variable (spec : WorkflowSpec)

theorem ensure_eq_ok {condition : Bool} {fault : Fault} :
    ensure condition fault = .ok () ↔ condition = true := by
  cases condition with
  | true => exact ⟨fun _ => rfl, fun _ => rfl⟩
  | false =>
    constructor
    · intro h
      cases h
    · intro h
      cases h

theorem declares_iff {name : String} : spec.declares name = true ↔ name ∈ spec.stateNames :=
  List.contains_iff_mem

theorem mem_of_state? {name : String} {state : StateSpec} (h : spec.state? name = some state) :
    state ∈ spec.states ∧ state.name = name := by
  obtain ⟨hname, -⟩ := List.find?_eq_some_iff_append.1 h
  exact ⟨List.mem_of_find?_eq_some h, eq_of_beq hname⟩

/-- A state with a name of its own is found wherever it stands. -/
theorem state?_eq_some_iff (hdistinct : spec.stateNames.Nodup) {name : String} {state : StateSpec} :
    spec.state? name = some state ↔ state ∈ spec.states ∧ state.name = name := by
  refine ⟨spec.mem_of_state?, ?_⟩
  rintro ⟨hmem, rfl⟩
  have hfound : (spec.state? state.name).isSome = true :=
    List.find?_isSome.2 ⟨state, hmem, beq_self_eq_true _⟩
  obtain ⟨other, hother⟩ := Option.isSome_iff_exists.1 hfound
  obtain ⟨hmem', hname⟩ := spec.mem_of_state? hother
  rw [hother, List.inj_on_of_nodup_map hdistinct hmem' hmem hname]

structure Valid : Prop where
  name : Text.allBlank spec.name = false
  initialName : Text.allBlank spec.initialState = false
  names : ∀ name ∈ spec.stateNames, Text.allBlank name = false
  distinct : spec.stateNames.Nodup
  initial : spec.initialState ∈ spec.stateNames
  finals : ∀ name ∈ spec.finalStates, name ∈ spec.stateNames
  edges : ∀ edge ∈ spec.transitions, edge.origin ∈ spec.stateNames ∧ edge.target ∈ spec.stateNames
  actions : ∀ state ∈ spec.states, state.kind = "action" → state.actions ≠ []
  errorTargets : ∀ state ∈ spec.states, ∀ target ∈ state.onError, target ∈ spec.stateNames

theorem checkNames_eq_ok {seen : List String} {states : List StateSpec} :
    checkNames seen states = .ok () ↔
      (∀ name ∈ states.map StateSpec.name, Text.allBlank name = false ∧ name ∉ seen) ∧
        (states.map StateSpec.name).Nodup := by
  induction states generalizing seen with
  | nil => simp [checkNames]
  | cons state states ih =>
    have hseen : (!seen.contains state.name) = true ↔ state.name ∉ seen := by simp
    rw [checkNames, bind_unit_eq_ok, bind_unit_eq_ok, ensure_eq_ok, ensure_eq_ok, ih, hseen,
      Bool.not_eq_true', List.map_cons, List.nodup_cons]
    constructor
    · rintro ⟨hblank, hseen, hall, hnodup⟩
      refine ⟨fun name hmem => ?_, fun hmem => (hall _ hmem).2 List.mem_cons_self, hnodup⟩
      rcases List.mem_cons.1 hmem with rfl | hmem
      · exact ⟨hblank, hseen⟩
      · exact ⟨(hall name hmem).1, fun h => (hall name hmem).2 (List.mem_cons_of_mem _ h)⟩
    · rintro ⟨hall, hnew, hnodup⟩
      obtain ⟨hblank, hseen⟩ := hall _ List.mem_cons_self
      refine ⟨hblank, hseen, fun name hmem => ?_, hnodup⟩
      obtain ⟨hblank', hseen'⟩ := hall name (List.mem_cons_of_mem _ hmem)
      refine ⟨hblank', fun h => ?_⟩
      rcases List.mem_cons.1 h with rfl | h
      · exact hnew hmem
      · exact hseen' h

theorem checkFinals_eq_ok {names : List String} :
    spec.checkFinals names = .ok () ↔ ∀ name ∈ names, name ∈ spec.stateNames := by
  induction names with
  | nil => simp [checkFinals]
  | cons name names ih =>
    rw [checkFinals, bind_unit_eq_ok, ensure_eq_ok, declares_iff, ih, List.forall_mem_cons]

theorem checkTransitions_eq_ok {edges : List EdgeSpec} :
    spec.checkTransitions edges = .ok () ↔
      ∀ edge ∈ edges, edge.origin ∈ spec.stateNames ∧ edge.target ∈ spec.stateNames := by
  induction edges with
  | nil => simp [checkTransitions]
  | cons edge edges ih =>
    rw [checkTransitions, bind_unit_eq_ok, bind_unit_eq_ok, checkEndpoint, checkEndpoint,
      ensure_eq_ok, ensure_eq_ok, declares_iff, declares_iff, ih, List.forall_mem_cons, and_assoc]

theorem checkState_eq_ok {state : StateSpec} :
    spec.checkState state = .ok () ↔
      (state.kind = "action" → state.actions ≠ []) ∧
        ∀ target ∈ state.onError, target ∈ spec.stateNames := by
  rw [checkState, bind_unit_eq_ok, ensure_eq_ok]
  have hactions : (!(state.kind == "action" && state.actions.isEmpty)) = true ↔
      (state.kind = "action" → state.actions ≠ []) := by
    simp [Classical.or_iff_not_imp_left]
  rw [hactions]
  cases state.onError with
  | none => simp
  | some target =>
    rw [ensure_eq_ok, declares_iff]
    simp

theorem checkStates_eq_ok {states : List StateSpec} :
    spec.checkStates states = .ok () ↔ ∀ state ∈ states,
      (state.kind = "action" → state.actions ≠ []) ∧
        ∀ target ∈ state.onError, target ∈ spec.stateNames := by
  induction states with
  | nil => simp [checkStates]
  | cons state states ih =>
    rw [checkStates, bind_unit_eq_ok, checkState_eq_ok, ih, List.forall_mem_cons]

theorem validate_eq_ok : spec.validate = .ok () ↔ spec.Valid := by
  rw [validate, bind_unit_eq_ok, bind_unit_eq_ok, bind_unit_eq_ok, bind_unit_eq_ok, bind_unit_eq_ok,
    checkHeader, bind_unit_eq_ok, ensure_eq_ok, ensure_eq_ok, ensure_eq_ok, checkNames_eq_ok,
    checkFinals_eq_ok, checkTransitions_eq_ok, checkStates_eq_ok, declares_iff,
    Bool.not_eq_true', Bool.not_eq_true']
  constructor
  · rintro ⟨⟨hname, hinitial⟩, ⟨hnames, hnodup⟩, hdeclared, hfinals, hedges, hstates⟩
    exact ⟨hname, hinitial, fun name hmem => (hnames name hmem).1, hnodup, hdeclared, hfinals,
      hedges, fun state hmem => (hstates state hmem).1, fun state hmem => (hstates state hmem).2⟩
  · intro h
    exact ⟨⟨h.name, h.initialName⟩, ⟨fun name hmem => ⟨h.names name hmem, List.not_mem_nil⟩,
      h.distinct⟩, h.initial, h.finals, h.edges,
      fun state hmem => ⟨h.actions state hmem, h.errorTargets state hmem⟩⟩

end WorkflowSpec

end Workflow
