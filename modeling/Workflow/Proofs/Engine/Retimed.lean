import Workflow.Proofs.Engine.Assembly
import Workflow.Proofs.Registry.Retimed

/-!
# Engines from specifications that differ in times

If an engine can be built from a specification, then it can also be built when the delays and the
backoffs of fixed retries are replaced by others. The two engines have the same edges, final states
and error targets, and their states differ in times only.
-/

namespace Workflow

inductive State.Retimed : State → State → Prop
  | perform (name : String) {action action' : Action} (h : action.Retimed action') :
      Retimed ⟨name, .perform action⟩ ⟨name, .perform action'⟩
  | same (state : State) : Retimed state state

inductive StateSpec.Retimed (spec : StateSpec) : StateSpec → Prop
  | intro {actions : List ActionSpec} (h : List.Forall₂ ActionSpec.Retimed spec.actions actions) :
      Retimed spec { spec with actions }

inductive WorkflowSpec.Retimed (spec : WorkflowSpec) : WorkflowSpec → Prop
  | intro {states : List StateSpec} (h : List.Forall₂ StateSpec.Retimed spec.states states) :
      Retimed spec { spec with states }

inductive Draft.Retimed (d : Draft) : Draft → Prop
  | intro {states : List State} (h : List.Forall₂ State.Retimed d.states states) :
      Retimed d { d with states }

inductive Engine.Retimed (e : Engine) : Engine → Prop
  | intro {states : Table State}
      (h : ∀ name, Option.Rel State.Retimed (e.states.get? name) (states.get? name)) :
      Retimed e { e with states }

namespace Registry

theorem mirrors_buildActionState {spec spec' : StateSpec} (h : spec.Retimed spec') :
    Mirrors State.Retimed (builtins.buildActionState spec) (builtins.buildActionState spec') := by
  obtain ⟨h⟩ := h
  refine (mirrors_mapM h fun _ _ => mirrors_buildAction).bind fun actions actions' hactions => ?_
  cases hactions with
  | nil => exact mirrors_error _ _
  | cons haction hrest =>
    cases hrest with
    | nil => exact mirrors_ok (.perform _ haction)
    | cons hnext hrest =>
      exact mirrors_ok (.perform _ (.sequence _ (.cons haction (.cons hnext hrest))))

theorem mirrors_buildState {spec spec' : StateSpec} (h : spec.Retimed spec') :
    Mirrors State.Retimed (builtins.buildState spec) (builtins.buildState spec') := by
  have haction := mirrors_buildActionState h
  obtain ⟨h⟩ := h
  have hsame : ∀ build : Except Fault State, Mirrors State.Retimed build build := fun build =>
    fun state hstate => ⟨state, hstate, .same state⟩
  refine .bind_eq rfl fun meaning => ?_
  cases meaning with
  | action => exact haction
  | conditional | final | verdict | «alias» => exact hsame _

end Registry

namespace WorkflowSpec

theorem names_of_retimed {states states' : List StateSpec}
    (h : List.Forall₂ StateSpec.Retimed states states') :
    states'.map StateSpec.name = states.map StateSpec.name := by
  induction h with
  | nil => rfl
  | cons hstate _ ih =>
    obtain ⟨-⟩ := hstate
    rw [List.map_cons, List.map_cons, ih]

theorem stateNames_of_retimed {spec spec' : WorkflowSpec} (h : spec.Retimed spec') :
    spec'.stateNames = spec.stateNames := by
  obtain ⟨hstates⟩ := h
  exact names_of_retimed hstates

theorem Valid.retimed {spec spec' : WorkflowSpec} (h : spec.Valid) (hr : spec.Retimed spec') :
    spec'.Valid := by
  have hnames := stateNames_of_retimed hr
  obtain ⟨hstates⟩ := hr
  have hback := exists_right_of_forall₂ hstates.flip
  refine
    { name := h.name
      initialName := h.initialName
      names := ?_
      distinct := ?_
      initial := ?_
      finals := ?_
      edges := ?_
      actions := fun state' hstate' hkind hempty => ?_
      errorTargets := fun state' hstate' target htarget => ?_ }
  · rw [hnames]
    exact h.names
  · rw [hnames]
    exact h.distinct
  · rw [hnames]
    exact h.initial
  · rw [hnames]
    exact h.finals
  · rw [hnames]
    exact h.edges
  · obtain ⟨state, hstate, ⟨hactions⟩⟩ := hback state' hstate'
    dsimp only at hempty
    subst hempty
    exact h.actions state hstate hkind (List.forall₂_nil_right_iff.1 hactions)
  · obtain ⟨state, hstate, ⟨-⟩⟩ := hback state' hstate'
    rw [hnames]
    exact h.errorTargets state hstate target htarget

end WorkflowSpec

namespace Draft

variable {d d' : Draft}

theorem mirrors_addSpecified (h : d.Retimed d') {spec spec' : StateSpec}
    (hspec : spec.Retimed spec') :
    Mirrors Retimed (addSpecified .builtins d spec) (addSpecified .builtins d' spec') := by
  have hsame : spec'.name = spec.name ∧ spec'.timeout? = spec.timeout? ∧
      spec'.onError = spec.onError := by
    obtain ⟨-⟩ := hspec
    exact ⟨rfl, rfl, rfl⟩
  obtain ⟨hname, htimeout, honError⟩ := hsame
  refine (Registry.mirrors_buildState hspec).bind fun state state' hstate => mirrors_ok ?_
  obtain ⟨hstates⟩ := h
  have hmore : List.Forall₂ State.Retimed (d.states ++ [state]) (_ ++ [state']) :=
    List.rel_append hstates (.cons hstate .nil)
  rw [hname, htimeout, honError]
  cases spec.timeout? with
  | none | some limit =>
    cases spec.onError with
    | none | some target => exact ⟨hmore⟩

theorem mirrors_ofSpec {hooks : List Hook} {maxSteps : Option Nat} {spec spec' : WorkflowSpec}
    (h : spec.Retimed spec') :
    Mirrors Retimed (ofSpec .builtins hooks maxSteps spec)
      (ofSpec .builtins hooks maxSteps spec') := by
  have hvalid : Mirrors (fun _ _ => True) spec.validate spec'.validate := by
    intro _ hvalid
    exact ⟨(), spec'.validate_eq_ok.2 ((spec.validate_eq_ok.1 hvalid).retimed h), trivial⟩
  obtain ⟨hstates⟩ := h
  refine hvalid.bind fun _ _ _ => ?_
  have hadd : ∀ (d d' : Draft) (s s' : StateSpec), d.Retimed d' → s.Retimed s' →
      Mirrors Retimed (addSpecified .builtins d s) (addSpecified .builtins d' s') :=
    fun _ _ _ _ h hs => mirrors_addSpecified h hs
  refine (mirrors_foldlM hstates hadd (.intro .nil)).bind ?_
  rintro withStates _ ⟨hstates⟩
  rw [foldl_addFinal, foldl_addFinal]
  refine mirrors_foldlM (List.forall₂_same.2 fun _ _ => rfl) ?_ (.intro hstates)
  rintro d _ edge _ ⟨hstates⟩ rfl
  exact .bind_eq rfl fun _ => mirrors_ok (.intro hstates)

theorem isFinal_of_retimed {state state' : State} (h : state.Retimed state') :
    state'.isFinal = state.isFinal ∧ state'.name = state.name := by
  cases h <;> exact ⟨rfl, rfl⟩

theorem Retimed.finalNames_eq (h : d.Retimed d') : d'.finalNames = d.finalNames := by
  obtain ⟨hstates⟩ := h
  have hends : ∀ {states states' : List State}, List.Forall₂ State.Retimed states states' →
      (states'.filter State.isFinal).map State.name =
        (states.filter State.isFinal).map State.name := by
    intro states states' h
    induction h with
    | nil => rfl
    | cons hstate _ ih =>
      obtain ⟨hfinal, hname⟩ := isFinal_of_retimed hstate
      rw [List.filter_cons, List.filter_cons, hfinal]
      split
      · rw [List.map_cons, List.map_cons, hname, ih]
      · exact ih
  unfold finalNames
  rw [hends hstates]

theorem Retimed.references_eq (h : d.Retimed d') : d'.references = d.references := by
  have hfinals := h.finalNames_eq
  obtain ⟨-⟩ := h
  unfold references
  rw [hfinals]

theorem mirrors_stateTable {states states' : List State}
    (h : List.Forall₂ State.Retimed states states') {seen seen' : Table State}
    (hseen : ∀ name, Option.Rel State.Retimed (seen.get? name) (seen'.get? name)) :
    Mirrors (fun table table' => ∀ name,
        Option.Rel State.Retimed (table.get? name) (table'.get? name))
      (stateTable seen states) (stateTable seen' states') := by
  induction h generalizing seen seen' with
  | nil => exact mirrors_ok hseen
  | @cons state state' _ _ hstate _ ih =>
    have hname := (isFinal_of_retimed hstate).2
    have hhas : seen'.has state'.name = seen.has state.name := by
      rw [Table.has, Table.has, hname]
      exact isSome_of_rel (hseen state.name)
    rw [stateTable, stateTable, hhas]
    split
    · exact mirrors_error _ _
    · apply ih
      intro name
      rw [Table.get?_put, Table.get?_put, hname]
      split
      · exact .some hstate
      · exact hseen name

theorem checkNames_congr {states states' : Table State}
    (h : ∀ name, states'.has name = states.has name) (references : List (String × String)) :
    checkNames states' references = checkNames states references := by
  induction references with
  | nil => rfl
  | cons reference references ih =>
    rw [checkNames, checkNames, checkName, checkName, h, ih]

theorem mirrors_build (h : d.Retimed d') : Mirrors Engine.Retimed d.build d'.build := by
  have hfinals := h.finalNames_eq
  have hreferences := h.references_eq
  obtain ⟨hstates⟩ := h
  unfold build
  refine (mirrors_stateTable hstates fun _ => .none).bind fun table table' htable => ?_
  have hhas : ∀ name, table'.has name = table.has name := fun name => by
    exact isSome_of_rel (htable name)
  rw [hreferences, checkNames_congr hhas, hfinals]
  dsimp only
  split
  · exact mirrors_error _ _
  · exact .bind_eq rfl fun _ => mirrors_ok (.intro htable)

end Draft

/-- If an engine can be built from a specification, then an engine can be built from one that
differs in times only, and the two engines differ in times only. -/
theorem Engine.mirrors_ofSpec {hooks : List Hook} {maxSteps : Option Nat}
    {spec spec' : WorkflowSpec}
    (h : spec.Retimed spec') :
    Mirrors Engine.Retimed (ofSpec .builtins hooks maxSteps spec).2
      (ofSpec .builtins hooks maxSteps spec').2 := by
  rw [ofSpec_eq_bind, ofSpec_eq_bind]
  exact (Draft.mirrors_ofSpec h).bind fun _ _ => Draft.mirrors_build

end Workflow
