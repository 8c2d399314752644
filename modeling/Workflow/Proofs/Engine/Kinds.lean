import Workflow.Proofs.Engine.Buildable
import Workflow.Proofs.Registry.Nested

/-!
# Kinds that a specification lacks

When a specification cannot be built because a kind is unknown, then one of its states is of that
kind, or an action of that kind is nested in one of its action states. Validation and the reading of
conditions fail for other reasons only, and the checks of the draft do not fail at all.
-/

namespace Workflow

/-- The kind of the state is not a built-in one; or the state is one of actions, and one of them
lacks a kind. -/
def StateSpec.Lacks (state : StateSpec) (category kind : String) : Prop :=
  category = "state" ∧ Registry.builtins.hasState kind = false ∧ state.kind = kind ∨
    state.kind = "action" ∧ ∃ action ∈ state.actions, action.Lacks category kind

namespace Registry

variable {state : StateSpec}

theorem wants_stateKind? {fuel : Nat} :
    Wants state.Lacks (builtins.stateKind? (fuel + 1) state.kind) := by
  rw [stateKind?]
  split
  next other halias => exact absurd halias not_alias_of_get?
  · exact wants_ok _
  next hunknown =>
    refine wants_error ?_
    rintro _ _ ⟨⟩
    exact .inl ⟨rfl, by rw [hasState, Table.has, hunknown]; rfl, rfl⟩

theorem wants_buildState : Wants state.Lacks (builtins.buildState state) := by
  refine wants_stateKind?.bind fun meaning hmeaning => ?_
  rcases stateKind?_builtins hmeaning with ⟨hkind, rfl⟩ | ⟨-, rfl⟩ | ⟨-, rfl⟩
  · have hactions : Wants state.Lacks (builtins.buildActions state.actions) :=
      wants_mapM fun action haction => (wants_buildAction action).imp fun _ _ h =>
        .inr ⟨hkind, action, haction, h⟩
    refine hactions.bind fun actions _ => ?_
    split
    · exact wants_error nofun
    · exact wants_ok _
    · exact wants_ok _
  · exact Params.wants_condition?.bind fun _ _ => Params.wants_optional.bind fun _ _ =>
      Params.wants_optional.bind fun _ _ => wants_ok _
  · exact wants_ok _

end Registry

namespace WorkflowSpec

variable {Q : String → String → Prop} {spec : WorkflowSpec}

theorem wants_ensure {condition : Bool} {violation : Violation} {message : String} :
    Wants Q (ensure condition (.invalid violation message)) := by
  cases condition with
  | false => exact wants_error nofun
  | true => exact wants_ok ()

theorem wants_checkNames (seen : List String) (states : List StateSpec) :
    Wants Q (checkNames seen states) := by
  induction states generalizing seen with
  | nil => exact wants_ok ()
  | cons state states ih =>
    exact wants_ensure.bind fun _ _ => wants_ensure.bind fun _ _ => ih _

theorem wants_checkFinals (names : List String) : Wants Q (spec.checkFinals names) := by
  induction names with
  | nil => exact wants_ok ()
  | cons name names ih => exact wants_ensure.bind fun _ _ => ih

theorem wants_checkTransitions (edges : List EdgeSpec) :
    Wants Q (spec.checkTransitions edges) := by
  induction edges with
  | nil => exact wants_ok ()
  | cons edge edges ih => exact wants_ensure.bind fun _ _ => wants_ensure.bind fun _ _ => ih

theorem wants_checkStates (states : List StateSpec) : Wants Q (spec.checkStates states) := by
  induction states with
  | nil => exact wants_ok ()
  | cons state states ih =>
    refine Wants.bind (wants_ensure.bind fun _ _ => ?_) fun _ _ => ih
    split
    · exact wants_ok ()
    · exact wants_ensure

theorem wants_validate : Wants Q spec.validate :=
  (wants_ensure.bind fun _ _ => wants_ensure).bind fun _ _ =>
    (wants_checkNames _ _).bind fun _ _ => wants_ensure.bind fun _ _ =>
      (wants_checkFinals _).bind fun _ _ => (wants_checkTransitions _).bind fun _ _ =>
        wants_checkStates _

end WorkflowSpec

theorem Transition.wants_ofText {Q : String → String → Prop} {origin target text : String} :
    Wants Q (ofText origin target text) := by
  have hparse : Wants Q (Condition.parse text) := wants_parse text
  unfold ofText
  generalize Condition.parse text = parsed at hparse ⊢
  cases parsed with
  | error fault => exact wants_error fun category kind heq => hparse category kind (congrArg _ heq)
  | ok c => exact wants_ok _

/-- A specification cannot be built for want of a kind only if one of its states lacks it. -/
theorem Engine.wants_ofSpec (hooks : List Hook) (maxSteps : Option Nat) (spec : WorkflowSpec) :
    Wants (fun category kind => ∃ state ∈ spec.states, state.Lacks category kind)
      (ofSpec .builtins hooks maxSteps spec).2 := by
  rw [ofSpec_eq_bind]
  refine Wants.bind ?_ fun d hd => ?_
  · refine WorkflowSpec.wants_validate.bind fun _ _ => ?_
    refine (wants_foldlM (fun state hstate d => ?_) _).bind fun d _ => ?_
    · refine (Registry.wants_buildState.imp fun _ _ h => ⟨state, hstate, h⟩).bind fun _ _ => ?_
      exact wants_ok _
    · exact wants_foldlM (fun edge _ d => Transition.wants_ofText.bind fun _ _ => wants_ok _) _
  · obtain ⟨e, he⟩ := Draft.exists_build_of_ofSpec hd
    rw [he]
    exact wants_ok e

end Workflow
