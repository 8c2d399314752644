import Mathlib.Logic.Relation
import Workflow.Fault.Basic

/-!
# What a fault wraps

A fault wraps its causes, and what they wrap. The list of all this is `Fault.tree`.
-/

namespace Workflow.Fault

variable {fault cause : Fault} {faults : List Fault}

/-- The cause is the fault itself or stands below it at some depth. -/
def Wraps : Fault → Fault → Prop :=
  Relation.ReflTransGen fun fault cause => cause ∈ fault.causes

theorem tree_eq (fault : Fault) : fault.tree = fault :: trees fault.causes := by
  cases fault <;> simp [tree, trees, causes]

theorem mem_trees : cause ∈ trees faults ↔ ∃ fault ∈ faults, cause ∈ fault.tree := by
  induction faults with
  | nil => simp [trees]
  | cons fault faults ih => simp [trees, ih]

theorem sizeOf_lt_of_mem_causes (h : cause ∈ fault.causes) : sizeOf cause < sizeOf fault := by
  cases fault with
  | transition _ _ inner | state _ inner | action _ inner | permanent inner | exhausted _ _ inner =>
    rw [causes, List.mem_singleton] at h
    subst h
    simp only [transition.sizeOf_spec, state.sizeOf_spec, action.sizeOf_spec,
      permanent.sizeOf_spec, exhausted.sizeOf_spec]
    omega
  | aggregate context members =>
    have hmem : cause ∈ members := h
    have hlt := List.sizeOf_lt_of_mem hmem
    simp
    omega
  | _ => cases h

theorem wraps_of_mem_tree {fault cause : Fault} (h : cause ∈ fault.tree) : fault.Wraps cause := by
  rw [tree_eq, List.mem_cons, mem_trees] at h
  rcases h with rfl | ⟨inner, hinner, h⟩
  · exact .refl
  · exact .head hinner (wraps_of_mem_tree h)
termination_by sizeOf fault
decreasing_by exact sizeOf_lt_of_mem_causes hinner

theorem mem_tree : cause ∈ fault.tree ↔ fault.Wraps cause := by
  constructor
  · exact wraps_of_mem_tree
  · intro h
    induction h using Relation.ReflTransGen.head_induction_on with
    | refl =>
      rw [tree_eq]
      exact List.mem_cons_self
    | head hinner _ ih =>
      rw [tree_eq]
      exact List.mem_cons_of_mem _ (mem_trees.2 ⟨_, hinner, ih⟩)

theorem isPermanentFailure_iff :
    fault.isPermanentFailure = true ↔ ∃ cause, fault.Wraps (.permanent cause) := by
  rw [isPermanentFailure, anyCause, List.any_eq_true]
  constructor
  · rintro ⟨inner, hinner, h⟩
    cases inner with
    | permanent cause => exact ⟨cause, mem_tree.1 hinner⟩
    | _ => cases h
  · rintro ⟨cause, h⟩
    exact ⟨.permanent cause, mem_tree.2 h, rfl⟩

end Workflow.Fault
