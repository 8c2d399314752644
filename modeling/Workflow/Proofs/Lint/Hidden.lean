import Workflow.Lint.Checks
import Workflow.Proofs.Engine.Kinds
import Workflow.Proofs.Graph.Search
import Workflow.Sample

/-!
# Kinds that linting does not see

Linting walks through the parameters of an action and knows the kinds of all specifications that
show there. What is hidden it passes over, and yet it is built. So a specification in which linting
finds no unknown kind may still not be built for want of one, but only of one that is concealed.
-/

namespace Workflow.Lint

theorem kindsIn_subset_of_mem {item : Json} {items : List Json} (h : item ∈ items) :
    kindsIn item ⊆ kindsInItems items := by
  induction items with
  | nil => cases h
  | cons first items ih =>
    rw [kindsInItems]
    rcases List.mem_cons.1 h with rfl | h
    · exact List.subset_append_left _ _
    · exact List.subset_append_of_subset_right _ (ih h)

theorem kindsIn_subset_of_get? {key : String} {value : Json} {fields : Table Json}
    (h : fields.get? key = some value) : kindsIn value ⊆ kindsInFields fields := by
  induction fields with
  | nil => cases h
  | cons field fields ih =>
    rw [Table.get?_cons] at h
    rw [kindsInFields]
    split at h
    · cases h
      exact List.subset_append_left _ _
    · exact List.subset_append_of_subset_right _ (ih h)

theorem kindsInParams_eq (fields : Table Json) :
    kindsInParams fields = match fields.get? "params" with
      | some (.object params) => kindsInFields params
      | _ => [] := by
  induction fields with
  | nil => rfl
  | cons field fields ih =>
    obtain ⟨key, value⟩ := field
    unfold kindsInParams
    rw [Table.get?_cons]
    by_cases hkey : key = "params"
    · rw [if_pos hkey, if_pos hkey.symm]
      cases value <;> rfl
    · rw [if_neg hkey, if_neg (Ne.symm hkey), ih]

/-- In an object that is a specification, the kinds are those of the specification. -/
theorem kindsIn_eq_kindsOf {fields : Table Json} {part : ActionSpec}
    (hfinite : (Json.object fields).finite = .object fields)
    (hpart : ActionSpec.ofJson? false (.object fields) = some part) :
    kindsIn (.object fields) = kindsOf part := by
  obtain ⟨hkind, hparams⟩ := ActionSpec.ofJson?_object hpart
  rw [kindsIn, hkind]
  dsimp only
  rw [hpart]
  dsimp only
  rw [kindsInParams_eq, kindsOf]
  rcases hparams with ⟨hget, hnone⟩ | ⟨params, hget, hsome⟩
  · rw [hget, hnone]
    rfl
  · have hparams : (Json.object params).finite = .object params :=
      Json.finite_of_get? (Json.object.inj hfinite) hget
    rw [hget, hsome, Json.object.inj hparams]

theorem kindsOf_subset_kindsIn {slot : Slot} {value : Json} {part : ActionSpec}
    (hfinite : value.finite = value) (h : slot.Shows value part) :
    kindsOf part ⊆ kindsIn value := by
  cases h with
  | alone hpart =>
    rw [kindsIn_eq_kindsOf hfinite hpart]
    exact List.Subset.refl _
  | listed hitem hpart =>
    rw [← kindsIn_eq_kindsOf (Json.finite_of_mem (Json.array.inj hfinite) hitem) hpart, kindsIn]
    exact kindsIn_subset_of_mem hitem
  | @step items table fields _ hstep htype hfield hpart =>
    have htable := Json.finite_of_mem (Json.array.inj hfinite) hstep
    have hobject := Json.finite_of_get? (Json.object.inj htable) hfield
    -- without a `type` of its own the table is walked through like any other object
    have hfields : kindsIn (.object table) = kindsInFields table := by
      rw [kindsIn]
      split
      next text htext => exact absurd htext (htype text)
      · rfl
    rw [← kindsIn_eq_kindsOf hobject hpart]
    refine List.Subset.trans (kindsIn_subset_of_get? hfield) ?_
    rw [← hfields, kindsIn]
    exact kindsIn_subset_of_mem hstep

/-- Linting knows the kinds of each specification that shows, at whatever depth. -/
theorem kindsOf_subset_of_shows {spec part : ActionSpec} (hfinite : spec.Finite)
    (h : Relation.ReflTransGen ActionSpec.Shows spec part) :
    part.Finite ∧ kindsOf part ⊆ kindsOf spec := by
  induction h with
  | refl => exact ⟨hfinite, List.Subset.refl _⟩
  | tail _ hlast ih =>
    obtain ⟨hhost, hsubset⟩ := ih
    obtain ⟨key, value, hvalue, hshows⟩ := hlast
    refine ⟨hshows.finite, List.Subset.trans (fun kind hkind => ?_) hsubset⟩
    exact List.mem_cons_of_mem _ (kindsIn_subset_of_get? hvalue
      (kindsOf_subset_kindsIn (Json.finite_of_get? hhost hvalue) hshows hkind))

variable {registry : Registry} {spec : WorkflowSpec} {state : StateSpec}

theorem mem_lint_of_mem_checkKinds {finding : Finding} (hstate : state ∈ spec.states)
    (h : finding ∈ checkKinds registry state) : finding ∈ lint (some registry) spec := by
  have hcheck : finding ∈ checkState spec (some registry) state :=
    List.mem_append_right _ (List.mem_flatMap.2 ⟨registry, List.mem_singleton_self _, h⟩)
  have hstates : finding ∈ spec.states.flatMap (checkState spec (some registry)) :=
    List.mem_flatMap.2 ⟨state, hstate, hcheck⟩
  exact List.mem_append_left _ (List.mem_append_left _ (List.mem_append_right _ hstates))

/-- Where linting finds no unknown kind, the kinds of the states are known. -/
theorem hasState_of_lint
    (hlint : ∀ finding ∈ lint (some registry) spec, finding.code ≠ .unknownType)
    (hstate : state ∈ spec.states) : registry.hasState state.kind = true := by
  by_contra hunknown
  have hfinding : stateKindFinding registry state ∈ checkKinds registry state := by
    rw [checkKinds, when, Bool.eq_false_of_not_eq_true hunknown]
    exact List.mem_append_left _ (List.mem_singleton_self _)
  exact hlint _ (mem_lint_of_mem_checkKinds hstate hfinding) rfl

/-- Where linting finds no unknown kind, the kinds of all actions that it knows of are known. -/
theorem hasAction_of_lint
    (hlint : ∀ finding ∈ lint (some registry) spec, finding.code ≠ .unknownType)
    (hstate : state ∈ spec.states) {action : ActionSpec} (haction : action ∈ state.actions)
    {kind : String} (hkind : kind ∈ kindsOf action) : registry.hasAction kind = true := by
  by_contra hunknown
  have hmem : kind ∈ unknownKinds registry state := by
    refine mem_dedup.2 (List.mem_filter.2 ⟨List.mem_flatMap.2 ⟨action, haction, hkind⟩, ?_⟩)
    rw [Bool.eq_false_of_not_eq_true hunknown]
    rfl
  exact hlint _ (mem_lint_of_mem_checkKinds hstate
    (List.mem_append_right _ (List.mem_map_of_mem hmem))) rfl

/-- If a specification in which linting finds no unknown kind cannot be built for want of one, then
this is a kind of action, and an action of that kind is concealed in one of an action state. -/
theorem concealed_of_unknownType {hooks : List Hook} {maxSteps : Option Nat} {spec : WorkflowSpec}
    {category kind : String} (hfinite : spec.Finite)
    (hlint : ∀ finding ∈ lint (some .builtins) spec, finding.code ≠ .unknownType)
    (h : (Engine.ofSpec .builtins hooks maxSteps spec).2 = .error (.unknownType category kind)) :
    category = "action" ∧ Registry.builtins.hasAction kind = false ∧
      ∃ state ∈ spec.states, state.kind = "action" ∧ ∃ action ∈ state.actions, ∃ part,
        action.Conceals part ∧ part.kind = kind := by
  obtain ⟨state, hstate, hlacks⟩ := Engine.wants_ofSpec hooks maxSteps spec category kind h
  rcases hlacks with ⟨-, hunknown, rfl⟩ | ⟨hkind, action, haction, hlacks⟩
  · rw [hasState_of_lint hlint hstate] at hunknown
    cases hunknown
  · obtain ⟨hcategory, hunknown, part, hnests, rfl⟩ := hlacks
    refine ⟨hcategory, hunknown, state, hstate, hkind, action, haction, part, ?_, rfl⟩
    rcases hnests.shown_or_conceals with hshown | hconceals
    · obtain ⟨-, hkinds⟩ := kindsOf_subset_of_shows (hfinite state hstate action haction) hshown
      rw [hasAction_of_lint hlint hstate haction (hkinds List.mem_cons_self)] at hunknown
      cases hunknown
    · exact hconceals

def lone (action : ActionSpec) : WorkflowSpec :=
  { name := "hidden", initialState := "a", finalStates := ["b"]
    states := [{ name := "a", actions := [action] }, Sample.finalState "b"]
    transitions := [{ origin := "a", target := "b" }] }

def positional (kind : String) : ActionSpec :=
  { kind := "sequence", params := [("actions", .array [.array [kind]])] }

def typed (kind : String) : ActionSpec :=
  { kind := "progressive"
    params := [("steps", .array [.object
      [("action", .object [("type", kind)]), ("type", "noop")]])] }

theorem concealed_of_unknownType_positional :
    (lone (positional "teleport")).Finite ∧
      (∀ finding ∈ lint (some .builtins) (lone (positional "teleport")),
        finding.code ≠ .unknownType) ∧
      (Engine.ofSpec .builtins [] none (lone (positional "teleport"))).2 =
        .error (.unknownType "action" "teleport") ∧
      ∃ state ∈ (lone (positional "teleport")).states, state.kind = "action" ∧
        ∃ action ∈ state.actions, ∃ part, action.Conceals part ∧ part.kind = "teleport" := by
  have hfinite : (lone (positional "teleport")).Finite :=
    List.forall_mem_cons.2 ⟨List.forall_mem_singleton.2 rfl,
      List.forall_mem_singleton.2 (List.forall_mem_nil _)⟩
  have hclean : lint (some .builtins) (lone (positional "teleport")) = [] := by decide +kernel
  have hlint : ∀ finding ∈ lint (some .builtins) (lone (positional "teleport")),
      finding.code ≠ .unknownType := by
    rw [hclean]
    exact List.forall_mem_nil _
  have hbuild : (Engine.ofSpec .builtins [] none (lone (positional "teleport"))).2 =
      .error (.unknownType "action" "teleport") := rfl
  exact ⟨hfinite, hlint, hbuild, (concealed_of_unknownType hfinite hlint hbuild).2.2⟩

example : lint (some .builtins) (lone (typed "teleport")) = [] := by decide +kernel

example : (Engine.ofSpec .builtins [] none (lone (typed "teleport"))).2 =
    .error (.unknownType "action" "teleport") := rfl

end Workflow.Lint
