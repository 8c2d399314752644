import Workflow.Spec.Codec

/-!
# What is read of JSON

The parts of a specification that has been read come from parts of the value that it has been read
from. All numbers among the parameters of its actions are finite, as JSON has no others.
-/

namespace Workflow

namespace Json

theorem finite_of_mem {item : Json} {items : List Json} (h : finiteItems items = items)
    (hmem : item ∈ items) : item.finite = item := by
  induction items with
  | nil => cases hmem
  | cons first items ih =>
    rw [finiteItems, List.cons.injEq] at h
    rcases List.mem_cons.1 hmem with rfl | hmem
    · exact h.1
    · exact ih h.2 hmem

theorem finite_of_get? {key : String} {value : Json} {fields : Table Json}
    (h : finiteFields fields = fields) (hget : fields.get? key = some value) :
    value.finite = value := by
  induction fields with
  | nil => cases hget
  | cons field fields ih =>
    rw [finiteFields, List.cons.injEq, Prod.mk.injEq] at h
    rw [Table.get?_cons] at hget
    split at hget
    · cases hget
      exact h.1.2
    · exact ih h.2 hget

theorem exists_of_items? {α : Type} {decode? : Json → Option α} {value : Json} {results : List α}
    (h : items? decode? value = some results) :
    ∃ items, value = array items ∧
      ∀ result ∈ results, ∃ item ∈ items, decode? item = some result := by
  cases value with
  | array items =>
    refine ⟨items, rfl, ?_⟩
    replace h : items.mapM decode? = some results := h
    induction items generalizing results with
    | nil =>
      cases h
      exact List.forall_mem_nil _
    | cons item items ih =>
      rw [List.mapM_cons] at h
      obtain ⟨first, hfirst, h⟩ := Option.bind_eq_some_iff.1 h
      obtain ⟨rest, hrest, h⟩ := Option.bind_eq_some_iff.1 h
      cases h
      refine List.forall_mem_cons.2 ⟨⟨item, List.mem_cons_self, hfirst⟩, fun result hresult => ?_⟩
      obtain ⟨other, hother, hdecode⟩ := ih hrest result hresult
      exact ⟨other, List.mem_cons_of_mem _ hother, hdecode⟩
  | null | bool | int | float | string | object => cases h

mutual

theorem finite_finite : (value : Json) → value.finite.finite = value.finite
  | null | bool _ | int _ | string _ => rfl
  | float x => by
    by_cases hx : x.isFinite = true
    · rw [finite, if_pos hx, finite, if_pos hx]
    · rw [finite, if_neg hx]
      rfl
  | array items => congrArg array (finiteItems_finiteItems items)
  | object fields => congrArg object (finiteFields_finiteFields fields)

theorem finiteItems_finiteItems : (items : List Json) →
    finiteItems (finiteItems items) = finiteItems items
  | [] => rfl
  | item :: items => by
    rw [finiteItems, finiteItems, finite_finite item, finiteItems_finiteItems items]

theorem finiteFields_finiteFields : (fields : List (String × Json)) →
    finiteFields (finiteFields fields) = finiteFields fields
  | [] => rfl
  | (_, value) :: fields => by
    rw [finiteFields, finiteFields, finite_finite value, finiteFields_finiteFields fields]

end

theorem Record.withDefault?_eq_some {α : Type} {record : Record} {position : Nat} {name : String}
    {decode? : Json → Option α} {default result : α}
    (h : record.withDefault? position name decode? default = some result) :
    record.field? position name = none ∧ result = default ∨
      ∃ value, record.field? position name = some value ∧ decode? value = some result := by
  unfold withDefault? at h
  split at h
  next value hvalue => exact .inr ⟨value, hvalue, h⟩
  next hvalue =>
    cases h
    exact .inl ⟨hvalue, rfl⟩

end Json

namespace ActionSpec

def Finite (spec : ActionSpec) : Prop :=
  Json.finiteFields spec.params = spec.params

theorem finite_of_ofJson? {surplus : Bool} {value : Json} {spec : ActionSpec}
    (h : ofJson? surplus value = some spec) : spec.Finite := by
  obtain ⟨record, -, h⟩ := Option.bind_eq_some_iff.1 h
  obtain ⟨kind, -, h⟩ := Option.bind_eq_some_iff.1 h
  obtain ⟨label, -, h⟩ := Option.bind_eq_some_iff.1 h
  obtain ⟨params, hparams, h⟩ := Option.bind_eq_some_iff.1 h
  cases h
  rcases Json.Record.withDefault?_eq_some hparams with ⟨-, rfl⟩ | ⟨value, -, hparams⟩
  · rfl
  · cases value with
    | object fields =>
      cases hparams
      exact Json.finiteFields_finiteFields fields
    | null | bool | int | float | string | array => cases hparams

/-- What is read of an object under `type` and `params`. -/
theorem ofJson?_object {surplus : Bool} {fields : Table Json} {spec : ActionSpec}
    (h : ofJson? surplus (.object fields) = some spec) :
    fields.get? "type" = some (.string spec.kind) ∧
      (fields.get? "params" = none ∧ spec.params = [] ∨
        ∃ params, fields.get? "params" = some (.object params) ∧
          spec.params = Json.finiteFields params) := by
  obtain ⟨record, hrecord, h⟩ := Option.bind_eq_some_iff.1 h
  cases hrecord
  obtain ⟨kind, hkind, h⟩ := Option.bind_eq_some_iff.1 h
  obtain ⟨label, -, h⟩ := Option.bind_eq_some_iff.1 h
  obtain ⟨params, hparams, h⟩ := Option.bind_eq_some_iff.1 h
  cases h
  constructor
  · obtain ⟨value, hvalue, hstring⟩ := Option.bind_eq_some_iff.1 hkind
    cases value with
    | string text =>
      cases hstring
      exact hvalue
    | null | bool | int | float | array | object => cases hstring
  · refine (Json.Record.withDefault?_eq_some hparams).imp id ?_
    rintro ⟨value, hvalue, htable⟩
    cases value with
    | object params =>
      cases htable
      exact ⟨params, hvalue, rfl⟩
    | null | bool | int | float | string | array => cases htable

end ActionSpec

/-- All numbers among the parameters of the actions are finite, as they are in JSON. -/
def WorkflowSpec.Finite (spec : WorkflowSpec) : Prop :=
  ∀ state ∈ spec.states, ∀ action ∈ state.actions, action.Finite

/-- Specifications that are read are finite. -/
theorem WorkflowSpec.finite_of_ofJson? {surplus : Bool} {value : Json} {spec : WorkflowSpec}
    (h : ofJson? surplus value = some spec) : spec.Finite := by
  obtain ⟨record, -, h⟩ := Option.bind_eq_some_iff.1 h
  obtain ⟨name, -, h⟩ := Option.bind_eq_some_iff.1 h
  obtain ⟨initialState, -, h⟩ := Option.bind_eq_some_iff.1 h
  obtain ⟨finalStates, -, h⟩ := Option.bind_eq_some_iff.1 h
  obtain ⟨settings, -, h⟩ := Option.bind_eq_some_iff.1 h
  obtain ⟨states, hstates, h⟩ := Option.bind_eq_some_iff.1 h
  obtain ⟨transitions, -, h⟩ := Option.bind_eq_some_iff.1 h
  cases h
  intro state hstate action haction
  rcases Json.Record.withDefault?_eq_some hstates with ⟨-, rfl⟩ | ⟨value, -, hread⟩
  · cases hstate
  obtain ⟨items, rfl, hitems⟩ := Json.exists_of_items? hread
  obtain ⟨item, -, h⟩ := hitems state hstate
  obtain ⟨record, -, h⟩ := Option.bind_eq_some_iff.1 h
  obtain ⟨name, -, h⟩ := Option.bind_eq_some_iff.1 h
  obtain ⟨kind, -, h⟩ := Option.bind_eq_some_iff.1 h
  obtain ⟨actions, hactions, h⟩ := Option.bind_eq_some_iff.1 h
  obtain ⟨onError, -, h⟩ := Option.bind_eq_some_iff.1 h
  obtain ⟨timeoutSecs, -, h⟩ := Option.bind_eq_some_iff.1 h
  obtain ⟨params, -, h⟩ := Option.bind_eq_some_iff.1 h
  obtain ⟨metadata, -, h⟩ := Option.bind_eq_some_iff.1 h
  cases h
  rcases Json.Record.withDefault?_eq_some hactions with ⟨-, rfl⟩ | ⟨value, -, hread⟩
  · cases haction
  obtain ⟨items, rfl, hitems⟩ := Json.exists_of_items? hread
  obtain ⟨item, -, h⟩ := hitems action haction
  exact ActionSpec.finite_of_ofJson? h

end Workflow
