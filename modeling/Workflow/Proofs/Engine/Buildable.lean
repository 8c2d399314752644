import Workflow.Proofs.Engine.Outcome
import Workflow.Sample

/-!
# Specifications that can be built

An engine is made in two layers: the specification is validated and its parts are built, and the
draft that comes of it is checked once more. The second check refuses nothing that has passed the
first, so that a specification can be built exactly when it is valid and each of its states and
conditions can be built by itself.
-/

namespace Workflow

theorem Table.mem_of_mem_put {α : Type} {name : String} {value : α} {t : Table α}
    {entry : String × α} (h : entry ∈ t.put name value) : entry = (name, value) ∨ entry ∈ t := by
  induction t with
  | nil => exact .inl (List.mem_singleton.1 h)
  | cons first rest ih =>
    obtain ⟨key, old⟩ := first
    rw [Table.put] at h
    split at h
    · exact (List.mem_cons.1 h).imp_right (List.mem_cons_of_mem _)
    · split at h
      · exact List.mem_cons.1 h
      · rcases List.mem_cons.1 h with rfl | h
        · exact .inr List.mem_cons_self
        · exact (ih h).imp_right (List.mem_cons_of_mem _)

theorem exists_forall₂_iff {α β : Type} {R : α → β → Prop} {as : List α} :
    (∃ bs, List.Forall₂ R as bs) ↔ ∀ a ∈ as, ∃ b, R a b := by
  induction as with
  | nil => exact iff_of_true ⟨[], .nil⟩ (List.forall_mem_nil _)
  | cons a as ih =>
    rw [List.forall_mem_cons, ← ih]
    constructor
    · rintro ⟨_, h⟩
      obtain ⟨b, bs, hab, hrest, -⟩ := List.forall₂_cons_left_iff.1 h
      exact ⟨⟨b, hab⟩, bs, hrest⟩
    · rintro ⟨⟨b, hab⟩, bs, hrest⟩
      exact ⟨b :: bs, .cons hab hrest⟩

theorem Transition.exists_ofText_iff (origin target : String) {text : String} :
    (∃ t, ofText origin target text = .ok t) ↔ ∃ c, Condition.parse text = .ok c := by
  constructor
  · rintro ⟨t, h⟩
    obtain ⟨c, hparse, -⟩ := ofText_eq_ok h
    exact ⟨c, hparse⟩
  · rintro ⟨c, h⟩
    exact ⟨ofCondition origin target c, by rw [ofText, h]; rfl⟩

namespace Draft

variable {r : Registry} {spec : WorkflowSpec} {states : List State} {ts : List Transition}

/-- States of different names fit into a table. -/
theorem exists_stateTable {seen : Table State}
    (hnew : ∀ state ∈ states, seen.has state.name = false)
    (hdistinct : (states.map State.name).Nodup) : ∃ table, stateTable seen states = .ok table := by
  induction states generalizing seen with
  | nil => exact ⟨seen, rfl⟩
  | cons state states ih =>
    obtain ⟨hfirst, hdistinct⟩ := List.nodup_cons.1 hdistinct
    obtain ⟨hseen, hrest⟩ := List.forall_mem_cons.1 hnew
    rw [stateTable, if_neg (Bool.eq_false_iff.1 hseen)]
    apply ih _ hdistinct
    intro other hmem
    have hother : other.name ≠ state.name := fun heq =>
      hfirst (heq ▸ List.mem_map_of_mem hmem)
    rw [Table.has, Table.get?_put_of_ne _ _ hother]
    exact hrest other hmem

theorem has_stateTable {table : Table State} (h : stateTable [] states = .ok table)
    {name : String} : table.has name = true ↔ name ∈ states.map State.name := by
  rw [Table.has, stateTable_eq_ok h, Table.get?_nil, Option.none_or, List.find?_isSome,
    List.mem_map]
  exact exists_congr fun state => and_congr_right fun _ => beq_iff_eq

theorem mem_of_mem_gather {α : Type} {field : StateSpec → Option α} {table : Table α}
    {specs : List StateSpec} {entry : String × α} (h : entry ∈ gather field table specs) :
    entry ∈ table ∨ ∃ spec ∈ specs, spec.name = entry.1 ∧ field spec = some entry.2 := by
  induction specs generalizing table with
  | nil => exact .inl h
  | cons spec specs ih =>
    rcases ih h with h | ⟨other, hmem, hother⟩
    · dsimp only at h
      cases hfield : field spec with
      | none =>
        rw [hfield] at h
        exact .inl h
      | some value =>
        rw [hfield] at h
        rcases Table.mem_of_mem_put h with rfl | h
        · exact .inr ⟨spec, List.mem_cons_self, rfl, hfield⟩
        · exact .inl h
    · exact .inr ⟨other, List.mem_cons_of_mem _ hmem, hother⟩

theorem names_of_built {specs : List StateSpec}
    (h : List.Forall₂ (fun spec state => r.buildState spec = .ok state) specs states) :
    states.map State.name = specs.map StateSpec.name := by
  induction h with
  | nil => rfl
  | cons hstate _ ih => rw [List.map_cons, List.map_cons, Registry.name_of_buildState hstate, ih]

/-- All that the draft of a valid specification refers to is declared. -/
theorem declared_of_mem_references {hooks : List Hook} {maxSteps : Option Nat} (hvalid : spec.Valid)
    (hbuilt : List.Forall₂ (fun spec state => r.buildState spec = .ok state) spec.states states)
    (hedges : List.Forall₂ (fun (edge : EdgeSpec) t =>
      Transition.ofText edge.origin edge.target edge.condition = .ok t) spec.transitions ts) :
    ∀ reference ∈ (filled hooks maxSteps spec states ts).references,
      reference.2 ∈ spec.stateNames := by
  have hfinals : ∀ name ∈ (filled hooks maxSteps spec states ts).finalNames,
      name ∈ spec.stateNames := by
    intro name hname
    rcases mem_finalNames.1 hname with hlisted | ⟨state, hstate, -, rfl⟩
    · exact hvalid.finals name hlisted
    · rw [WorkflowSpec.stateNames, ← names_of_built hbuilt]
      exact List.mem_map_of_mem hstate
  have htransitions : ∀ t ∈ ts, t.origin ∈ spec.stateNames ∧ t.target ∈ spec.stateNames := by
    intro t ht
    obtain ⟨edge, hedge, htext⟩ := exists_right_of_forall₂ hedges.flip t ht
    obtain ⟨c, -, rfl⟩ := Transition.ofText_eq_ok htext
    exact hvalid.edges edge hedge
  have hhandlers : ∀ entry ∈ gather StateSpec.onError [] spec.states,
      entry.1 ∈ spec.stateNames ∧ entry.2 ∈ spec.stateNames := by
    intro entry hentry
    rcases mem_of_mem_gather hentry with h | ⟨state, hstate, hname, htarget⟩
    · cases h
    · rw [← hname]
      exact ⟨List.mem_map_of_mem hstate, hvalid.errorTargets state hstate _ htarget⟩
  intro reference hreference
  rcases List.mem_cons.1 hreference with rfl | hreference
  · exact hvalid.initial
  rcases List.mem_append.1 hreference with hreference | hreference
  · rcases List.mem_append.1 hreference with hreference | hreference
    · obtain ⟨name, hname, rfl⟩ := List.mem_map.1 hreference
      exact hfinals name hname
    · obtain ⟨t, ht, hreference⟩ := List.mem_flatMap.1 hreference
      rcases List.mem_pair.1 hreference with rfl | rfl
      · exact (htransitions t ht).1
      · exact (htransitions t ht).2
  · obtain ⟨entry, hentry, hreference⟩ := List.mem_flatMap.1 hreference
    rcases List.mem_pair.1 hreference with rfl | rfl
    · exact (hhandlers entry hentry).1
    · exact (hhandlers entry hentry).2

/-- What has been put together from a specification passes every check of the draft. -/
theorem exists_build_of_ofSpec {hooks : List Hook} {maxSteps : Option Nat} {d : Draft}
    (h : ofSpec r hooks maxSteps spec = .ok d) : ∃ e, d.build = .ok e := by
  obtain ⟨hvalid, states, ts, hbuilt, hedges, rfl⟩ := ofSpec_eq_ok.1 h
  have hnames : states.map State.name = spec.stateNames := names_of_built hbuilt
  obtain ⟨table, htable⟩ : ∃ table, stateTable [] states = .ok table :=
    exists_stateTable (fun _ _ => rfl) (hnames ▸ hvalid.distinct)
  have hinitial : spec.initialState ≠ "" := by
    intro hempty
    have hblank := hvalid.initialName
    rw [hempty] at hblank
    exact absurd hblank (by decide)
  refine ⟨_, build_eq_ok.2 ⟨table, htable, hinitial, fun reference hreference => ?_, rfl⟩⟩
  rw [has_stateTable htable, hnames]
  exact declared_of_mem_references hvalid hbuilt hedges reference hreference

end Draft

namespace Engine

variable {r : Registry} {hooks : List Hook} {maxSteps : Option Nat} {spec : WorkflowSpec}

theorem exists_ofSpec_iff : (∃ e, (ofSpec r hooks maxSteps spec).2 = .ok e) ↔
    spec.Valid ∧ (∀ state ∈ spec.states, ∃ built, r.buildState state = .ok built) ∧
      ∀ edge ∈ spec.transitions, ∃ c, Condition.parse edge.condition = .ok c := by
  rw [ofSpec_eq_bind]
  constructor
  · rintro ⟨e, he⟩
    obtain ⟨d, hd, -⟩ := bind_eq_ok.1 he
    obtain ⟨hvalid, states, ts, hbuilt, hedges, -⟩ := Draft.ofSpec_eq_ok.1 hd
    refine ⟨hvalid, exists_forall₂_iff.1 ⟨states, hbuilt⟩, fun edge hedge => ?_⟩
    exact (Transition.exists_ofText_iff _ _).1 (exists_forall₂_iff.1 ⟨ts, hedges⟩ edge hedge)
  · rintro ⟨hvalid, hstates, hconditions⟩
    obtain ⟨states, hbuilt⟩ := exists_forall₂_iff.2 hstates
    obtain ⟨ts, hedges⟩ := exists_forall₂_iff.2 fun (edge : EdgeSpec) hedge =>
      (Transition.exists_ofText_iff edge.origin edge.target).2 (hconditions edge hedge)
    have hd : Draft.ofSpec r hooks maxSteps spec = .ok (.filled hooks maxSteps spec states ts) :=
      Draft.ofSpec_eq_ok.2 ⟨hvalid, states, ts, hbuilt, hedges, rfl⟩
    obtain ⟨e, he⟩ := Draft.exists_build_of_ofSpec hd
    exact ⟨e, bind_eq_ok.2 ⟨_, hd, he⟩⟩

/-- Validation leaves nothing for the engine to refuse: a specification can be built exactly when it
is valid and each of its states and conditions can be built; the checks of the draft never fail; and
the final states of the engine are those listed and those of the final kind. -/
theorem validation_complete (maxSteps : Option Nat) (spec : WorkflowSpec) :
    ((∃ e, (ofSpec .builtins hooks maxSteps spec).2 = .ok e) ↔
      spec.validate = .ok () ∧
        (∀ state ∈ spec.states, ∃ built, Registry.builtins.buildState state = .ok built) ∧
        ∀ edge ∈ spec.transitions, ∃ c, Condition.parse edge.condition = .ok c) ∧
      (∀ d, Draft.ofSpec .builtins hooks maxSteps spec = .ok d → ∃ e, d.build = .ok e) ∧
      ∀ e, (ofSpec .builtins hooks maxSteps spec).2 = .ok e →
        ∀ name, name ∈ e.finals ↔ spec.Ends name := by
  refine ⟨?_, fun d hd => Draft.exists_build_of_ofSpec hd, fun e he name => ?_⟩
  · rw [spec.validate_eq_ok]
    exact exists_ofSpec_iff
  · exact (assembled_of_ofSpec he).mem_finals

/-- One final state is listed and another one is of the final kind. -/
theorem validation_complete_linear :
    ∃ e, (ofSpec .builtins [] none { Sample.linear with finalStates := ["b"] }).2 = .ok e ∧
      "b" ∈ e.finals ∧ "c" ∈ e.finals ∧ "a" ∉ e.finals := by
  obtain ⟨-, hbuild, hfinals⟩ :=
    validation_complete none { Sample.linear with finalStates := ["b"] }
  obtain ⟨d, hd⟩ : ∃ d, Draft.ofSpec .builtins [] none { Sample.linear with finalStates := ["b"] } =
      .ok d := ⟨_, rfl⟩
  obtain ⟨e, he⟩ := hbuild d hd
  have hengine :
      (ofSpec .builtins [] none { Sample.linear with finalStates := ["b"] }).2 = .ok e := by
    rw [ofSpec_eq_bind]
    exact bind_eq_ok.2 ⟨d, hd, he⟩
  refine ⟨e, hengine, (hfinals e hengine _).2 (.inl List.mem_cons_self), ?_, ?_⟩
  · exact (hfinals e hengine _).2
      (.inr ⟨Sample.finalState "c", .tail _ (.tail _ (.head _)), rfl, rfl⟩)
  · rw [hfinals e hengine]
    rintro (h | ⟨state, hstate, hname, hkind⟩)
    · exact absurd h (by decide)
    · have hstates : state ∈ [Sample.noopState "a", Sample.noopState "b", Sample.finalState "c"] :=
        hstate
      simp only [List.mem_cons, List.not_mem_nil, or_false] at hstates
      rcases hstates with rfl | rfl | rfl
      · exact absurd hkind (by decide)
      · exact absurd hkind (by decide)
      · exact absurd hname (by decide)

end Engine

end Workflow
