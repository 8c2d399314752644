import Workflow.Engine.Assembly
import Workflow.Proofs.Spec.Valid
import Mathlib.Data.List.Forall2

/-!
# What an engine takes over from its specification

`Engine.Assembled` relates an engine to the specification that it has been built from: the states by
their names, the edges in their order, the final states and the error targets. Everything that the
engine refers to is declared.
-/

namespace Workflow

theorem exists_right_of_forall₂ {α β : Type} {R : α → β → Prop} {as : List α} {bs : List β}
    (h : List.Forall₂ R as bs) : ∀ a ∈ as, ∃ b ∈ bs, R a b := by
  induction h with
  | nil => exact fun _ hmem => by cases hmem
  | cons hab _ ih =>
    intro a hmem
    rcases List.mem_cons.1 hmem with rfl | hmem
    · exact ⟨_, List.mem_cons_self, hab⟩
    · obtain ⟨b, hb, hr⟩ := ih a hmem
      exact ⟨b, List.mem_cons_of_mem _ hb, hr⟩

namespace Registry

variable {r : Registry} {spec : StateSpec} {state : State}

theorem state_of_get? {kind : String} {meaning : StateKind}
    (h : builtins.states.get? kind = some meaning) :
    kind = "action" ∧ meaning = .action ∨ kind = "conditional" ∧ meaning = .conditional ∨
      kind = "final" ∧ meaning = .final := by
  have hstates : builtins.states =
      [("action", .action), ("conditional", .conditional), ("final", .final)] := by decide
  rw [hstates, Table.get?_cons, Table.get?_cons, Table.get?_cons, Table.get?_nil] at h
  by_cases haction : kind = "action"
  · rw [if_pos haction] at h
    cases h
    exact .inl ⟨haction, rfl⟩
  · rw [if_neg haction] at h
    by_cases hconditional : kind = "conditional"
    · rw [if_pos hconditional] at h
      cases h
      exact .inr (.inl ⟨hconditional, rfl⟩)
    · rw [if_neg hconditional] at h
      by_cases hfinal : kind = "final"
      · rw [if_pos hfinal] at h
        cases h
        exact .inr (.inr ⟨hfinal, rfl⟩)
      · rw [if_neg hfinal] at h
        cases h

/-- No built-in kind of state is another name of a kind. -/
theorem not_alias_of_get? {kind other : String} :
    builtins.states.get? kind ≠ some (.alias other) := by
  intro h
  rcases state_of_get? h with ⟨-, h⟩ | ⟨-, h⟩ | ⟨-, h⟩ <;> cases h

theorem stateKind?_builtins {fuel : Nat} {kind : String} {meaning : StateKind}
    (h : builtins.stateKind? fuel kind = .ok meaning) :
    kind = "action" ∧ meaning = .action ∨ kind = "conditional" ∧ meaning = .conditional ∨
      kind = "final" ∧ meaning = .final := by
  cases fuel with
  | zero => cases h
  | succ fuel =>
    rw [stateKind?] at h
    split at h
    next other halias => exact absurd halias not_alias_of_get?
    next hget =>
      cases h
      exact state_of_get? hget
    · cases h

theorem buildActionState_eq_ok (h : r.buildActionState spec = .ok state) :
    ∃ action, state = ⟨spec.name, .perform action⟩ := by
  obtain ⟨actions, -, h⟩ := bind_eq_ok.1 h
  split at h
  · cases h
  · cases h
    exact ⟨_, rfl⟩
  · cases h
    exact ⟨_, rfl⟩

theorem buildConditionalState_eq_ok (h : buildConditionalState spec = .ok state) :
    ∃ test yes no, state = ⟨spec.name, .route test yes no⟩ := by
  obtain ⟨test, -, h⟩ := bind_eq_ok.1 h
  obtain ⟨yes, -, h⟩ := bind_eq_ok.1 h
  obtain ⟨no, -, h⟩ := bind_eq_ok.1 h
  cases h
  exact ⟨test, yes, no, rfl⟩

theorem name_of_buildState (h : r.buildState spec = .ok state) : state.name = spec.name := by
  obtain ⟨meaning, -, h⟩ := bind_eq_ok.1 h
  cases meaning with
  | action =>
    obtain ⟨action, rfl⟩ := buildActionState_eq_ok h
    rfl
  | conditional =>
    obtain ⟨test, yes, no, rfl⟩ := buildConditionalState_eq_ok h
    rfl
  | final =>
    cases h
    rfl
  | verdict =>
    obtain ⟨next, -, h⟩ := bind_eq_ok.1 h
    obtain ⟨complete, -, h⟩ := bind_eq_ok.1 h
    cases h
    rfl
  | «alias» kind => cases h

/-- The task of a state as its built-in kind says. -/
theorem task_of_buildState (h : builtins.buildState spec = .ok state) :
    spec.kind = "action" ∧ (∃ action, state.task = .perform action) ∨
      spec.kind = "conditional" ∧ (∃ test yes no, state.task = .route test yes no) ∨
        spec.kind = "final" ∧ state.task = .stop := by
  obtain ⟨meaning, hkind, h⟩ := bind_eq_ok.1 h
  rcases stateKind?_builtins hkind with ⟨hk, rfl⟩ | ⟨hk, rfl⟩ | ⟨hk, rfl⟩
  · obtain ⟨action, rfl⟩ := buildActionState_eq_ok h
    exact .inl ⟨hk, action, rfl⟩
  · obtain ⟨test, yes, no, rfl⟩ := buildConditionalState_eq_ok h
    exact .inr (.inl ⟨hk, test, yes, no, rfl⟩)
  · cases h
    exact .inr (.inr ⟨hk, rfl⟩)

end Registry

namespace Transition

theorem ofText_eq_ok {origin target text : String} {t : Transition}
    (h : ofText origin target text = .ok t) :
    ∃ c, Condition.parse text = .ok c ∧ t = ofCondition origin target c := by
  unfold ofText at h
  cases hparse : Condition.parse text with
  | error fault =>
    rw [hparse] at h
    cases h
  | ok c =>
    rw [hparse] at h
    cases h
    exact ⟨c, rfl, rfl⟩

/-- An edge with a condition is open exactly when the condition is met. -/
theorem isOpen_ofCondition (origin target : String) (c : Condition) (data : Data) :
    (ofCondition origin target c).isOpen data = .ok (c.isMet data) := by
  cases c <;> rfl

end Transition

namespace Draft

variable {d d' : Draft} {r : Registry}

theorem stateTable_eq_ok {seen table : Table State} {states : List State}
    (h : stateTable seen states = .ok table) (name : String) :
    table.get? name = (seen.get? name).or (states.find? (·.name == name)) := by
  induction states generalizing seen with
  | nil =>
    cases h
    rw [List.find?_nil, Option.or_none]
  | cons state states ih =>
    rw [stateTable] at h
    split at h
    · cases h
    next hnew =>
      rw [ih h, Table.get?_put, List.find?_cons]
      by_cases heq : name = state.name
      · subst heq
        rw [Bool.not_eq_true, Table.has, Option.isSome_eq_false_iff, Option.isNone_iff_eq_none]
          at hnew
        rw [if_pos rfl, hnew, beq_self_eq_true]
        rfl
      · rw [if_neg heq, beq_false_of_ne (Ne.symm heq)]

def gather {α : Type} (field : StateSpec → Option α) (table : Table α) (specs : List StateSpec) :
    Table α :=
  specs.foldl (fun table spec =>
    match field spec with
    | some value => table.put spec.name value
    | none => table) table

theorem limitState_eq_put {spec : StateSpec} {limit : Span} (h : spec.timeout? = some limit) :
    d.limitState spec.name limit = { d with timeouts := d.timeouts.put spec.name limit } := by
  obtain ⟨secs, hsecs, rfl⟩ := Option.map_eq_some_iff.1 h
  have hpos : 0 < secs := of_decide_eq_true (Option.filter_eq_some_iff.1 hsecs).2
  have hnanos : (Span.ofSeconds secs).nanos ≠ 0 :=
    Nat.mul_ne_zero (by decide) (Nat.pos_iff_ne_zero.1 hpos)
  rw [limitState, if_neg hnanos]

theorem addSpecified_eq_ok {spec : StateSpec} :
    addSpecified r d spec = .ok d' ↔ ∃ state, r.buildState spec = .ok state ∧
      d' = { d with
        states := d.states ++ [state]
        timeouts := gather StateSpec.timeout? d.timeouts [spec]
        errorTargets := gather StateSpec.onError d.errorTargets [spec] } := by
  have hok : ∀ d₁ d₂ : Draft, d₁ = d₂ → ((.ok d₁ : Except Fault Draft) = .ok d' ↔ d' = d₂) := by
    rintro d₁ _ rfl
    exact ⟨fun h => (Except.ok.inj h).symm, fun h => congrArg _ h.symm⟩
  refine bind_eq_ok.trans (exists_congr fun state => and_congr_right fun _ => hok _ _ ?_)
  cases htimeout : spec.timeout? with
  | none =>
    cases htarget : spec.onError with
    | none | some target =>
      simp only [gather, List.foldl_cons, List.foldl_nil, htimeout, htarget, addState, onError]
  | some limit =>
    cases htarget : spec.onError with
    | none | some target =>
      simp only [gather, List.foldl_cons, List.foldl_nil, htimeout, htarget,
        limitState_eq_put htimeout, addState, onError]

/-- States can be added exactly when each of them can be built. -/
theorem foldlM_addSpecified {specs : List StateSpec} :
    specs.foldlM (addSpecified r) d = .ok d' ↔
      ∃ states, List.Forall₂ (fun spec state => r.buildState spec = .ok state) specs states ∧
        d' = { d with
          states := d.states ++ states
          timeouts := gather StateSpec.timeout? d.timeouts specs
          errorTargets := gather StateSpec.onError d.errorTargets specs } := by
  induction specs generalizing d with
  | nil =>
    constructor
    · rintro ⟨⟩
      exact ⟨[], .nil, by rw [List.append_nil]; rfl⟩
    · rintro ⟨_, ⟨⟩, rfl⟩
      rw [List.append_nil]
      rfl
  | cons spec specs ih =>
    rw [List.foldlM_cons, bind_eq_ok]
    constructor
    · rintro ⟨d₁, hadd, h⟩
      obtain ⟨state, hstate, rfl⟩ := addSpecified_eq_ok.1 hadd
      obtain ⟨states, hall, rfl⟩ := ih.1 h
      exact ⟨state :: states, .cons hstate hall, by rw [List.append_assoc]; rfl⟩
    · rintro ⟨_, hall, rfl⟩
      obtain ⟨state, states, hstate, hrest, rfl⟩ := List.forall₂_cons_left_iff.1 hall
      refine ⟨_, addSpecified_eq_ok.2 ⟨state, hstate, rfl⟩, ih.2 ⟨states, hrest, ?_⟩⟩
      rw [List.append_assoc]
      rfl

/-- Edges can be added exactly when each of their conditions can be read. -/
theorem foldlM_addEdge {edges : List EdgeSpec} :
    edges.foldlM addEdge d = .ok d' ↔
      ∃ ts, List.Forall₂ (fun (edge : EdgeSpec) t =>
          Transition.ofText edge.origin edge.target edge.condition = .ok t) edges ts ∧
        d' = { d with transitions := d.transitions ++ ts } := by
  induction edges generalizing d with
  | nil =>
    constructor
    · rintro ⟨⟩
      exact ⟨[], .nil, by rw [List.append_nil]⟩
    · rintro ⟨_, ⟨⟩, rfl⟩
      rw [List.append_nil]
      rfl
  | cons edge edges ih =>
    rw [List.foldlM_cons, bind_eq_ok]
    constructor
    · rintro ⟨d₁, hadd, h⟩
      obtain ⟨t, ht, hadd⟩ := bind_eq_ok.1 hadd
      cases hadd
      obtain ⟨ts, hall, rfl⟩ := ih.1 h
      exact ⟨t :: ts, .cons ht hall, by rw [addTransition, List.append_assoc]; rfl⟩
    · rintro ⟨_, hall, rfl⟩
      obtain ⟨t, ts, ht, hrest, rfl⟩ := List.forall₂_cons_left_iff.1 hall
      refine ⟨_, bind_eq_ok.2 ⟨t, ht, rfl⟩, ih.2 ⟨ts, hrest, ?_⟩⟩
      rw [addTransition, List.append_assoc]
      rfl

theorem foldl_addFinal (names : List String) (d : Draft) :
    names.foldl addFinal d = { d with finals := d.finals ++ names } := by
  induction names generalizing d with
  | nil => rw [List.append_nil]; rfl
  | cons name names ih => rw [List.foldl_cons, ih, addFinal, List.append_assoc]; rfl

theorem get?_gather {α : Type} (field : StateSpec → Option α) {specs : List StateSpec}
    (hdistinct : (specs.map StateSpec.name).Nodup) (table : Table α) (name : String) :
    (gather field table specs).get? name =
      ((specs.find? (·.name == name)).bind field).or (table.get? name) := by
  induction specs generalizing table with
  | nil => rfl
  | cons spec specs ih =>
    obtain ⟨hnew, hdistinct⟩ := List.nodup_cons.1 hdistinct
    have hget : (gather field table [spec]).get? name =
        if spec.name = name then (field spec).or (table.get? name) else table.get? name := by
      rw [gather, List.foldl_cons, List.foldl_nil]
      cases field spec with
      | none => simp
      | some value =>
        rw [Table.get?_put]
        by_cases heq : spec.name = name
        · rw [if_pos heq, if_pos heq.symm, Option.some_or]
        · rw [if_neg heq, if_neg (Ne.symm heq)]
    change (gather field (gather field table [spec]) specs).get? name = _
    rw [ih hdistinct, hget, List.find?_cons]
    by_cases heq : spec.name = name
    · have hnone : specs.find? (·.name == name) = none := by
        rw [List.find?_eq_none]
        intro other hmem hother
        exact hnew (List.mem_map.2 ⟨other, hmem, (eq_of_beq hother).trans heq.symm⟩)
      rw [if_pos heq, hnone, heq, beq_self_eq_true]
      rfl
    · rw [if_neg heq, beq_false_of_ne heq]

/-- The states are found by the names of their specifications. -/
theorem find?_built {specs : List StateSpec} {states : List State}
    (h : List.Forall₂ (fun spec state => r.buildState spec = .ok state) specs states)
    (name : String) (state : State) :
    states.find? (·.name == name) = some state ↔
      ∃ spec, specs.find? (·.name == name) = some spec ∧ r.buildState spec = .ok state := by
  induction h with
  | nil => simp
  | @cons spec built specs states hbuilt _ ih =>
    rw [List.find?_cons, List.find?_cons, Registry.name_of_buildState hbuilt]
    cases spec.name == name with
    | true =>
      constructor
      · rintro ⟨⟩
        exact ⟨spec, rfl, hbuilt⟩
      · rintro ⟨_, ⟨⟩, h⟩
        exact congrArg some (Except.ok.inj (hbuilt.symm.trans h))
    | false => exact ih

theorem mem_finalNames {name : String} :
    name ∈ d.finalNames ↔
      name ∈ d.finals ∨ ∃ state ∈ d.states, state.isFinal = true ∧ state.name = name := by
  have hmerge : ∀ (entries : List (String × Unit)) (t : Table Unit),
      name ∈ (t.merge entries).names ↔ name ∈ t.names ∨ name ∈ entries.map Prod.fst :=
    fun entries => by
      induction entries with
      | nil => simp [Table.merge]
      | cons entry entries ih =>
        intro t
        rw [Table.merge, List.foldl_cons, ← Table.merge, ih, Table.mem_names_put, List.map_cons,
          List.mem_cons, or_assoc, or_left_comm]
  rw [finalNames, Table.ofEntries, hmerge, List.map_map]
  have hfst : ∀ names : List String, names.map (Prod.fst ∘ fun name => (name, ())) = names :=
    fun names => List.map_id names
  rw [hfst, List.mem_append, List.mem_map]
  simp only [List.mem_filter, and_assoc]
  exact or_iff_right (fun h => by cases h)

def filled (hooks : List Hook) (maxSteps : Option Nat) (spec : WorkflowSpec) (states : List State)
    (ts : List Transition) : Draft where
  name := spec.name
  states
  transitions := ts
  initial := spec.initialState
  finals := spec.finalStates
  defaultTimeout :=
    if (Span.ofSeconds spec.settings.actionTimeoutSecs).nanos = 0 then none
    else some (.ofSeconds spec.settings.actionTimeoutSecs)
  timeouts := gather StateSpec.timeout? [] spec.states
  errorTargets := gather StateSpec.onError [] spec.states
  cancellation := spec.settings.cancellation
  maxSteps
  hooks

theorem ofSpec_eq_ok {hooks : List Hook} {maxSteps : Option Nat} {spec : WorkflowSpec} :
    ofSpec r hooks maxSteps spec = .ok d ↔ spec.Valid ∧ ∃ states ts,
      List.Forall₂ (fun spec state => r.buildState spec = .ok state) spec.states states ∧
      List.Forall₂ (fun (edge : EdgeSpec) t =>
        Transition.ofText edge.origin edge.target edge.condition = .ok t) spec.transitions ts ∧
      d = filled hooks maxSteps spec states ts := by
  rw [ofSpec, bind_unit_eq_ok, spec.validate_eq_ok]
  refine and_congr_right fun _ => ?_
  dsimp only
  rw [bind_eq_ok]
  constructor
  · rintro ⟨withStates, hstates, h⟩
    obtain ⟨states, hbuilt, rfl⟩ := foldlM_addSpecified.1 hstates
    rw [foldl_addFinal] at h
    obtain ⟨ts, hedges, rfl⟩ := foldlM_addEdge.1 h
    exact ⟨states, ts, hbuilt, hedges, rfl⟩
  · rintro ⟨states, ts, hbuilt, hedges, rfl⟩
    refine ⟨_, foldlM_addSpecified.2 ⟨states, hbuilt, rfl⟩, ?_⟩
    rw [foldl_addFinal]
    exact foldlM_addEdge.2 ⟨ts, hedges, rfl⟩

theorem checkNames_eq_ok {states : Table State} {references : List (String × String)} :
    checkNames states references = .ok () ↔
      ∀ reference ∈ references, states.has reference.2 = true := by
  induction references with
  | nil => exact iff_of_true rfl (List.forall_mem_nil _)
  | cons reference references ih =>
    have hcheck : checkName states reference.1 reference.2 = .ok () ↔
        states.has reference.2 = true := by
      rw [checkName]
      split
      next h => exact iff_of_true rfl h
      next h => exact iff_of_false nofun h
    rw [checkNames, bind_unit_eq_ok, ih, hcheck, List.forall_mem_cons]

def engine (d : Draft) (states : Table State) : Engine where
  name := d.name
  states
  transitions := d.transitions
  initial := d.initial
  finals := d.finalNames
  defaultTimeout := d.defaultTimeout
  timeouts := d.timeouts
  errorTargets := d.errorTargets
  cancellation := d.cancellation
  maxSteps := d.maxSteps
  hooks := d.hooks

theorem build_eq_ok {e : Engine} :
    d.build = .ok e ↔ ∃ table, stateTable [] d.states = .ok table ∧ d.initial ≠ "" ∧
      (∀ reference ∈ d.references, table.has reference.2 = true) ∧ e = d.engine table := by
  rw [build, bind_eq_ok]
  refine exists_congr fun table => and_congr_right fun _ => ?_
  split
  next hempty => exact iff_of_false nofun fun h => h.1 (String.isEmpty_iff.1 hempty)
  next hempty =>
    rw [bind_unit_eq_ok, and_iff_right (mt String.isEmpty_iff.2 hempty), checkNames_eq_ok]
    exact and_congr_right fun _ => ⟨fun h => (Except.ok.inj h).symm, fun h => congrArg _ h.symm⟩

/-- A state in the engine is one of the draft, and is found under its name. -/
theorem mem_states_of_get? {e : Engine} (h : d.build = .ok e) {name : String} {state : State}
    (hstate : e.states.get? name = some state) : state ∈ d.states ∧ state.name = name := by
  obtain ⟨table, htable, -, -, rfl⟩ := build_eq_ok.1 h
  have hfind := (stateTable_eq_ok htable name).symm.trans hstate
  rw [Table.get?_nil, Option.none_or] at hfind
  obtain ⟨hname, -⟩ := List.find?_eq_some_iff_append.1 hfind
  exact ⟨List.mem_of_find?_eq_some hfind, eq_of_beq hname⟩

end Draft

namespace Engine

structure Assembled (r : Registry) (hooks : List Hook) (maxSteps : Option Nat)
    (spec : WorkflowSpec) (e : Engine) : Prop where
  valid : spec.Valid
  initial : e.initial = spec.initialState
  cancellation : e.cancellation = spec.settings.cancellation
  maxSteps : e.maxSteps = maxSteps
  hooks : e.hooks = hooks
  states (name : String) (state : State) : e.states.get? name = some state ↔
    ∃ s, spec.state? name = some s ∧ r.buildState s = .ok state
  built : ∀ s ∈ spec.states, ∃ state, r.buildState s = .ok state
  transitions : List.Forall₂ (fun (edge : EdgeSpec) t =>
    Transition.ofText edge.origin edge.target edge.condition = .ok t) spec.transitions e.transitions
  finals (name : String) : name ∈ e.finals ↔
    name ∈ spec.finalStates ∨
      ∃ s ∈ spec.states, s.name = name ∧ ∃ state, r.buildState s = .ok state ∧ state.isFinal = true
  errorTargets (name : String) :
    e.errorTargets.get? name = (spec.state? name).bind StateSpec.onError

variable {r : Registry} {hooks : List Hook} {maxSteps : Option Nat} {spec : WorkflowSpec}
  {e : Engine}

theorem ofSpec_eq_bind (r : Registry) (hooks : List Hook) (maxSteps : Option Nat)
    (spec : WorkflowSpec) :
    (ofSpec r hooks maxSteps spec).2 = Draft.ofSpec r hooks maxSteps spec >>= Draft.build := by
  unfold ofSpec
  cases Draft.ofSpec r hooks maxSteps spec with
  | error fault => rfl
  | ok draft =>
    dsimp only [bind, Except.bind]
    cases draft.build with
    | error fault | ok e => rfl

theorem assembled_of_ofSpec (h : (ofSpec r hooks maxSteps spec).2 = .ok e) :
    Assembled r hooks maxSteps spec e := by
  rw [ofSpec_eq_bind] at h
  obtain ⟨draft, hdraft, hbuild⟩ := bind_eq_ok.1 h
  obtain ⟨hvalid, states, ts, hbuilt, hedges, rfl⟩ := Draft.ofSpec_eq_ok.1 hdraft
  obtain ⟨table, htable, -, -, rfl⟩ := Draft.build_eq_ok.1 hbuild
  refine
    { valid := hvalid
      initial := rfl
      cancellation := rfl
      maxSteps := rfl
      hooks := rfl
      states := fun name state => ?_
      built := fun s hs => ?_
      transitions := hedges
      finals := fun name => Draft.mem_finalNames.trans (or_congr_right ?_)
      errorTargets := fun name => ?_ }
  · have hget := Draft.stateTable_eq_ok htable name
    rw [Table.get?_nil, Option.none_or] at hget
    rw [Draft.engine, hget]
    exact Draft.find?_built hbuilt name state
  · obtain ⟨state, -, hstate⟩ := exists_right_of_forall₂ hbuilt s hs
    exact ⟨state, hstate⟩
  · constructor
    · rintro ⟨state, hmem, hfinal, rfl⟩
      obtain ⟨s, hs, hstate⟩ := exists_right_of_forall₂ hbuilt.flip state hmem
      exact ⟨s, hs, (Registry.name_of_buildState hstate).symm, state, hstate, hfinal⟩
    · rintro ⟨s, hs, rfl, state, hstate, hfinal⟩
      obtain ⟨state', hmem, hstate'⟩ := exists_right_of_forall₂ hbuilt s hs
      cases hstate.symm.trans hstate'
      exact ⟨state, hmem, hfinal, Registry.name_of_buildState hstate⟩
  · refine (Draft.get?_gather _ hvalid.distinct [] name).trans ?_
    rw [Table.get?_nil, Option.or_none]
    rfl

namespace Assembled

variable {name : String} {data : Data}

theorem name_ne_empty (h : Assembled r hooks maxSteps spec e) (hname : name ∈ spec.stateNames) :
    name ≠ "" := by
  rintro rfl
  have hblank : Text.allBlank "" = true := by decide
  rw [h.valid.names _ hname] at hblank
  cases hblank

theorem exists_state (h : Assembled r hooks maxSteps spec e) (hname : name ∈ spec.stateNames) :
    ∃ state, e.states.get? name = some state := by
  obtain ⟨s, hs, rfl⟩ := List.mem_map.1 hname
  have hfound : (spec.state? s.name).isSome = true :=
    List.find?_isSome.2 ⟨s, hs, beq_self_eq_true _⟩
  obtain ⟨s', hs'⟩ := Option.isSome_iff_exists.1 hfound
  obtain ⟨state, hstate⟩ := h.built s' (List.mem_of_find?_eq_some hs')
  exact ⟨state, (h.states _ _).2 ⟨s', hs', hstate⟩⟩

/-- A state in the engine is the one that has been built for its name. -/
theorem spec_of_state (h : Assembled r hooks maxSteps spec e) {state : State}
    (hstate : e.states.get? name = some state) :
    ∃ s ∈ spec.states, s.name = name ∧ r.buildState s = .ok state ∧ state.name = name := by
  obtain ⟨s, hs, hbuilt⟩ := (h.states name state).1 hstate
  obtain ⟨hmem, hname⟩ := spec.mem_of_state? hs
  exact ⟨s, hmem, hname, hbuilt, (Registry.name_of_buildState hbuilt).trans hname⟩

theorem final_declared (h : Assembled r hooks maxSteps spec e) (hname : name ∈ e.finals) :
    name ∈ spec.stateNames := by
  rcases (h.finals name).1 hname with hlisted | ⟨s, hs, rfl, -⟩
  · exact h.valid.finals name hlisted
  · exact List.mem_map_of_mem hs

theorem isFinal_empty (h : Assembled r hooks maxSteps spec e) : e.isFinal "" = false := by
  rw [isFinal, ← Bool.not_eq_true, List.contains_iff_mem]
  exact fun hmem => h.name_ne_empty (h.final_declared hmem) rfl

/-- An edge of the engine is an edge of the specification, and its guard is the condition there. -/
theorem edge_of_transition (h : Assembled r hooks maxSteps spec e) {t : Transition}
    (ht : t ∈ e.transitions) :
    ∃ edge ∈ spec.transitions, ∃ c, Condition.parse edge.condition = .ok c ∧
      t.origin = edge.origin ∧ t.target = edge.target ∧
        ∀ data, t.isOpen data = .ok (c.isMet data) := by
  obtain ⟨edge, hedge, htext⟩ := exists_right_of_forall₂ h.transitions.flip t ht
  obtain ⟨c, hparse, rfl⟩ := Transition.ofText_eq_ok htext
  exact ⟨edge, hedge, c, hparse, rfl, rfl, Transition.isOpen_ofCondition _ _ c⟩

theorem transition_of_edge (h : Assembled r hooks maxSteps spec e) {edge : EdgeSpec}
    (hedge : edge ∈ spec.transitions) :
    ∃ t ∈ e.transitions, ∃ c, Condition.parse edge.condition = .ok c ∧
      t.origin = edge.origin ∧ t.target = edge.target ∧
        ∀ data, t.isOpen data = .ok (c.isMet data) := by
  obtain ⟨t, ht, htext⟩ := exists_right_of_forall₂ h.transitions edge hedge
  obtain ⟨c, hparse, rfl⟩ := Transition.ofText_eq_ok htext
  exact ⟨_, ht, c, hparse, rfl, rfl, Transition.isOpen_ofCondition _ _ c⟩

theorem target_declared (h : Assembled r hooks maxSteps spec e) {t : Transition}
    (ht : t ∈ e.transitions) : t.target ∈ spec.stateNames := by
  obtain ⟨edge, hedge, -, -, -, htarget, -⟩ := h.edge_of_transition ht
  exact htarget ▸ (h.valid.edges edge hedge).2

theorem errorTarget_declared (h : Assembled r hooks maxSteps spec e) {target : String}
    (ht : e.errorTargets.get? name = some target) : target ∈ spec.stateNames := by
  rw [h.errorTargets] at ht
  obtain ⟨s, hs, htarget⟩ := Option.bind_eq_some_iff.1 ht
  exact h.valid.errorTargets s (spec.mem_of_state? hs).1 target htarget

end Assembled

end Engine

end Workflow
