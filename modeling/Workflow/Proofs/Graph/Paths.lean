import Workflow.Proofs.Graph.Search

/-!
# Paths through a specification

The edges of a specification are its transitions and its error targets, as far as they leave a
declared state. The searches in its graph find exactly what paths along these edges lead to, whether
the specification is valid or not. A search backwards goes by edges that come into a declared state
instead; from a declared state to another both directions see the same paths, since none of them
passes through a name that is not declared.
-/

namespace Workflow

theorem pairwise_idxOf_cons {first : String} {names rest : List String} (hfirst : first ∉ names)
    (h : names.Pairwise fun a b => rest.idxOf a < rest.idxOf b) :
    names.Pairwise fun a b => (first :: rest).idxOf a < (first :: rest).idxOf b := by
  refine h.imp_of_mem fun {a b} ha hb hlt => ?_
  have hindex : ∀ name ∈ names, (first :: rest).idxOf name = rest.idxOf name + 1 := by
    intro name hname
    exact List.idxOf_cons_ne rest fun heq => hfirst (heq ▸ hname)
  rw [hindex a ha, hindex b hb]
  exact Nat.add_lt_add_right hlt 1

theorem pairwise_idxOf_dedupFrom (seen names : List String) :
    (dedupFrom seen names).Pairwise fun a b => names.idxOf a < names.idxOf b := by
  induction names generalizing seen with
  | nil => exact .nil
  | cons first rest ih =>
    rw [dedupFrom]
    split
    next hseen =>
      have hfirst : first ∉ dedupFrom seen rest := fun hmem =>
        (mem_dedupFrom.1 hmem).2 (List.contains_iff_mem.1 hseen)
      exact pairwise_idxOf_cons hfirst (ih seen)
    next hseen =>
      have hfirst : first ∉ dedupFrom (first :: seen) rest := fun hmem =>
        (mem_dedupFrom.1 hmem).2 List.mem_cons_self
      refine List.pairwise_cons.2 ⟨fun name hname => ?_, pairwise_idxOf_cons hfirst (ih _)⟩
      have hne : first ≠ name := fun heq => hfirst (heq ▸ hname)
      rw [List.idxOf_cons_self, List.idxOf_cons_ne rest hne]
      exact Nat.succ_pos _

/-- The names stand in the order of their first occurrence. -/
theorem pairwise_idxOf_dedup (names : List String) :
    (dedup names).Pairwise fun a b => names.idxOf a < names.idxOf b :=
  pairwise_idxOf_dedupFrom [] names

/-- An edge between two names: a transition or an error target that leaves a declared state. -/
inductive WorkflowSpec.Edge (spec : WorkflowSpec) : String → String → Prop
  | transition {edge : EdgeSpec} (hedge : edge ∈ spec.transitions)
      (hdeclared : edge.origin ∈ spec.stateNames) : spec.Edge edge.origin edge.target
  | onError {state : StateSpec} {target : String} (hstate : state ∈ spec.states)
      (htarget : state.onError = some target) : spec.Edge state.name target

namespace Graph

variable {spec : WorkflowSpec} {state name a b : String}

theorem mem_states_ofSpec : name ∈ (ofSpec spec).states ↔ name ∈ spec.stateNames :=
  mem_dedup

theorem mem_edges_ofSpec :
    (a, b) ∈ (ofSpec spec).edges ↔
      (∃ edge ∈ spec.transitions, edge.origin = a ∧ edge.target = b) ∨
        ∃ state ∈ spec.states, state.name = a ∧ state.onError = some b := by
  have hmap : (a, b) ∈ spec.transitions.map (fun edge => (edge.origin, edge.target)) ↔
      ∃ edge ∈ spec.transitions, edge.origin = a ∧ edge.target = b := by
    simp only [List.mem_map, Prod.mk.injEq]
  have hfilter : (a, b) ∈ spec.states.filterMap (fun state => state.onError.map (state.name, ·)) ↔
      ∃ state ∈ spec.states, state.name = a ∧ state.onError = some b := by
    simp only [List.mem_filterMap, Option.map_eq_some_iff, Prod.mk.injEq]
    refine exists_congr fun state => and_congr_right fun _ => ⟨?_, ?_⟩
    · rintro ⟨_, htarget, hname, rfl⟩
      exact ⟨hname, htarget⟩
    · rintro ⟨hname, htarget⟩
      exact ⟨b, htarget, hname, rfl⟩
  rw [ofSpec, List.mem_append, hmap, hfilter]

theorem mem_successors_ofSpec : b ∈ (ofSpec spec).successors a ↔ spec.Edge a b := by
  rw [mem_successors, mem_states_ofSpec, mem_edges_ofSpec]
  constructor
  · rintro ⟨hdeclared, ⟨edge, hedge, rfl, rfl⟩ | ⟨state, hstate, rfl, htarget⟩⟩
    · exact .transition hedge hdeclared
    · exact .onError hstate htarget
  · rintro (⟨hedge, hdeclared⟩ | ⟨hstate, htarget⟩)
    · exact ⟨hdeclared, .inl ⟨_, hedge, rfl, rfl⟩⟩
    · exact ⟨List.mem_map_of_mem hstate, .inr ⟨_, hstate, rfl, htarget⟩⟩

theorem leads_ofSpec :
    Leads (ofSpec spec).successors a b ↔ Relation.ReflTransGen spec.Edge a b := by
  simp only [Leads, mem_successors_ofSpec]

theorem onCycle_ofSpec :
    (ofSpec spec).onCycle state = true ↔ Relation.TransGen spec.Edge state state := by
  simp only [onCycle_iff, mem_successors_ofSpec, leads_ofSpec, Relation.TransGen.head'_iff]

theorem mem_unreachableFrom :
    name ∈ (ofSpec spec).unreachableFrom state ↔
      name ∈ spec.stateNames ∧ ¬Relation.ReflTransGen spec.Edge state name := by
  rw [unreachableFrom, List.mem_filter, mem_states_ofSpec, Bool.not_eq_true', ← Bool.not_eq_true,
    List.contains_iff_mem, mem_reachableFrom, leads_ofSpec]

theorem pairwise_unreachableFrom :
    ((ofSpec spec).unreachableFrom state).Pairwise fun a b =>
      spec.stateNames.idxOf a < spec.stateNames.idxOf b :=
  (pairwise_idxOf_dedup spec.stateNames).filter _

def ragged : WorkflowSpec where
  name := "ragged"
  initialState := "a"
  states := [{ name := "a" }, { name := "b" }, { name := "a", onError := some "ghost" }]
  transitions := [{ origin := "a", target := "b" }, { origin := "ghost", target := "b" }]

/-- The searches in the graph of a specification come to an end and are exact. Those forward find
what paths lead to, those for the rest find the other declared states, each one once and in the
order of first declaration, and a state is on a cycle if a path of at least one edge leads back to
it. -/
theorem searches_exact (spec : WorkflowSpec) (state : String) :
    Explored (ofSpec spec).successors [state] [state] ((ofSpec spec).reachableFrom state) ∧
      (∀ name, name ∈ (ofSpec spec).reachableFrom state ↔
        Relation.ReflTransGen spec.Edge state name) ∧
      (∀ name, name ∈ (ofSpec spec).unreachableFrom state ↔
        name ∈ spec.stateNames ∧ ¬Relation.ReflTransGen spec.Edge state name) ∧
      ((ofSpec spec).unreachableFrom state).Nodup ∧
      ((ofSpec spec).unreachableFrom state).Pairwise (fun a b =>
        spec.stateNames.idxOf a < spec.stateNames.idxOf b) ∧
      ((ofSpec spec).onCycle state = true ↔ Relation.TransGen spec.Edge state state) := by
  refine ⟨explored_reachableFrom, fun name => ?_, fun name => mem_unreachableFrom, ?_,
    pairwise_unreachableFrom, onCycle_ofSpec⟩
  · rw [mem_reachableFrom, leads_ofSpec]
  · exact (nodup_dedup _).filter _

example : (ofSpec ragged).reachableFrom "a" = ["a", "b", "ghost"] ∧
    (ofSpec ragged).unreachableFrom "b" = ["a"] := by decide

/-- A declared state is among those that can reach one of some declared targets exactly when one of
the targets can be reached from it. -/
theorem mem_canReach_iff_reachableFrom (spec : WorkflowSpec) {targets : List String}
    {state : String} (htargets : ∀ target ∈ targets, target ∈ spec.stateNames)
    (hstate : state ∈ spec.stateNames) :
    state ∈ (ofSpec spec).canReach targets ↔
      ∃ target ∈ targets, target ∈ (ofSpec spec).reachableFrom state := by
  rw [mem_canReach]
  refine exists_congr fun target => and_congr_right fun htarget => ?_
  rw [mem_reachableFrom]
  exact leads_predecessors (mem_states_ofSpec.2 hstate) (mem_states_ofSpec.2 (htargets _ htarget))

theorem mem_canReach_iff_reachableFrom_ragged :
    "a" ∈ (ofSpec ragged).canReach ["b"] ∧
      ∃ target ∈ ["b"], target ∈ (ofSpec ragged).reachableFrom "a" := by
  have hcan : "a" ∈ (ofSpec ragged).canReach ["b"] := by decide
  exact ⟨hcan, (mem_canReach_iff_reachableFrom ragged (by decide) (by decide)).1 hcan⟩

/-- Of a name that is not declared the two directions do not agree. -/
example : "ghost" ∈ (ofSpec ragged).canReach ["b"] ∧
    "b" ∉ (ofSpec ragged).reachableFrom "ghost" := by decide

end Graph

end Workflow
