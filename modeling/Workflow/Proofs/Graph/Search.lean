import Mathlib.Data.Finset.Card
import Mathlib.Data.Finset.Dedup
import Mathlib.Data.Finset.SDiff
import Mathlib.Logic.Relation
import Workflow.Graph

/-!
# What a search finds

A search finds exactly what steps lead to from its start. `Explored` is its course until the queue
is empty, and what is found is proved by induction on it. That a search is not cut short is counted
along the edges: what it has still to look at and what it may still find are together no more than
its fuel.
-/

namespace Workflow

namespace Graph

def Leads (next : String → List String) : String → String → Prop :=
  Relation.ReflTransGen fun a b => b ∈ next a

namespace Leads

variable {next : String → List String} {a b c : String}

theorem refl (a : String) : Leads next a a :=
  Relation.ReflTransGen.refl

theorem step (h : b ∈ next a) : Leads next a b :=
  Relation.ReflTransGen.single h

theorem trans (hab : Leads next a b) (hbc : Leads next b c) : Leads next a c :=
  Relation.ReflTransGen.trans hab hbc

/-- A way to a name that is `Known` can be gone back if every step to such a name can be, and comes
from such a name. -/
theorem reverse {back : String → List String} (Known : String → Prop)
    (hstep : ∀ x y, Known y → y ∈ next x → Known x ∧ x ∈ back y) (hb : Known b)
    (h : Leads next a b) : Leads back b a := by
  suffices h : Known a ∧ Leads back b a from h.2
  induction h using Relation.ReflTransGen.head_induction_on with
  | refl => exact ⟨hb, refl b⟩
  | head hxy _ ih =>
    obtain ⟨hy, hback⟩ := ih
    obtain ⟨hx, hmem⟩ := hstep _ _ hy hxy
    exact ⟨hx, hback.trans (step hmem)⟩

end Leads

variable {next : String → List String} {queue seen found : List String}

/-- The course of a search: it looks at one state of its queue after the other, and ends when the
queue is empty, with all that it has seen by then. -/
inductive Explored (next : String → List String) : (queue seen found : List String) → Prop
  | done (seen : List String) : Explored next [] seen seen
  | turn {state : String} {queue seen found : List String}
      (h : Explored next (queue ++ (next state).filter fun name => !seen.contains name)
        (seen ++ (next state).filter fun name => !seen.contains name) found) :
      Explored next (state :: queue) seen found

namespace Explored

theorem subset (h : Explored next queue seen found) : seen ⊆ found := by
  induction h with
  | done seen => exact List.Subset.refl seen
  | turn _ ih => exact List.Subset.trans (List.subset_append_left _ _) ih

theorem leads (h : Explored next queue seen found) {start : String}
    (hqueue : ∀ name ∈ queue, Leads next start name)
    (hseen : ∀ name ∈ seen, Leads next start name) : ∀ name ∈ found, Leads next start name := by
  induction h with
  | done seen => exact hseen
  | @turn state queue seen found _ ih =>
    rw [List.forall_mem_cons] at hqueue
    obtain ⟨hstate, hrest⟩ := hqueue
    have hfresh : ∀ name ∈ (next state).filter fun name => !seen.contains name,
        Leads next start name := by
      intro name h
      have hnext : name ∈ next state := List.mem_of_mem_filter h
      exact hstate.trans (.step hnext)
    apply ih
    · intro name h
      exact (List.mem_append.1 h).elim (hrest name) (hfresh name)
    · intro name h
      exact (List.mem_append.1 h).elim (hseen name) (hfresh name)

theorem nodup (h : Explored next queue seen found) (hnext : ∀ state, (next state).Nodup)
    (hseen : seen.Nodup) : found.Nodup := by
  induction h with
  | done seen => exact hseen
  | @turn state queue seen found _ ih =>
    apply ih
    apply hseen.append ((hnext state).filter _)
    intro name hold hnew
    have hnot : name ∉ seen := by simpa using List.of_mem_filter hnew
    exact hnot hold

/-- The search looks at the successors of all that it has found. -/
theorem closed (h : Explored next queue seen found)
    (hclosed : ∀ state ∈ seen, state ∈ queue ∨ next state ⊆ seen) :
    ∀ state ∈ found, next state ⊆ found := by
  induction h with
  | done seen =>
    intro state h
    rcases hclosed state h with hmem | hsub
    · cases hmem
    · exact hsub
  | @turn first queue seen found _ ih =>
    apply ih
    intro state h
    rcases List.mem_append.1 h with hold | hfresh
    · rcases hclosed state hold with hmem | hsub
      · rcases List.mem_cons.1 hmem with rfl | hmem
        · -- The state that was looked at: its successors were seen before or are fresh.
          right
          intro name hname
          by_cases hin : name ∈ seen
          · exact List.mem_append_left _ hin
          · apply List.mem_append_right
            exact List.mem_filter.2 ⟨hname, by simpa using hin⟩
        · exact .inl (List.mem_append_left _ hmem)
      · right
        intro name hname
        exact List.mem_append_left _ (hsub hname)
    · exact .inl (List.mem_append_right _ hfresh)

theorem mem_iff {start name : String} (h : Explored next [start] [start] found) :
    name ∈ found ↔ Leads next start name := by
  constructor
  · have hstart : ∀ other ∈ [start], Leads next start other := by
      intro other hother
      rw [List.mem_singleton.1 hother]
      exact .refl start
    exact h.leads hstart hstart name
  · intro hleads
    have hclosed := h.closed fun _ hstate => .inl hstate
    induction hleads with
    | refl => exact h.subset List.mem_cons_self
    | tail _ hstep ih => exact hclosed _ ih hstep

end Explored

variable {fuel : Nat}

structure Bounds (g : Graph) (next : String → List String) (ends : List String) : Prop where
  nodup : ∀ state, (next state).Nodup
  subset : ∀ state, next state ⊆ ends
  length_le : ends.length ≤ g.edges.length

def unseen (ends seen : List String) : Nat :=
  (ends.toFinset \ seen.toFinset).card

theorem unseen_append {ends fresh : List String} (hnodup : fresh.Nodup) (hends : fresh ⊆ ends)
    (hnew : ∀ name ∈ fresh, name ∉ seen) :
    unseen ends (seen ++ fresh) + fresh.length = unseen ends seen := by
  have hlength : fresh.toFinset.card = fresh.length := List.toFinset_card_of_nodup hnodup
  have hsub : fresh.toFinset ⊆ ends.toFinset \ seen.toFinset := by
    intro name h
    rw [List.mem_toFinset] at h
    simp [hends h, hnew name h]
  have hrest : ends.toFinset \ (seen ++ fresh).toFinset =
      (ends.toFinset \ seen.toFinset) \ fresh.toFinset := by
    rw [List.toFinset_append, sdiff_sdiff_left, Finset.sup_eq_union]
  have hcard := Finset.card_sdiff_add_card_eq_card hsub
  rw [unseen, unseen, hrest, ← hlength]
  exact hcard

/-- What is in the queue, and what may still come into it, the search has fuel for. -/
theorem explored_explore {g : Graph} {ends : List String} (hb : g.Bounds next ends)
    (hfuel : queue.length + unseen ends seen ≤ fuel) :
    Explored next queue seen (explore next fuel queue seen) := by
  induction fuel generalizing queue seen with
  | zero =>
    obtain rfl : queue = [] := List.length_eq_zero_iff.1 (by omega)
    exact .done seen
  | succ fuel ih =>
    cases queue with
    | nil => exact .done seen
    | cons first queue =>
      have hnew : ∀ name ∈ (next first).filter fun name => !seen.contains name, name ∉ seen := by
        intro name h
        simpa using List.of_mem_filter h
      have hcount := unseen_append ((hb.nodup first).filter _)
        (fun _ h => hb.subset first (List.mem_of_mem_filter h)) hnew
      refine .turn (ih ?_)
      rw [List.length_append]
      rw [List.length_cons] at hfuel
      omega

variable {g : Graph} {start name state : String}

/-- Every search comes to its end. -/
theorem explored_search {ends : List String} (hb : g.Bounds next ends) :
    Explored next [start] [start] (g.search next start) := by
  have hunseen : unseen ends [start] ≤ g.edges.length :=
    calc unseen ends [start] ≤ ends.toFinset.card := Finset.card_le_card Finset.sdiff_subset
      _ ≤ ends.length := List.toFinset_card_le ends
      _ ≤ g.edges.length := hb.length_le
  apply explored_explore hb
  rw [List.length_singleton]
  omega

theorem mem_successors :
    name ∈ g.successors state ↔ state ∈ g.states ∧ (state, name) ∈ g.edges := by
  rw [successors]
  by_cases h : state ∈ g.states
  · simp [h]
  · simp [h]

theorem mem_predecessors :
    name ∈ g.predecessors state ↔ state ∈ g.states ∧ (name, state) ∈ g.edges := by
  rw [predecessors]
  by_cases h : state ∈ g.states
  · simp [h]
  · simp [h]

theorem nodup_successors (state : String) : (g.successors state).Nodup := by
  rw [successors]
  split
  · exact nodup_dedup _
  · exact .nil

theorem nodup_predecessors (state : String) : (g.predecessors state).Nodup := by
  rw [predecessors]
  split
  · exact nodup_dedup _
  · exact .nil

theorem bounds_successors (g : Graph) : g.Bounds g.successors (g.edges.map Prod.snd) where
  nodup := nodup_successors
  subset _ _ h := List.mem_map.2 ⟨_, (mem_successors.1 h).2, rfl⟩
  length_le := (List.length_map _).le

theorem bounds_predecessors (g : Graph) : g.Bounds g.predecessors (g.edges.map Prod.fst) where
  nodup := nodup_predecessors
  subset _ _ h := List.mem_map.2 ⟨_, (mem_predecessors.1 h).2, rfl⟩
  length_le := (List.length_map _).le

theorem explored_reachableFrom :
    Explored g.successors [start] [start] (g.reachableFrom start) :=
  explored_search g.bounds_successors

theorem mem_reachableFrom : name ∈ g.reachableFrom start ↔ Leads g.successors start name :=
  explored_reachableFrom.mem_iff

theorem nodup_reachableFrom : (g.reachableFrom start).Nodup :=
  explored_reachableFrom.nodup nodup_successors (List.nodup_singleton start)

theorem mem_canReach {targets : List String} :
    name ∈ g.canReach targets ↔ ∃ target ∈ targets, Leads g.predecessors target name := by
  rw [canReach, mem_dedup, List.mem_flatMap]
  simp only [(explored_search g.bounds_predecessors).mem_iff]

theorem onCycle_iff :
    g.onCycle state = true ↔ ∃ next ∈ g.successors state, Leads g.successors next state := by
  rw [onCycle, List.any_eq_true]
  simp only [List.contains_iff_mem, mem_reachableFrom]

/-- Between declared states both directions see the same ways: only the last name on a way can be
one that is not declared. -/
theorem leads_predecessors {a b : String} (ha : a ∈ g.states) (hb : b ∈ g.states) :
    Leads g.predecessors b a ↔ Leads g.successors a b := by
  constructor
  · refine Leads.reverse (· ∈ g.states) (fun x y hy hstep => ?_) ha
    obtain ⟨hx, hedge⟩ := mem_predecessors.1 hstep
    exact ⟨hx, mem_successors.2 ⟨hy, hedge⟩⟩
  · refine Leads.reverse (· ∈ g.states) (fun x y hy hstep => ?_) hb
    obtain ⟨hx, hedge⟩ := mem_successors.1 hstep
    exact ⟨hx, mem_predecessors.2 ⟨hy, hedge⟩⟩

def Closed (g : Graph) : Prop :=
  ∀ edge ∈ g.edges, edge.1 ∈ g.states ∧ edge.2 ∈ g.states

/-- In a closed graph the two directions of search see the same ways. -/
theorem Closed.leads_predecessors {a b : String} (hg : g.Closed) :
    Leads g.predecessors b a ↔ Leads g.successors a b := by
  constructor
  · refine Leads.reverse (fun _ => True) (fun x y _ hstep => ?_) trivial
    have hedge := (mem_predecessors.1 hstep).2
    exact ⟨trivial, mem_successors.2 ⟨(hg _ hedge).1, hedge⟩⟩
  · refine Leads.reverse (fun _ => True) (fun x y _ hstep => ?_) trivial
    have hedge := (mem_successors.1 hstep).2
    exact ⟨trivial, mem_predecessors.2 ⟨(hg _ hedge).2, hedge⟩⟩

theorem Closed.mem_canReach {targets : List String} (hg : g.Closed) :
    name ∈ g.canReach targets ↔ ∃ target ∈ targets, Leads g.successors name target := by
  simp only [Graph.mem_canReach, hg.leads_predecessors]

theorem Closed.mem_states (hg : g.Closed) (hstart : start ∈ g.states)
    (h : Leads g.successors start name) : name ∈ g.states := by
  induction h with
  | refl => exact hstart
  | tail _ hstep _ => exact (hg _ (mem_successors.1 hstep).2).2

end Graph

end Workflow
