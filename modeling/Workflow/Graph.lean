import Workflow.Spec.Basic

/-!
# The graph of a specification

States are nodes; transitions and error targets are edges, the transitions first. An edge counts as
going out of a state only if that state is declared, and as coming into one only if that one is, so
the two directions may differ where a name is not declared.
-/

namespace Workflow

/-- The names without repetitions and without those in `seen`, in the order of their first
occurrence. -/
def dedupFrom (seen : List String) : List String → List String
  | [] => []
  | name :: names =>
    if seen.contains name then dedupFrom seen names else name :: dedupFrom (name :: seen) names

def dedup (names : List String) : List String :=
  dedupFrom [] names

theorem mem_dedupFrom {name : String} {seen names : List String} :
    name ∈ dedupFrom seen names ↔ name ∈ names ∧ name ∉ seen := by
  induction names generalizing seen with
  | nil => simp [dedupFrom]
  | cons first rest ih =>
    by_cases h : first ∈ seen
    · by_cases he : name = first
      · subst he
        simp [dedupFrom, h, ih]
      · simp [dedupFrom, h, ih, he]
    · by_cases he : name = first
      · subst he
        simp [dedupFrom, h]
      · simp [dedupFrom, h, ih, he]

theorem nodup_dedupFrom (seen names : List String) : (dedupFrom seen names).Nodup := by
  induction names generalizing seen with
  | nil => exact .nil
  | cons first rest ih =>
    by_cases h : first ∈ seen
    · simpa [dedupFrom, h] using ih seen
    · simpa [dedupFrom, h, mem_dedupFrom] using ih (first :: seen)

@[simp] theorem mem_dedup {name : String} {names : List String} :
    name ∈ dedup names ↔ name ∈ names := by
  simp [dedup, mem_dedupFrom]

theorem nodup_dedup (names : List String) : (dedup names).Nodup :=
  nodup_dedupFrom [] names

def sortNames (names : List String) : List String :=
  names.mergeSort fun a b => decide (a ≤ b)

@[simp] theorem mem_sortNames {name : String} {names : List String} :
    name ∈ sortNames names ↔ name ∈ names :=
  List.mem_mergeSort

structure Graph where
  /-- The declared states, in the order of their first declaration. -/
  states : List String
  edges : List (String × String)
  deriving Inhabited

namespace Graph

def ofSpec (spec : WorkflowSpec) : Graph where
  states := dedup spec.stateNames
  edges := spec.transitions.map (fun edge => (edge.origin, edge.target)) ++
    spec.states.filterMap fun state => state.onError.map (state.name, ·)

def successors (g : Graph) (state : String) : List String :=
  if g.states.contains state then
    dedup ((g.edges.filter (·.1 == state)).map Prod.snd)
  else []

def predecessors (g : Graph) (state : String) : List String :=
  if g.states.contains state then
    dedup ((g.edges.filter (·.2 == state)).map Prod.fst)
  else []

/-- Breadth-first search: `seen` holds all that has been found, `queue` what is still to be looked
at. -/
def explore (next : String → List String) : (fuel : Nat) → (queue seen : List String) → List String
  | 0, _, seen => seen
  | _ + 1, [], seen => seen
  | fuel + 1, state :: queue, seen =>
    let fresh := (next state).filter fun name => !seen.contains name
    explore next fuel (queue ++ fresh) (seen ++ fresh)

/-- All that can be reached by steps of `next`, with the start. Every edge brings at most one state
into the queue. -/
def search (g : Graph) (next : String → List String) (start : String) : List String :=
  explore next (g.edges.length + 1) [start] [start]

/-- The states that can be reached from `start`, with `start` itself. -/
def reachableFrom (g : Graph) (start : String) : List String :=
  g.search g.successors start

def canReach (g : Graph) (targets : List String) : List String :=
  dedup (targets.flatMap (g.search g.predecessors))

def unreachableFrom (g : Graph) (start : String) : List String :=
  let reachable := g.reachableFrom start
  g.states.filter fun state => !reachable.contains state

/-- Whether a way of at least one step leads from the state back to it. -/
def onCycle (g : Graph) (state : String) : Bool :=
  (g.successors state).any fun next => (g.reachableFrom next).contains state

end Graph

end Workflow
