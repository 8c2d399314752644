import Workflow.Proofs.Action.Untouched

/-!
# The course of a composite with steps

A composite takes its steps one after the other. The course that it takes is told by the turns of
its steps: with which moment a turn has begun, what has come of the action of the step if that has
been run, and with which moment it has ended. Between two turns the composite makes records of its
own and reports, and does nothing else.
-/

namespace Workflow

structure Moment.Notes (own : List String) (m m' : Moment) : Prop where
  context : m.context.AgreeOff own m'.context
  now : m'.now = m.now
  cancelled : m'.cancelled = m.cancelled

namespace Moment

variable {own : List String} {m m' : Moment}

theorem Notes.refl (h : m.data.Ordered) : m.Notes own m :=
  ⟨⟨rfl, h, h, fun _ _ => rfl⟩, rfl, rfl⟩

theorem Notes.record {name suffix : String} (h : m.Notes own m') (hkey : name ++ "_" ++ suffix ∈ own)
    (value : Json) : m.Notes own (m'.record name suffix value) := by
  have hput : m.data.AgreeOff own (m'.data.put (name ++ "_" ++ suffix) value) :=
    { ordered := h.context.data.ordered
      ordered' := h.context.data.ordered'.put _ _
      off := fun key hoff => by
        have hne : key ≠ name ++ "_" ++ suffix := fun heq => hoff (heq ▸ hkey)
        exact (Table.get?_put_of_ne value _ hne).trans (h.context.data.off key hoff) }
  exact ⟨h.context.of_data hput, h.now, h.cancelled⟩

theorem Notes.report (h : m.Notes own m') (level : Level) (message : String)
    (fields : List (String × String)) : m.Notes own (m'.report level message fields) :=
  ⟨h.context, h.now, h.cancelled⟩

end Moment

theorem Data.get?_put_own (data : Data) (name suffix other : String) (value : Json) :
    (data.put (name ++ "_" ++ suffix) value).get? (name ++ "_" ++ other) =
      if other = suffix then some value else data.get? (name ++ "_" ++ other) := by
  rw [Table.get?_put]
  simp only [String.append_right_inj]

theorem Predicate.shuns_exactly {keys : List String} {key : String} (h : key ∉ keys) (value : Json) :
    (exactly key value).Shuns keys := by
  intro data data' hagree
  rw [evaluate, evaluate, hagree.off key h]

structure StepTurn where
  step : Step Action
  start : Moment
  outcome : Option (Except Fault Unit)
  finish : Moment

/-- The number that comes after those of some turns, the first of which is number `i`. -/
theorem StepTurn.number_cons (i : Nat) (t : StepTurn) (past : List StepTurn) :
    i + (t :: past).length = i + 1 + past.length := by
  rw [List.length_cons, Nat.add_right_comm, Nat.add_assoc]

namespace Action

variable {d : Drift} {site : Site} {keys own : List String} {i : Nat} {m m₁ m' : Moment}
  {steps : List (Step Action)} {t : StepTurn} {turns : List StepTurn}

def Takes (d : Drift) (site : Site) (i : Nat) (t : StepTurn) : Prop :=
  match t.outcome with
  | none => t.finish = t.start
  | some outcome =>
    (t.step.action.run (site.part i)).Reaches d t.start (some outcome) t.finish

/-- The turns of the first of some steps, which are numbered from `i` on: the first turn begins at
`m`, each other one when the composite has made its notes of the one before, and all have been taken
and noted at `m'`. -/
inductive Course (d : Drift) (site : Site) (own : List String) :
    (i : Nat) → (m : Moment) → List (Step Action) → List StepTurn → (m' : Moment) → Prop
  | ended {i : Nat} {m m' : Moment} {steps : List (Step Action)} (hnotes : m.Notes own m') :
      Course d site own i m steps [] m'
  | turn {i : Nat} {m₁ m' : Moment} {t : StepTurn} {steps : List (Step Action)}
      {turns : List StepTurn} (htakes : Takes d site i t) (hnotes : t.finish.Notes own m₁)
      (hrest : Course d site own (i + 1) m₁ steps turns m') :
      Course d site own i t.start (t.step :: steps) (t :: turns) m'

/-- The turns are those of the first steps, in order. -/
theorem Course.map_step (h : Course d site own i m steps turns m') :
    turns.map StepTurn.step = steps.take turns.length := by
  induction h with
  | ended _ => rfl
  | turn _ _ _ ih => rw [List.map_cons, List.length_cons, List.take_succ_cons, ih]

theorem Course.step_eq (h : Course d site own i m steps turns m') {j : Nat}
    (ht : turns[j]? = some t) : steps[j]? = some t.step := by
  have hlt : j < turns.length := (List.getElem?_eq_some_iff.1 ht).1
  have hmap : (steps.take turns.length)[j]? = some t.step := by
    rw [← h.map_step, List.getElem?_map, ht]
    rfl
  rwa [List.getElem?_take_of_lt hlt] at hmap

theorem Course.step_mem (h : Course d site own i m steps turns m') (ht : t ∈ turns) :
    t.step ∈ steps :=
  List.mem_of_mem_take (h.map_step ▸ List.mem_map_of_mem ht)

theorem Takes.keeps (h : Takes d site i t) (hstep : t.step.action.Ignores keys)
    (hordered : t.start.data.Ordered) : t.start.data.Keeps keys t.finish.data := by
  unfold Takes at h
  split at h
  · rw [h]
    exact ⟨hordered, fun _ _ => rfl⟩
  · exact hstep.keeps hordered h

end Action

end Workflow
