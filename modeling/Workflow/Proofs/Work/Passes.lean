import Workflow.Proofs.Work.Crew

/-!
# What a run comes through

A run takes its crew from round to round, and within a round from one turn to the next. The crews on
this way are the ones that the run passes; from each of them it goes on to the same end.
-/

namespace Workflow.Crew

variable {α : Type} {d : Drift} {e : Errands} {owner : Nat → Worker} {goal : Prospect α}
  {side : List (Prospect (Except Fault Unit))} {c₀ c p : Crew α} {value : α} {m' : Moment}
  {fuel : Nat}

inductive Rounds (c₀ : Crew α) : Crew α → Prop
  | first : Rounds c₀ c₀
  | next {c : Crew α} {floor : Floor} (h : Rounds c₀ c)
      (hopen : ∀ value, c.leadTurn.lead.thread ≠ .ended value)
      (hround : c.leadTurn.floor.round? = some floor) : Rounds c₀ { c.leadTurn with floor }

/-- A run that begins with `c₀` comes to the crew, before a round, or in one when the lead and some
hands have had their turns. -/
def Passes (c₀ p : Crew α) : Prop :=
  ∃ c, Rounds c₀ c ∧
    (p = c ∨ (∀ value, c.leadTurn.lead.thread ≠ .ended value) ∧
      ∃ n ≤ 61, p = { c.leadTurn with floor := c.leadTurn.floor.turns n })

def Ends (p : Crew α) (value : α) (m' : Moment) : Prop :=
  (∃ fuel, p.run fuel = some (value, m')) ∨
    ∃ n floor fuel, (p.floor.turns n).close? = some floor ∧
      run fuel { p with floor } = some (value, m')

theorem run_of_open (hopen : ∀ value, c.leadTurn.lead.thread ≠ .ended value)
    (h : c.run fuel = some (value, m')) :
    ∃ floor fuel', c.leadTurn.floor.round? = some floor ∧
      run fuel' { c.leadTurn with floor } = some (value, m') := by
  cases fuel with
  | zero => cases h
  | succ fuel =>
    rw [run_succ_of_open hopen] at h
    obtain ⟨floor, hround, hrun⟩ := Option.bind_eq_some_iff.1 h
    exact ⟨floor, fuel, hround, hrun⟩

/-- The rounds of a run go on to its end. -/
theorem Rounds.run (hc : Rounds c₀ c) (h : c₀.run fuel = some (value, m')) :
    ∃ fuel', c.run fuel' = some (value, m') := by
  induction hc with
  | first => exact ⟨fuel, h⟩
  | next _ hopen hround ih =>
    obtain ⟨_, hrun⟩ := ih
    obtain ⟨floor, fuel', hround', hrun'⟩ := run_of_open hopen hrun
    rw [hround] at hround'
    cases hround'
    exact ⟨fuel', hrun'⟩

theorem turns_add (n k : Nat) (f : Floor) : (f.turns n).turns k = f.turns (n + k) := by
  induction n generalizing f with
  | zero => rw [Nat.zero_add, Floor.turns]
  | succ n ih =>
    rw [Nat.succ_add]
    cases hqueue : f.queue with
    | nil =>
      have hnone : ∀ j, f.turns j = f := by
        intro j
        cases j with
        | zero => rfl
        | succ j => simp only [Floor.turns, hqueue]
      rw [hnone, hnone, hnone]
    | cons i queue => simp only [Floor.turns, hqueue, ih]

/-- From all crews that it passes the run goes on to its end. -/
theorem Passes.ends (hp : Passes c₀ p) (h : c₀.run fuel = some (value, m')) : p.Ends value m' := by
  obtain ⟨c, hrounds, rfl | ⟨hopen, n, hn, rfl⟩⟩ := hp
  · exact .inl (hrounds.run h)
  · obtain ⟨_, hrun⟩ := hrounds.run h
    obtain ⟨floor, fuel', hround, hrun'⟩ := run_of_open hopen hrun
    refine .inr ⟨61 - n, floor, fuel', ?_, hrun'⟩
    rw [turns_add, Nat.add_sub_cancel' hn, ← Floor.round?_eq]
    exact hround

theorem Pursues.of_ends (h : p.Pursues d goal side e owner) (hends : p.Ends value m') :
    goal (some value) m' := by
  rcases hends with ⟨fuel, hrun⟩ | ⟨n, floor, fuel, hclose, hrun⟩
  · exact run_of_goes h.leadTurn hrun
  · obtain ⟨e', owner', hturns, -⟩ := h.turns n
    exact run_of_goes (hturns.close? hclose).leadTurn hrun

/-- The lead pursues no more than what remains of its work. -/
theorem Pursues.rest (h : p.Pursues d goal side e owner) :
    p.Pursues d (p.lead.thread.Reaches d e p.moment) side e owner where
  sound := h.sound
  lead := ⟨h.lead.isOpen, h.lead.tame, h.lead.accounts, h.lead.onTime, fun _ _ hr => hr⟩
  attends := h.attends
  minded := h.minded
  serve := h.serve

end Workflow.Crew
