import Workflow.Work.Turn

/-!
# Crews

A crew carries out a run in rounds. In each round the lead has a turn if it has been called, and
then the hands that have been called have theirs, one after the other. The clock stands still as
long as any worker can go on; then it moves to the next alarm.

`Crew.run` makes at most a given number of rounds. More rounds do not change what has come of a run
that is over.
-/

namespace Workflow

/-- A turn at a station, and whether the worker wants another one right away. -/
def Station.work {α : Type} (station : Station α) (worker : Worker) (f : Floor) :
    Station α × Bool × Floor :=
  let (thread, t) := station.thread.resume 0 { floor := f, worker, context := station.context }
  (⟨t.context, thread⟩, t.again, t.floor)

namespace Floor

def turnOf (f : Floor) (i : Nat) : Floor :=
  match f.hands[i]? with
  | none => f
  | some hand =>
    let (station, again, f) := hand.work (.hand i) f
    let f := f.put i station
    if again then f.call (.hand i) else f

/-- Turns of the first `n` hands in the queue, or of all if there are fewer. -/
def turns : (n : Nat) → Floor → Floor
  | 0, f => f
  | n + 1, f =>
    match f.queue with
    | [] => f
    | i :: queue => turns n ({ f with queue }.turnOf i)

/-- What follows the turn of the lead: up to 61 hands have theirs, and the workers that have given
way are called. When no worker can go on, the clock moves; without an alarm nothing is left. -/
def round? (f : Floor) : Option Floor :=
  let f := f.turns 61
  if f.queue.isEmpty && f.yielded.isEmpty && !f.leadCalled then f.ring? else some f.callYielded

end Floor

structure Crew (α : Type) where
  floor : Floor
  lead : Station α

namespace Crew

variable {α : Type}

/-- A crew for some work that starts at a moment. What goes on beside it is carried out by hands
that nobody waits for. -/
def of (work : Work α) (beside : List (Work (Except Fault Unit))) (m : Moment) : Crew α :=
  { floor := beside.foldl (fun f work => f.hire { context := m.context, thread := .ready work })
      { scene := m.toScene }
    lead := { context := m.context, thread := .ready work } }

def moment (c : Crew α) : Moment :=
  { c.floor.scene with context := c.lead.context }

def leadTurn (c : Crew α) : Crew α :=
  if c.floor.leadCalled then
    let (lead, again, floor) := c.lead.work .lead { c.floor with leadCalled := false }
    { floor := if again then floor.call .lead else floor, lead }
  else c

/-- The value of the run and the moment at which it ended, if at most `fuel` rounds end it. -/
def run : (fuel : Nat) → Crew α → Option (α × Moment)
  | 0, _ => none
  | fuel + 1, c =>
    let c := c.leadTurn
    match c.lead.thread with
    | .ended value => some (value, c.moment)
    | _ =>
      match c.floor.round? with
      | some floor => run fuel { c with floor }
      | none => none

theorem run_succ_of_ended {c : Crew α} {fuel : Nat} {value : α}
    (h : c.leadTurn.lead.thread = .ended value) :
    c.run (fuel + 1) = some (value, c.leadTurn.moment) := by
  simp only [run, h]

theorem run_succ_of_open {c : Crew α} {fuel : Nat}
    (h : ∀ value, c.leadTurn.lead.thread ≠ .ended value) :
    c.run (fuel + 1) =
      c.leadTurn.floor.round?.bind fun floor => run fuel { c.leadTurn with floor } := by
  rw [run]
  dsimp only
  split
  next hended => exact absurd hended (h _)
  · split
    next hround => rw [hround, Option.bind_some]
    next hround => rw [hround, Option.bind_none]

theorem run_add {fuel : Nat} {c : Crew α} {result : α × Moment}
    (h : c.run fuel = some result) (more : Nat) : c.run (fuel + more) = some result := by
  induction fuel generalizing c with
  | zero => simp [run] at h
  | succ fuel ih =>
    rw [Nat.succ_add]
    simp only [run] at h ⊢
    split at h
    · exact h
    · split at h
      · exact ih h
      · simp at h

end Crew

/-- Carries out some work from a moment on, in at most `fuel` rounds. The run is cancelled after the
given number of milliseconds, if any, unless it is over before. -/
def Work.carryOut {α : Type} (fuel : Nat) (cancelAt : Option Nat) (work : Work α) (m : Moment) :
    Option (α × Moment) :=
  (Crew.of work (cancelAt.toList.map fun n => cancelAfter (.ofMillis n)) m).run fuel

/-- More rounds do not change what comes of some work. -/
theorem Work.carryOut_of_le {α : Type} {work : Work α} {cancelAt : Option Nat} {m : Moment}
    {result : α × Moment} {fuel more : Nat} (h : work.carryOut fuel cancelAt m = some result)
    (hle : fuel ≤ more) : work.carryOut more cancelAt m = some result := by
  obtain ⟨rest, rfl⟩ := Nat.exists_eq_add_of_le hle
  exact Crew.run_add h rest

end Workflow
