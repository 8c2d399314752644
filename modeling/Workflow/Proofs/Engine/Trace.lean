import Workflow.Proofs.Engine.Step
import Workflow.Sample

/-!
# The trace of a run

History and path of a context tell the same story. Each state that a run dispatches is added to the
path, and each move that it makes to the history; where a run goes on, it has just moved away from
the state that it dispatched last, so the origins of its moves are the states that it dispatched.
-/

namespace Workflow

def Chained : (start : String) → List Move → (finish : String) → Prop
  | start, [], finish => start = finish
  | start, move :: moves, finish => move.origin = start ∧ Chained move.target moves finish

namespace Chained

variable {start middle finish : String} {moves : List Move}

theorem snoc {target : String} {data : Data} (h : Chained start moves middle) :
    Chained start (moves ++ [⟨middle, target, data⟩]) target := by
  induction moves generalizing start with
  | nil => exact ⟨h.symm, rfl⟩
  | cons move moves ih => exact ⟨h.1, ih h.2⟩

/-- The states from which the moves are made, and the one in which they end. -/
theorem origins_append (h : Chained start moves finish) :
    moves.map Move.origin ++ [finish] = start :: moves.map Move.target := by
  induction moves generalizing start with
  | nil => exact congrArg (fun state => [state]) h.symm
  | cons move moves ih =>
    rw [List.map_cons, List.cons_append, ih h.2, h.1]
    rfl

theorem origins_le (h : Chained start moves finish) :
    moves.map Move.origin <+: start :: moves.map Move.target :=
  ⟨[finish], h.origins_append⟩

end Chained

namespace Engine

def firstState (e : Engine) (ctx : Context) : String :=
  if ctx.currentState.isEmpty then e.initial else ctx.currentState

/-- There is an edge from one state to the other, or the one is the error target of the other. -/
def Links (e : Engine) (origin target : String) : Prop :=
  (∃ t ∈ e.transitions, t.origin = origin ∧ t.target = target) ∨
    e.errorTargets.get? origin = some target

variable {e : Engine} {run : Run} {m m' m₁ m₂ : Moment} {ctx₀ : Context} {state : State}

theorem context_start (m : Moment) :
    (e.start m).context = m.context.enter (e.firstState m.context) := by
  unfold start firstState
  split <;> rfl

/-- After its work a state has been noted in the path, and only the data have changed otherwise. -/
theorem context_of_dispatch {r : Option (Except Fault Verdict)}
    (hwork : (e.dispatch state).Reaches .free (e.entered state m) r m₁) (hm : m₁.Noted m₂) :
    m₂.context = { m.context.visit m.context.currentState with data := m₂.data } := by
  have hentered : (e.entered state m).context = m.context.visit m.context.currentState :=
    rfl
  have hlater := (later_of_dispatch hwork).context
  rw [hentered] at hlater
  have hdata : m₂.data = m₁.data := congrArg Context.data hm.context
  rw [hm.context, hdata]
  exact hlater

theorem trace_of_dispatch {r : Option (Except Fault Verdict)}
    (hwork : (e.dispatch state).Reaches .free (e.entered state m) r m₁) (hm : m₁.Noted m₂) :
    m₂.context.history = m.context.history ∧
      m₂.context.path = m.context.path ++ [m.context.currentState] ∧
      m₂.context.currentState = m.context.currentState := by
  rw [context_of_dispatch hwork hm]
  exact ⟨rfl, rfl, rfl⟩

/-- A run ends in the state that it has dispatched, or moves to another one for that. -/
theorem trace_of_complete (e : Engine) (current : String) (verdict : Verdict) (m : Moment) :
    (e.complete current verdict m).context.path = m.context.path ∧
      ((e.complete current verdict m).context.currentState = current ∧
          (e.complete current verdict m).context.history = m.context.history ∨
        verdict.next ≠ current ∧ ∃ data, (e.complete current verdict m).context.history =
          m.context.history ++
            [⟨current, (e.complete current verdict m).context.currentState, data⟩]) := by
  let target := if verdict.next.isEmpty then current else verdict.next
  have hctx : (e.complete current verdict m).context =
      ((if target = current then m.context else
        m.context.addMove current target verdict.data).merge verdict.data).enter target := rfl
  rw [hctx]
  split
  next htarget => exact ⟨rfl, .inl ⟨htarget, rfl⟩⟩
  next htarget =>
    refine ⟨rfl, .inr ⟨?_, verdict.data, rfl⟩⟩
    rintro rfl
    exact htarget (ite_id _)

theorem links_of_pick {current preferred : String} {data : Data} {t : Transition}
    (h : e.pick current preferred data = .ok t) : e.Links current t.target := by
  obtain ⟨hmem, horigin⟩ := List.mem_filter.1 (pick_eq_ok h).1
  exact .inl ⟨t, hmem, eq_of_beq horigin, rfl⟩

structure Trail (Q : String → String → Prop) (first : String) (ctx₀ ctx : Context)
    (moves : List Move) : Prop where
  history : ctx.history = ctx₀.history ++ moves
  path : ctx.path = ctx₀.path ++ moves.map Move.origin
  chained : Chained first moves ctx.currentState
  links : ∀ move ∈ moves, Q move.origin move.target

variable {Q : String → String → Prop} {first : String} {moves : List Move}

theorem trail_start (Q : String → String → Prop) (m : Moment) :
    Trail Q (e.firstState m.context) m.context (e.start m).context [] := by
  rw [context_start]
  exact ⟨(List.append_nil _).symm, (List.append_nil _).symm, rfl, fun _ hmem => by cases hmem⟩

/-- A state that has been dispatched is left by one more move. -/
theorem Trail.move {ctx ctx' : Context} {data : Data} (h : Trail Q first ctx₀ ctx moves)
    (hhistory : ctx'.history = ctx.history ++ [⟨ctx.currentState, ctx'.currentState, data⟩])
    (hpath : ctx'.path = ctx.path ++ [ctx.currentState])
    (hlinks : Q ctx.currentState ctx'.currentState) :
    Trail Q first ctx₀ ctx' (moves ++ [⟨ctx.currentState, ctx'.currentState, data⟩]) where
  history := by rw [hhistory, h.history, List.append_assoc]
  path := by
    rw [hpath, h.path, List.map_append, List.append_assoc]
    rfl
  chained := h.chained.snoc
  links move hmem := by
    rcases List.mem_append.1 hmem with hmem | hmem
    · exact h.links move hmem
    · rw [List.mem_singleton.1 hmem]
      exact hlinks

/-- A step that goes on leaves the state that it has dispatched. -/
theorem moved_of_goes {run' : Run} (hstep : e.Stepped .free run m (.goesOn run') m') :
    (∃ data, m'.context.history =
        m.context.history ++ [⟨m.context.currentState, m'.context.currentState, data⟩]) ∧
      m'.context.path = m.context.path ++ [m.context.currentState] ∧
      e.Links m.context.currentState m'.context.currentState := by
  cases hstep with
  | dispatched _ _ _ hwork hm hfollow =>
    obtain ⟨hhistory, hpath, -⟩ := trace_of_dispatch hwork hm.noted
    cases hfollow with
    | rerouted htarget _ => exact ⟨⟨_, congrArg (· ++ [_]) hhistory⟩, hpath, .inr htarget⟩
    | moved hm' _ hpick =>
      rw [← hm'.context] at hhistory hpath
      exact ⟨⟨_, congrArg (· ++ [_]) hhistory⟩, hpath, links_of_pick hpick⟩

theorem Trail.goes {run' : Run} (h : ∃ moves, Trail Q first ctx₀ m.context moves)
    (hstep : e.Stepped .free run m (.goesOn run') m')
    (hlinks : Q m.context.currentState m'.context.currentState) :
    ∃ moves, Trail Q first ctx₀ m'.context moves := by
  obtain ⟨moves, h⟩ := h
  obtain ⟨⟨data, hhistory⟩, hpath, -⟩ := moved_of_goes hstep
  exact ⟨_, h.move hhistory hpath hlinks⟩

/-- What the last step of a run has done to history and path: nothing, or it has dispatched a state
and then stayed there or, to complete the run, moved on. -/
inductive Ended (ctx ctx' : Context) (outcome : Except Fault Unit) : Prop
  | here (hctx : ctx' = ctx)
  | stays (history : ctx'.history = ctx.history) (path : ctx'.path = ctx.path ++ [ctx.currentState])
      (current : ctx'.currentState = ctx.currentState)
  | leaves {data : Data} (houtcome : outcome = .ok ())
      (history : ctx'.history = ctx.history ++ [⟨ctx.currentState, ctx'.currentState, data⟩])
      (path : ctx'.path = ctx.path ++ [ctx.currentState])

theorem ended_of_stepped {run' : Run} {outcome : Except Fault Unit}
    (hstep : e.Stepped .free run m (.ended run' outcome) m') :
    Ended m.context m'.context outcome := by
  cases hstep with
  | cancelled hm _ _ | spent hm _ => exact .here hm.context
  | lost _ _ => exact .here rfl
  | @dispatched state _ _ m₁ m₂ _ _ _ _ hwork hm hfollow =>
    obtain ⟨hhistory, hpath, hcurrent⟩ := trace_of_dispatch hwork hm.noted
    cases hfollow with
    | failed hm' _ | stuck hm' _ _ =>
      rw [← hm'.context] at hhistory hpath hcurrent
      exact .stays hhistory hpath hcurrent
    | @completed verdict _ =>
      obtain ⟨hpath', ⟨hcurrent', hhistory'⟩ | ⟨-, data, hhistory'⟩⟩ :=
        e.trace_of_complete m.context.currentState verdict m₂
      · exact .stays (hhistory'.trans hhistory) (hpath'.trans hpath) hcurrent'
      · exact .leaves rfl (hhistory'.trans (congrArg (· ++ [_]) hhistory)) (hpath'.trans hpath)

/-- History and path of a run that is over. -/
structure Told (Q : String → String → Prop) (first : String) (ctx₀ : Context)
    (outcome : Except Fault Unit) (ctx : Context) (moves : List Move) (visited : List String) :
    Prop where
  history : ctx.history = ctx₀.history ++ moves
  path : ctx.path = ctx₀.path ++ visited
  chained : Chained first moves ctx.currentState
  dispatched : visited <+: first :: moves.map Move.target
  length : visited.length = moves.length ∨ visited.length = moves.length + 1
  links : ∀ move ∈ if outcome.isOk then moves.dropLast else moves, Q move.origin move.target

theorem Told.imp {Q' : String → String → Prop} {outcome : Except Fault Unit} {ctx : Context}
    {visited : List String} (himp : ∀ origin target, Q origin target → Q' origin target)
    (h : Told Q first ctx₀ outcome ctx moves visited) :
    Told Q' first ctx₀ outcome ctx moves visited :=
  { h with links := fun move hmem => himp _ _ (h.links move hmem) }

namespace Trail

variable {ctx ctx' : Context} {outcome : Except Fault Unit}

theorem links_of_ended (h : Trail Q first ctx₀ ctx moves) :
    ∀ move ∈ if outcome.isOk then moves.dropLast else moves, Q move.origin move.target := by
  intro move hmem
  split at hmem
  · exact h.links move (List.dropLast_subset _ hmem)
  · exact h.links move hmem

theorem told_here (h : Trail Q first ctx₀ ctx moves) :
    Told Q first ctx₀ outcome ctx moves (moves.map Move.origin) :=
  ⟨h.history, h.path, h.chained, h.chained.origins_le, .inl (List.length_map _),
    h.links_of_ended⟩

theorem told_stays (h : Trail Q first ctx₀ ctx moves) (hhistory : ctx'.history = ctx.history)
    (hpath : ctx'.path = ctx.path ++ [ctx.currentState])
    (hcurrent : ctx'.currentState = ctx.currentState) :
    Told Q first ctx₀ outcome ctx' moves (moves.map Move.origin ++ [ctx.currentState]) where
  history := hhistory.trans h.history
  path := by rw [hpath, h.path, List.append_assoc]
  chained := hcurrent ▸ h.chained
  dispatched := h.chained.origins_append ▸ List.prefix_rfl
  length := .inr (by rw [List.length_append, List.length_map, List.length_singleton])
  links := h.links_of_ended

theorem told_leaves (h : Trail Q first ctx₀ ctx moves) {data : Data}
    (hhistory : ctx'.history = ctx.history ++ [⟨ctx.currentState, ctx'.currentState, data⟩])
    (hpath : ctx'.path = ctx.path ++ [ctx.currentState]) :
    Told Q first ctx₀ (.ok ()) ctx' (moves ++ [⟨ctx.currentState, ctx'.currentState, data⟩])
      (moves.map Move.origin ++ [ctx.currentState]) where
  history := by rw [hhistory, h.history, List.append_assoc]
  path := by rw [hpath, h.path, List.append_assoc]
  chained := h.chained.snoc
  dispatched := by
    rw [List.map_append, ← List.cons_append, ← h.chained.origins_append]
    exact List.prefix_append _ _
  length := .inl (by rw [List.length_append, List.length_append, List.length_map]; rfl)
  links move hmem := by
    have hok : (Except.ok () : Except Fault Unit).isOk = true := rfl
    rw [if_pos hok, List.dropLast_concat] at hmem
    exact h.links move hmem

theorem told (h : Trail Q first ctx₀ ctx moves) (hended : Ended ctx ctx' outcome) :
    ∃ moves visited, Told Q first ctx₀ outcome ctx' moves visited := by
  cases hended with
  | here hctx => exact ⟨_, _, hctx ▸ h.told_here⟩
  | stays hhistory hpath hcurrent => exact ⟨_, _, h.told_stays hhistory hpath hcurrent⟩
  | leaves houtcome hhistory hpath =>
    subst houtcome
    exact ⟨_, _, h.told_leaves hhistory hpath⟩

end Trail

/-- For every run that returns, history and path grow by one consistent trace: the moves lead from
the first state to the current one, the states entered into the path are the first one and the
targets of the moves, with or without the last, and every move is one of the engine, but for the
last one of a run that succeeds. -/
theorem history_is_path {fuel : Nat} {cancelAt : Option Nat} {m : Moment} {done : Finished}
    (h : e.carryOut fuel cancelAt m = some done) :
    ∃ moves visited, Told e.Links (e.firstState m.context) m.context done.outcome
      done.moment.context moves visited := by
  refine carryOut_induction
    (P := fun _ m' => ∃ moves, Trail e.Links (e.firstState m.context) m.context m'.context moves)
    (Q := fun _ outcome m' => ∃ moves visited,
      Told e.Links (e.firstState m.context) m.context outcome m'.context moves visited)
    (fun h hstep => Trail.goes h hstep (moved_of_goes hstep).2.2) (fun ⟨moves, h⟩ hstep => ?_)
    ⟨[], trail_start _ m⟩ h
  exact h.told (ended_of_stepped hstep)

theorem history_is_path_linear :
    ∃ e done, (ofSpec .builtins [] none Sample.linear).2 = .ok e ∧
      e.carryOut 9 none { context := { identity := { session := "s" } } } = some done ∧
      done.moment.context.path = ["a", "b", "c"] ∧
      ∃ moves visited, Told e.Links (e.firstState { identity := { session := "s" } })
        { identity := { session := "s" } } done.outcome done.moment.context moves visited := by
  obtain ⟨e, done, he, hdone, hpath⟩ := exists_run .builtins [] none Sample.linear 9 none
    { context := { identity := { session := "s" } } } ["a", "b", "c"] rfl
  exact ⟨e, done, he, hdone, hpath, history_is_path hdone⟩

end Engine

end Workflow
