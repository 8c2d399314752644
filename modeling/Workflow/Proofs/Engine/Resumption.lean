import Workflow.Proofs.Engine.Limits
import Workflow.Sample

/-!
# Resumed runs

A run that its step limit has stopped goes on where it stood when the engine is executed again on
the same context. Whoever executes it again and again, as long as the limit is what stops it, gets
what a single run without a limit leaves: step by step the one echoes the other, and what a limit
adds in between is seen in the journal only.
-/

namespace Workflow.Engine

variable {e : Engine} {hooks : List Hook} {maxSteps : Option Nat} {n : Nat} {spec : WorkflowSpec}
  {run run' : Run}
  {m m' : Moment}

def insistOn (again : Work (Option (Except Fault Unit))) :
    Progress → Work (Option (Except Fault Unit))
  | .goesOn _ => .done none
  | .ended _ outcome => if ranOut outcome then again else .done (some outcome)

/-- Executes the engine on the same context, and again as soon as the execution has returned, at
most `calls` times, until it is not the step limit that has stopped it. -/
def insist (e : Engine) (fuel : Nat) : (calls : Nat) → Work (Option (Except Fault Unit))
  | 0 => .done none
  | calls + 1 => (e.execute fuel).bind (insistOn (e.insist fuel calls))

/-- The outcome that is not the step limit, and the moment at that point; nothing comes of it if
`fuel` executions of as many steps, in as many rounds, are not enough. -/
def insistOut (e : Engine) (fuel : Nat) (m : Moment) : Option (Except Fault Unit × Moment) :=
  match (e.insist fuel fuel).carryOut fuel none m with
  | some (some outcome, moment) => some (outcome, moment)
  | _ => none

theorem noted_start (h : m.context.currentState ≠ "") : m.Noted (e.start m) := by
  unfold start
  rw [if_neg (mt String.isEmpty_iff.1 h)]
  exact e.noted_report _ _ _ m

/-- When the step limit has been reached, all that remains is to execute the engine again. -/
theorem drifts_spent (hlimit : e.spentLimit? run = some n) (hc : m.cancelled = false) (steps : Nat)
    (again : Work (Option (Except Fault Unit))) :
    ∃ m₁, Work.Drifts m ((e.advance (steps + 1) run).bind (insistOn again)) m₁ again := by
  refine ⟨e.report .error "Step limit reached"
    [("state", m.context.currentState), ("limit", toString n)] m, .act (.refl m) ?_⟩
  simp only [id, hc, Bool.and_false, Bool.false_eq_true, if_false, hlimit]
  exact .act (e.noted_report _ _ _ m) (.refl _ _)

theorem drifts_insist (e : Engine) (h : m.context.currentState ≠ "") (fuel calls : Nat) :
    Work.Drifts m (e.insist fuel (calls + 1)) (e.start m)
      ((e.advance fuel {}).bind (insistOn (e.insist fuel calls))) :=
  .act (noted_start h) (.refl _ _)

def Unfinished (progress : Progress) : Prop :=
  ∃ run, progress = .goesOn run

inductive Agree : Progress → Moment → Option (Except Fault Unit) → Moment → Prop
  | intro {run : Run} {outcome : Except Fault Unit} {m m' : Moment} :
      Agree (.ended run outcome) m (some outcome) m'

theorem spentLimit?_limitTo (e : Engine) (run : Run) (n : Nat) :
    (e.limitTo (some n)).spentLimit? run = if n ≤ run.steps then some n else none := by
  unfold spentLimit? limitTo
  rw [Option.filter_some]
  simp only [decide_eq_true_eq]

theorem insistOn_ended (again : Work (Option (Except Fault Unit))) (run : Run)
    {outcome : Except Fault Unit} (h : ranOut outcome = false) :
    insistOn again (.ended run outcome) = .done (some outcome) :=
  if_neg (Bool.eq_false_iff.1 h)

/-- A run without a limit is echoed by whoever insists on executing an engine with a limit. -/
theorem Assembled.advance_echoed (h : Assembled .builtins hooks maxSteps spec e) (hn : 1 ≤ n)
    {fuel : Nat}
    (hfuel : n < fuel) {left steps calls : Nat} (hm : m.Noted m') (hc : m.cancelled = false)
    (hcurrent : m.context.currentState ≠ "") (hlimit : run'.steps ≤ n)
    (hsteps : n < steps + run'.steps) (hcalls : left ≤ calls) :
    Work.Echo Unfinished Agree m ((e.limitTo none).advance left run) m'
      (((e.limitTo (some n)).advance steps run').bind
        (insistOn ((e.limitTo (some n)).insist fuel calls))) := by
  induction left generalizing steps calls run run' m m' with
  | zero => exact .early ⟨run, rfl⟩
  | succ left ih =>
    have hgoes : ∀ {steps calls : Nat} {run' : Run} {m' : Moment}, m.Noted m' → run'.steps < n →
        n < steps + run'.steps → left ≤ calls →
        Work.Echo Unfinished Agree m ((e.limitTo none).advance (left + 1) run) m'
          (((e.limitTo (some n)).advance steps run').bind
            (insistOn ((e.limitTo (some n)).insist fuel calls))) := by
      intro steps calls run' m' hm hlimit hsteps hcalls
      cases steps with
      | zero => omega
      | succ steps =>
        have hunspent : (e.limitTo (some n)).spentLimit? run' = none := by
          rw [spentLimit?_limitTo, if_neg (Nat.not_le.2 hlimit)]
        rw [advance_succ, advance_succ, Work.bind_assoc]
        apply (h.step_echoes rfl hunspent m m' hm hc).bind hm hc fun _ hfalse => hfalse
        intro progress m progress' m' hprogress hm hc
        cases hprogress with
        | goesOn hnext hcurrent => exact ih hm hc hcurrent (by omega) (by omega) hcalls
        | ended hout =>
          rw [Work.done_bind, insistOn_ended _ _ hout]
          exact .done .intro
    by_cases hspent : run'.steps < n
    · exact hgoes hm hspent hsteps (by omega)
    · cases steps with
      | zero => omega
      | succ steps =>
        cases calls with
        | zero => omega
        | succ calls =>
          have hlimit : (e.limitTo (some n)).spentLimit? run' = some n := by
            rw [spentLimit?_limitTo, if_pos (Nat.not_lt.1 hspent)]
          obtain ⟨m₁, hstop⟩ := drifts_spent hlimit (hm.cancelled.trans hc) steps
            ((e.limitTo (some n)).insist fuel (calls + 1))
          have hm₁ : m.Noted m₁ := hm.trans hstop.noted
          have hagain := (e.limitTo (some n)).drifts_insist (hm₁.context ▸ hcurrent) fuel calls
          refine hstop.second (hagain.second ?_)
          exact hgoes (hm₁.trans hagain.noted) hn hfuel (by omega)

/-- If what is done once the limit has been reached is echoed by a run without a limit, then so is
the execution that leads there. -/
theorem Assembled.execution_echoed (h : Assembled .builtins hooks maxSteps spec e)
    {again : Work (Option (Except Fault Unit))} {bound : Nat}
    (hagain : ∀ {left : Nat} {run' : Run} {m m' : Moment}, m.Noted m' → m.cancelled = false →
      m.context.currentState ≠ "" → bound ≤ left →
        Work.Echo (· = none) (fun answer m progress m' => Agree progress m' answer m) m again m'
          ((e.limitTo none).advance left run'))
    {steps left : Nat} (hm : m.Noted m') (hc : m.cancelled = false)
    (hcurrent : m.context.currentState ≠ "") (hleft : steps + bound ≤ left) :
    Work.Echo (· = none) (fun answer m progress m' => Agree progress m' answer m) m
      (((e.limitTo (some n)).advance steps run).bind (insistOn again)) m'
      ((e.limitTo none).advance left run') := by
  induction steps generalizing left run run' m m' with
  | zero => exact .early rfl
  | succ steps ih =>
    by_cases hspent : n ≤ run.steps
    · have hlimit : (e.limitTo (some n)).spentLimit? run = some n := by
        rw [spentLimit?_limitTo, if_pos hspent]
      obtain ⟨m₁, hstop⟩ := drifts_spent hlimit hc steps again
      have hm₁ : m₁.Noted m' := hstop.noted.symm.trans hm
      have hc₁ : m₁.cancelled = false := hstop.noted.cancelled.trans hc
      have hcurrent₁ : m₁.context.currentState ≠ "" := by
        rw [hstop.noted.context]
        exact hcurrent
      exact hstop.first (hagain hm₁ hc₁ hcurrent₁ (by omega))
    · have hlimit : (e.limitTo (some n)).spentLimit? run = none := by
        rw [spentLimit?_limitTo, if_neg hspent]
      cases left with
      | zero => omega
      | succ left =>
        rw [advance_succ, advance_succ, Work.bind_assoc]
        apply (h.step_echoes hlimit rfl m m' hm hc).bind hm hc fun _ hfalse => hfalse
        intro progress m progress' m' hprogress hm hc
        cases hprogress with
        | goesOn _ hcurrent => exact ih hm hc hcurrent (by omega)
        | ended hout =>
          rw [Work.done_bind, insistOn_ended _ _ hout]
          exact .done .intro

/-- Whoever insists on executing an engine with a limit is echoed by a run without a limit. -/
theorem Assembled.insist_echoed (h : Assembled .builtins hooks maxSteps spec e)
    {fuel calls left : Nat}
    (hm : m.Noted m') (hc : m.cancelled = false) (hcurrent : m.context.currentState ≠ "")
    (hleft : fuel * calls ≤ left) :
    Work.Echo (· = none) (fun answer m progress m' => Agree progress m' answer m) m
      ((e.limitTo (some n)).insist fuel calls) m' ((e.limitTo none).advance left run') := by
  induction calls generalizing left run' m m' with
  | zero => exact .early rfl
  | succ calls ih =>
    have hstart := (e.limitTo (some n)).drifts_insist hcurrent fuel calls
    have hm₁ := hstart.noted.symm.trans hm
    have hc₁ := hstart.noted.cancelled.trans hc
    rw [Nat.mul_succ, Nat.add_comm] at hleft
    exact hstart.first (h.execution_echoed ih hm₁ hc₁ (hstart.noted.context ▸ hcurrent) hleft)

theorem steady_start (e : Engine) : Moment.Steady e.start := by
  have hscene : ∀ m, (e.start m).now = m.now ∧ (e.start m).cancelled = m.cancelled ∧
      (e.start m).starts = m.starts := by
    intro m
    unfold start
    split <;> exact ⟨rfl, rfl, rfl⟩
  intro m m' hm hc
  obtain ⟨hnow, hcancelled, hstarts⟩ := hscene m
  obtain ⟨hnow', hcancelled', hstarts'⟩ := hscene m'
  refine ⟨⟨?_, ?_, ?_, ?_⟩, hcancelled.trans hc⟩
  · rw [context_start, context_start, hm.context]
  · rw [hnow, hnow', hm.now]
  · rw [hcancelled, hcancelled', hm.cancelled]
  · rw [hstarts, hstarts', hm.starts]

theorem Assembled.started (h : Assembled .builtins hooks maxSteps spec e) (m : Moment) :
    (e.start m).context.currentState ≠ "" := by
  have hcurrent : (e.start m).context.currentState = e.firstState m.context := by
    rw [context_start]
    rfl
  rw [hcurrent, firstState]
  split
  · rw [h.initial]
    exact h.name_ne_empty h.valid.initial
  next hne => exact mt String.isEmpty_iff.2 hne

theorem Assembled.execute_echoed (h : Assembled .builtins hooks maxSteps spec e) (hn : 1 ≤ n)
    {fuel calls left : Nat} (hfuel : n < fuel) (hcalls : left ≤ calls) :
    ((e.limitTo none).execute left).Echoes Unfinished Agree
      ((e.limitTo (some n)).insist fuel (calls + 1)) := by
  intro m m' hm hc
  obtain ⟨hnoted, hcancelled⟩ := e.steady_start m m' hm hc
  refine .act hnoted hcancelled ?_
  exact h.advance_echoed hn hfuel hnoted hcancelled (h.started m) (Nat.zero_le n) hfuel hcalls

theorem Assembled.insist_echoes (h : Assembled .builtins hooks maxSteps spec e)
    {fuel calls left : Nat}
    (hleft : fuel * calls ≤ left) :
    ((e.limitTo (some n)).insist fuel calls).Echoes (· = none)
      (fun answer m progress m' => Agree progress m' answer m) ((e.limitTo none).execute left) := by
  intro m m' hm hc
  cases calls with
  | zero => exact .early rfl
  | succ calls =>
    obtain ⟨hnoted, hcancelled⟩ := e.steady_start m m' hm hc
    refine .act hnoted hcancelled ?_
    rw [Nat.mul_succ, Nat.add_comm] at hleft
    exact h.execution_echoed h.insist_echoed hnoted hcancelled (h.started m) hleft

theorem insistOut_eq_some {fuel : Nat} {outcome : Except Fault Unit} :
    e.insistOut fuel m = some (outcome, m') ↔
      (e.insist fuel fuel).carryOut fuel none m = some (some outcome, m') := by
  simp only [insistOut]
  constructor
  · intro h
    split at h
    next hrun =>
      cases h
      exact hrun
    · cases h
  · intro h
    rw [h]

theorem limitTo_maxSteps (e : Engine) : e.limitTo e.maxSteps = e := rfl

/-- If a run without a limit returns, then so does every sufficiently long sequence of executions of
the engine with a limit, with the same outcome and the same context. -/
theorem Assembled.insistOut_of_carryOut (h : Assembled .builtins hooks none spec e) (hn : 1 ≤ n)
    (hm : m.cancelled = false) {fuel more : Nat} {done : Finished}
    (hdone : e.carryOut fuel none m = some done) (hmore : fuel + n < more) :
    ∃ m', (e.limitTo (some n)).insistOut more m = some (done.outcome, m') ∧
      done.moment.Noted m' := by
  have he : e.limitTo none = e := h.maxSteps ▸ e.limitTo_maxSteps
  obtain ⟨calls, rfl⟩ : ∃ calls, more = calls + 1 := ⟨more - 1, by omega⟩
  have hecho : ((e.limitTo none).execute fuel).Echoes Unfinished Agree
      ((e.limitTo (some n)).insist (calls + 1) (calls + 1)) :=
    h.execute_echoed hn (by omega) (by omega)
  rw [he] at hecho
  have hrun := Work.carryOut_of_le (carryOut_eq_some.1 hdone) (by omega : fuel ≤ calls + 1)
  obtain ⟨answer, m', hanswer, hagree, hnoted⟩ := hecho.carryOut hm hrun nofun
  cases hagree
  exact ⟨m', insistOut_eq_some.2 hanswer, hnoted⟩

theorem Assembled.carryOut_of_insistOut (h : Assembled .builtins hooks none spec e)
    (hm : m.cancelled = false) {fuel : Nat} {outcome : Except Fault Unit}
    (hout : (e.limitTo (some n)).insistOut fuel m = some (outcome, m')) :
    ∃ fuel done, e.carryOut fuel none m = some done ∧ done.outcome = outcome ∧
      m'.Noted done.moment := by
  have he : e.limitTo none = e := h.maxSteps ▸ e.limitTo_maxSteps
  have hecho : ((e.limitTo (some n)).insist fuel fuel).Echoes (· = none)
      (fun answer m progress m' => Agree progress m' answer m)
      ((e.limitTo none).execute (fuel * fuel + fuel)) := h.insist_echoes (Nat.le_add_right _ _)
  rw [he] at hecho
  have hrun := Work.carryOut_of_le (insistOut_eq_some.1 hout) (by omega : fuel ≤ fuel * fuel + fuel)
  obtain ⟨progress, m₁, hprogress, hagree, hnoted⟩ := hecho.carryOut hm hrun nofun
  cases hagree with
  | @intro run =>
    exact ⟨_, ⟨run, outcome, m₁⟩, carryOut_eq_some.2 hprogress, rfl, hnoted⟩

/-- Executing an engine with a limit again and again, until it is not the limit that stops it, comes
to an end if and only if the run without a limit does, and with the same outcome and the same
context. -/
theorem resumed_run_same {e' : Engine} (he : (ofSpec .builtins hooks none spec).2 = .ok e)
    (he' : (ofSpec .builtins hooks (some n) spec).2 = .ok e') (hn : 1 ≤ n)
    (hm : m.cancelled = false) :
    ((∃ fuel done, e.carryOut fuel none m = some done) ↔
        ∃ fuel result, e'.insistOut fuel m = some result) ∧
      ∀ {fuel fuel' : Nat} {done : Finished} {outcome : Except Fault Unit} {m' : Moment},
        e.carryOut fuel none m = some done → e'.insistOut fuel' m = some (outcome, m') →
          outcome = done.outcome ∧ m'.context = done.moment.context := by
  have ha := assembled_of_ofSpec he
  cases (ofSpec_limitTo he).symm.trans he'
  refine ⟨⟨?_, ?_⟩, ?_⟩
  · rintro ⟨fuel, done, hdone⟩
    obtain ⟨m', hout, -⟩ := ha.insistOut_of_carryOut hn hm hdone (Nat.lt_succ_self _)
    exact ⟨_, _, hout⟩
  · rintro ⟨fuel, ⟨outcome, m'⟩, hout⟩
    obtain ⟨fuel, done, hdone, -⟩ := ha.carryOut_of_insistOut hm hout
    exact ⟨fuel, done, hdone⟩
  · intro fuel fuel' done outcome m' hdone hout
    obtain ⟨fuel₁, done₁, hdone₁, houtcome, hnoted⟩ := ha.carryOut_of_insistOut hm hout
    -- both runs without a limit are echoed by the same executions
    let more := fuel + fuel₁ + n + 1
    obtain ⟨m₂, hout₂, hnoted₂⟩ := ha.insistOut_of_carryOut hn hm hdone (by omega : _ < more)
    obtain ⟨m₃, hout₃, hnoted₃⟩ := ha.insistOut_of_carryOut hn hm hdone₁ (by omega : _ < more)
    obtain ⟨houtcome', rfl⟩ := Prod.mk.inj (Option.some.inj (hout₂.symm.trans hout₃))
    refine ⟨houtcome.symm.trans houtcome'.symm, ?_⟩
    rw [← hnoted.context, ← hnoted₃.context, hnoted₂.context]

theorem resumed_run_same_linear :
    ∃ e e' done fuel outcome m', (ofSpec .builtins [] none Sample.linear).2 = .ok e ∧
      (ofSpec .builtins [] (some 1) Sample.linear).2 = .ok e' ∧
      e.carryOut 9 none { context := { identity := { session := "s" } } } = some done ∧
      done.moment.context.path = ["a", "b", "c"] ∧
      e'.insistOut fuel { context := { identity := { session := "s" } } } = some (outcome, m') ∧
      outcome = done.outcome ∧ m'.context = done.moment.context := by
  obtain ⟨e, done, he, hdone, hpath⟩ := exists_run .builtins [] none Sample.linear 9 none
    { context := { identity := { session := "s" } } } ["a", "b", "c"] rfl
  have he' : (ofSpec .builtins [] (some 1) Sample.linear).2 = .ok (e.limitTo (some 1)) :=
    ofSpec_limitTo he
  let start : Moment := { context := { identity := { session := "s" } } }
  have hstart : start.cancelled = false := rfl
  obtain ⟨hends, hsame⟩ := resumed_run_same he he' (Nat.le_refl 1) hstart
  obtain ⟨fuel, ⟨outcome, m'⟩, hout⟩ := hends.1 ⟨9, done, hdone⟩
  exact ⟨e, _, done, fuel, outcome, m', he, he', hdone, hpath, hout, hsame hdone hout⟩

end Workflow.Engine
