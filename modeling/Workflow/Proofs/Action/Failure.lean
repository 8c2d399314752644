import Workflow.Proofs.Action.Retry
import Workflow.Proofs.Work.Agree

/-!
# Where failures come from

A failure is an execution of an action that has ended with a fault. For each kind of action there is
a list of the ways in which it can fail: which failures of parts, if any, have made the whole fail,
and what the whole makes of their faults. Where a loop over the parts can be when it comes to a step
is said first, by the number of the step, what has been found so far, the steps that remain and the
moment. `Failure.StemsFrom` puts the lists together, and `Failure.exists_stemsFrom` is that there
are no other ways.
-/

namespace Workflow

structure Failure where
  site : Site
  action : Action
  start : Moment
  fault : Fault
  finish : Moment

def Step.opens (step : Step Action) (data : Data) : Except Fault Bool :=
  (step.test.map (·.evaluate data)).getD (.ok true)

namespace Action

def beginStep (name : String) (i : Nat) (action : Action) (m : Moment) : Moment :=
  m.report .debug "Running step"
    [("sequence", name), ("step", toString i), ("action", action.name)]

def beginBranch (name : String) (i : Nat) (m : Moment) : Moment :=
  recordChoice name i
    (m.report .debug "Branch selected" [("action", name), ("branch", toString i)])

def beginDefault (name : String) (m : Moment) : Moment :=
  (recordChoice name (-1) m).report .debug "Default branch selected" [("action", name)]

def beginFallback (name primary : String) (fault : Fault) (m : Moment) : Moment :=
  (m.report .warn "Primary failed, running fallback"
    [("action", name), ("primary", primary), ("error", fault.message)]).record
      name "primary_error" fault.message

def continueAfter (name : String) (i : Nat) (fault : Fault) (m : Moment) : Moment :=
  m.report .warn "Step failed, continuing"
    [("action", name), ("step", toString i), ("error", fault.message)]

def passOver (name : String) (i : Nat) (m : Moment) : Moment :=
  m.report .debug "Step gated off, skipping" [("action", name), ("step", toString i)]

def passOverFailed (name : String) (i : Nat) (fault : Fault) (m : Moment) : Moment :=
  m.report .warn "Optional step failed, skipping"
    [("action", name), ("step", toString i), ("error", fault.message)]

end Action

open Workflow.Action

namespace Failure

variable (d : Drift)

def Occurs (f : Failure) : Prop :=
  (f.action.run f.site).Reaches d f.start (some (.error f.fault)) f.finish

def named (f : Failure) : Fault :=
  .action f.action.name f.fault

structure IsOf (f : Failure) (site : Site) (action : Action) (start : Moment) : Prop where
  site_eq : f.site = site
  action_eq : f.action = action
  start_eq : f.start = start
  occurs : f.Occurs d

section Ways

variable (site : Site) (name : String) (m : Moment)

inductive SequenceAt (actions : List Action) : (i : Nat) → List Action → Moment → Prop
  | first : SequenceAt actions 0 actions m
  | next {i : Nat} {action : Action} {rest : List Action} {m₁ m₂ : Moment}
      (hat : SequenceAt actions i (action :: rest) m₁)
      (hrun : (action.run (site.part i)).Reaches d (beginStep name i action m₁) (some (.ok ()))
        m₂) :
      SequenceAt actions (i + 1) rest m₂

inductive SequenceFails (actions : List Action) : Fault → Moment → List Failure → Prop
  | step {i : Nat} {action : Action} {rest : List Action} {m₁ : Moment} {child : Failure}
      (hat : SequenceAt d site name m actions i (action :: rest) m₁)
      (hchild : child.IsOf d (site.part i) action (beginStep name i action m₁)) :
      SequenceFails actions child.named child.finish [child]

inductive ConditionalFails (test : Predicate) (yes no : Option Action) :
    Fault → Moment → List Failure → Prop
  | test {fault : Fault} (htest : test.evaluate m.data = .error fault) :
      ConditionalFails test yes no (.action name fault) m []
  | yes {action : Action} {child : Failure} (htest : test.evaluate m.data = .ok true)
      (haction : yes = some action)
      (hchild : child.IsOf d (site.part 0) action (m.record name "condition" true)) :
      ConditionalFails test yes no child.fault child.finish [child]
  | no {action : Action} {child : Failure} (htest : test.evaluate m.data = .ok false)
      (haction : no = some action)
      (hchild : child.IsOf d (site.part 1) action (m.record name "condition" false)) :
      ConditionalFails test yes no child.fault child.finish [child]

inductive ChoiceFails (branches : List (Step Action)) (default : Option Action) :
    Fault → Moment → List Failure → Prop
  | test {before after : List (Step Action)} {step : Step Action} {fault : Fault}
      (hbranches : branches = before ++ step :: after)
      (hbefore : ∀ other ∈ before, other.opens m.data = .ok false)
      (htest : step.opens m.data = .error fault) :
      ChoiceFails branches default (.action (indexed name "branch" before.length) fault) m []
  | branch {before after : List (Step Action)} {step : Step Action} {child : Failure}
      (hbranches : branches = before ++ step :: after)
      (hbefore : ∀ other ∈ before, other.opens m.data = .ok false)
      (htest : step.opens m.data = .ok true)
      (hchild : child.IsOf d (site.part (before.length + 1)) step.action
        (beginBranch name before.length m)) :
      ChoiceFails branches default (.action (indexed name "branch" before.length) child.fault)
        child.finish [child]
  | default {action : Action} {child : Failure}
      (hbranches : ∀ step ∈ branches, step.opens m.data = .ok false)
      (haction : default = some action)
      (hchild : child.IsOf d (site.part 0) action (beginDefault name m)) :
      ChoiceFails branches default (.action (name ++ "[default]") child.fault) child.finish [child]

/-- What has ended the last attempt `t` of a retry action, number `n`, with a fault: a failure of
its body, or the time limit. -/
inductive AttemptFails (policy : RetryPolicy) (body : Action) (n : Nat) (t : Attempt Unit) :
    Fault → List Failure → Prop
  | body {child : Failure}
      (hchild : child.IsOf d (site.turn n) body (t.start.record name "attempts" (.ofNat n)))
      (hfinish : child.finish = t.finish) : AttemptFails policy body n t child.fault [child]
  | dropped {limit : Span} {fault : Fault} (hlimit : policy.attemptTimeout = some limit)
      (hwork : (attemptBody site name body n).Reaches d t.start none t.finish)
      (hdue : t.start.now + limit.ticks ≤ t.finish.now)
      (hfault : ∃ text, fault = .deadline text) : AttemptFails policy body n t fault []

inductive RetryFails (policy : RetryPolicy) (veto : Veto) (delays : Bool) (body : Action) :
    Fault → Moment → List Failure → Prop
  | stopped {tries : List (Attempt Unit)} {retries : List RetryEvent} {failure : RetryFailure}
      {t : Attempt Unit} {children : List Failure} {m' : Moment}
      (haccount : (retrier site name policy veto).Account d (attemptBody site name body)
        (recordRetries name delays) 1 [] m tries retries (some (.error failure)) m')
      (hreason : failure.reason ≠ .interrupted) (hlast : tries.getLast? = some t)
      (hattempt : AttemptFails d site name policy body tries.length t failure.fault children) :
      RetryFails policy veto delays body (retryFault name failure) m' children
  | interrupted {tries : List (Attempt Unit)} {retries : List RetryEvent} {failure : RetryFailure}
      {m' : Moment}
      (haccount : (retrier site name policy veto).Account d (attemptBody site name body)
        (recordRetries name delays) 1 [] m tries retries (some (.error failure)) m')
      (hreason : failure.reason = .interrupted) :
      RetryFails policy veto delays body (retryFault name failure) m' []

inductive FallbackFails (primary secondary : Action) : Fault → Moment → List Failure → Prop
  | both {child child' : Failure} (hprimary : child.IsOf d (site.part 0) primary m)
      (hsecondary : child'.IsOf d (site.part 1) secondary
        (beginFallback name primary.name child.fault child.finish)) :
      FallbackFails primary secondary
        (.aggregate (name ++ ": primary and fallback failed") [child.named, child'.named])
        (child'.finish.record name "fallback_error" child'.fault.message) [child, child']

inductive ValidatedAt (continueOnError : Bool) (steps : List (Step Action)) :
    (i : Nat) → Findings → List (Step Action) → Moment → Prop
  | first : ValidatedAt continueOnError steps 0 {} steps m
  | good {i : Nat} {findings : Findings} {step : Step Action} {rest : List (Step Action)}
      {m₁ m₂ : Moment} (hat : ValidatedAt continueOnError steps i findings (step :: rest) m₁)
      (hrun : (step.action.run (site.part i)).Reaches d m₁ (some (.ok ())) m₂)
      (hverdict : verdict name i step.action.name step.test (.ok ()) m₂.data = .ok none) :
      ValidatedAt continueOnError steps (i + 1)
        { findings with completed := findings.completed + 1 } rest
        (recordCompleted name { findings with completed := findings.completed + 1 } m₂)
  | bad {i : Nat} {findings : Findings} {step : Step Action} {rest : List (Step Action)}
      {outcome : Except Fault Unit} {fault : Fault} {m₁ m₂ : Moment}
      (hat : ValidatedAt continueOnError steps i findings (step :: rest) m₁)
      (hrun : (step.action.run (site.part i)).Reaches d m₁ (some outcome) m₂)
      (hverdict : verdict name i step.action.name step.test outcome m₂.data = .ok (some fault))
      (hcontinue : continueOnError = true) :
      ValidatedAt continueOnError steps (i + 1) (findings.add i fault) rest
        (continueAfter name i fault (recordProblem name i (findings.add i fault) m₂))

inductive ValidatedFails (continueOnError : Bool) (steps : List (Step Action)) :
    Fault → Moment → List Failure → Prop
  | test {i : Nat} {findings : Findings} {step : Step Action} {rest : List (Step Action)}
      {fault : Fault} {m₁ m₂ : Moment}
      (hat : ValidatedAt d site name m continueOnError steps i findings (step :: rest) m₁)
      (hrun : (step.action.run (site.part i)).Reaches d m₁ (some (.ok ())) m₂)
      (hverdict : verdict name i step.action.name step.test (.ok ()) m₂.data = .error fault) :
      ValidatedFails continueOnError steps fault m₂ []
  | invalid {i : Nat} {findings : Findings} {step : Step Action} {rest : List (Step Action)}
      {fault : Fault} {m₁ m₂ : Moment}
      (hat : ValidatedAt d site name m continueOnError steps i findings (step :: rest) m₁)
      (hrun : (step.action.run (site.part i)).Reaches d m₁ (some (.ok ())) m₂)
      (hverdict : verdict name i step.action.name step.test (.ok ()) m₂.data = .ok (some fault))
      (hstop : continueOnError = false) :
      ValidatedFails continueOnError steps (.action name fault)
        (recordProblem name i (findings.add i fault) m₂) []
  | step {i : Nat} {findings : Findings} {step : Step Action} {rest : List (Step Action)}
      {m₁ : Moment} {child : Failure}
      (hat : ValidatedAt d site name m continueOnError steps i findings (step :: rest) m₁)
      (hchild : child.IsOf d (site.part i) step.action m₁) (hstop : continueOnError = false) :
      ValidatedFails continueOnError steps (.action name child.named)
        (recordProblem name i (findings.add i child.named) child.finish) [child]

inductive BranchesFail : (i : Nat) → List Action → List Failure → Prop
  | nil {i : Nat} : BranchesFail i [] []
  | passed {i : Nat} {action : Action} {actions : List Action} {children : List Failure} {s : Scene}
      {m' : Moment} (hs : d.may m.toScene s) (hnow : s.now = m.now)
      (hrun : (action.run (site.part i)).Reaches d (m.within s) (some (.ok ())) m')
      (hrest : BranchesFail (i + 1) actions children) :
      BranchesFail i (action :: actions) children
  | failed {i : Nat} {action : Action} {actions : List Action} {children : List Failure}
      {child : Failure} {s : Scene} (hs : d.may m.toScene s) (hnow : s.now = m.now)
      (hchild : child.IsOf d (site.part i) action (m.within s))
      (hrest : BranchesFail (i + 1) actions children) :
      BranchesFail i (action :: actions) (child :: children)

inductive ParallelFails (branches : List Action) (continueOnError : Bool) :
    Fault → Moment → List Failure → Prop
  | branches {children : List Failure} {s : Scene}
      (hchildren : BranchesFail d site m 0 branches children) (hsome : children ≠ [])
      (hs : d.may m.toScene s) (hstop : continueOnError = false) :
      ParallelFails branches continueOnError (.aggregate name (children.map named)) (m.within s)
        children

inductive ProgressiveAt (steps : List (Step Action)) :
    (i : Nat) → Taken → List (Step Action) → Moment → Prop
  | first : ProgressiveAt steps 0 {} steps m
  | closed {i : Nat} {taken : Taken} {step : Step Action} {rest : List (Step Action)} {m₁ : Moment}
      (hat : ProgressiveAt steps i taken (step :: rest) m₁)
      (htest : step.opens m₁.data = .ok false) (hrequired : step.required = false) :
      ProgressiveAt steps (i + 1) { taken with skipped := taken.skipped ++ [i] } rest
        (recordTaken name "skipped" (taken.skipped ++ [i]) (passOver name i m₁))
  | completed {i : Nat} {taken : Taken} {step : Step Action} {rest : List (Step Action)}
      {m₁ m₂ : Moment} (hat : ProgressiveAt steps i taken (step :: rest) m₁)
      (htest : step.opens m₁.data = .ok true)
      (hrun : (step.action.run (site.part i)).Reaches d m₁ (some (.ok ())) m₂) :
      ProgressiveAt steps (i + 1) { taken with completed := taken.completed ++ [i] } rest
        (recordTaken name "completed" (taken.completed ++ [i]) m₂)
  | failed {i : Nat} {taken : Taken} {step : Step Action} {rest : List (Step Action)}
      {fault : Fault} {m₁ m₂ : Moment} (hat : ProgressiveAt steps i taken (step :: rest) m₁)
      (htest : step.opens m₁.data = .ok true)
      (hrun : (step.action.run (site.part i)).Reaches d m₁ (some (.error fault)) m₂)
      (hrequired : step.required = false) :
      ProgressiveAt steps (i + 1) { taken with skipped := taken.skipped ++ [i] } rest
        (recordTaken name "skipped" (taken.skipped ++ [i]) (passOverFailed name i fault m₂))

inductive ProgressiveFails (steps : List (Step Action)) : Fault → Moment → List Failure → Prop
  | test {i : Nat} {taken : Taken} {step : Step Action} {rest : List (Step Action)} {fault : Fault}
      {m₁ : Moment} (hat : ProgressiveAt d site name m steps i taken (step :: rest) m₁)
      (htest : step.opens m₁.data = .error fault) :
      ProgressiveFails steps (.action (indexed name "step" i) fault) m₁ []
  | closed {i : Nat} {taken : Taken} {step : Step Action} {rest : List (Step Action)} {m₁ : Moment}
      (hat : ProgressiveAt d site name m steps i taken (step :: rest) m₁)
      (htest : step.opens m₁.data = .ok false) (hrequired : step.required = true) :
      ProgressiveFails steps
        (.action (indexed name "step" i)
          (.failed ("required step " ++ step.action.name ++ " is not enabled"))) m₁ []
  | step {i : Nat} {taken : Taken} {step : Step Action} {rest : List (Step Action)} {m₁ : Moment}
      {child : Failure} (hat : ProgressiveAt d site name m steps i taken (step :: rest) m₁)
      (htest : step.opens m₁.data = .ok true)
      (hchild : child.IsOf d (site.part i) step.action m₁) (hrequired : step.required = true) :
      ProgressiveFails steps (.action (indexed name "step" i) child.fault) child.finish [child]

end Ways

/-- The failure has come about through those in the list, which are failures of parts of the action.
There are none in the list where no failure of a part has led to it. -/
def StemsFrom (f : Failure) (children : List Failure) : Prop :=
  match f.action with
  | .leaf name work =>
    (work.run name f.site.toPlace).Reaches d f.start (some (.error f.fault)) f.finish ∧ children = []
  | .sequence name actions =>
    SequenceFails d f.site name f.start actions f.fault f.finish children
  | .conditional name test yes no =>
    ConditionalFails d f.site name f.start test yes no f.fault f.finish children
  | .choice name branches default =>
    ChoiceFails d f.site name f.start branches default f.fault f.finish children
  | .retry name policy veto delays body =>
    RetryFails d f.site name f.start policy veto delays body f.fault f.finish children
  | .fallback name primary secondary =>
    FallbackFails d f.site name f.start primary secondary f.fault f.finish children
  | .validated name steps continueOnError =>
    ValidatedFails d f.site name f.start continueOnError steps f.fault f.finish children
  | .parallel name branches _ continueOnError =>
    ParallelFails d f.site name f.start branches continueOnError f.fault f.finish children
  | .progressive name steps =>
    ProgressiveFails d f.site name f.start steps f.fault f.finish children

variable {d} {site : Site} {name : String} {m m₁ m' : Moment} {fault : Fault}
  {child f : Failure} {children : List Failure}

theorem isOf_of_reaches {action : Action}
    (h : (action.run site).Reaches d m (some (.error fault)) m') :
    IsOf d ⟨site, action, m, fault, m'⟩ site action m :=
  ⟨rfl, rfl, rfl, h⟩

theorem reaches_mapFault {w : Work (Except Fault Unit)} {wrap : Fault → Fault}
    {outcome : Except Fault Unit} (h : (w.mapFault wrap).Reaches d m (some outcome) m') :
    ∃ inner, w.Reaches d m (some inner) m' ∧ outcome = inner.mapError wrap := by
  obtain ⟨inner, m₁, hw, hdone⟩ := Work.reaches_bind_some.1 h
  obtain ⟨hr, rfl⟩ := Work.reaches_done.1 hdone
  exact ⟨inner, hw, Option.some.inj hr⟩

theorem reaches_mapFault_error {w : Work (Except Fault Unit)} {wrap : Fault → Fault}
    (h : (w.mapFault wrap).Reaches d m (some (.error fault)) m') :
    ∃ inner, w.Reaches d m (some (.error inner)) m' ∧ fault = wrap inner := by
  obtain ⟨outcome, hw, hfault⟩ := reaches_mapFault h
  cases outcome with
  | ok _ => cases hfault
  | error inner =>
    cases hfault
    exact ⟨inner, hw, rfl⟩

theorem eq_of_reaches_fail {inner : Fault}
    (h : (Work.fail inner : Work (Except Fault Unit)).Reaches d m (some (.error fault)) m') :
    fault = inner ∧ m' = m := by
  obtain ⟨hr, rfl⟩ := Work.reaches_done.1 h
  cases hr
  exact ⟨rfl, rfl⟩

theorem not_reaches_change {f : Moment → Moment} {m m' : Moment} {fault : Fault} :
    ¬(Work.change f : Work (Except Fault Unit)).Reaches d m (some (.error fault)) m' := by
  intro h
  obtain ⟨hr, -⟩ := Work.reaches_done.1 (Work.reaches_after.1 h)
  cases hr

theorem exists_of_runOptional {action : Option Action}
    (h : (runOptional site action).Reaches d m (some (.error fault)) m') :
    ∃ a, action = some a ∧ (a.run site).Reaches d m (some (.error fault)) m' := by
  cases action with
  | none =>
    obtain ⟨hr, -⟩ := Work.reaches_done.1 h
    cases hr
  | some a => exact ⟨a, rfl, h⟩

theorem sequenceFails_of_reaches {actions rest : List Action} {i : Nat}
    (hat : SequenceAt d site name m actions i rest m₁)
    (h : (runSequence site name i rest).Reaches d m₁ (some (.error fault)) m') :
    ∃ children, SequenceFails d site name m actions fault m' children := by
  -- on the steps that remain; `hat` tells how the loop has come to them
  induction rest generalizing i m₁ with
  | nil =>
    rw [runSequence] at h
    obtain ⟨hr, -⟩ := Work.reaches_done.1 h
    cases hr
  | cons action rest ih =>
    rw [runSequence, Work.reaches_after] at h
    obtain ⟨outcome, m₂, hstep, h⟩ := Work.reaches_bind_some.1 h
    obtain ⟨inner, hrun, rfl⟩ := reaches_mapFault hstep
    cases inner with
    | ok _ => exact ih (hat.next hrun) h
    | error _ =>
      obtain ⟨rfl, rfl⟩ := eq_of_reaches_fail h
      exact ⟨_, .step hat (isOf_of_reaches hrun)⟩

theorem conditionalFails_of_reaches {test : Predicate} {yes no : Option Action}
    (h : ((conditional name test yes no).run site).Reaches d m (some (.error fault)) m') :
    ∃ children, ConditionalFails d site name m test yes no fault m' children := by
  rw [run, Work.reaches_look] at h
  split at h
  next htest =>
    obtain ⟨rfl, rfl⟩ := eq_of_reaches_fail h
    exact ⟨_, .test htest⟩
  next htest =>
    obtain ⟨action, haction, hrun⟩ := exists_of_runOptional (Work.reaches_after.1 h)
    exact ⟨_, .yes htest haction (isOf_of_reaches hrun)⟩
  next htest =>
    obtain ⟨action, haction, hrun⟩ := exists_of_runOptional (Work.reaches_after.1 h)
    exact ⟨_, .no htest haction (isOf_of_reaches hrun)⟩

/-- A choice fails at one of the branches that remain, or with what is done otherwise. -/
theorem reaches_runChoice {before rest : List (Step Action)} {otherwise : Work (Except Fault Unit)}
    {default : Option Action} (hbefore : ∀ other ∈ before, other.opens m.data = .ok false)
    (h : (runChoice site name before.length rest otherwise).Reaches d m
      (some (.error fault)) m') :
    (∃ children, ChoiceFails d site name m (before ++ rest) default fault m' children) ∨
      (∀ step ∈ before ++ rest, step.opens m.data = .ok false) ∧
        otherwise.Reaches d m (some (.error fault)) m' := by
  -- each branch whose test does not hold moves from `rest` to the end of `before`
  induction rest generalizing before with
  | nil =>
    rw [runChoice] at h
    rw [List.append_nil]
    exact .inr ⟨hbefore, h⟩
  | cons step rest ih =>
    obtain ⟨action, test, required⟩ := step
    rw [runChoice, Work.reaches_look] at h
    split at h
    next htest =>
      obtain ⟨rfl, rfl⟩ := eq_of_reaches_fail h
      exact .inl ⟨_, .test rfl hbefore htest⟩
    next htest =>
      have hbefore' : ∀ other ∈ before ++ [⟨action, test, required⟩],
          other.opens m.data = .ok false := by
        intro other hmem
        rcases List.mem_append.1 hmem with hmem | hmem
        · exact hbefore other hmem
        · rw [List.mem_singleton.1 hmem]
          exact htest
      rw [List.append_cons]
      apply ih hbefore'
      rw [List.length_append]
      exact h
    next htest =>
      have hopens : Step.opens ⟨action, test, required⟩ m.data = .ok true := htest
      obtain ⟨_, hrun, rfl⟩ := reaches_mapFault_error (Work.reaches_after.1 h)
      exact .inl ⟨_, .branch rfl hbefore hopens (isOf_of_reaches hrun)⟩

theorem choiceFails_of_reaches {branches : List (Step Action)} {default : Option Action}
    (h : ((choice name branches default).run site).Reaches d m (some (.error fault)) m') :
    ∃ children, ChoiceFails d site name m branches default fault m' children := by
  rw [run] at h
  have hbefore : ∀ other ∈ ([] : List (Step Action)), other.opens m.data = .ok false :=
    List.forall_mem_nil _
  rcases reaches_runChoice hbefore h with hfails | ⟨hclosed, h⟩
  · exact hfails
  · obtain ⟨_, hrun, rfl⟩ := reaches_mapFault_error (Work.reaches_after.1 h)
    obtain ⟨action, rfl, hrun⟩ := exists_of_runOptional hrun
    exact ⟨_, .default hclosed rfl (isOf_of_reaches hrun)⟩

/-- An attempt of a retry action fails with its body or runs out of time. -/
theorem attemptFails_of_reaches {policy : RetryPolicy} {veto : Veto} {body : Action} {n : Nat}
    {t : Attempt Unit}
    (h : ((retrier site name policy veto).attempt (attemptBody site name body) n).Reaches d t.start
      (some (.error fault)) t.finish) :
    ∃ children, AttemptFails d site name policy body n t fault children := by
  unfold Retrier.attempt at h
  split at h
  next limit hlimit =>
    -- the body has ended in time, is under way, or is dropped at the limit
    obtain ⟨u, m₁, hwork, -, ⟨hu, h⟩ | ⟨-, hn, -⟩ | ⟨rfl, hdue, h⟩⟩ := h
    · obtain ⟨hr, rfl⟩ := Work.reaches_done.1 h
      cases u with
      | none => cases hu
      | some outcome =>
        cases hr
        exact ⟨_, .body (isOf_of_reaches hwork) rfl⟩
    · cases hn
    · obtain ⟨hr, rfl⟩ := Work.reaches_done.1 h
      cases hr
      exact ⟨_, .dropped hlimit hwork hdue ⟨_, rfl⟩⟩
  · exact ⟨_, .body (isOf_of_reaches h) rfl⟩

/-- A retry loop ends with a fault because of its last attempt or because a wait is cut short. -/
theorem closes_error {r : Retrier} {onRetry : List RetryEvent → Moment → Moment} {n : Nat}
    {past retries : List RetryEvent} {t : Attempt Unit} {failure : RetryFailure}
    (h : r.Closes d onRetry n past t retries (some (.error failure)) m') :
    failure.reason = .interrupted ∨
      failure.reason ≠ .interrupted ∧ t.outcome = some (.error failure.fault) := by
  generalize hend : some (Except.error failure) = result at h
  cases h with
  | working | waiting => cases hend
  | @settled outcome houtcome =>
    cases outcome with
    | ok _ => cases hend
    | error fault =>
      cases hend
      exact .inr ⟨r.reason_ne_interrupted fault, houtcome⟩
  | interrupted =>
    cases hend
    exact .inl rfl

theorem retryFails_of_reaches {policy : RetryPolicy} {veto : Veto} {delays : Bool} {body : Action}
    (h : ((retry name policy veto delays body).run site).Reaches d m (some (.error fault)) m') :
    ∃ children, RetryFails d site name m policy veto delays body fault m' children := by
  obtain ⟨tries, retries, result, haccount, hresult, -⟩ := account_of_retry h
  obtain ⟨result', rfl, hfault⟩ := Option.map_eq_some_iff.1 hresult.symm
  cases result' with
  | ok _ => cases hfault
  | error failure =>
    cases hfault
    obtain ⟨k, t, hlength, ht, hcloses⟩ := haccount.last
    rcases closes_error hcloses with hreason | ⟨hreason, houtcome⟩
    · exact ⟨[], .interrupted haccount hreason⟩
    · have hmade := haccount.made k t ht
      rw [houtcome, Nat.add_comm, ← hlength] at hmade
      obtain ⟨children, hattempt⟩ := attemptFails_of_reaches hmade
      have hlast : tries.getLast? = some t := by
        rw [List.getLast?_eq_getElem?, hlength]
        exact ht
      exact ⟨children, .stopped haccount hreason hlast hattempt⟩

theorem fallbackFails_of_reaches {primary secondary : Action}
    (h : ((fallback name primary secondary).run site).Reaches d m (some (.error fault)) m') :
    ∃ children, FallbackFails d site name m primary secondary fault m' children := by
  rw [run] at h
  obtain ⟨outcome, m₁, hprimary, h⟩ := Work.reaches_bind_some.1 h
  cases outcome with
  | ok _ => exact absurd h not_reaches_change
  | error _ =>
    obtain ⟨outcome', m₂, hsecondary, h⟩ := Work.reaches_bind_some.1 (Work.reaches_after.1 h)
    cases outcome' with
    | ok _ => exact absurd h not_reaches_change
    | error _ =>
      obtain ⟨rfl, rfl⟩ := eq_of_reaches_fail (Work.reaches_after.1 h)
      exact ⟨_, .both (isOf_of_reaches hprimary) (isOf_of_reaches hsecondary)⟩

theorem validatedFails_of_reaches {continueOnError : Bool} {steps rest : List (Step Action)}
    {i : Nat} {findings : Findings}
    (hat : ValidatedAt d site name m continueOnError steps i findings rest m₁)
    (h : (runValidated site name continueOnError i findings rest).Reaches d m₁
      (some (.error fault)) m') :
    ∃ children, ValidatedFails d site name m continueOnError steps fault m' children := by
  induction rest generalizing i findings m₁ with
  | nil =>
    rw [runValidated] at h
    exact absurd h not_reaches_change
  | cons step rest ih =>
    obtain ⟨action, test, required⟩ := step
    rw [runValidated] at h
    obtain ⟨outcome, m₂, hrun, h⟩ := Work.reaches_bind_some.1 h
    rw [Work.reaches_look] at h
    split at h
    next hverdict =>
      obtain ⟨rfl, rfl⟩ := eq_of_reaches_fail h
      cases outcome with
      | ok _ => exact ⟨_, .test hat hrun hverdict⟩
      -- a step that has failed is not tested
      | error _ => cases hverdict
    next hverdict =>
      cases outcome with
      | ok _ => exact ih (hat.good hrun hverdict) (Work.reaches_after.1 h)
      | error _ => cases hverdict
    next found hverdict =>
      rw [Work.reaches_after] at h
      split at h
      next hcontinue => exact ih (hat.bad hrun hverdict hcontinue) (Work.reaches_after.1 h)
      next hstop =>
        rw [Bool.not_eq_true] at hstop
        obtain ⟨rfl, rfl⟩ := eq_of_reaches_fail h
        cases outcome with
        | ok _ => exact ⟨_, .invalid hat hrun hverdict hstop⟩
        | error _ =>
          cases hverdict
          exact ⟨_, .step hat (isOf_of_reaches hrun) hstop⟩

theorem branchesFail_of_leaves {i : Nat} {branches : List Action} {replies : List Reply}
    (h : List.Forall₂ (Work.Leaves d m) (runBranches site i branches) replies) :
    ∃ children, BranchesFail d site m i branches children ∧
      branchFaults (branches.map Action.name) replies = children.map named := by
  induction branches generalizing i replies with
  | nil => exact ⟨[], .nil, rfl⟩
  | cons action branches ih =>
    rw [runBranches] at h
    cases h with
    | @cons _ reply _ replies hleaves hrest =>
      obtain ⟨children, hchildren, hfaults⟩ := ih hrest
      obtain ⟨⟨context, outcome⟩, ⟨s, m₁, hs, hnow, hrun, -⟩⟩ := reply, hleaves
      cases outcome with
      | ok _ => exact ⟨children, .passed hs hnow hrun hchildren, hfaults⟩
      | error fault =>
        refine ⟨_, .failed hs hnow (isOf_of_reaches hrun) hchildren, ?_⟩
        show Fault.action action.name fault :: branchFaults (branches.map Action.name) replies = _
        rw [hfaults]
        rfl

theorem parallelFails_of_reaches {branches : List Action} {strategy : MergeStrategy}
    {continueOnError : Bool}
    (h : ((parallel name branches strategy continueOnError).run site).Reaches d m
      (some (.error fault)) m') :
    ∃ children, ParallelFails d site name m branches continueOnError fault m' children := by
  rw [run, Work.reaches_look] at h
  obtain ⟨replies, m₁, htogether, h⟩ := Work.reaches_bind_some.1 h
  obtain ⟨⟨s, hs, rfl⟩, hreplies⟩ := Work.reaches_together htogether
  obtain ⟨children, hchildren, hfaults⟩ := branchesFail_of_leaves hreplies
  simp only [join, hfaults] at h
  -- the replies are merged unless a branch has failed and that is not to be passed over
  split at h
  next hstop =>
    obtain ⟨rfl, rfl⟩ := eq_of_reaches_fail h
    rw [Bool.and_eq_true, Bool.not_eq_true', Bool.not_eq_true'] at hstop
    have hsome : children ≠ [] := by
      rintro rfl
      cases hstop.1
    exact ⟨children, .branches hchildren hsome hs hstop.2⟩
  · exact absurd h not_reaches_change

theorem progressiveFails_of_reaches {steps rest : List (Step Action)} {i : Nat} {taken : Taken}
    (hat : ProgressiveAt d site name m steps i taken rest m₁)
    (h : (runProgressive site name i taken rest).Reaches d m₁ (some (.error fault)) m') :
    ∃ children, ProgressiveFails d site name m steps fault m' children := by
  induction rest generalizing i taken m₁ with
  | nil =>
    rw [runProgressive] at h
    exact absurd h not_reaches_change
  | cons step rest ih =>
    obtain ⟨action, test, required⟩ := step
    rw [runProgressive, Work.reaches_look] at h
    split at h
    next htest =>
      obtain ⟨rfl, rfl⟩ := eq_of_reaches_fail h
      exact ⟨_, .test hat htest⟩
    next htest =>
      obtain ⟨rfl, rfl⟩ := eq_of_reaches_fail h
      exact ⟨_, .closed hat htest rfl⟩
    next htest => exact ih (hat.closed htest rfl) (Work.reaches_after.1 h)
    next htest =>
      obtain ⟨outcome, m₂, hrun, h⟩ := Work.reaches_bind_some.1 h
      cases outcome with
      | ok _ => exact ih (hat.completed htest hrun) (Work.reaches_after.1 h)
      | error _ =>
        dsimp only at h
        split at h
        next hrequired =>
          obtain ⟨rfl, rfl⟩ := eq_of_reaches_fail h
          exact ⟨_, .step hat htest (isOf_of_reaches hrun) hrequired⟩
        next hrequired =>
          rw [Bool.not_eq_true] at hrequired
          exact ih (hat.failed htest hrun hrequired) (Work.reaches_after.1 h)

/-- A failure comes about in one of the ways in which its action can fail. -/
theorem exists_stemsFrom (h : f.Occurs d) : ∃ children, f.StemsFrom d children := by
  obtain ⟨site, action, m, fault, m'⟩ := f
  unfold Occurs at h
  cases action with
  | leaf name work =>
    rw [run] at h
    exact ⟨[], h, rfl⟩
  | sequence name actions =>
    dsimp only at h
    rw [run] at h
    exact sequenceFails_of_reaches .first h
  | conditional name test yes no => exact conditionalFails_of_reaches h
  | choice name branches default => exact choiceFails_of_reaches h
  | retry name policy veto delays body => exact retryFails_of_reaches h
  | fallback name primary secondary => exact fallbackFails_of_reaches h
  | validated name steps continueOnError =>
    dsimp only at h
    rw [run] at h
    exact validatedFails_of_reaches .first h
  | parallel name branches strategy continueOnError => exact parallelFails_of_reaches h
  | progressive name steps =>
    dsimp only at h
    rw [run] at h
    exact progressiveFails_of_reaches .first h

end Failure

end Workflow
