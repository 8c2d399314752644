import Workflow.Proofs.Action.Failure
import Workflow.Proofs.Engine.Step

/-!
# Causes on the way up

A failure leads to one of the whole, that one to the next further up, and so on to the failure of an
action tree. Whatever the fault at the bottom wraps, the fault at the top wraps it as well. So a
retry above a permanent fault makes no further attempt, and an engine does not follow an error
target after an interrupt.
-/

namespace Workflow

namespace Fault

variable {fault cause : Fault}

theorem self_mem_tree (fault : Fault) : fault ∈ fault.tree :=
  mem_tree.2 .refl

theorem Wraps.tree_subset (h : fault.Wraps cause) : cause.tree ⊆ fault.tree := by
  intro inner hinner
  rw [mem_tree] at hinner ⊢
  exact h.trans hinner

def EndsLoops (fault : Fault) : Prop :=
  ∀ {α : Type} (r : Retrier) (d : Drift) (op : Nat → Work (Except Fault α))
    (onRetry : List RetryEvent → Moment → Moment) (n : Nat) (past : List RetryEvent) (m m' : Moment)
    (tries : List (Attempt α)) (retries : List RetryEvent)
    (result : Option (Except RetryFailure α)),
    r.Account d op onRetry n past m tries retries result m' →
      ∀ (i : Nat) (t : Attempt α), tries[i]? = some t → t.outcome = some (.error fault) →
        tries.length = i + 1

/-- An engine ends its run when the work of a state has ended with the fault; the context stays as
it is, so no error target has been followed. -/
def EndsRuns (fault : Fault) : Prop :=
  ∀ (e : Engine) (d : Drift) (current : String) (run : Run) (m m' : Moment) (progress : Progress),
    (e.follow current run (.error fault)).Reaches d m (some progress) m' →
      progress = .ended run (.error (.state current fault)) ∧ m'.context = m.context

theorem endsLoops_of_permanent (h : fault.isPermanentFailure = true) : fault.EndsLoops := by
  intro α r d op onRetry n past m m' tries retries result haccount i t ht houtcome
  have hlt : i < tries.length := (List.getElem?_eq_some_iff.1 ht).1
  by_contra hlength
  have hnext : i + 1 < tries.length := by omega
  obtain ⟨fault', hfault', hretries, -⟩ :=
    haccount.again i t _ ht (List.getElem?_eq_getElem hnext)
  rw [houtcome] at hfault'
  cases hfault'
  exact hretries.curable (isPermanentFailure_iff.1 h)

theorem endsRuns_of_interrupt (h : fault.isInterrupt = true) : fault.EndsRuns := by
  intro e d current run m m' progress hreaches
  cases Engine.followed_of_reaches hreaches with
  | rerouted _ hfault =>
    rw [h] at hfault
    cases hfault
  | failed hm _ => exact ⟨rfl, hm.context⟩

end Fault

namespace Failure

variable (d : Drift)

def Kept (fault : Fault) (children : List Failure) : Prop :=
  ∀ child ∈ children, child.Occurs d ∧ fault.Wraps child.fault

/-- The failure goes back to the other one, through any number of failures in between. -/
def Traces : Failure → Failure → Prop :=
  Relation.ReflTransGen fun f child => ∃ children, f.StemsFrom d children ∧ child ∈ children

variable {d} {site : Site} {name : String} {m m' : Moment} {fault : Fault}
  {f g child : Failure} {children : List Failure}

theorem kept_nil : Kept d fault [] :=
  List.forall_mem_nil _

theorem IsOf.kept {action : Action} (h : child.IsOf d site action m)
    (hwraps : fault.Wraps child.fault) : Kept d fault [child] :=
  List.forall_mem_singleton.2 ⟨h.occurs, hwraps⟩

theorem wraps_action (name : String) (fault : Fault) : (Fault.action name fault).Wraps fault :=
  .single (List.mem_singleton_self _)

theorem wraps_retryFault (name : String) (failure : RetryFailure) :
    (Action.retryFault name failure).Wraps failure.fault := by
  unfold Action.retryFault
  split <;> exact .single (List.mem_singleton_self _)

theorem SequenceFails.kept {actions : List Action}
    (h : SequenceFails d site name m actions fault m' children) : Kept d fault children := by
  cases h with
  | step _ hchild => exact hchild.kept (wraps_action _ _)

theorem ConditionalFails.kept {test : Predicate} {yes no : Option Action}
    (h : ConditionalFails d site name m test yes no fault m' children) :
    Kept d fault children := by
  cases h with
  | test => exact kept_nil
  | yes _ _ hchild | no _ _ hchild => exact hchild.kept .refl

theorem ChoiceFails.kept {branches : List (Step Action)} {default : Option Action}
    (h : ChoiceFails d site name m branches default fault m' children) :
    Kept d fault children := by
  cases h with
  | test => exact kept_nil
  | branch _ _ _ hchild | default _ _ hchild => exact hchild.kept (wraps_action _ _)

theorem AttemptFails.kept {policy : RetryPolicy} {body : Action} {n : Nat} {t : Attempt Unit}
    (h : AttemptFails d site name policy body n t fault children) : Kept d fault children := by
  cases h with
  | body hchild => exact hchild.kept .refl
  | dropped => exact kept_nil

theorem RetryFails.kept {policy : RetryPolicy} {veto : Veto} {delays : Bool} {body : Action}
    (h : RetryFails d site name m policy veto delays body fault m' children) :
    Kept d fault children := by
  cases h with
  | @stopped _ _ failure _ _ _ _ _ _ hattempt =>
    intro child hmem
    obtain ⟨hoccurs, hwraps⟩ := hattempt.kept child hmem
    exact ⟨hoccurs, (wraps_retryFault name failure).trans hwraps⟩
  | interrupted => exact kept_nil

theorem FallbackFails.kept {primary secondary : Action}
    (h : FallbackFails d site name m primary secondary fault m' children) :
    Kept d fault children := by
  cases h with
  | both hprimary hsecondary =>
    refine List.forall_mem_cons.2 ⟨⟨hprimary.occurs, ?_⟩, hsecondary.kept ?_⟩
    · exact .head List.mem_cons_self (wraps_action _ _)
    · exact .head (List.mem_cons_of_mem _ List.mem_cons_self) (wraps_action _ _)

theorem ValidatedFails.kept {continueOnError : Bool} {steps : List (Step Action)}
    (h : ValidatedFails d site name m continueOnError steps fault m' children) :
    Kept d fault children := by
  cases h with
  | test | invalid => exact kept_nil
  | step _ hchild => exact hchild.kept ((wraps_action _ _).trans (wraps_action _ _))

theorem BranchesFail.occurs {i : Nat} {branches : List Action}
    (h : BranchesFail d site m i branches children) : ∀ child ∈ children, child.Occurs d := by
  induction h with
  | nil => exact List.forall_mem_nil _
  | passed _ _ _ _ ih => exact ih
  | failed _ _ hchild _ ih => exact List.forall_mem_cons.2 ⟨hchild.occurs, ih⟩

theorem ParallelFails.kept {branches : List Action} {continueOnError : Bool}
    (h : ParallelFails d site name m branches continueOnError fault m' children) :
    Kept d fault children := by
  cases h with
  | branches hchildren =>
    intro child hmem
    exact ⟨hchildren.occurs child hmem, .head (List.mem_map_of_mem hmem) (wraps_action _ _)⟩

theorem ProgressiveFails.kept {steps : List (Step Action)}
    (h : ProgressiveFails d site name m steps fault m' children) : Kept d fault children := by
  cases h with
  | test | closed => exact kept_nil
  | step _ _ hchild => exact hchild.kept (wraps_action _ _)

/-- A failure that has led to that of the whole has occurred, and its fault is wrapped. -/
theorem StemsFrom.kept (h : f.StemsFrom d children) : Kept d f.fault children := by
  obtain ⟨site, action, m, fault, m'⟩ := f
  cases action with
  | leaf =>
    obtain ⟨-, rfl⟩ := h
    exact kept_nil
  | sequence => exact SequenceFails.kept h
  | conditional => exact ConditionalFails.kept h
  | choice => exact ChoiceFails.kept h
  | retry => exact RetryFails.kept h
  | fallback => exact FallbackFails.kept h
  | validated => exact ValidatedFails.kept h
  | parallel => exact ParallelFails.kept h
  | progressive => exact ProgressiveFails.kept h

theorem Traces.kept (h : f.Occurs d) (htraces : f.Traces d g) :
    g.Occurs d ∧ f.fault.Wraps g.fault := by
  induction htraces with
  | refl => exact ⟨h, .refl⟩
  | tail _ hstems ih =>
    obtain ⟨children, hstems, hmem⟩ := hstems
    obtain ⟨hoccurs, hwraps⟩ := hstems.kept _ hmem
    exact ⟨hoccurs, ih.2.trans hwraps⟩

/-- No cause is lost on the way up: however far down a failure stands to which the one at the top
goes back, it has come about in one of the ways in which its action can fail, and its fault and all
that this wraps stand in the fault at the top. So a permanent fault below ends each retry loop
above, and an interrupt below ends the run. -/
theorem causes_reach_top (h : f.Occurs d) (htraces : f.Traces d g) :
    g.Occurs d ∧ (∃ children, g.StemsFrom d children) ∧ g.fault.tree ⊆ f.fault.tree ∧
      ((∃ cause, .permanent cause ∈ g.fault.tree) →
        f.fault.isPermanentFailure = true ∧ f.fault.EndsLoops) ∧
      ((∃ site, .cancelled site ∈ g.fault.tree ∨ .deadline site ∈ g.fault.tree) →
        f.fault.isInterrupt = true ∧ f.fault.EndsRuns) := by
  obtain ⟨hoccurs, hwraps⟩ := htraces.kept h
  have htree := hwraps.tree_subset
  refine ⟨hoccurs, exists_stemsFrom hoccurs, htree, ?_, ?_⟩
  · rintro ⟨cause, hcause⟩
    have hpermanent : f.fault.isPermanentFailure = true :=
      Fault.isPermanentFailure_iff.2 ⟨cause, Fault.mem_tree.1 (htree hcause)⟩
    exact ⟨hpermanent, Fault.endsLoops_of_permanent hpermanent⟩
  · rintro ⟨site, hplace⟩
    have hinterrupt : f.fault.isInterrupt = true := by
      rcases hplace with hplace | hplace
      · exact List.any_eq_true.2 ⟨_, htree hplace, rfl⟩
      · exact List.any_eq_true.2 ⟨_, htree hplace, rfl⟩
    exact ⟨hinterrupt, Fault.endsRuns_of_interrupt hinterrupt⟩

/-- Fails for good. The delay to fall back on is cut short in a cancelled run, so the fault at the
top is both permanent and an interrupt. -/
def refusal : Action :=
  .leaf "refuse" (.fail "no" true)

def pause : Action :=
  .leaf "rest" (.delay (.ofMillis 5))

def either : Action :=
  .fallback "either" refusal pause

def doomed : Action :=
  .sequence "outer" [either]

def top : Site :=
  { owner := "s" }

def cancelledStart : Moment :=
  { cancelled := true, context := { identity := { session := "s" } } }

def refused : Failure where
  site := (top.part 0).part 0
  action := refusal
  start := Action.beginStep "outer" 0 either cancelledStart
  fault := .permanent (.failed "no")
  finish := Action.beginStep "outer" 0 either cancelledStart

def cutShort : Failure where
  site := (top.part 0).part 1
  action := pause
  start := Action.beginFallback "either" "refuse" refused.fault refused.finish
  fault := .cancelled "retry backoff"
  finish := Action.beginFallback "either" "refuse" refused.fault refused.finish

def neither : Failure where
  site := top.part 0
  action := either
  start := refused.start
  fault := .aggregate "either: primary and fallback failed" [refused.named, cutShort.named]
  finish := cutShort.finish.record "either" "fallback_error" cutShort.fault.message

def failed : Failure where
  site := top
  action := doomed
  start := cancelledStart
  fault := neither.named
  finish := neither.finish

theorem isOf_refused : refused.IsOf .free ((top.part 0).part 0) refusal neither.start :=
  ⟨rfl, rfl, rfl, rfl, rfl⟩

theorem isOf_cutShort :
    cutShort.IsOf .free ((top.part 0).part 1) pause
      (Action.beginFallback "either" "refuse" refused.fault refused.finish) :=
  ⟨rfl, rfl, rfl, cutShort.start.toScene, Drift.free.refl _, .inl rfl,
    .inr ⟨.cancelled, ⟨rfl, rfl⟩, rfl, rfl⟩⟩

theorem isOf_neither :
    neither.IsOf .free (top.part 0) either (Action.beginStep "outer" 0 either cancelledStart) :=
  ⟨rfl, rfl, rfl, Work.reaches_bind_some.2 ⟨_, _, isOf_refused.occurs,
    Work.reaches_after.2 (Work.reaches_bind_some.2 ⟨_, _, isOf_cutShort.occurs, rfl, rfl⟩)⟩⟩

theorem occurs_failed : failed.Occurs .free :=
  Work.reaches_bind_some.2 ⟨_, _, Work.reaches_bind_some.2 ⟨_, _, isOf_neither.occurs, rfl, rfl⟩,
    rfl, rfl⟩

theorem traces_failed : failed.Traces .free refused ∧ failed.Traces .free cutShort := by
  have hstems : failed.StemsFrom .free [neither] := SequenceFails.step .first isOf_neither
  have hstems' : neither.StemsFrom .free [refused, cutShort] :=
    FallbackFails.both isOf_refused isOf_cutShort
  have htraces : failed.Traces .free neither := .single ⟨_, hstems, List.mem_cons_self⟩
  exact ⟨htraces.tail ⟨_, hstems', List.mem_cons_self⟩,
    htraces.tail ⟨_, hstems', List.mem_cons_of_mem _ List.mem_cons_self⟩⟩

theorem causes_reach_top_doomed :
    failed.Occurs .free ∧ failed.Traces .free refused ∧ failed.Traces .free cutShort ∧
      (failed.fault.isPermanentFailure = true ∧ failed.fault.EndsLoops) ∧
      failed.fault.isInterrupt = true ∧ failed.fault.EndsRuns := by
  obtain ⟨hrefused, hcutShort⟩ := traces_failed
  obtain ⟨-, -, -, hpermanent, -⟩ := causes_reach_top occurs_failed hrefused
  obtain ⟨-, -, -, -, hinterrupt⟩ := causes_reach_top occurs_failed hcutShort
  exact ⟨occurs_failed, hrefused, hcutShort, hpermanent ⟨_, Fault.self_mem_tree _⟩,
    hinterrupt ⟨_, .inl (Fault.self_mem_tree _)⟩⟩

end Failure

end Workflow
