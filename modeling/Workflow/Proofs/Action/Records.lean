import Workflow.Proofs.Action.Shuns
import Workflow.Proofs.Work.Tandem

/-!
# What an action records

A composite keeps records of its execution under keys that start with its name. If nothing in it
reads or writes these keys, what it records does not depend on what is there: on two contexts that
differ under them alone, and with the same random numbers, it does the same at every instant, and
when it ends it has either recorded the same value under a key on both, or left both as they were.
Nothing is removed. So a record may be that of an earlier execution if this one has not come to
record it.
-/

namespace Workflow

open Work

variable {keys own written : List String} {I : List String → Context → Context → Prop}
  {c₀ c₀' c c' d d' : Context} {action body : Action} {site : Site}

namespace Action

def recordKeys : Action → List String
  | leaf _ _ | sequence _ _ | parallel _ _ _ _ => []
  | conditional name _ _ _ => [name ++ "_" ++ "condition"]
  | choice name _ _ => ["branch_taken", name ++ "_" ++ "branch_taken"]
  | retry name _ _ _ _ => [name ++ "_" ++ "attempts", name ++ "_" ++ "delays_ms"]
  | fallback name _ _ =>
    [name ++ "_" ++ "source", name ++ "_" ++ "primary_error", name ++ "_" ++ "fallback_error"]
  | validated name _ _ =>
    [name ++ "_" ++ "completed_steps", name ++ "_" ++ "valid", name ++ "_" ++ "failed_step",
      name ++ "_" ++ "errors"]
  | progressive name _ => [name ++ "_" ++ "completed", name ++ "_" ++ "skipped"]

/-- Those of them that are set in any case by the time the action ends with the outcome. -/
def sureKeys : Action → Except Fault Unit → List String
  | choice name _ _, .ok () => [name ++ "_" ++ "branch_taken"]
  | retry name _ _ _ _, _ => [name ++ "_" ++ "attempts"]
  | fallback name _ _, .ok () => [name ++ "_" ++ "source"]
  | fallback name _ _, .error _ => [name ++ "_" ++ "primary_error", name ++ "_" ++ "fallback_error"]
  | validated name _ _, .ok () => [name ++ "_" ++ "completed_steps", name ++ "_" ++ "valid"]
  | progressive name _, .ok () => [name ++ "_" ++ "completed", name ++ "_" ++ "skipped"]
  | _, _ => []

mutual

def PartsShun (keys : List String) : Action → Prop
  | leaf name work => work.Shuns keys name
  | sequence _ actions => AllShun keys actions
  | conditional _ test yes no =>
    test.Shuns keys ∧ OptionShuns keys yes ∧ OptionShuns keys no
  | choice _ branches default => StepsShun keys branches ∧ OptionShuns keys default
  | retry _ _ _ _ body => (recordKeys body).Disjoint keys ∧ PartsShun keys body
  | fallback _ primary secondary =>
    ((recordKeys primary).Disjoint keys ∧ PartsShun keys primary) ∧
      (recordKeys secondary).Disjoint keys ∧ PartsShun keys secondary
  | validated _ steps _ => StepsShun keys steps
  | parallel _ branches _ _ => AllShun keys branches
  | progressive _ steps => StepsShun keys steps

def OptionShuns (keys : List String) : Option Action → Prop
  | none => True
  | some action => (recordKeys action).Disjoint keys ∧ PartsShun keys action

def AllShun (keys : List String) : List Action → Prop
  | [] => True
  | action :: actions =>
    ((recordKeys action).Disjoint keys ∧ PartsShun keys action) ∧ AllShun keys actions

def StepsShun (keys : List String) : List (Step Action) → Prop
  | [] => True
  | ⟨action, test, _⟩ :: steps =>
    (((recordKeys action).Disjoint keys ∧ PartsShun keys action) ∧
      ∀ p ∈ test, p.Shuns keys) ∧ StepsShun keys steps

end

def Shuns (keys : List String) (action : Action) : Prop :=
  action.recordKeys.Disjoint keys ∧ action.PartsShun keys

structure Lasts (keys own : List String) (I : List String → Context → Context → Prop) : Prop where
  agree {written : List String} {c c' : Context} : I written c c' → c.AgreeOff keys c'
  record {written : List String} {c c' : Context} {key : String} (value : Json) :
    key ∈ own → I written c c' → I (key :: written) (c.set key value) (c'.set key value)
  less {written written' : List String} {c c' : Context} :
    written ⊆ written' → I written' c c' → I written c c'
  part {written : List String} {c c' d d' : Context} :
    I written c c' → Context.Held keys c c' d d' → I written d d'

def Ignores (keys : List String) (action : Action) : Prop :=
  ∀ site c₀ c₀' c c', Context.Held keys c₀ c₀' c c' →
    Shadow (Context.Held keys c₀ c₀') (fun _ => Context.Held keys c₀ c₀') c (action.run site)
      c' (action.run site)

theorem lasts_held (hown : own.Disjoint keys) (c₀ c₀' : Context) :
    Lasts keys own fun _ => Context.Held keys c₀ c₀' where
  agree h := h.toAgreeOff
  record value hkey h := h.set (hown hkey) value
  less _ h := h
  part h h' := h.trans h'

namespace Lasts

variable (hl : Lasts keys own I)

include hl

theorem drop (h : I written c c') : I [] c c' :=
  hl.less (List.nil_subset written) h

theorem ignored (hbody : body.Ignores keys) (site : Site) (h : I written c c') :
    Shadow (I written) (fun _ => I written) c (body.run site) c' (body.run site) :=
  (hbody site c c' c c' (hl.agree h).held).mono (hl.part h) fun _ _ _ => hl.part h

/-- A part that ignores the keys, and what is done with its outcome. -/
theorem ignored_bind {k k' : Except Fault Unit → Work (Except Fault Unit)}
    {Q : Except Fault Unit → Context → Context → Prop} (hbody : body.Ignores keys) (site : Site)
    (h : I written c c') (hk : ∀ outcome d d', I written d d' →
      Shadow (I []) Q d (k outcome) d' (k' outcome)) :
    Shadow (I []) Q c ((body.run site).bind k) c' ((body.run site).bind k') :=
  ((hl.ignored hbody site h).mono hl.drop fun _ _ _ h => h).bind hk

end Lasts

/-- The action does the same on contexts that a lasting relation relates, and in the end the keys
that it is sure to have set have been set. -/
def Settles (keys : List String) (action : Action) : Prop :=
  ∀ I, Lasts keys action.recordKeys I → ∀ site c c', I [] c c' →
    Shadow (I []) (fun outcome => I (action.sureKeys outcome)) c (action.run site)
      c' (action.run site)

theorem Settles.ignores (h : action.Settles keys) (hown : action.recordKeys.Disjoint keys) :
    action.Ignores keys :=
  fun site c₀ c₀' c c' hheld => h _ (lasts_held hown c₀ c₀') site c c' hheld

/-- An action that records nothing by itself settles that if it ignores the keys. -/
theorem Ignores.settles (h : action.Ignores keys)
    (hsure : ∀ outcome, action.sureKeys outcome = []) : action.Settles keys := by
  intro I hl site c c' hi
  simp only [hsure]
  exact hl.ignored h site hi

theorem shadow_optional (site : Site) {option : Option Action}
    (hoption : ∀ action ∈ option, action.Ignores keys) (h : Context.Held keys c₀ c₀' c c') :
    Shadow (Context.Held keys c₀ c₀') (fun _ => Context.Held keys c₀ c₀')
      c (runOptional site option) c' (runOptional site option) := by
  cases option with
  | none => exact .done h
  | some action => exact hoption action rfl _ _ _ _ _ h

theorem shadow_runSequence {actions : List Action}
    (hactions : ∀ action ∈ actions, action.Ignores keys) (name : String) (i : Nat)
    (h : Context.Held keys c₀ c₀' c c') :
    Shadow (Context.Held keys c₀ c₀') (fun _ => Context.Held keys c₀ c₀')
      c (runSequence site name i actions) c' (runSequence site name i actions) := by
  induction actions generalizing i c c' with
  | nil => exact .done h
  | cons action actions ih =>
    obtain ⟨haction, hrest⟩ := List.forall_mem_cons.1 hactions
    have hfirst := (haction (site.part i) _ _ _ _ h).mapFault (Fault.action action.name)
    rw [runSequence]
    exact .after (hfirst.andThen (fun _ _ _ hd => ih hrest (i + 1) hd) fun _ _ _ hd => hd)
      fun _ => ⟨rfl, rfl, rfl⟩

theorem ignores_sequence {name : String} {actions : List Action}
    (hactions : ∀ action ∈ actions, action.Ignores keys) : (sequence name actions).Ignores keys :=
  fun _ _ _ _ _ h => shadow_runSequence hactions name 0 h

theorem shadow_runBranches (site : Site) {actions : List Action}
    (hactions : ∀ action ∈ actions, action.Ignores keys) (i : Nat)
    (h : Context.Held keys c₀ c₀' c c') :
    List.Forall₂ (fun w w' => Shadow (Context.Held keys c₀ c₀')
      (fun _ => Context.Held keys c₀ c₀') c w c' w') (runBranches site i actions)
      (runBranches site i actions) := by
  induction actions generalizing i with
  | nil => exact .nil
  | cons action actions ih =>
    obtain ⟨haction, hrest⟩ := List.forall_mem_cons.1 hactions
    rw [runBranches]
    exact .cons (haction _ _ _ _ _ h) (ih hrest (i + 1))

theorem ignores_parallel {name : String} {branches : List Action} {strategy : MergeStrategy}
    {continueOnError : Bool} (hbranches : ∀ action ∈ branches, action.Ignores keys) :
    (parallel name branches strategy continueOnError).Ignores keys := by
  intro site c₀ c₀' c c' h
  have hworks := shadow_runBranches site hbranches 0 h
  rw [run]
  apply Shadow.look
  intro s
  apply Shadow.together h h hworks
  intro replies replies' hreplies
  exact shadow_join name (branches.map Action.name) strategy continueOnError h hreplies

theorem settles_conditional {name : String} {test : Predicate} {yes no : Option Action}
    (htest : test.Shuns keys) (hyes : ∀ action ∈ yes, action.Ignores keys)
    (hno : ∀ action ∈ no, action.Ignores keys) : (conditional name test yes no).Settles keys := by
  intro I hl site c c' h
  have hbranch : ∀ (value : Bool) (site : Site) (option : Option Action),
      (∀ action ∈ option, action.Ignores keys) →
        Shadow (I []) (fun _ => I [])
          c (.after (·.record name "condition" value) (runOptional site option))
          c' (.after (·.record name "condition" value) (runOptional site option)) := by
    intro value site option hoption
    have hrecord := hl.drop (hl.record value List.mem_cons_self h)
    have hshadow := shadow_optional site hoption (hl.agree hrecord).held
    exact .after (hshadow.mono (hl.part hrecord) fun _ _ _ => hl.part hrecord)
      fun _ => ⟨rfl, rfl, rfl⟩
  rw [run]
  apply Shadow.look
  intro s
  simp only [Moment.data, htest c.data c'.data (hl.agree h).data]
  split
  · exact .done h
  · exact hbranch true _ _ hyes
  · exact hbranch false _ _ hno

theorem settles_retry {name : String} {policy : RetryPolicy} {veto : Veto} {delays : Bool}
    (hbody : body.Ignores keys) : (retry name policy veto delays body).Settles keys := by
  intro I hl site c c' h
  let attempts := name ++ "_" ++ "attempts"
  -- each attempt begins by recording its number, whatever comes of it
  have hop : ∀ n c c', I [] c c' →
      Shadow (I [attempts]) (fun _ => I [attempts])
        c (.after (·.record name "attempts" (.ofNat n)) (run (site.turn n) body))
        c' (.after (·.record name "attempts" (.ofNat n)) (run (site.turn n) body)) := by
    intro n c c' h
    have hrecord := hl.record (.ofNat n) (List.mem_cons_self : attempts ∈ _) h
    exact .after (hl.ignored hbody _ hrecord) fun _ => ⟨rfl, rfl, rfl⟩
  let r := retrier site name policy veto
  let onRetry := if delays then recordDelays name else fun _ m => m
  have hretry : ∀ events n fault delay c c', I [attempts] c c' → ∃ d d', I [attempts] d d' ∧
      Moment.Moves (fun m => onRetry events (r.reportRetry n fault delay m))
        (fun m => onRetry events (r.reportRetry n fault delay m)) c c' d d' := by
    intro events n fault delay c c' h
    cases delays with
    | false => exact ⟨c, c', h, fun _ => ⟨rfl, rfl, rfl⟩⟩
    | true =>
      let waits : Json := .array (events.reverse.map fun event => .ofNat event.delay.millisWord)
      have hrecord := hl.record waits
        (List.mem_cons_of_mem _ List.mem_cons_self : name ++ "_" ++ "delays_ms" ∈ _) h
      exact ⟨_, _, hl.less (List.subset_cons_self _ _) hrecord, fun _ => ⟨rfl, rfl, rfl⟩⟩
  have hloop := r.shadow_loop hl.drop hop hretry (policy.attempts - 1) 1 [] [] h
  rw [run]
  refine Shadow.bind (hloop.mono hl.drop fun _ _ _ h => h) fun retried d d' hd => ?_
  exact .done hd

theorem settles_fallback {name : String} {primary secondary : Action}
    (hprimary : primary.Ignores keys) (hsecondary : secondary.Ignores keys) :
    (fallback name primary secondary).Settles keys := by
  intro I hl site c c' h
  rw [run]
  apply hl.ignored_bind hprimary _ h
  intro outcome d d' hd
  cases outcome with
  | ok _ =>
    have hsource := hl.record "primary" (List.mem_cons_self : name ++ "_" ++ "source" ∈ _) hd
    exact .change hsource fun _ => ⟨rfl, rfl, rfl⟩
  | error fault =>
    have herror := hl.record fault.message
      (by simp [recordKeys] : name ++ "_" ++ "primary_error" ∈ _) hd
    refine .after (hl.ignored_bind hsecondary _ herror fun outcome e e' he => ?_)
      fun _ => ⟨rfl, rfl, rfl⟩
    cases outcome with
    | ok _ =>
      have hsource := hl.record "fallback" (List.mem_cons_self : name ++ "_" ++ "source" ∈ _) he
      exact .change (hl.less (by simp [sureKeys]) hsource) fun _ => ⟨rfl, rfl, rfl⟩
    | error fault' =>
      have herror' := hl.record fault'.message
        (by simp [recordKeys] : name ++ "_" ++ "fallback_error" ∈ _) he
      exact .after (.done (hl.less (by simp [sureKeys]) herror')) fun _ => ⟨rfl, rfl, rfl⟩

def StepIgnores (keys : List String) (step : Step Action) : Prop :=
  step.action.Ignores keys ∧ ∀ p ∈ step.test, p.Shuns keys

theorem evaluate_of_agreeOff {test : Option Predicate} (htest : ∀ p ∈ test, p.Shuns keys)
    (h : c.AgreeOff keys c') :
    test.map (·.evaluate c'.data) = test.map (·.evaluate c.data) := by
  cases test with
  | none => rfl
  | some p => exact congrArg some (htest p rfl c.data c'.data h.data)

theorem verdict_of_agreeOff {test : Option Predicate} (htest : ∀ p ∈ test, p.Shuns keys)
    (h : c.AgreeOff keys c') (name : String) (i : Nat) (action : String)
    (outcome : Except Fault Unit) :
    verdict name i action test outcome c'.data = verdict name i action test outcome c.data := by
  unfold verdict
  cases outcome with
  | error fault => rfl
  | ok _ =>
    cases test with
    | none => rfl
    | some p => simp only [htest p rfl c.data c'.data h.data]

/-- A problem of a validated sequence is recorded alike on both contexts. -/
theorem moves_recordProblem {name : String} (hl : Lasts keys own I)
    (hown : [name ++ "_" ++ "completed_steps", name ++ "_" ++ "valid", name ++ "_" ++ "failed_step",
      name ++ "_" ++ "errors"] ⊆ own) (i : Nat) (findings : Findings) (h : I [] c c') :
    ∃ d d', I [] d d' ∧
      Moment.Moves (recordProblem name i findings) (recordProblem name i findings) c c' d d' := by
  have hvalid : name ++ "_" ++ "valid" ∈ own := hown (by simp)
  have herrors : name ++ "_" ++ "errors" ∈ own := hown (by simp)
  let errors : Json := .array (findings.errors.map Json.string)
  by_cases hfirst : findings.failedStep = some i
  · have hstep : name ++ "_" ++ "failed_step" ∈ own := hown (by simp)
    have hrecords :=
      hl.record false hvalid (hl.record errors herrors (hl.record (.ofNat i) hstep h))
    refine ⟨_, _, hl.drop hrecords, fun s => ?_⟩
    simp only [recordProblem, if_pos hfirst]
    exact ⟨rfl, rfl, rfl⟩
  · have hrecords := hl.record false hvalid (hl.record errors herrors h)
    refine ⟨_, _, hl.drop hrecords, fun s => ?_⟩
    simp only [recordProblem, if_neg hfirst]
    exact ⟨rfl, rfl, rfl⟩

section Steps

variable {name : String} {Q : Except Fault Unit → Context → Context → Prop}
  (hl : Lasts keys own I) (hfail : ∀ {fault c c'}, I [] c c' → Q (.error fault) c c')

include hl hfail

theorem shadow_runChoice (hown : ["branch_taken", name ++ "_" ++ "branch_taken"] ⊆ own)
    (hok : ∀ {c c'}, I [name ++ "_" ++ "branch_taken"] c c' → Q (.ok ()) c c')
    {steps : List (Step Action)} (hsteps : ∀ step ∈ steps, StepIgnores keys step)
    {otherwise : Work (Except Fault Unit)} (hotherwise : Shadow (I []) Q c otherwise c' otherwise)
    (i : Nat) (h : I [] c c') :
    Shadow (I []) Q c (runChoice site name i steps otherwise)
      c' (runChoice site name i steps otherwise) := by
  induction steps generalizing i with
  | nil =>
    rw [runChoice]
    exact hotherwise
  | cons step steps ih =>
    obtain ⟨⟨haction, htest⟩, hrest⟩ := List.forall_mem_cons.1 hsteps
    obtain ⟨action, test, required⟩ := step
    rw [runChoice]
    apply Shadow.look
    intro s
    simp only [Moment.data, evaluate_of_agreeOff htest (hl.agree h)]
    split
    · exact .done (hfail h)
    · exact ih hrest (i + 1)
    · have hindex := hl.record (.int i) (hown List.mem_cons_self) h
      have htaken := hl.record (.int i) (hown (List.mem_cons_of_mem _ List.mem_cons_self)) hindex
      refine .after (hl.ignored_bind haction _ htaken fun outcome d d' hd => ?_)
        fun _ => ⟨rfl, rfl, rfl⟩
      cases outcome with
      | ok _ => exact .done (hok (hl.less (by simp) hd))
      | error fault => exact .done (hfail (hl.drop hd))

theorem shadow_runValidated
    (hown : [name ++ "_" ++ "completed_steps", name ++ "_" ++ "valid", name ++ "_" ++ "failed_step",
      name ++ "_" ++ "errors"] ⊆ own)
    (hok : ∀ {c c'}, I [name ++ "_" ++ "completed_steps", name ++ "_" ++ "valid"] c c' →
      Q (.ok ()) c c')
    (continueOnError : Bool) {steps : List (Step Action)}
    (hsteps : ∀ step ∈ steps, StepIgnores keys step) (i : Nat) (findings : Findings)
    (h : I [] c c') :
    Shadow (I []) Q c (runValidated site name continueOnError i findings steps)
      c' (runValidated site name continueOnError i findings steps) := by
  induction steps generalizing i findings c c' with
  | nil =>
    have hcompleted := hl.record (.ofNat findings.completed) (hown List.mem_cons_self) h
    have hrecords := hl.record findings.failedStep.isNone
      (hown (List.mem_cons_of_mem _ List.mem_cons_self)) hcompleted
    rw [runValidated]
    exact .change (hok (hl.less (by simp) hrecords)) fun _ => ⟨rfl, rfl, rfl⟩
  | cons step steps ih =>
    obtain ⟨⟨haction, htest⟩, hrest⟩ := List.forall_mem_cons.1 hsteps
    obtain ⟨action, test, required⟩ := step
    rw [runValidated]
    apply hl.ignored_bind haction _ h
    intro outcome d d' hd
    apply Shadow.look
    intro s
    simp only [Moment.data, verdict_of_agreeOff htest (hl.agree hd)]
    split
    · exact .done (hfail hd)
    · have hcompleted := hl.record (.ofNat (findings.completed + 1)) (hown List.mem_cons_self) hd
      exact .after (ih hrest _ _ (hl.drop hcompleted)) fun _ => ⟨rfl, rfl, rfl⟩
    next fault _ =>
      obtain ⟨e, e', he, hmoves⟩ := moves_recordProblem hl hown i (findings.add i fault) hd
      refine .after ?_ hmoves
      split
      · exact .after (ih hrest _ _ he) fun _ => ⟨rfl, rfl, rfl⟩
      · exact .done (hfail he)

theorem shadow_runProgressive
    (hown : [name ++ "_" ++ "completed", name ++ "_" ++ "skipped"] ⊆ own)
    (hok : ∀ {c c'}, I [name ++ "_" ++ "completed", name ++ "_" ++ "skipped"] c c' →
      Q (.ok ()) c c')
    {steps : List (Step Action)} (hsteps : ∀ step ∈ steps, StepIgnores keys step) (i : Nat)
    (taken : Taken) (h : I [] c c') :
    Shadow (I []) Q c (runProgressive site name i taken steps)
      c' (runProgressive site name i taken steps) := by
  have hcompleted : name ++ "_" ++ "completed" ∈ own := hown List.mem_cons_self
  have hskipped : name ++ "_" ++ "skipped" ∈ own := hown (List.mem_cons_of_mem _ List.mem_cons_self)
  induction steps generalizing i taken c c' with
  | nil =>
    have hrecords := hl.record (.array (taken.skipped.map Json.ofNat)) hskipped
      (hl.record (.array (taken.completed.map Json.ofNat)) hcompleted h)
    rw [runProgressive]
    exact .change (hok (hl.less (by simp) hrecords)) fun _ => ⟨rfl, rfl, rfl⟩
  | cons step steps ih =>
    obtain ⟨⟨haction, htest⟩, hrest⟩ := List.forall_mem_cons.1 hsteps
    obtain ⟨action, test, required⟩ := step
    rw [runProgressive]
    apply Shadow.look
    intro s
    simp only [Moment.data, evaluate_of_agreeOff htest (hl.agree h)]
    split
    · exact .done (hfail h)
    · exact .done (hfail h)
    · exact .after (ih hrest _ _ (hl.drop (hl.record _ hskipped h))) fun _ => ⟨rfl, rfl, rfl⟩
    · apply hl.ignored_bind haction _ h
      intro outcome d d' hd
      cases outcome with
      | ok _ =>
        exact .after (ih hrest _ _ (hl.drop (hl.record _ hcompleted hd))) fun _ => ⟨rfl, rfl, rfl⟩
      | error fault =>
        dsimp only
        split
        · exact .done (hfail hd)
        · exact .after (ih hrest _ _ (hl.drop (hl.record _ hskipped hd))) fun _ => ⟨rfl, rfl, rfl⟩

end Steps

theorem settles_choice {name : String} {branches : List (Step Action)} {default : Option Action}
    (hbranches : ∀ step ∈ branches, StepIgnores keys step)
    (hdefault : ∀ action ∈ default, action.Ignores keys) :
    (choice name branches default).Settles keys := by
  intro I hl site c c' h
  have hindex := hl.record (.int (-1)) List.mem_cons_self h
  have htaken := hl.record (.int (-1)) (List.mem_cons_of_mem _ List.mem_cons_self) hindex
  have hoptional := shadow_optional (site.part 0) hdefault (hl.agree htaken).held
  have hdrop : ∀ {d d'}, Context.Held keys _ _ d d' → I [] d d' := fun hd =>
    hl.drop (hl.part htaken hd)
  have hdefault' := (hoptional.mono hdrop fun _ _ _ => hl.part htaken).mapFault
    (Fault.action (name ++ "[default]"))
  rw [run]
  refine shadow_runChoice hl (fun h => h) (List.Subset.refl _) (fun h => h) hbranches
    (.after (hdefault'.mono id ?_) ?_) 0 h
  · intro outcome d d' hd
    cases outcome with
    | ok _ => exact hl.less (by simp [sureKeys]) hd
    | error fault => exact hl.drop hd
  · intro s
    dsimp only
    split <;> exact ⟨rfl, rfl, rfl⟩

theorem settles_validated {name : String} {steps : List (Step Action)} {continueOnError : Bool}
    (hsteps : ∀ step ∈ steps, StepIgnores keys step) :
    (validated name steps continueOnError).Settles keys := by
  intro I hl site c c' h
  rw [run]
  exact shadow_runValidated hl (fun h => h) (List.Subset.refl _) (fun h => h) continueOnError hsteps
    0 {} h

theorem settles_progressive {name : String} {steps : List (Step Action)}
    (hsteps : ∀ step ∈ steps, StepIgnores keys step) : (progressive name steps).Settles keys := by
  intro I hl site c c' h
  rw [run]
  exact shadow_runProgressive hl (fun h => h) (List.Subset.refl _) (fun h => h) hsteps 0 {} h

mutual

/-- An action whose parts shun the keys settles what it records. -/
theorem settles : (action : Action) → action.PartsShun keys → action.Settles keys
  | leaf _ _, hshun =>
    Ignores.settles (fun site _ _ _ _ h => Leaf.shadow_run hshun site.toPlace h) fun _ => rfl
  | sequence _ actions, hshun => (ignores_sequence (all_ignore actions hshun)).settles fun _ => rfl
  | conditional _ _ yes no, hshun =>
    settles_conditional hshun.1 (option_ignores yes hshun.2.1) (option_ignores no hshun.2.2)
  | choice _ branches default, hshun =>
    settles_choice (steps_ignore branches hshun.1) (option_ignores default hshun.2)
  | retry _ _ _ _ body, hshun => settles_retry ((settles body hshun.2).ignores hshun.1)
  | fallback _ primary secondary, hshun =>
    settles_fallback ((settles primary hshun.1.2).ignores hshun.1.1)
      ((settles secondary hshun.2.2).ignores hshun.2.1)
  | validated _ steps _, hshun => settles_validated (steps_ignore steps hshun)
  | parallel _ branches _ _, hshun =>
    (ignores_parallel (all_ignore branches hshun)).settles fun _ => rfl
  | progressive _ steps, hshun => settles_progressive (steps_ignore steps hshun)

theorem option_ignores : (option : Option Action) → OptionShuns keys option →
    ∀ action ∈ option, action.Ignores keys
  | none, _ => nofun
  | some action, hshun => fun _ hmem => by
    cases hmem
    exact (settles action hshun.2).ignores hshun.1

theorem all_ignore : (actions : List Action) → AllShun keys actions →
    ∀ action ∈ actions, action.Ignores keys
  | [], _ => nofun
  | action :: actions, hshun =>
    List.forall_mem_cons.2
      ⟨(settles action hshun.1.2).ignores hshun.1.1, all_ignore actions hshun.2⟩

theorem steps_ignore : (steps : List (Step Action)) → StepsShun keys steps →
    ∀ step ∈ steps, StepIgnores keys step
  | [], _ => nofun
  | ⟨action, _, _⟩ :: steps, hshun =>
    List.forall_mem_cons.2 ⟨⟨(settles action hshun.1.1.2).ignores hshun.1.1.1, hshun.1.2⟩,
      steps_ignore steps hshun.2⟩

end

end Action

namespace Context

def BothHave (key : String) (c c' : Context) : Prop :=
  ∃ value, c.data.get? key = some value ∧ c'.data.get? key = some value

/-- The contexts differ only in what they have under the keys. Under each of these both have the
same value by now, or each has what it had at first; those that have been written are of the former
kind. -/
structure Recorded (keys : List String) (c₀ c₀' : Context) (written : List String)
    (c c' : Context) : Prop extends c.AgreeOff keys c' where
  each : ∀ key ∈ keys, BothHave key c c' ∨
    c.data.get? key = c₀.data.get? key ∧ c'.data.get? key = c₀'.data.get? key
  written : ∀ key ∈ written, BothHave key c c'

theorem AgreeOff.recorded (h : c.AgreeOff keys c') : Recorded keys c c' [] c c' :=
  ⟨h, fun _ _ => .inr ⟨rfl, rfl⟩, List.forall_mem_nil _⟩

theorem bothHave_set (key : String) (value : Json) (c c' : Context) :
    BothHave key (c.set key value) (c'.set key value) :=
  ⟨value, Table.get?_put_self key value c.data, Table.get?_put_self key value c'.data⟩

theorem BothHave.set {key : String} (h : BothHave key c c') (other : String) (value : Json) :
    BothHave key (c.set other value) (c'.set other value) := by
  by_cases heq : key = other
  · subst heq
    exact bothHave_set key value c c'
  · obtain ⟨old, hc, hc'⟩ := h
    exact ⟨old, (Table.get?_put_of_ne value c.data heq).trans hc,
      (Table.get?_put_of_ne value c'.data heq).trans hc'⟩

theorem Recorded.set {key : String} (h : Recorded keys c₀ c₀' written c c') (value : Json) :
    Recorded keys c₀ c₀' (key :: written) (c.set key value) (c'.set key value) where
  toAgreeOff := h.toAgreeOff.set key value
  each other hother := by
    by_cases heq : other = key
    · subst heq
      exact .inl (bothHave_set other value c c')
    · refine (h.each other hother).imp (·.set key value) fun ⟨hc, hc'⟩ => ?_
      exact ⟨(Table.get?_put_of_ne value c.data heq).trans hc,
        (Table.get?_put_of_ne value c'.data heq).trans hc'⟩
  written := List.forall_mem_cons.2
    ⟨bothHave_set key value c c', fun other hother => (h.written other hother).set key value⟩

theorem Recorded.less {written' : List String} (h : Recorded keys c₀ c₀' written' c c')
    (hsubset : written ⊆ written') : Recorded keys c₀ c₀' written c c' :=
  ⟨h.toAgreeOff, h.each, fun key hkey => h.written key (hsubset hkey)⟩

/-- What ignores the keys does not change what has been recorded. -/
theorem Recorded.part (h : Recorded keys c₀ c₀' written c c') (hwritten : written ⊆ keys)
    (hheld : Held keys c c' d d') : Recorded keys c₀ c₀' written d d' := by
  have hboth : ∀ key ∈ keys, BothHave key c c' → BothHave key d d' := by
    rintro key hkey ⟨value, hc, hc'⟩
    exact ⟨value, (hheld.held key hkey).trans hc, (hheld.held' key hkey).trans hc'⟩
  refine ⟨hheld.toAgreeOff, fun key hkey => ?_, fun key hkey => ?_⟩
  · refine (h.each key hkey).imp (hboth key hkey) fun ⟨hc, hc'⟩ => ?_
    exact ⟨(hheld.held key hkey).trans hc, (hheld.held' key hkey).trans hc'⟩
  · exact hboth key (hwritten hkey) (h.written key hkey)

end Context

namespace Action

theorem lasts_recorded (keys own : List String) (c₀ c₀' : Context) :
    Lasts keys own fun written => Context.Recorded keys c₀ c₀' (written.filter (· ∈ keys)) where
  agree h := h.toAgreeOff
  record {written c c' key} value _ h := by
    -- of the keys that the action sets only those in question are remembered
    apply (h.set value).less
    rw [List.filter_cons]
    split
    · exact List.Subset.refl _
    · exact List.subset_cons_self _ _
  less hsubset h := h.less fun key hkey => by
    rw [List.mem_filter] at hkey ⊢
    exact ⟨hsubset hkey.1, hkey.2⟩
  part h hheld := h.part (fun key hkey => of_decide_eq_true (List.mem_filter.1 hkey).2) hheld

def ownKeys (name : String) : List String :=
  ["attempts", "delays_ms", "source", "primary_error", "fallback_error", "completed_steps", "valid",
    "failed_step", "errors", "branch_taken", "completed", "skipped"].map (name ++ "_" ++ ·)

theorem sureKeys_subset (action : Action) (outcome : Except Fault Unit) :
    action.sureKeys outcome ⊆ ownKeys action.name := by
  cases action <;> cases outcome <;> simp [sureKeys, ownKeys, name]

/-- Nothing that is under its own keys has any bearing on what an action does if its parts shun
them: from moments that differ under these keys alone it takes the same course. A record is either
made anew, and then it is the same in both cases, or it stays as it was. -/
theorem recorded_of_carryOut {action : Action} (hparts : action.PartsShun (ownKeys action.name))
    {m m' : Moment} (hcontext : m.context.AgreeOff (ownKeys action.name) m'.context)
    (hscene : m'.toScene = m.toScene) (site : Site) (fuel : Nat) (cancelAt : Option Nat) :
    Option.Rel
      (Crew.EndAlike fun outcome =>
        Context.Recorded (ownKeys action.name) m.context m'.context (action.sureKeys outcome))
      ((action.run site).carryOut fuel cancelAt m)
      ((action.run site).carryOut fuel cancelAt m') := by
  have hlasts := lasts_recorded (ownKeys action.name) action.recordKeys m.context m'.context
  have hshadow := settles action hparts _ hlasts site m.context m'.context hcontext.recorded
  apply (hshadow.mono id _).carryOut hcontext.recorded hscene fuel cancelAt
  intro outcome d d' h
  apply h.less
  intro key hkey
  exact List.mem_filter.2 ⟨hkey, decide_eq_true (sureKeys_subset action outcome hkey)⟩

/-- A sequence that has gone well after it had failed before still has the errors of that time. -/
theorem recorded_of_carryOut_stale :
    let copying := validated "v" [⟨leaf "copy" (.copy "x" "y"), none, false⟩] false
    let earlier : Data := [("v_errors", .array ["key not found: x"]), ("v_valid", false)]
    let m : Moment := { context := { identity := { session := "s" }, data := [("x", .int 1)] } }
    let m' : Moment := m.update (·.merge earlier)
    ∃ done done', (copying.run { owner := "s" }).carryOut 9 none m = some done ∧
      (copying.run { owner := "s" }).carryOut 9 none m' = some done' ∧
      Crew.EndAlike (fun outcome =>
          Context.Recorded (ownKeys "v") m.context m'.context (copying.sureKeys outcome))
        done done' ∧
      done'.2.data.get? "v_valid" = some (.bool true) ∧
      done'.2.data.get? "v_errors" = some (.array ["key not found: x"]) ∧
      done.2.data.get? "v_errors" = none := by
  intro copying earlier m m'
  have hordered : m.context.data.Ordered := List.pairwise_singleton _ _
  have hm : m.context.AgreeOff (ownKeys "v") m.context :=
    ⟨rfl, hordered, hordered, fun _ _ => rfl⟩
  have hm' : m.context.AgreeOff (ownKeys "v") m'.context := hm.merge_right (by decide)
  have hparts : copying.PartsShun (ownKeys copying.name) := by
    refine ⟨⟨⟨List.disjoint_nil_left _, ?_, ?_⟩, nofun⟩, trivial⟩ <;> decide
  have hboth := recorded_of_carryOut hparts hm' rfl { owner := "s" } 9 none
  have hrun : ((copying.run { owner := "s" }).carryOut 9 none m).map
      (·.2.data.get? "v_errors") = some none := by rfl
  have hrun' : ((copying.run { owner := "s" }).carryOut 9 none m').map
      (fun done => (done.2.data.get? "v_valid", done.2.data.get? "v_errors")) =
        some (some (.bool true), some (.array ["key not found: x"])) := by rfl
  obtain ⟨done, hdone, hnone⟩ := Option.map_eq_some_iff.1 hrun
  obtain ⟨done', hdone', hsome⟩ := Option.map_eq_some_iff.1 hrun'
  obtain ⟨hvalid, herrors⟩ := Prod.ext_iff.1 hsome
  rw [hdone, hdone'] at hboth
  cases hboth with
  | some hend => exact ⟨done, done', hdone, hdone', hend, hvalid, herrors, hnone⟩

end Action

end Workflow
