import Workflow.Proofs.Action.Builtin
import Workflow.Proofs.Work.Agree

/-!
# Actions that leave no choice

An action of built-in leaves whose attempts may take as long as they need comes to the same each
time it is run at a site on the same data and with the same random numbers. Neither does it matter
how long its delays and the waits between its attempts are: an action comes to the same as one that
differs from it in those times only.
-/

namespace Workflow

open Work (Agree)

def RetryPolicy.Patient (policy : RetryPolicy) : Prop :=
  policy.attemptTimeout = none

inductive Step.Rel {α : Type} (R : α → α → Prop) : Step α → Step α → Prop
  | mk {action action' : α} (test : Option Predicate) (required : Bool) (h : R action action') :
      Rel R ⟨action, test, required⟩ ⟨action', test, required⟩

/-- Two actions that differ in nothing but how long their delays are, and in how long those of their
retries wait that do not record it. -/
inductive Action.Retimed : Action → Action → Prop
  | leaf (name : String) (work : Leaf) : Retimed (.leaf name work) (.leaf name work)
  | delay (name : String) (span span' : Span) :
      Retimed (.leaf name (.delay span)) (.leaf name (.delay span'))
  | sequence (name : String) {actions actions' : List Action}
      (h : List.Forall₂ Retimed actions actions') :
      Retimed (.sequence name actions) (.sequence name actions')
  | conditional (name : String) (test : Predicate) {yes yes' no no' : Option Action}
      (hyes : Option.Rel Retimed yes yes') (hno : Option.Rel Retimed no no') :
      Retimed (.conditional name test yes no) (.conditional name test yes' no')
  | choice (name : String) {branches branches' : List (Step Action)}
      {default default' : Option Action} (h : List.Forall₂ (Step.Rel Retimed) branches branches')
      (hdefault : Option.Rel Retimed default default') :
      Retimed (.choice name branches default) (.choice name branches' default')
  | retry (name : String) (policy : RetryPolicy) (veto : Veto) (delays : Bool) {body body' : Action}
      (h : Retimed body body') :
      Retimed (.retry name policy veto delays body) (.retry name policy veto delays body')
  | backoff (name : String) (policy : RetryPolicy) (veto : Veto) (backoff : Backoff)
      {body body' : Action} (h : Retimed body body') :
      Retimed (.retry name policy veto false body)
        (.retry name { policy with backoff } veto false body')
  | fallback (name : String) {primary primary' secondary secondary' : Action}
      (hprimary : Retimed primary primary') (hsecondary : Retimed secondary secondary') :
      Retimed (.fallback name primary secondary) (.fallback name primary' secondary')
  | validated (name : String) (continueOnError : Bool) {steps steps' : List (Step Action)}
      (h : List.Forall₂ (Step.Rel Retimed) steps steps') :
      Retimed (.validated name steps continueOnError) (.validated name steps' continueOnError)
  | parallel (name : String) (strategy : MergeStrategy) (continueOnError : Bool)
      {branches branches' : List Action} (h : List.Forall₂ Retimed branches branches') :
      Retimed (.parallel name branches strategy continueOnError)
        (.parallel name branches' strategy continueOnError)
  | progressive (name : String) {steps steps' : List (Step Action)}
      (h : List.Forall₂ (Step.Rel Retimed) steps steps') :
      Retimed (.progressive name steps) (.progressive name steps')

theorem Leaf.agree_run {work : Leaf} (h : work.Builtin) (name : String) (place : Place) :
    Agree Eq (work.run name place) (work.run name place) := by
  cases work with
  | noop | fail message permanent => exact Work.agree_done rfl
  | set key value => exact Work.agree_change fun _ _ hm => hm.update (·.set key value)
  | copy origin target =>
    refine Work.agree_look fun m₁ m₂ hm => ?_
    rw [hm.data]
    split
    next value _ => exact Work.agree_change fun _ _ hm => hm.update (·.set target value)
    · exact Work.agree_done rfl
  | delay span => exact Work.agree_wait span span rfl
  | log message =>
    refine Work.agree_change fun m₁ m₂ hm => ?_
    exact ⟨hm.context, hm.cancelled⟩
  | apply | flaky | mark | cancel | raise => exact absurd h id

namespace Action

theorem alike_recordChoice {m₁ m₂ : Moment} (hm : m₁.Alike m₂) (name : String) (index : Int) :
    (recordChoice name index m₁).Alike (recordChoice name index m₂) :=
  (hm.update (·.set "branch_taken" (.int index))).record _ _ _

theorem alike_recordProblem {m₁ m₂ : Moment} (hm : m₁.Alike m₂) (name : String) (i : Nat)
    (findings : Findings) :
    (recordProblem name i findings m₁).Alike (recordProblem name i findings m₂) := by
  unfold recordProblem
  dsimp only
  split
  · exact ((hm.record _ _ _).record _ _ _).record _ _ _
  · exact (hm.record _ _ _).record _ _ _

theorem alike_mergeChanges {m₁ m₂ : Moment} (hm : m₁.Alike m₂) (name : String)
    (strategy : MergeStrategy) (total : Nat) (changes : List Data) :
    (mergeChanges name strategy total changes m₁).Alike
      (mergeChanges name strategy total changes m₂) := by
  have hfold : ∀ (selected : List Data) (m₁ m₂ : Moment), m₁.Alike m₂ →
      (selected.foldl (fun m changes => m.update (·.merge changes)) m₁).Alike
        (selected.foldl (fun m changes => m.update (·.merge changes)) m₂) := fun selected => by
    induction selected with
    | nil => exact fun _ _ hm => hm
    | cons changes selected ih => exact fun m₁ m₂ hm => ih _ _ (hm.update (·.merge changes))
  unfold mergeChanges
  dsimp only
  refine hfold _ _ _ (Moment.Alike.report ?_ _ _ _)
  split
  · exact hm.report _ _ _
  · exact hm

theorem agree_join (name : String) (names : List String) (strategy : MergeStrategy)
    (continueOnError : Bool) (base : Data) (replies : List Reply) :
    Agree Eq (join name names strategy continueOnError base replies)
      (join name names strategy continueOnError base replies) := by
  have hfold : ∀ (faults : List Fault) (m₁ m₂ : Moment), m₁.Alike m₂ →
      (faults.foldl (reportBranchFault name) m₁).Alike
        (faults.foldl (reportBranchFault name) m₂) := fun faults => by
    induction faults with
    | nil => exact fun _ _ hm => hm
    | cons fault faults ih => exact fun m₁ m₂ hm => ih _ _ (hm.report _ _ _)
  simp only [join]
  split
  · exact Work.agree_done rfl
  · exact Work.agree_change fun m₁ m₂ hm => alike_mergeChanges (hfold _ _ _ hm) _ _ _ _

theorem Retimed.name_eq {action action' : Action} (h : Retimed action action') :
    action'.name = action.name := by
  cases h <;> rfl

theorem names_of_retimed {actions actions' : List Action}
    (h : List.Forall₂ Retimed actions actions') :
    actions'.map Action.name = actions.map Action.name := by
  induction h with
  | nil => rfl
  | cons haction _ ih => rw [List.map_cons, List.map_cons, haction.name_eq, ih]

/-- Retry actions that allow as many attempts come to the same if their bodies do. How long they
wait matters only where it is recorded. -/
theorem agree_retry {site : Site} {name : String} {policy policy' : RetryPolicy}
    {veto : Veto} {delays : Bool} {body body' : Action} (hpatient : policy.Patient)
    (hpatient' : policy'.Patient) (hattempts : policy'.attempts = policy.attempts)
    (hdelays : delays = true → policy' = policy)
    (hbody : ∀ n, Agree Eq (body.run (site.turn n)) (body'.run (site.turn n))) :
    Agree Eq ((retry name policy veto delays body).run site)
      ((retry name policy' veto delays body').run site) := by
  have hlimit : (retrier site name policy veto).policy.attemptTimeout = none := hpatient
  have hlimit' : (retrier site name policy' veto).policy.attemptTimeout = none := hpatient'
  have hcount : (retrier site name policy' veto).policy.attempts =
      (retrier site name policy veto).policy.attempts := hattempts
  rw [run, run]
  unfold Retrier.run
  rw [hcount]
  refine (Retrier.agree_loop (E := fun events events' => delays = true → events' = events)
    hlimit hlimit' rfl rfl rfl (fun n => ?_) ?_ ?_ _ _ _ _ fun _ => rfl).bind
      fun _ _ hend => Work.agree_done (congrArg _ hend)
  · exact Work.agree_after (fun _ _ hm => hm.record _ _ _) (hbody n)
  · intro events events' he m₁ m₂ hm
    cases delays with
    | true =>
      rw [he rfl]
      exact hm.record _ _ _
    | false => exact hm
  · intro n fault events events' he hrecorded
    rw [he hrecorded, hdelays hrecorded]

mutual

/-- Actions that differ in times only come to the same. -/
theorem agree_retimed (site : Site) : (action : Action) → {action' : Action} →
    Retimed action action' → action.All Leaf.Builtin RetryPolicy.Patient →
      Agree Eq (action.run site) (action'.run site)
  | .leaf name work, _, .leaf _ _, h => Leaf.agree_run h name site.toPlace
  | .leaf _ (.delay span), _, .delay _ _ span', _ => Work.agree_wait span span' rfl
  | .sequence name actions, _, .sequence _ hr, h =>
    agree_runSequence site name 0 actions hr h
  | .conditional name test yes no, _, .conditional _ _ hyes hno, h => by
    rw [run, run]
    refine Work.agree_look fun m₁ m₂ hm => ?_
    rw [hm.data]
    split
    · exact Work.agree_done rfl
    · exact Work.agree_after (fun _ _ hm => hm.record _ _ _) (agree_runOptional _ yes hyes h.1)
    · exact Work.agree_after (fun _ _ hm => hm.record _ _ _) (agree_runOptional _ no hno h.2)
  | .choice name branches default, .choice _ _ default', .choice _ hr hdefault, h => by
    have hsome : default'.isSome = default.isSome := by cases hdefault <;> rfl
    rw [run, run, hsome]
    refine agree_runChoice site name 0 branches hr h.1 _ _
      (Work.agree_after (fun _ _ hm => ?_)
        ((agree_runOptional _ default hdefault h.2).mapFault _))
    dsimp only
    split
    · exact (alike_recordChoice hm name _).report _ _ _
    · exact alike_recordChoice hm name _
  | .retry name policy veto delays body, _, .retry _ _ _ _ hr, h =>
    agree_retry h.1 h.1 rfl (fun _ => rfl) fun n => agree_retimed _ body hr h.2
  | .retry name policy veto _ body, _, .backoff _ _ _ backoff hr, h =>
    agree_retry h.1 h.1 rfl nofun fun n => agree_retimed _ body hr h.2
  | .fallback name primary secondary, _, .fallback _ hprimary hsecondary, h => by
    rw [run, run, hprimary.name_eq, hsecondary.name_eq]
    refine (agree_retimed _ primary hprimary h.1).bind ?_
    rintro outcome _ rfl
    cases outcome with
    | ok _ => exact Work.agree_change fun _ _ hm => hm.record _ _ _
    | error fault =>
      refine Work.agree_after (fun _ _ hm => (hm.report _ _ _).record _ _ _)
        ((agree_retimed _ secondary hsecondary h.2).bind ?_)
      rintro outcome _ rfl
      cases outcome with
      | ok _ => exact Work.agree_change fun _ _ hm => hm.record _ _ _
      | error fault' =>
        exact Work.agree_after (fun _ _ hm => hm.record _ _ _) (Work.agree_done rfl)
  | .validated name steps continueOnError, _, .validated _ _ hr, h =>
    agree_runValidated site name continueOnError 0 {} steps hr h
  | .parallel name branches strategy continueOnError, _, .parallel _ _ _ hr, h => by
    rw [run, run, names_of_retimed hr]
    refine Work.agree_look fun m₁ m₂ hm => ?_
    rw [hm.data]
    refine (Work.agree_together (agree_runBranches site 0 branches hr h)).bind ?_
    rintro replies _ rfl
    exact agree_join _ _ _ _ _ _
  | .progressive name steps, _, .progressive _ hr, h =>
    agree_runProgressive site name 0 {} steps hr h
termination_by structural part => part

theorem agree_runOptional (site : Site) : (action : Option Action) →
    {action' : Option Action} → Option.Rel Retimed action action' →
      AllOption Leaf.Builtin RetryPolicy.Patient action →
        Agree Eq (runOptional site action) (runOptional site action')
  | none, _, .none, _ => Work.agree_done rfl
  | some action, _, .some hr, h => agree_retimed site action hr h
termination_by structural part => part

theorem agree_runSequence (site : Site) (name : String) (i : Nat) :
    (actions : List Action) → {actions' : List Action} → List.Forall₂ Retimed actions actions' →
      AllOf Leaf.Builtin RetryPolicy.Patient actions →
        Agree Eq (runSequence site name i actions) (runSequence site name i actions')
  | [], _, .nil, _ => Work.agree_done rfl
  | action :: actions, _, .cons haction hr, h => by
    rw [runSequence, runSequence, haction.name_eq]
    exact Work.agree_after (fun _ _ hm => hm.report _ _ _)
      (((agree_retimed _ action haction h.1).mapFault _).andThen fun _ =>
        agree_runSequence site name (i + 1) actions hr h.2)
termination_by structural part => part

theorem agree_runChoice (site : Site) (name : String) (i : Nat) :
    (branches : List (Step Action)) → {branches' : List (Step Action)} →
      List.Forall₂ (Step.Rel Retimed) branches branches' →
        AllSteps Leaf.Builtin RetryPolicy.Patient branches →
          (otherwise₁ otherwise₂ : Work (Except Fault Unit)) → Agree Eq otherwise₁ otherwise₂ →
            Agree Eq (runChoice site name i branches otherwise₁)
              (runChoice site name i branches' otherwise₂)
  | [], _, .nil, _, _, _, ho => ho
  | ⟨action, test, _⟩ :: steps, _, .cons (.mk _ _ haction) hr, h, otherwise₁, otherwise₂, ho => by
    rw [runChoice, runChoice]
    refine Work.agree_look fun m₁ m₂ hm => ?_
    rw [hm.data]
    split
    · exact Work.agree_done rfl
    · exact agree_runChoice site name (i + 1) steps hr h.2 otherwise₁ otherwise₂ ho
    · exact Work.agree_after
        (fun _ _ hm => alike_recordChoice (hm.report _ _ _) name _)
        ((agree_retimed _ action haction h.1).mapFault _)
termination_by structural part => part

theorem agree_runValidated (site : Site) (name : String) (continueOnError : Bool)
    (i : Nat) (findings : Findings) : (steps : List (Step Action)) →
      {steps' : List (Step Action)} → List.Forall₂ (Step.Rel Retimed) steps steps' →
        AllSteps Leaf.Builtin RetryPolicy.Patient steps →
          Agree Eq (runValidated site name continueOnError i findings steps)
            (runValidated site name continueOnError i findings steps')
  | [], _, .nil, _ => Work.agree_change fun _ _ hm => (hm.record _ _ _).record _ _ _
  | ⟨action, test, _⟩ :: steps, _, .cons (.mk _ _ haction) hr, h => by
    rw [runValidated, runValidated, haction.name_eq]
    refine (agree_retimed _ action haction h.1).bind ?_
    rintro outcome _ rfl
    refine Work.agree_look fun m₁ m₂ hm => ?_
    rw [hm.data]
    split
    · exact Work.agree_done rfl
    · exact Work.agree_after (fun _ _ hm => hm.record _ _ _)
        (agree_runValidated site name continueOnError (i + 1) _ steps hr h.2)
    · refine Work.agree_after (fun _ _ hm => alike_recordProblem hm name i _) ?_
      split
      · exact Work.agree_after (fun _ _ hm => hm.report _ _ _)
          (agree_runValidated site name continueOnError (i + 1) _ steps hr h.2)
      · exact Work.agree_done rfl
termination_by structural part => part

theorem agree_runProgressive (site : Site) (name : String) (i : Nat) (taken : Taken) :
    (steps : List (Step Action)) → {steps' : List (Step Action)} →
      List.Forall₂ (Step.Rel Retimed) steps steps' →
        AllSteps Leaf.Builtin RetryPolicy.Patient steps →
          Agree Eq (runProgressive site name i taken steps)
            (runProgressive site name i taken steps')
  | [], _, .nil, _ => Work.agree_change fun _ _ hm => (hm.record _ _ _).record _ _ _
  | ⟨action, test, required⟩ :: steps, _, .cons (.mk _ _ haction) hr, h => by
    rw [runProgressive, runProgressive, haction.name_eq]
    refine Work.agree_look fun m₁ m₂ hm => ?_
    dsimp only
    rw [hm.data]
    split
    · exact Work.agree_done rfl
    · exact Work.agree_done rfl
    · exact Work.agree_after (fun _ _ hm => (hm.report _ _ _).record _ _ _)
        (agree_runProgressive site name (i + 1) _ steps hr h.2)
    · refine (agree_retimed _ action haction h.1).bind ?_
      rintro outcome _ rfl
      cases outcome with
      | ok _ =>
        exact Work.agree_after (fun _ _ hm => hm.record _ _ _)
          (agree_runProgressive site name (i + 1) _ steps hr h.2)
      | error fault =>
        dsimp only
        split
        · exact Work.agree_done rfl
        · exact Work.agree_after (fun _ _ hm => (hm.report _ _ _).record _ _ _)
            (agree_runProgressive site name (i + 1) _ steps hr h.2)
termination_by structural part => part

theorem agree_runBranches (site : Site) (i : Nat) : (branches : List Action) →
    {branches' : List Action} → List.Forall₂ Retimed branches branches' →
      AllOf Leaf.Builtin RetryPolicy.Patient branches →
        List.Forall₂ (Agree Eq) (runBranches site i branches) (runBranches site i branches')
  | [], _, .nil, _ => .nil
  | action :: actions, _, .cons haction hr, h => by
    rw [runBranches, runBranches]
    exact .cons (agree_retimed _ action haction h.1)
      (agree_runBranches site (i + 1) actions hr h.2)
termination_by structural part => part

end

mutual

theorem Retimed.refl : (action : Action) → Retimed action action
  | .leaf name work => .leaf name work
  | .sequence name actions => .sequence name (forall₂_retimed actions)
  | .conditional name test yes no => .conditional name test (rel_retimed yes) (rel_retimed no)
  | .choice name branches default => .choice name (forall₂_rel_retimed branches) (rel_retimed default)
  | .retry name policy veto delays body => .retry name policy veto delays (Retimed.refl body)
  | .fallback name primary secondary =>
    .fallback name (Retimed.refl primary) (Retimed.refl secondary)
  | .validated name steps continueOnError =>
    .validated name continueOnError (forall₂_rel_retimed steps)
  | .parallel name branches strategy continueOnError =>
    .parallel name strategy continueOnError (forall₂_retimed branches)
  | .progressive name steps => .progressive name (forall₂_rel_retimed steps)

theorem rel_retimed : (action : Option Action) → Option.Rel Retimed action action
  | none => .none
  | some action => .some (Retimed.refl action)

theorem forall₂_retimed : (actions : List Action) → List.Forall₂ Retimed actions actions
  | [] => .nil
  | action :: actions => .cons (Retimed.refl action) (forall₂_retimed actions)

theorem forall₂_rel_retimed :
    (steps : List (Step Action)) → List.Forall₂ (Step.Rel Retimed) steps steps
  | [] => .nil
  | ⟨action, test, required⟩ :: steps =>
    .cons (.mk test required (Retimed.refl action)) (forall₂_rel_retimed steps)

end

/-- An action comes to the same each time. -/
theorem agree_run (site : Site) (action : Action)
    (h : action.All Leaf.Builtin RetryPolicy.Patient) :
    Agree Eq (action.run site) (action.run site) :=
  agree_retimed site action (.refl action) h

end Action

end Workflow
