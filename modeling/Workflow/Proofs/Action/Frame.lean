import Workflow.Action.Run
import Workflow.Proofs.Work.Frame

/-!
# What actions leave alone

Apart from what its leaves do, an action is put together by the combinators of work, and it only
sets keys of the data, merges data into it and writes reports. `Permits` says that changes of a kind
may be followed by these; then whatever the combinators keep to holds of the action if it holds of
its leaves. `Licence` is the same for what a change makes of a moment.
-/

namespace Workflow

structure Permits (Does : (Moment → Moment) → Prop) : Prop where
  id : Does fun m => m
  set {f : Moment → Moment} (key : String) (value : Json) :
    Does f → Does fun m => (f m).set key value
  merge {f : Moment → Moment} (data : Data) : Does f → Does fun m => (f m).update (·.merge data)
  report {f : Moment → Moment} (level : Level) (message : String)
    (fields : List (String × String)) : Does f → Does fun m => (f m).report level message fields

theorem Permits.record {Does : (Moment → Moment) → Prop} (h : Permits Does) {f : Moment → Moment}
    (action suffix : String) (value : Json) (hf : Does f) :
    Does fun m => (f m).record action suffix value :=
  h.set _ _ hf

structure Licence (R : Moment → Moment → Prop) : Prop where
  refl (m : Moment) : R m m
  set {m m' : Moment} (key : String) (value : Json) : R m m' → R m (m'.set key value)
  merge {m m' : Moment} (data : Data) : R m m' → R m (m'.update (·.merge data))
  report {m m' : Moment} (level : Level) (message : String) (fields : List (String × String)) :
    R m m' → R m (m'.report level message fields)

theorem Licence.record {R : Moment → Moment → Prop} (h : Licence R) {m m' : Moment}
    (action suffix : String) (value : Json) (hm : R m m') : R m (m'.record action suffix value) :=
  h.set _ _ hm

theorem Licence.permits {R : Moment → Moment → Prop} (h : Licence R) :
    Permits fun f => ∀ m, R m (f m) where
  id := h.refl
  set key value hf m := h.set key value (hf m)
  merge data hf m := h.merge data (hf m)
  report level message fields hf m := h.report level message fields (hf m)

namespace Action

mutual

def All (P : Leaf → Prop) (L : RetryPolicy → Prop) : Action → Prop
  | leaf _ work => P work
  | sequence _ actions => AllOf P L actions
  | conditional _ _ yes no => AllOption P L yes ∧ AllOption P L no
  | choice _ branches default => AllSteps P L branches ∧ AllOption P L default
  | retry _ policy _ _ body => L policy ∧ All P L body
  | fallback _ primary secondary => All P L primary ∧ All P L secondary
  | validated _ steps _ => AllSteps P L steps
  | parallel _ branches _ _ => AllOf P L branches
  | progressive _ steps => AllSteps P L steps

def AllOption (P : Leaf → Prop) (L : RetryPolicy → Prop) : Option Action → Prop
  | none => True
  | some action => All P L action

def AllOf (P : Leaf → Prop) (L : RetryPolicy → Prop) : List Action → Prop
  | [] => True
  | action :: actions => All P L action ∧ AllOf P L actions

def AllSteps (P : Leaf → Prop) (L : RetryPolicy → Prop) : List (Step Action) → Prop
  | [] => True
  | ⟨action, _, _⟩ :: steps => All P L action ∧ AllSteps P L steps

end

section Closed

variable {Does : (Moment → Moment) → Prop} {Rests : Interrupts → Prop}
  {T : ∀ {α : Type}, Work α → Prop} {P : Leaf → Prop} {L : RetryPolicy → Prop}
  (hp : Permits Does)

section Records

include hp

theorem mergeChanges_permitted (name : String) (strategy : MergeStrategy) (total : Nat)
    (changes : List Data) {f : Moment → Moment} (hf : Does f) :
    Does fun m => mergeChanges name strategy total changes (f m) := by
  have hfold : ∀ (selected : List Data) {f : Moment → Moment}, Does f →
      Does fun m => selected.foldl (fun m changes => m.update (·.merge changes)) (f m) := by
    intro selected
    induction selected with
    | nil => exact fun hf => hf
    | cons changes selected ih => exact fun hf => ih (hp.merge changes hf)
  unfold mergeChanges
  split
  · exact hfold _ (hp.report _ _ _ (hp.report _ _ _ hf))
  · exact hfold _ (hp.report _ _ _ hf)

theorem reportFaults_permitted (name : String) (faults : List Fault) {f : Moment → Moment}
    (hf : Does f) : Does fun m => faults.foldl (reportBranchFault name) (f m) := by
  induction faults generalizing f with
  | nil => exact hf
  | cons fault faults ih => exact ih (hp.report _ _ _ hf)

theorem recordChoice_permitted (name : String) (index : Int) {f : Moment → Moment} (hf : Does f) :
    Does fun m => recordChoice name index (f m) :=
  hp.record _ _ _ (hp.set _ _ hf)

theorem recordProblem_permitted (name : String) (i : Nat) (findings : Findings) :
    Does (recordProblem name i findings) := by
  unfold recordProblem
  split
  · exact hp.record _ _ _ (hp.record _ _ _ (hp.record _ _ _ hp.id))
  · exact hp.record _ _ _ (hp.record _ _ _ hp.id)

theorem recordTaken_permitted (name suffix : String) (steps : List Nat) {f : Moment → Moment}
    (hf : Does f) : Does fun m => recordTaken name suffix steps (f m) :=
  hp.record _ _ _ hf

theorem reportStop_permitted (r : Retrier) (n : Nat) (fault : Fault) (reason : RetryStop) :
    Does (r.reportStop n fault reason) := by
  unfold Retrier.reportStop
  cases reason with
  | permanent | rejected => exact hp.report _ _ _ hp.id
  | exhausted | interrupted => exact hp.id

end Records

variable (h : Work.Closed Does Rests T) (hrests : Rests {})
  (hleaf : ∀ work, P work → ∀ name place, T (work.run name place))

include hp h

theorem closed_join (name : String) (names : List String) (strategy : MergeStrategy)
    (continueOnError : Bool) (base : Data) (replies : List Reply) :
    T (join name names strategy continueOnError base replies) := by
  simp only [join]
  split
  · exact h.fail _
  · exact h.change (mergeChanges_permitted hp _ _ _ _ (reportFaults_permitted hp _ _ hp.id))

include hrests hleaf

set_option linter.unusedSectionVars false

mutual

/-- What the combinators keep to holds of an action if it holds of its leaves. -/
theorem closed_run (site : Site) : (action : Action) → action.All P L → T (action.run site)
  | leaf name work, hP => hleaf work hP name site.toPlace
  | sequence name actions, hP => closed_runSequence site name 0 actions hP
  | conditional name test yes no, hP => by
    rw [run]
    apply h.look
    · intro m m' hm
      simp only [hm.data]
    intro m
    split
    · exact h.fail _
    · exact h.after (hp.record _ _ _ hp.id) (closed_runOptional _ yes hP.1)
    · exact h.after (hp.record _ _ _ hp.id) (closed_runOptional _ no hP.2)
  | choice name branches default, hP => by
    rw [run]
    apply closed_runChoice site name 0 branches hP.1
    apply h.after _ (h.mapFault (closed_runOptional _ default hP.2))
    dsimp only
    split
    · exact hp.report _ _ _ (recordChoice_permitted hp name _ hp.id)
    · exact recordChoice_permitted hp name _ hp.id
  | retry name policy veto delays body, hP => by
    rw [run]
    refine h.bind ?_ fun _ => h.done _
    apply Retrier.closed_loop h
    · exact fun n => h.after (hp.record _ _ _ hp.id) (closed_run _ body hP.2)
    · exact hrests
    · exact reportStop_permitted hp _
    · intro events n fault delay
      cases delays with
      | true => exact hp.record _ _ _ (hp.report _ _ _ hp.id)
      | false => exact hp.report _ _ _ hp.id
  | fallback name primary secondary, hP => by
    rw [run]
    apply h.bind (closed_run _ primary hP.1)
    intro outcome
    cases outcome with
    | ok _ => exact h.change (hp.record _ _ _ hp.id)
    | error fault =>
      apply h.after (hp.record _ _ _ (hp.report _ _ _ hp.id))
      apply h.bind (closed_run _ secondary hP.2)
      intro outcome
      cases outcome with
      | ok _ => exact h.change (hp.record _ _ _ hp.id)
      | error fault' => exact h.after (hp.record _ _ _ hp.id) (h.fail _)
  | validated name steps continueOnError, hP =>
    closed_runValidated site name continueOnError 0 {} steps hP
  | parallel name branches strategy continueOnError, hP => by
    rw [run]
    apply h.look
    · intro m m' hm
      simp only [hm.data]
    intro m
    exact h.bind (h.together (closed_runBranches site 0 branches hP)) fun replies =>
      closed_join hp h _ _ _ _ _ _
  | progressive name steps, hP => closed_runProgressive site name 0 {} steps hP

theorem closed_runOptional (site : Site) :
    (action : Option Action) → AllOption P L action → T (runOptional site action)
  | none, _ => h.idle
  | some action, hP => closed_run site action hP

theorem closed_runSequence (site : Site) (name : String) (i : Nat) :
    (actions : List Action) → AllOf P L actions → T (runSequence site name i actions)
  | [], _ => h.idle
  | action :: actions, hP => by
    rw [runSequence]
    apply h.after (hp.report _ _ _ hp.id)
    exact h.andThen (h.mapFault (closed_run _ action hP.1)) fun _ =>
      closed_runSequence site name (i + 1) actions hP.2

theorem closed_runChoice (site : Site) (name : String) (i : Nat) :
    (branches : List (Step Action)) → AllSteps P L branches →
      {otherwise : Work (Except Fault Unit)} → T otherwise →
        T (runChoice site name i branches otherwise)
  | [], _, _, ho => ho
  | ⟨action, test, _⟩ :: steps, hP, otherwise, ho => by
    rw [runChoice]
    apply h.look
    · intro m m' hm
      simp only [hm.data]
    intro m
    split
    · exact h.fail _
    · exact closed_runChoice site name (i + 1) steps hP.2 ho
    · exact h.after (recordChoice_permitted hp name _ (hp.report _ _ _ hp.id))
        (h.mapFault (closed_run _ action hP.1))

theorem closed_runValidated (site : Site) (name : String) (continueOnError : Bool) (i : Nat)
    (findings : Findings) : (steps : List (Step Action)) → AllSteps P L steps →
      T (runValidated site name continueOnError i findings steps)
  | [], _ => h.change (hp.record _ _ _ (hp.record _ _ _ hp.id))
  | ⟨action, test, _⟩ :: steps, hP => by
    rw [runValidated]
    apply h.bind (closed_run _ action hP.1)
    intro outcome
    apply h.look
    · intro m m' hm
      simp only [hm.data]
    intro m
    split
    · exact h.fail _
    · exact h.after (hp.record _ _ _ hp.id)
        (closed_runValidated site name continueOnError (i + 1) _ steps hP.2)
    · apply h.after (recordProblem_permitted hp name i _)
      split
      · exact h.after (hp.report _ _ _ hp.id)
          (closed_runValidated site name continueOnError (i + 1) _ steps hP.2)
      · exact h.fail _

theorem closed_runProgressive (site : Site) (name : String) (i : Nat) (taken : Taken) :
    (steps : List (Step Action)) → AllSteps P L steps →
      T (runProgressive site name i taken steps)
  | [], _ => h.change (recordTaken_permitted hp _ _ _ (recordTaken_permitted hp _ _ _ hp.id))
  | ⟨action, test, required⟩ :: steps, hP => by
    rw [runProgressive]
    apply h.look
    · intro m m' hm
      simp only [hm.data]
    intro m
    dsimp only
    split
    · exact h.fail _
    · exact h.fail _
    · exact h.after (recordTaken_permitted hp _ _ _ (hp.report _ _ _ hp.id))
        (closed_runProgressive site name (i + 1) _ steps hP.2)
    · apply h.bind (closed_run _ action hP.1)
      intro outcome
      cases outcome with
      | ok _ =>
        exact h.after (recordTaken_permitted hp _ _ _ hp.id)
          (closed_runProgressive site name (i + 1) _ steps hP.2)
      | error fault =>
        dsimp only
        split
        · exact h.fail _
        · exact h.after (recordTaken_permitted hp _ _ _ (hp.report _ _ _ hp.id))
            (closed_runProgressive site name (i + 1) _ steps hP.2)

theorem closed_runBranches (site : Site) (i : Nat) :
    (branches : List Action) → AllOf P L branches → ∀ branch ∈ runBranches site i branches, T branch
  | [], _ => fun branch hmem => by cases hmem
  | action :: actions, hP => fun branch hmem => by
    rw [runBranches] at hmem
    rcases List.mem_cons.1 hmem with rfl | hmem
    · exact closed_run _ action hP.1
    · exact closed_runBranches site (i + 1) actions hP.2 branch hmem

end

end Closed

section Only

variable {R : Moment → Moment → Prop} {P : Leaf → Prop} {L : RetryPolicy → Prop} (h : Licence R)
  (hleaf : ∀ work, P work → ∀ name place, (work.run name place).Only R) (site : Site)

include h hleaf

/-- All changes that the action makes are of the kind that its leaves keep to. -/
theorem only_run (action : Action) (hP : action.All P L) : (action.run site).Only R :=
  closed_run h.permits (Work.closed_only h.refl) trivial hleaf site action hP

theorem only_runBranches (i : Nat) (branches : List Action) (hP : AllOf P L branches) :
    ∀ branch ∈ runBranches site i branches, branch.Only R :=
  closed_runBranches h.permits (Work.closed_only h.refl) trivial hleaf site i branches hP

end Only

end Action

structure Moment.Works (m m' : Moment) : Prop where
  context : m'.context = { m.context with data := m'.data }
  now : m'.now = m.now
  cancelled : m.cancelled = true → m'.cancelled = true

namespace Moment.Works

variable {m₁ m₂ m₃ : Moment}

theorem refl (m : Moment) : Works m m :=
  ⟨rfl, rfl, id⟩

theorem trans (h : Works m₁ m₂) (h' : Works m₂ m₃) : Works m₁ m₃ where
  context := by rw [h'.context, h.context]
  now := h'.now.trans h.now
  cancelled := h'.cancelled ∘ h.cancelled

/-- Changing the data is such a change, whatever the data. -/
theorem of_data (m : Moment) (data : Data) : Works m (m.update fun ctx => { ctx with data }) :=
  ⟨rfl, rfl, id⟩

theorem licence : Licence Works where
  refl := refl
  set _ _ h := h.trans (of_data _ _)
  merge _ h := h.trans (of_data _ _)
  report _ _ _ h := ⟨h.context, h.now, h.cancelled⟩

end Moment.Works

structure Moment.Later (m m' : Moment) : Prop where
  context : m'.context = { m.context with data := m'.data }
  now : m.now ≤ m'.now
  cancelled : m.cancelled = true → m'.cancelled = true

namespace Moment.Later

variable {m₁ m₂ m₃ : Moment}

theorem of_works (h : m₁.Works m₂) : m₁.Later m₂ :=
  ⟨h.context, h.now.ge, h.cancelled⟩

theorem trans (h : Later m₁ m₂) (h' : Later m₂ m₃) : Later m₁ m₃ where
  context := by rw [h'.context, h.context]
  now := h.now.trans h'.now
  cancelled := h'.cancelled ∘ h.cancelled

end Moment.Later

theorem Moment.Works.allows {m m' : Moment} (h : m.Works m') : Drift.free.Allows m m' :=
  ⟨⟨h.now.ge, h.cancelled⟩, h.now⟩

/-- Work that changes the data only does so while others drift about. -/
theorem Work.Reaches.later {α : Type} {w : Work α} {m m' : Moment} {r : Option α}
    (hw : w.Only Moment.Works) (h : w.Reaches .free m r m') : m.Later m' :=
  Reaches.keeps (Q := Moment.Later) (d := .free) (fun m => .of_works (.refl m)) Moment.Later.trans
    (fun _ _ hs => ⟨rfl, hs.1, hs.2⟩) (hw.imp fun _ _ => .of_works) h

namespace Leaf

theorem works_run (name : String) (place : Place) (work : Leaf) :
    (work.run name place).Only Moment.Works := by
  have hlicence := Moment.Works.licence
  cases work with
  | noop | fail message permanent | raise fault => trivial
  | set key value => exact Work.only_change fun m => hlicence.set _ _ (.refl m)
  | copy origin target =>
    refine Work.only_look hlicence.refl fun m => ?_
    split
    · exact Work.only_change fun m => hlicence.set _ _ (.refl m)
    · trivial
  | delay span => exact Work.only_wait span {}
  | log message => exact Work.only_change fun m => hlicence.report _ _ _ (.refl m)
  | apply f =>
    exact Work.only_look hlicence.refl fun m =>
      Work.only_after (fun m' => .of_data m' _) trivial
  | flaky failures permanent =>
    refine fun m => ⟨⟨rfl, rfl, id⟩, ?_⟩
    dsimp only
    split
    · trivial
    · exact Work.only_change fun m => hlicence.record _ _ _ (.refl m)
  | mark extra =>
    exact Work.only_change fun m => hlicence.merge _ (hlicence.record _ _ _ (.refl m))
  | cancel fault =>
    have hcancel : ∀ m : Moment, Moment.Works m m.cancel := fun m => ⟨rfl, rfl, fun _ => rfl⟩
    cases fault with
    | none => exact Work.only_change hcancel
    | some fault => exact Work.only_after hcancel trivial

end Leaf

mutual

theorem Action.all_true : (action : Action) → action.All (fun _ => True) fun _ => True
  | .leaf _ _ => trivial
  | .sequence _ actions => allOf_true actions
  | .conditional _ _ yes no => ⟨allOption_true yes, allOption_true no⟩
  | .choice _ branches default => ⟨allSteps_true branches, allOption_true default⟩
  | .retry _ _ _ _ body => ⟨trivial, all_true body⟩
  | .fallback _ primary secondary => ⟨all_true primary, all_true secondary⟩
  | .validated _ steps _ => allSteps_true steps
  | .parallel _ branches _ _ => allOf_true branches
  | .progressive _ steps => allSteps_true steps

theorem Action.allOption_true :
    (action : Option Action) → AllOption (fun _ => True) (fun _ => True) action
  | none => trivial
  | some action => all_true action

theorem Action.allOf_true :
    (actions : List Action) → AllOf (fun _ => True) (fun _ => True) actions
  | [] => trivial
  | action :: actions => ⟨all_true action, allOf_true actions⟩

theorem Action.allSteps_true :
    (steps : List (Step Action)) → AllSteps (fun _ => True) (fun _ => True) steps
  | [] => trivial
  | ⟨action, _, _⟩ :: steps => ⟨all_true action, allSteps_true steps⟩

end

theorem Action.works_run (site : Site) (action : Action) :
    (action.run site).Only Moment.Works :=
  only_run Moment.Works.licence (fun work _ name place => work.works_run name place) site action
    action.all_true

def Interrupts.Cancels (interrupts : Interrupts) : Prop :=
  interrupts.cancellable = true

theorem Leaf.pauses_run (name : String) (place : Place) (work : Leaf) :
    (work.run name place).Pauses Interrupts.Cancels := by
  have h := Work.closed_pauses Interrupts.Cancels
  cases work with
  | noop | fail message permanent | raise fault => trivial
  | set key value => exact h.change trivial
  | copy origin target =>
    intro m
    dsimp only
    split
    · exact h.change trivial
    · trivial
  | delay span => exact h.wait span rfl
  | log message => exact h.change trivial
  | apply f => exact fun m => h.after trivial (h.done _)
  | flaky failures permanent =>
    intro m
    dsimp only
    split
    · trivial
    · exact h.change trivial
  | mark extra => exact h.change trivial
  | cancel fault =>
    cases fault with
    | none => exact h.change trivial
    | some fault => exact h.after trivial (h.fail fault)

/-- Whatever an action waits for in a pause, a cancellation ends the wait. -/
theorem Action.pauses_run (site : Site) (action : Action) :
    (action.run site).Pauses Interrupts.Cancels :=
  closed_run ⟨trivial, fun _ _ _ => trivial, fun _ _ => trivial, fun _ _ _ _ => trivial⟩
    (Work.closed_pauses Interrupts.Cancels) rfl (fun work _ name place => work.pauses_run name place)
    site action action.all_true

end Workflow
