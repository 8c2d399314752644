import Workflow.Proofs.Action.Frame
import Workflow.Proofs.Spec.Valid
import Workflow.Proofs.Work.Blind
import Workflow.Proofs.Work.Untied
import Workflow.Registry.Build

/-!
# Built-in actions

The leaves of actions that are built with the built-in kinds only set values, wait, report or fail.
Such actions do not cancel a run, they neither lose keys of the data nor bring them out of order,
and they take no notice of the journal.
-/

namespace Workflow

def Leaf.Builtin : Leaf → Prop
  | noop | set _ _ | copy _ _ | fail _ _ | delay _ | log _ => True
  | apply _ | flaky _ _ | mark _ | cancel _ | raise _ => False

def ActionKind.Builtin (kind : ActionKind) : Prop :=
  kind ∈ Registry.builtinActions.map Prod.snd

namespace Action

variable {P : Leaf → Prop} {L : RetryPolicy → Prop}

theorem allOf_iff {actions : List Action} : AllOf P L actions ↔ ∀ a ∈ actions, a.All P L := by
  induction actions with
  | nil => exact ⟨fun _ => List.forall_mem_nil _, fun _ => trivial⟩
  | cons action actions ih => rw [AllOf, ih, List.forall_mem_cons]

theorem allSteps_iff {steps : List (Step Action)} :
    AllSteps P L steps ↔ ∀ step ∈ steps, step.action.All P L := by
  induction steps with
  | nil => exact ⟨fun _ => List.forall_mem_nil _, fun _ => trivial⟩
  | cons step steps ih => rw [AllSteps, ih, List.forall_mem_cons]

end Action

theorem forall_mem_of_mapM {α β : Type} {f : α → Except Fault β} {P : β → Prop}
    (hf : ∀ a b, f a = .ok b → P b) {as : List α} {bs : List β} (h : as.mapM f = .ok bs) :
    ∀ b ∈ bs, P b := by
  induction as generalizing bs with
  | nil =>
    cases h
    exact fun _ hmem => by cases hmem
  | cons a as ih =>
    rw [List.mapM_cons] at h
    obtain ⟨b, hb, h⟩ := bind_eq_ok.1 h
    obtain ⟨rest, hrest, h⟩ := bind_eq_ok.1 h
    cases h
    exact List.forall_mem_cons.2 ⟨hf a b hb, ih hrest⟩

theorem Params.forall_mem_of_parts {α : Type} {p : Params} {key : String}
    {read : Params → Except Fault α} {P : α → Prop} (hread : ∀ part a, read part = .ok a → P a)
    {results : List α} (h : p.parts key read = .ok results) : ∀ a ∈ results, P a := by
  obtain ⟨tables, -, h⟩ := bind_eq_ok.1 h
  exact forall_mem_of_mapM (fun _ _ h => hread _ _ h) h

namespace ActionKind

variable {nested : Builder} {name : String} {p : Params} {action : Action}

section Build

variable {P : Leaf → Prop} {L : RetryPolicy → Prop}
  (hnested : ∀ spec action, nested spec = .ok action → action.All P L)

include hnested

theorem all_buildRequired {key : String} (h : buildRequired nested p key = .ok action) :
    action.All P L := by
  obtain ⟨spec, -, h⟩ := bind_eq_ok.1 h
  exact hnested spec action h

theorem all_buildOptional {key : String} {action : Option Action}
    (h : buildOptional nested p key = .ok action) : Action.AllOption P L action := by
  obtain ⟨spec, -, h⟩ := bind_eq_ok.1 h
  cases spec with
  | none =>
    cases h
    trivial
  | some spec =>
    obtain ⟨built, hbuilt, h⟩ := bind_eq_ok.1 h
    cases h
    exact hnested spec built hbuilt

theorem all_buildSequence (h : buildSequence nested name p = .ok action) : action.All P L := by
  obtain ⟨specs, -, h⟩ := bind_eq_ok.1 h
  obtain ⟨actions, hactions, h⟩ := bind_eq_ok.1 h
  cases h
  exact Action.allOf_iff.2 (forall_mem_of_mapM hnested hactions)

theorem all_buildConditional (h : buildConditional nested name p = .ok action) :
    action.All P L := by
  obtain ⟨test, -, h⟩ := bind_eq_ok.1 h
  obtain ⟨yes, hyes, h⟩ := bind_eq_ok.1 h
  obtain ⟨no, hno, h⟩ := bind_eq_ok.1 h
  cases h
  exact ⟨all_buildOptional hnested hyes, all_buildOptional hnested hno⟩

theorem all_buildChoice (h : buildChoice nested name p = .ok action) : action.All P L := by
  obtain ⟨branches, hbranches, h⟩ := bind_eq_ok.1 h
  obtain ⟨default, hdefault, h⟩ := bind_eq_ok.1 h
  cases h
  refine ⟨Action.allSteps_iff.2 (Params.forall_mem_of_parts (fun part step h => ?_) hbranches),
    all_buildOptional hnested hdefault⟩
  obtain ⟨test, -, h⟩ := bind_eq_ok.1 h
  obtain ⟨action, haction, h⟩ := bind_eq_ok.1 h
  cases h
  exact all_buildRequired hnested haction

theorem all_buildFallback (h : buildFallback nested name p = .ok action) : action.All P L := by
  obtain ⟨primary, hprimary, h⟩ := bind_eq_ok.1 h
  obtain ⟨secondary, hsecondary, h⟩ := bind_eq_ok.1 h
  cases h
  exact ⟨all_buildRequired hnested hprimary, all_buildRequired hnested hsecondary⟩

theorem all_buildValidated (h : buildValidated nested name p = .ok action) : action.All P L := by
  obtain ⟨steps, hsteps, h⟩ := bind_eq_ok.1 h
  obtain ⟨continueOnError, -, h⟩ := bind_eq_ok.1 h
  cases h
  refine Action.allSteps_iff.2 (Params.forall_mem_of_parts (fun part step h => ?_) hsteps)
  obtain ⟨action, haction, h⟩ := bind_eq_ok.1 h
  obtain ⟨test, -, h⟩ := bind_eq_ok.1 h
  cases h
  exact all_buildRequired hnested haction

theorem all_buildParallel (h : buildParallel nested name p = .ok action) : action.All P L := by
  obtain ⟨strategy, -, h⟩ := bind_eq_ok.1 h
  obtain ⟨specs, -, h⟩ := bind_eq_ok.1 h
  obtain ⟨branches, hbranches, h⟩ := bind_eq_ok.1 h
  obtain ⟨continueOnError, -, h⟩ := bind_eq_ok.1 h
  cases h
  exact Action.allOf_iff.2 (forall_mem_of_mapM hnested hbranches)

theorem all_buildProgressive (h : buildProgressive nested name p = .ok action) :
    action.All P L := by
  obtain ⟨steps, hsteps, h⟩ := bind_eq_ok.1 h
  cases h
  refine Action.allSteps_iff.2 (Params.forall_mem_of_parts (fun part step h => ?_) hsteps)
  obtain ⟨action, haction, h⟩ := bind_eq_ok.1 h
  obtain ⟨test, -, h⟩ := bind_eq_ok.1 h
  obtain ⟨required, -, h⟩ := bind_eq_ok.1 h
  cases h
  exact all_buildRequired hnested haction

end Build

/-- An action of a built-in kind consists of built-in leaves if the actions nested in it do. -/
theorem builtin_build {spec : ActionSpec} {kind : ActionKind}
    (hnested : ∀ spec action, nested spec = .ok action → action.All Leaf.Builtin fun _ => True)
    (hkind : kind.Builtin) (h : kind.build nested spec = .ok action) :
    action.All Leaf.Builtin fun _ => True := by
  cases kind with
  | noop =>
    cases h
    trivial
  | set | copy | fail =>
    obtain ⟨first, -, h⟩ := bind_eq_ok.1 h
    obtain ⟨second, -, h⟩ := bind_eq_ok.1 h
    cases h
    trivial
  | delay | log =>
    obtain ⟨value, -, h⟩ := bind_eq_ok.1 h
    cases h
    trivial
  | sequence => exact all_buildSequence hnested h
  | conditional => exact all_buildConditional hnested h
  | choice => exact all_buildChoice hnested h
  | retry =>
    obtain ⟨body, hbody, h⟩ := bind_eq_ok.1 h
    obtain ⟨count, -, h⟩ := bind_eq_ok.1 h
    obtain ⟨step, -, h⟩ := bind_eq_ok.1 h
    cases h
    exact ⟨trivial, all_buildRequired hnested hbody⟩
  | retryWithBackoff =>
    obtain ⟨policy, -, h⟩ := bind_eq_ok.1 h
    obtain ⟨body, hbody, h⟩ := bind_eq_ok.1 h
    obtain ⟨parts, -, h⟩ := bind_eq_ok.1 h
    cases h
    exact ⟨trivial, all_buildRequired hnested hbody⟩
  | fallback => exact all_buildFallback hnested h
  | validated => exact all_buildValidated hnested h
  | parallel => exact all_buildParallel hnested h
  | progressive => exact all_buildProgressive hnested h
  | named | flaky | mark | cancel | raise | failPermanently | testedConditional | testedChoice
  | testedValidated | testedProgressive | retryWithPolicy =>
    exact absurd hkind (by simp [Builtin, Registry.builtinActions])

end ActionKind

namespace Registry

theorem builtin_of_get? {kind : String} {meaning : ActionKind}
    (h : builtins.actions.get? kind = some meaning) : meaning.Builtin := by
  have hmerge : ∀ (entries : List (String × ActionKind)) (t : Table ActionKind),
      (t.merge entries).get? kind = some meaning →
        t.get? kind = some meaning ∨ meaning ∈ entries.map Prod.snd := fun entries => by
    induction entries with
    | nil => exact fun t h => .inl h
    | cons entry entries ih =>
      intro t h
      rcases ih _ h with h | hmem
      · rw [Table.get?_put] at h
        split at h
        · cases h
          exact .inr List.mem_cons_self
        · exact .inl h
      · exact .inr (List.mem_cons_of_mem _ hmem)
  rcases hmerge _ _ h with h | hmem
  · cases h
  · exact hmem

theorem builtin_buildNested {fuel : Nat} {spec : ActionSpec} {action : Action}
    (h : builtins.buildNested fuel spec = .ok action) :
    action.All Leaf.Builtin fun _ => True := by
  induction fuel generalizing spec action with
  | zero => cases h
  | succ fuel ih =>
    rw [buildNested] at h
    split at h
    next kind hkind => exact ActionKind.builtin_build (fun _ _ => ih) (builtin_of_get? hkind) h
    · cases h

/-- Actions that are built with the built-in kinds consist of built-in leaves. -/
theorem builtin_buildActions {specs : List ActionSpec} {actions : List Action}
    (h : builtins.buildActions specs = .ok actions) :
    Action.AllOf Leaf.Builtin (fun _ => True) actions :=
  Action.allOf_iff.2 (forall_mem_of_mapM (fun _ _ => builtin_buildNested) h)

theorem builtin_buildActionState {spec : StateSpec} {state : State}
    (h : builtins.buildActionState spec = .ok state) :
    ∃ action, state = ⟨spec.name, .perform action⟩ ∧ action.All Leaf.Builtin fun _ => True := by
  obtain ⟨actions, hactions, h⟩ := bind_eq_ok.1 h
  have hall := builtin_buildActions hactions
  split at h
  · cases h
  · cases h
    exact ⟨_, rfl, hall.1⟩
  · cases h
    exact ⟨_, rfl, hall⟩

end Registry

structure Data.Grown (data data' : Data) : Prop where
  ordered : data.Ordered → data'.Ordered
  keys (key : String) : data.has key = true → data'.has key = true

namespace Data.Grown

variable {data data₁ data₂ data₃ : Data}

theorem refl (data : Data) : Grown data data :=
  ⟨id, fun _ => id⟩

theorem trans (h : Grown data₁ data₂) (h' : Grown data₂ data₃) : Grown data₁ data₃ :=
  ⟨h'.ordered ∘ h.ordered, fun key => h'.keys key ∘ h.keys key⟩

theorem put (data : Data) (key : String) (value : Json) : Grown data (data.put key value) := by
  refine ⟨fun h => h.put key value, fun other h => ?_⟩
  rw [Table.has, Table.get?_put]
  split
  · rfl
  · exact h

theorem merge (data later : Data) : Grown data (data.merge later) := by
  rw [Table.merge]
  induction later generalizing data with
  | nil => exact refl data
  | cons entry later ih => exact (put data entry.1 entry.2).trans (ih _)

end Data.Grown

structure Moment.Tidies (m m' : Moment) : Prop where
  works : m.Works m'
  cancelled : m'.cancelled = m.cancelled
  data : m.data.Grown m'.data

structure Moment.Kept (m m' : Moment) : Prop where
  context : m'.context = { m.context with data := m'.data }
  cancelled : m'.cancelled = m.cancelled
  data : m.data.Grown m'.data

namespace Moment.Tidies

variable {m₁ m₂ m₃ : Moment}

theorem refl (m : Moment) : Tidies m m :=
  ⟨.refl m, rfl, .refl m.data⟩

theorem trans (h : Tidies m₁ m₂) (h' : Tidies m₂ m₃) : Tidies m₁ m₃ :=
  ⟨h.works.trans h'.works, h'.cancelled.trans h.cancelled, h.data.trans h'.data⟩

theorem set (m : Moment) (key : String) (value : Json) : Tidies m (m.set key value) :=
  ⟨.of_data m _, rfl, .put m.data key value⟩

theorem licence : Licence Tidies where
  refl := refl
  set key value h := h.trans (set _ key value)
  merge data h := h.trans ⟨.of_data _ _, rfl, .merge _ data⟩
  report _ _ _ h := h.trans ⟨⟨rfl, rfl, id⟩, rfl, .refl _⟩

theorem allows (h : Tidies m₁ m₂) : Drift.calm.Allows m₁ m₂ :=
  ⟨⟨h.works.now.ge, h.cancelled⟩, h.works.now⟩

theorem kept (h : Tidies m₁ m₂) : m₁.Kept m₂ :=
  ⟨h.works.context, h.cancelled, h.data⟩

end Moment.Tidies

namespace Moment.Kept

variable {m₁ m₂ m₃ : Moment}

theorem trans (h : Kept m₁ m₂) (h' : Kept m₂ m₃) : Kept m₁ m₃ where
  context := by rw [h'.context, h.context]
  cancelled := h'.cancelled.trans h.cancelled
  data := h.data.trans h'.data

end Moment.Kept

theorem Leaf.tidies_run {work : Leaf} (h : work.Builtin) (name : String) (place : Place) :
    (work.run name place).Only Moment.Tidies := by
  have hlicence := Moment.Tidies.licence
  cases work with
  | noop | fail message permanent => trivial
  | set key value => exact Work.only_change fun m => .set m key value
  | copy origin target =>
    refine Work.only_look hlicence.refl fun m => ?_
    split
    · exact Work.only_change fun m => .set m _ _
    · trivial
  | delay span => exact Work.only_wait span {}
  | log message => exact Work.only_change fun m => hlicence.report _ _ _ (.refl m)
  | apply | flaky | mark | cancel | raise => exact absurd h id

theorem Action.tidies_run {action : Action} (h : action.All Leaf.Builtin fun _ => True)
    (site : Site) : (action.run site).Only Moment.Tidies :=
  only_run Moment.Tidies.licence (fun _ hP name site => Leaf.tidies_run hP name site) site action
    h

/-- Work that keeps everything tidy, while nobody cancels the run. -/
theorem Work.Reaches.kept {α : Type} {w : Work α} {m m' : Moment} {r : Option α}
    (hw : w.Only Moment.Tidies) (h : w.Reaches .calm m r m') : m.Kept m' :=
  Reaches.keeps (Q := Moment.Kept) (d := .calm) (fun m => (Moment.Tidies.refl m).kept)
    Moment.Kept.trans (fun _ _ hs => ⟨rfl, hs.2, .refl _⟩) (hw.imp fun _ _ => Moment.Tidies.kept) h

namespace Moment.Steady

variable {f : Moment → Moment}

theorem update (h : Steady f) (g : Context → Context) : Steady fun m => (f m).update g := by
  intro m m' hm hc
  obtain ⟨hnoted, hcancelled⟩ := h m m' hm hc
  exact ⟨⟨congrArg g hnoted.context, hnoted.now, hnoted.cancelled, hnoted.starts⟩, hcancelled⟩

theorem permits : Permits Steady where
  id _ _ hm hc := ⟨hm, hc⟩
  set key value h := h.update (·.set key value)
  merge data h := h.update (·.merge data)
  report _ _ _ h m m' hm hc :=
    have ⟨hnoted, hcancelled⟩ := h m m' hm hc
    ⟨⟨hnoted.context, hnoted.now, hnoted.cancelled, hnoted.starts⟩, hcancelled⟩

end Moment.Steady

theorem Leaf.blind_run {work : Leaf} (h : work.Builtin) (name : String) (place : Place) :
    (work.run name place).Blind := by
  have hclosed := Work.closed_blind
  have hpermits := Moment.Steady.permits
  cases work with
  | noop | fail message permanent => trivial
  | set key value => exact hclosed.change (hpermits.set key value hpermits.id)
  | copy origin target =>
    apply hclosed.look
    · intro m m' hm
      simp only [hm.data]
    intro m
    split
    next value _ => exact hclosed.change (hpermits.set target value hpermits.id)
    · trivial
  | delay span => exact hclosed.wait span trivial
  | log message =>
    apply hclosed.change
    intro m m' hm hc
    exact ⟨⟨hm.context, hm.now, hm.cancelled, hm.starts⟩, hc⟩
  | apply | flaky | mark | cancel | raise => exact absurd h id

/-- What an action of the built-in kinds does does not depend on what has been reported. -/
theorem Action.blind_run {action : Action} (h : action.All Leaf.Builtin fun _ => True)
    (site : Site) : (action.run site).Blind :=
  closed_run Moment.Steady.permits Work.closed_blind trivial
    (fun _ hP name site => Leaf.blind_run hP name site) site action h

namespace Work.Firm

variable {f : Moment → Moment}

theorem update (h : Firm f) (g : Context → Context) : Firm fun m => (f m).update g where
  now m := h.now m
  even hm := ⟨congrArg g (h.even hm).context, (h.even hm).now, (h.even hm).cancelled⟩

theorem permits : Permits Firm where
  id := ⟨fun _ => rfl, id⟩
  set key value h := h.update (·.set key value)
  merge data h := h.update (·.merge data)
  report _ _ _ h :=
    ⟨h.now, fun hm => ⟨(h.even hm).context, (h.even hm).now, (h.even hm).cancelled⟩⟩

end Work.Firm

theorem Leaf.sure_run {work : Leaf} (h : work.Builtin) (name : String) (place : Place) :
    (work.run name place).Sure := by
  have hclosed := Work.closed_sure
  have hpermits := Work.Firm.permits
  cases work with
  | noop => exact hclosed.idle
  | fail message permanent => exact hclosed.fail _
  | set key value => exact hclosed.change (hpermits.set key value hpermits.id)
  | copy origin target =>
    apply hclosed.look
    · intro m m' hm
      simp only [hm.data]
    intro m
    split
    next value _ => exact hclosed.change (hpermits.set target value hpermits.id)
    · exact hclosed.fail _
  | delay span => exact hclosed.wait span rfl
  | log message =>
    apply hclosed.change
    exact ⟨fun _ => rfl, fun hm => ⟨hm.context, hm.now, hm.cancelled⟩⟩
  | apply | flaky | mark | cancel | raise => exact absurd h id

/-- As long as no time limit of an attempt runs out in the instant in which something under it ends,
what comes of an action of the built-in kinds is settled by the moment at which it begins. -/
theorem Action.sure_run {action : Action} (h : action.All Leaf.Builtin fun _ => True)
    (site : Site) : (action.run site).Sure :=
  closed_run Work.Firm.permits Work.closed_sure rfl
    (fun _ hP name site => Leaf.sure_run hP name site) site action h

end Workflow
