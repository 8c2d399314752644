import Workflow.Proofs.Action.Course
import Workflow.Proofs.Action.Failure

/-!
# What a progressive action records

A progressive action takes its steps in order, each if its test holds when its turn comes. It keeps
two lists: the numbers of the steps that it has completed and of those that it has skipped. Each
turn that does not end the action puts its number on one of them, and this list is recorded at once.
So the records account for each step before the one that the action has come to, and for no other.
-/

namespace Workflow

def Data.listAt (data : Data) (key : String) : Json :=
  (data.get? key).getD (.array [])

theorem Data.listAt_put_own (data : Data) (name suffix other : String) (value : Json) :
    listAt (data.put (name ++ "_" ++ suffix) value) (name ++ "_" ++ other) =
      if other = suffix then value else data.listAt (name ++ "_" ++ other) := by
  rw [listAt, get?_put_own]
  split <;> rfl

namespace StepTurn

def completed (t : StepTurn) : Bool :=
  match t.outcome with
  | some (.ok ()) => true
  | _ => false

inductive Stops (t : StepTurn) : Fault → Prop
  | test {fault : Fault} (htest : t.step.opens t.start.data = .error fault) : Stops t fault
  | closed (htest : t.step.opens t.start.data = .ok false) (hrequired : t.step.required = true) :
      Stops t (.failed ("required step " ++ t.step.action.name ++ " is not enabled"))
  | failed {fault : Fault} (houtcome : t.outcome = some (.error fault))
      (hrequired : t.step.required = true) : Stops t fault

def Gated (t : StepTurn) : Prop :=
  t.outcome.isSome = true ↔ t.step.opens t.start.data = .ok true

def numbers (p : StepTurn → Bool) (i : Nat) (turns : List StepTurn) : List Nat :=
  ((turns.zipIdx i).filter (p ·.1)).map Prod.snd

variable {p : StepTurn → Bool} {i j : Nat} {t : StepTurn} {turns : List StepTurn}

theorem completed_iff : t.completed = true ↔ t.outcome = some (.ok ()) := by
  unfold completed
  split
  next h => exact iff_of_true rfl h
  next h => exact iff_of_false Bool.noConfusion h

/-- A turn that ends the whole is not one of a completed step. -/
theorem Stops.not_completed {fault : Fault} (h : t.Stops fault) (hgated : t.Gated) :
    t.completed = false := by
  by_contra hdone
  have houtcome := completed_iff.1 (Bool.eq_true_of_not_eq_false hdone)
  have hopens := hgated.1 (houtcome ▸ rfl)
  cases h with
  | test htest => cases htest.symm.trans hopens
  | closed htest _ => cases htest.symm.trans hopens
  | failed hfailed _ => cases hfailed.symm.trans houtcome

theorem numbers_cons (p : StepTurn → Bool) (i : Nat) (t : StepTurn) (turns : List StepTurn) :
    numbers p i (t :: turns) =
      if p t then i :: numbers p (i + 1) turns else numbers p (i + 1) turns := by
  rw [numbers, List.zipIdx_cons, List.filter_cons]
  split <;> rfl

theorem pairwise_numbers (p : StepTurn → Bool) (i : Nat) (turns : List StepTurn) :
    (numbers p i turns).Pairwise (· < ·) := by
  have hall : ((turns.zipIdx i).map Prod.snd).Pairwise (· < ·) := by
    rw [List.zipIdx_map_snd]
    exact List.pairwise_lt_range'
  exact hall.sublist (List.filter_sublist.map Prod.snd)

theorem mem_numbers : j ∈ numbers p 0 turns ↔ ∃ t, turns[j]? = some t ∧ p t = true := by
  simp [numbers, List.mem_zipIdx_iff_getElem?]

end StepTurn

namespace Action

open StepTurn

variable {d : Drift} {site : Site} {name : String} {i : Nat} {taken : Taken}
  {steps : List (Step Action)} {t : StepTurn} {turns : List StepTurn}
  {outcome : Except Fault Unit} {m m' : Moment} {data data' : Data}

namespace Taken

def count (taken : Taken) (i : Nat) (completed : Bool) : Taken :=
  if completed then { taken with completed := taken.completed ++ [i] }
  else { taken with skipped := taken.skipped ++ [i] }

def after (taken : Taken) (i : Nat) : List StepTurn → Taken
  | [] => taken
  | t :: turns => (taken.count i t.completed).after (i + 1) turns

theorem completed_after (taken : Taken) (i : Nat) (turns : List StepTurn) :
    (taken.after i turns).completed =
      taken.completed ++ numbers (fun t => t.completed) i turns := by
  induction turns generalizing taken i with
  | nil => exact (List.append_nil _).symm
  | cons t turns ih =>
    rw [after, ih, numbers_cons]
    cases t.completed with
    | true => exact List.append_assoc _ _ _
    | false => rfl

theorem skipped_after (taken : Taken) (i : Nat) (turns : List StepTurn) :
    (taken.after i turns).skipped =
      taken.skipped ++ numbers (fun t => !t.completed) i turns := by
  induction turns generalizing taken i with
  | nil => exact (List.append_nil _).symm
  | cons t turns ih =>
    rw [after, ih, numbers_cons]
    cases t.completed with
    | true => rfl
    | false => exact List.append_assoc _ _ _

structure RecordedIn (name : String) (taken : Taken) (data : Data) : Prop where
  completed : data.listAt (name ++ "_" ++ "completed") = .array (taken.completed.map .ofNat)
  skipped : data.listAt (name ++ "_" ++ "skipped") = .array (taken.skipped.map .ofNat)

theorem RecordedIn.keeps (h : taken.RecordedIn name data)
    (hkeeps : data.Keeps (recordKeys (progressive name steps)) data') :
    taken.RecordedIn name data' where
  completed := by
    rw [Data.listAt, hkeeps.same _ (by simp [recordKeys])]
    exact h.completed
  skipped := by
    rw [Data.listAt, hkeeps.same _ (by simp [recordKeys])]
    exact h.skipped

/-- The list on which the step has been put is recorded. -/
theorem RecordedIn.completing (h : taken.RecordedIn name m.data) :
    (taken.count i true).RecordedIn name
      (recordTaken name "completed" (taken.completed ++ [i]) m).data := by
  constructor
  · simp [recordTaken, Data.listAt_put_own, count]
  · simpa [recordTaken, Data.listAt_put_own, count] using h.skipped

theorem RecordedIn.skipping (h : taken.RecordedIn name m.data) :
    (taken.count i false).RecordedIn name
      (recordTaken name "skipped" (taken.skipped ++ [i]) m).data := by
  constructor
  · simpa [recordTaken, Data.listAt_put_own, count] using h.completed
  · simp [recordTaken, Data.listAt_put_own, count]

theorem RecordedIn.both (taken : Taken) (m : Moment) :
    taken.RecordedIn name
      (recordTaken name "skipped" taken.skipped
        (recordTaken name "completed" taken.completed m)).data := by
  constructor <;> simp [recordTaken, Data.listAt_put_own]

end Taken

/-- How a progressive action closes that has taken some steps before number `i` and then the turns:
it has come to its end, or the last turn has ended it with a fault. -/
inductive ProgressiveCloses (name : String) (i : Nat) (taken : Taken) (steps : List (Step Action)) :
    List StepTurn → Except Fault Unit → Data → Prop
  | finished {turns : List StepTurn} {data : Data} (hall : turns.length = steps.length)
      (hrequired : ∀ t ∈ turns, t.step.required = true → t.completed = true)
      (hrecorded : (taken.after i turns).RecordedIn name data) :
      ProgressiveCloses name i taken steps turns (.ok ()) data
  | stopped {past : List StepTurn} {last : StepTurn} {fault : Fault} {data : Data}
      (hrequired : ∀ t ∈ past, t.step.required = true → t.completed = true)
      (hlast : last.Stops fault) (hrecorded : (taken.after i past).RecordedIn name data) :
      ProgressiveCloses name i taken steps (past ++ [last])
        (.error (.action (indexed name "step" (i + past.length)) fault)) data

theorem ProgressiveCloses.of_stops {fault : Fault} (h : t.Stops fault)
    (hrecorded : taken.RecordedIn name data) :
    ProgressiveCloses name i taken steps [t] (.error (.action (indexed name "step" i) fault))
      data := by
  have hclose : ProgressiveCloses name i taken steps ([] ++ [t])
      (.error (.action (indexed name "step" (i + ([] : List StepTurn).length)) fault)) data :=
    .stopped (List.forall_mem_nil _) h hrecorded
  exact hclose

theorem ProgressiveCloses.cons (hpass : t.step.required = true → t.completed = true)
    (h : ProgressiveCloses name (i + 1) (taken.count i t.completed) steps turns outcome data) :
    ProgressiveCloses name i taken (t.step :: steps) (t :: turns) outcome data := by
  cases h with
  | finished hall hrequired hrecorded =>
    exact .finished (congrArg (· + 1) hall) (List.forall_mem_cons.2 ⟨hpass, hrequired⟩) hrecorded
  | @stopped past last fault _ hrequired hlast hrecorded =>
    have hclose : ProgressiveCloses name i taken (t.step :: steps) (t :: past ++ [last])
        (.error (.action (indexed name "step" (i + (t :: past).length)) fault)) data :=
      .stopped (List.forall_mem_cons.2 ⟨hpass, hrequired⟩) hlast hrecorded
    rw [number_cons] at hclose
    exact hclose

/-- However the loop goes on from what it has taken, there are turns that tell its course. -/
theorem exists_course_of_runProgressive {all : List (Step Action)} {own : List String}
    (hown : recordKeys (progressive name all) = own)
    (hsteps : ∀ step ∈ steps, StepIgnores own step) (hordered : m.data.Ordered)
    (hrecorded : taken.RecordedIn name m.data)
    (h : (runProgressive site name i taken steps).Reaches d m (some outcome) m') :
    ∃ turns, Course d site own i m steps turns m' ∧ (∀ t ∈ turns, t.Gated) ∧
      ProgressiveCloses name i taken steps turns outcome m'.data := by
  have hcompleted : name ++ "_" ++ "completed" ∈ own := by simp [← hown, recordKeys]
  have hskipped : name ++ "_" ++ "skipped" ∈ own := by simp [← hown, recordKeys]
  induction steps generalizing i taken m with
  | nil =>
    rw [runProgressive] at h
    obtain ⟨hr, rfl⟩ := Work.reaches_done.1 (Work.reaches_after.1 h)
    cases hr
    have hnotes := ((Moment.Notes.refl hordered).record hcompleted
      (.array (taken.completed.map .ofNat))).record hskipped (.array (taken.skipped.map .ofNat))
    exact ⟨[], .ended hnotes, List.forall_mem_nil _,
      .finished rfl (List.forall_mem_nil _) (.both taken m)⟩
  | cons step steps ih =>
    obtain ⟨⟨haction, -⟩, hrest⟩ := List.forall_mem_cons.1 hsteps
    obtain ⟨action, test, required⟩ := step
    have hquiet : m.Notes own m := .refl hordered
    -- the turn if the action is not run, and that in which it is
    let idle : StepTurn := ⟨⟨action, test, required⟩, m, none, m⟩
    let busy (result : Except Fault Unit) (m₂ : Moment) : StepTurn :=
      ⟨⟨action, test, required⟩, m, some result, m₂⟩
    have hidle : Takes d site i idle := rfl
    have hclosed : ∀ {answer}, (test.map (·.evaluate m.data)).getD (.ok true) = answer →
        answer ≠ .ok true → idle.Gated := fun htest hne =>
      iff_of_false Bool.noConfusion fun hopens => hne (htest.symm.trans hopens)
    have hbusy : ∀ {result m₂}, (action.run (site.part i)).Reaches d m (some result) m₂ →
        Takes d site i (busy result m₂) ∧ taken.RecordedIn name m₂.data ∧ m₂.Notes own m₂ := by
      intro result m₂ hrun
      have htakes : Takes d site i (busy result m₂) := hrun
      have hkeeps : m.data.Keeps own m₂.data := htakes.keeps haction hordered
      exact ⟨htakes, hrecorded.keeps (hown ▸ hkeeps), .refl hkeeps.ordered⟩
    rw [runProgressive, Work.reaches_look] at h
    split at h
    next fault htest =>
      obtain ⟨hr, rfl⟩ := Work.reaches_done.1 h
      cases hr
      have hgated : idle.Gated := hclosed htest fun h => by cases h
      exact ⟨[idle], .turn hidle hquiet (.ended hquiet), List.forall_mem_singleton.2 hgated,
        .of_stops (.test htest) hrecorded⟩
    next htest =>
      obtain ⟨hr, rfl⟩ := Work.reaches_done.1 h
      cases hr
      have hgated : idle.Gated := hclosed htest fun h => by cases h
      exact ⟨[idle], .turn hidle hquiet (.ended hquiet), List.forall_mem_singleton.2 hgated,
        .of_stops (.closed htest rfl) hrecorded⟩
    next htest =>
      have hgated : idle.Gated := hclosed htest fun h => by cases h
      have hnotes := (hquiet.report .debug "Step gated off, skipping"
        [("action", name), ("step", toString i)]).record hskipped
          (.array ((taken.skipped ++ [i]).map .ofNat))
      obtain ⟨turns, hcourse, hall, hcloses⟩ := ih hrest hnotes.context.data.ordered'
        hrecorded.skipping (Work.reaches_after.1 h)
      exact ⟨idle :: turns, .turn hidle hnotes hcourse, List.forall_mem_cons.2 ⟨hgated, hall⟩,
        .cons (t := idle) Bool.noConfusion hcloses⟩
    next htest =>
      obtain ⟨result, m₂, hrun, h⟩ := Work.reaches_bind_some.1 h
      obtain ⟨htakes, hrecorded₂, hquiet₂⟩ := hbusy hrun
      have hgated : (busy result m₂).Gated := iff_of_true rfl htest
      cases result with
      | ok _ =>
        have hnotes := hquiet₂.record hcompleted (.array ((taken.completed ++ [i]).map .ofNat))
        obtain ⟨turns, hcourse, hall, hcloses⟩ := ih hrest hnotes.context.data.ordered'
          hrecorded₂.completing (Work.reaches_after.1 h)
        exact ⟨busy (.ok ()) m₂ :: turns, .turn htakes hnotes hcourse,
          List.forall_mem_cons.2 ⟨hgated, hall⟩,
          .cons (t := busy (.ok ()) m₂) (fun _ => rfl) hcloses⟩
      | error fault =>
        dsimp only at h
        split at h
        next hrequired =>
          obtain ⟨hr, rfl⟩ := Work.reaches_done.1 h
          cases hr
          exact ⟨[busy (.error fault) m'], .turn htakes hquiet₂ (.ended hquiet₂),
            List.forall_mem_singleton.2 hgated, .of_stops (.failed rfl hrequired) hrecorded₂⟩
        next hoptional =>
          have hnotes := (hquiet₂.report .warn "Optional step failed, skipping"
            [("action", name), ("step", toString i), ("error", fault.message)]).record hskipped
              (.array ((taken.skipped ++ [i]).map .ofNat))
          obtain ⟨turns, hcourse, hall, hcloses⟩ := ih hrest hnotes.context.data.ordered'
            hrecorded₂.skipping (Work.reaches_after.1 h)
          exact ⟨busy (.error fault) m₂ :: turns, .turn htakes hnotes hcourse,
            List.forall_mem_cons.2 ⟨hgated, hall⟩,
            .cons (t := busy (.error fault) m₂) (fun h => absurd h hoptional) hcloses⟩

/-- The two lists account for each of the first `n` steps once. On the first one are exactly the
steps whose test has held at their turn and whose action has then succeeded, and on the second one
is no step that is required. -/
structure Accounts (completed skipped : List Nat) (n : Nat) (steps : List (Step Action))
    (turns : List StepTurn) : Prop where
  completedIncrease : completed.Pairwise (· < ·)
  skippedIncrease : skipped.Pairwise (· < ·)
  disjoint : completed.Disjoint skipped
  all : ∀ j, j ∈ completed ∨ j ∈ skipped ↔ j < n
  completed_iff : ∀ j, j ∈ completed ↔ ∃ t, turns[j]? = some t ∧
    t.step.opens t.start.data = .ok true ∧ t.outcome = some (.ok ())
  optional : ∀ j ∈ skipped, ∀ step, steps[j]? = some step → step.required = false

/-- The turns before the one that has ended the whole, if there is such a one, account for their
steps. -/
theorem accounts_numbers {own : List String} {past rest : List StepTurn}
    (hcourse : Course d site own 0 m steps (past ++ rest) m')
    (hgated : ∀ t ∈ past ++ rest, t.Gated) (hrest : ∀ t ∈ rest, t.completed = false)
    (hrequired : ∀ t ∈ past, t.step.required = true → t.completed = true) :
    Accounts (numbers (fun t => t.completed) 0 past) (numbers (fun t => !t.completed) 0 past)
      past.length steps (past ++ rest) where
  completedIncrease := pairwise_numbers _ _ _
  skippedIncrease := pairwise_numbers _ _ _
  disjoint j hcompleted hskipped := by
    obtain ⟨t, ht, hdone⟩ := mem_numbers.1 hcompleted
    obtain ⟨t', ht', hnot⟩ := mem_numbers.1 hskipped
    cases ht.symm.trans ht'
    rw [hdone] at hnot
    cases hnot
  all j := by
    rw [mem_numbers, mem_numbers]
    constructor
    · rintro (⟨t, ht, -⟩ | ⟨t, ht, -⟩) <;> exact (List.getElem?_eq_some_iff.1 ht).1
    · intro hlt
      have ht := List.getElem?_eq_getElem hlt
      cases hdone : past[j].completed with
      | true => exact .inl ⟨_, ht, hdone⟩
      | false => exact .inr ⟨_, ht, by rw [hdone]; rfl⟩
  completed_iff j := by
    rw [mem_numbers]
    constructor
    · rintro ⟨t, ht, hdone⟩
      have hturn : (past ++ rest)[j]? = some t := by
        rw [List.getElem?_append_left (List.getElem?_eq_some_iff.1 ht).1, ht]
      have houtcome := StepTurn.completed_iff.1 hdone
      exact ⟨t, hturn, (hgated t (List.mem_of_getElem? hturn)).1 (houtcome ▸ rfl), houtcome⟩
    · rintro ⟨t, hturn, -, houtcome⟩
      have hdone := StepTurn.completed_iff.2 houtcome
      by_cases hlt : j < past.length
      · rw [List.getElem?_append_left hlt] at hturn
        exact ⟨t, hturn, hdone⟩
      · rw [List.getElem?_append_right (Nat.le_of_not_lt hlt)] at hturn
        exact Bool.noConfusion (hdone.symm.trans (hrest t (List.mem_of_getElem? hturn)))
  optional j hskipped step hstep := by
    obtain ⟨t, ht, hnot⟩ := mem_numbers.1 hskipped
    have hturn : (past ++ rest)[j]? = some t := by
      rw [List.getElem?_append_left (List.getElem?_eq_some_iff.1 ht).1, ht]
    cases (hcourse.step_eq hturn).symm.trans hstep
    by_contra hneeded
    rw [hrequired t (List.mem_of_getElem? ht) (Bool.eq_true_of_not_eq_false hneeded)] at hnot
    cases hnot

/-- What is on record are the numbers of the turns that have been counted. -/
theorem Taken.RecordedIn.lists (h : (({} : Taken).after 0 turns).RecordedIn name data) :
    data.listAt (name ++ "_" ++ "completed") =
        .array ((numbers (fun t => t.completed) 0 turns).map .ofNat) ∧
      data.listAt (name ++ "_" ++ "skipped") =
        .array ((numbers (fun t => !t.completed) 0 turns).map .ofNat) := by
  rw [h.completed, h.skipped, completed_after, skipped_after]
  exact ⟨rfl, rfl⟩

/-- A progressive action that nothing in its steps interferes with has turns that tell its course,
and its two lists account for each of its steps once, up to the one that has ended it with a fault
if there is one. -/
theorem progressive_accounted
    (hparts : (progressive name steps).PartsShun (recordKeys (progressive name steps)))
    (hordered : m.data.Ordered)
    (hfresh : ∀ key ∈ recordKeys (progressive name steps), m.data.get? key = none) (site : Site)
    (cancelAt : Option Nat) :
    ∃ outcome m', (∃ fuel, ∀ more ≥ fuel,
        ((progressive name steps).run site).carryOut more cancelAt m = some (outcome, m')) ∧
      ∃ turns completed skipped,
        Course .free site (recordKeys (progressive name steps)) 0 m steps turns m' ∧
        (∀ t ∈ turns, t.Gated) ∧
        m'.data.listAt (name ++ "_" ++ "completed") = .array (completed.map .ofNat) ∧
        m'.data.listAt (name ++ "_" ++ "skipped") = .array (skipped.map .ofNat) ∧
        ((outcome = .ok () ∧ turns.length = steps.length ∧
            Accounts completed skipped steps.length steps turns) ∨
          ∃ past last fault, turns = past ++ [last] ∧ last.Stops fault ∧
            outcome = .error (.action (indexed name "step" past.length) fault) ∧
            Accounts completed skipped past.length steps turns) := by
  obtain ⟨outcome, m', hends, hreaches⟩ := exists_execution (progressive name steps) site cancelAt m
  rw [run] at hreaches
  have hrecorded : ({} : Taken).RecordedIn name m.data := by
    constructor
    · rw [Data.listAt, hfresh _ (by simp [recordKeys])]
      rfl
    · rw [Data.listAt, hfresh _ (by simp [recordKeys])]
      rfl
  obtain ⟨turns, hcourse, hgated, hcloses⟩ := exists_course_of_runProgressive rfl
    (steps_ignore steps hparts) hordered hrecorded hreaches
  cases hcloses with
  | finished hall hrequired hrecorded =>
    obtain ⟨hcompleted, hskipped⟩ := hrecorded.lists
    rw [← List.append_nil turns] at hcourse hgated
    have haccounts := accounts_numbers hcourse hgated (List.forall_mem_nil _) hrequired
    rw [List.append_nil] at hcourse hgated haccounts
    exact ⟨_, m', hends, turns, _, _, hcourse, hgated, hcompleted, hskipped,
      .inl ⟨rfl, hall, hall ▸ haccounts⟩⟩
  | @stopped past last fault _ hrequired hlast hrecorded =>
    obtain ⟨hcompleted, hskipped⟩ := hrecorded.lists
    have hnot : ∀ t ∈ [last], t.completed = false := List.forall_mem_singleton.2
      (hlast.not_completed (hgated last (List.mem_append_right _ List.mem_cons_self)))
    have haccounts := accounts_numbers hcourse hgated hnot hrequired
    rw [Nat.zero_add] at hends
    exact ⟨_, m', hends, past ++ [last], _, _, hcourse, hgated, hcompleted, hskipped,
      .inr ⟨past, last, fault, rfl, hlast, rfl, haccounts⟩⟩

def staged : List (Step Action) :=
  [⟨leaf "first" (.set "a" (.int 1)), none, true⟩,
    ⟨leaf "closed" .noop, some (.exactly "a" (.int 2)), false⟩,
    ⟨leaf "broken" (.fail "broken" false), none, false⟩,
    ⟨leaf "last" .noop, some (.exactly "a" (.int 1)), true⟩]

theorem progressive_accounted_staged :
    let m : Moment := { context := { identity := { session := "s" } } }
    ∃ m' turns completed skipped,
      ((progressive "p" staged).run { owner := "s" }).carryOut 9 none m = some (.ok (), m') ∧
      m'.data.get? "p_completed" = some (.array [.int 0, .int 3]) ∧
      m'.data.get? "p_skipped" = some (.array [.int 1, .int 2]) ∧
      m'.data.listAt "p_completed" = .array (completed.map .ofNat) ∧
      m'.data.listAt "p_skipped" = .array (skipped.map .ofNat) ∧
      Accounts completed skipped 4 staged turns := by
  intro m
  let keys := recordKeys (progressive "p" staged)
  have hparts : (progressive "p" staged).PartsShun keys := by
    have hset : "a" ∉ keys := by decide
    have htest : ∀ value, ∀ p ∈ some (Predicate.exactly "a" value), p.Shuns keys := by
      rintro value _ ⟨⟩
      exact Predicate.shuns_exactly hset value
    have hleaf : ([] : List String).Disjoint keys := List.disjoint_nil_left _
    exact ⟨⟨⟨hleaf, hset⟩, nofun⟩, ⟨⟨hleaf, trivial⟩, htest _⟩, ⟨⟨hleaf, trivial⟩, nofun⟩,
      ⟨⟨hleaf, trivial⟩, htest _⟩, trivial⟩
  obtain ⟨outcome, m', hends, turns, completed, skipped, -, -, hcompleted, hskipped, haccounts⟩ :=
    progressive_accounted hparts (m := m) Table.ordered_nil (fun _ _ => rfl) { owner := "s" } none
  have hrun : (((progressive "p" staged).run { owner := "s" }).carryOut 9 none m).map
      (fun done => (done.1.isOk, done.2.data.get? "p_completed", done.2.data.get? "p_skipped")) =
        some (true, some (.array [.int 0, .int 3]), some (.array [.int 1, .int 2])) := by
    rfl
  obtain ⟨done, hdone, hresult⟩ := Option.map_eq_some_iff.1 hrun
  obtain ⟨hok, hlists⟩ := Prod.mk.inj hresult
  obtain ⟨hfirst, hsecond⟩ := Prod.mk.inj hlists
  obtain rfl := execution_unique hdone hends
  obtain ⟨rfl, -, haccounts⟩ | ⟨past, last, fault, -, -, rfl, -⟩ := haccounts
  · exact ⟨m', turns, completed, skipped, hdone, hfirst, hsecond, hcompleted, hskipped, haccounts⟩
  · cases hok

end Action

end Workflow
