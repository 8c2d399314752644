import Workflow.Proofs.Action.Course

/-!
# What a validated sequence records

A step of a validated sequence is bad if its action fails, or if its validator does not hold once
the action has succeeded. The records of the sequence are a tally of its bad steps and of those that
were not bad. The loop keeps this tally in its findings, and each turn brings the records up to date
with them; so whichever way the sequence ends, they are those of the turns that have been taken.

One record is not made in time. The number of completed steps is recorded after each step that was
not bad and at the end, but not when a bad step stops the sequence. So it is missing if the first
step does.
-/

namespace Workflow

namespace StepTurn

def judgement (t : StepTurn) : Option (Except Fault Bool) :=
  t.step.test.map (·.evaluate t.finish.data)

/-- The action of the step has failed, or its validator has not held afterwards. -/
def bad (t : StepTurn) : Bool :=
  match t.outcome, t.judgement with
  | some (.error _), _ => true
  | some (.ok ()), some (.ok false) => true
  | _, _ => false

def flaw (i : Nat) (t : StepTurn) : Fault :=
  match t.outcome with
  | some (.error fault) => .action t.step.action.name fault
  | _ =>
    .failed ("validation failed after step " ++ toString i ++ " (" ++ t.step.action.name ++ ")")

def Undecided (t : StepTurn) : Prop :=
  t.outcome = some (.ok ()) ∧ ∃ fault, t.judgement = some (.error fault)

def messages (i : Nat) (turns : List StepTurn) : List String :=
  ((turns.zipIdx i).filter (·.1.bad)).map fun numbered => (numbered.1.flaw numbered.2).message

end StepTurn

namespace Action

open StepTurn

variable {d : Drift} {site : Site} {name : String} {continueOnError : Bool} {i : Nat}
  {findings : Findings} {steps : List (Step Action)} {t : StepTurn} {turns : List StepTurn}
  {outcome : Except Fault Unit} {m m' : Moment} {data data' : Data}

/-- What the loop finds in a turn is what the turn is: one that cannot be judged, a good one, or a
bad one with its flaw. -/
theorem verdict_turn (name : String) (i : Nat) (ht : t.outcome = some outcome) :
    let found := verdict name i t.step.action.name t.step.test outcome t.finish.data
    (∃ fault, found = .error fault ∧ t.Undecided) ∨ (found = .ok none ∧ t.bad = false) ∨
      (found = .ok (some (t.flaw i)) ∧ t.bad = true) := by
  obtain ⟨⟨action, test, required⟩, start, _, finish⟩ := t
  cases ht
  cases outcome with
  | error fault => exact .inr (.inr ⟨rfl, rfl⟩)
  | ok _ =>
    cases test with
    | none => exact .inr (.inl ⟨rfl, rfl⟩)
    | some p =>
      simp only [verdict, bad, Undecided, judgement, flaw, Option.map_some]
      cases p.evaluate finish.data with
      | error fault => exact .inl ⟨_, rfl, trivial, fault, rfl⟩
      | ok holds =>
        cases holds with
        | true => exact .inr (.inl ⟨rfl, rfl⟩)
        | false => exact .inr (.inr ⟨rfl, rfl⟩)

namespace Findings

def after (findings : Findings) (i : Nat) : List StepTurn → Findings
  | [] => findings
  | t :: turns =>
    if t.bad then (findings.add i (t.flaw i)).after (i + 1) turns
    else { findings with completed := findings.completed + 1 }.after (i + 1) turns

theorem after_cons (findings : Findings) (i : Nat) (t : StepTurn) (turns : List StepTurn) :
    findings.after i (t :: turns) = (findings.after i [t]).after (i + 1) turns := by
  rw [after, after]
  split <;> rfl

theorem after_good (h : t.bad = false) (findings : Findings) (i : Nat) :
    findings.after i [t] = { findings with completed := findings.completed + 1 } := by
  rw [after, h]
  rfl

theorem after_bad (h : t.bad = true) (findings : Findings) (i : Nat) :
    findings.after i [t] = findings.add i (t.flaw i) := by
  rw [after, h]
  rfl

theorem completed_after (findings : Findings) (i : Nat) (turns : List StepTurn) :
    (findings.after i turns).completed = findings.completed + turns.countP fun t => !t.bad := by
  induction turns generalizing findings i with
  | nil => rfl
  | cons t turns ih =>
    rw [after, List.countP_cons]
    split
    next hbad =>
      rw [ih, hbad]
      rfl
    next hbad =>
      rw [ih, Bool.eq_false_of_not_eq_true hbad]
      exact Nat.add_right_comm _ _ _

theorem messages_cons (i : Nat) (t : StepTurn) (turns : List StepTurn) :
    messages i (t :: turns) =
      if t.bad then (t.flaw i).message :: messages (i + 1) turns else messages (i + 1) turns := by
  rw [messages, List.zipIdx_cons, List.filter_cons]
  split <;> rfl

theorem errors_after (findings : Findings) (i : Nat) (turns : List StepTurn) :
    (findings.after i turns).errors = findings.errors ++ messages i turns := by
  induction turns generalizing findings i with
  | nil => exact (List.append_nil _).symm
  | cons t turns ih =>
    rw [after, messages_cons]
    split
    · rw [ih]
      exact List.append_assoc _ _ _
    · exact ih _ _

theorem failedStep_after (findings : Findings) (i : Nat) (turns : List StepTurn) :
    (findings.after i turns).failedStep =
      findings.failedStep.or ((turns.findIdx? StepTurn.bad).map (i + ·)) := by
  induction turns generalizing findings i with
  | nil => exact Option.or_none.symm
  | cons t turns ih =>
    rw [after, List.findIdx?_cons]
    split
    · rw [ih]
      exact Option.or_assoc
    · rw [ih, Option.map_map]
      congr 2
      funext j
      exact Nat.add_right_comm i 1 j

structure ProblemsIn (name : String) (findings : Findings) (data : Data) : Prop where
  failedStep : data.get? (name ++ "_" ++ "failed_step") = findings.failedStep.map .ofNat
  errors : data.get? (name ++ "_" ++ "errors") =
    if findings.errors = [] then none else some (.array (findings.errors.map .string))

structure RecordedIn (name : String) (findings : Findings) (data : Data) : Prop
    extends findings.ProblemsIn name data where
  completed : data.get? (name ++ "_" ++ "completed_steps") =
    if findings.completed = 0 then none else some (.ofNat findings.completed)
  valid : data.get? (name ++ "_" ++ "valid") =
    if findings.failedStep.isSome then some (.bool false) else none

theorem RecordedIn.keeps (h : findings.RecordedIn name data)
    (hkeeps : data.Keeps (recordKeys (validated name steps continueOnError)) data') :
    findings.RecordedIn name data' where
  failedStep := (hkeeps.same _ (by simp [recordKeys])).trans h.failedStep
  errors := (hkeeps.same _ (by simp [recordKeys])).trans h.errors
  completed := (hkeeps.same _ (by simp [recordKeys])).trans h.completed
  valid := (hkeeps.same _ (by simp [recordKeys])).trans h.valid

/-- A good step is counted at once. -/
theorem RecordedIn.good (h : findings.RecordedIn name m.data) :
    let findings' := { findings with completed := findings.completed + 1 }
    findings'.RecordedIn name (recordCompleted name findings' m).data := by
  constructor
  · constructor
    · simpa [recordCompleted, Data.get?_put_own] using h.failedStep
    · simpa [recordCompleted, Data.get?_put_own] using h.errors
  · simp [recordCompleted]
  · simpa [recordCompleted, Data.get?_put_own] using h.valid

theorem get?_recordProblem (name : String) (i : Nat) (findings : Findings) (m : Moment)
    (suffix : String) :
    (recordProblem name i findings m).data.get? (name ++ "_" ++ suffix) =
      if suffix = "valid" then some (.bool false)
      else if suffix = "errors" then some (.array (findings.errors.map .string))
      else if suffix = "failed_step" ∧ findings.failedStep = some i then some (.ofNat i)
      else m.data.get? (name ++ "_" ++ suffix) := by
  unfold recordProblem
  split
  next hfirst => simp [Data.get?_put_own, hfirst]
  next hfirst => simp [Data.get?_put_own, hfirst]

/-- A bad step is recorded with all errors so far, and as the first one if there was none before. -/
theorem RecordedIn.bad (h : findings.RecordedIn name m.data) (hbefore : findings.failedStep ≠ some i)
    (fault : Fault) :
    (findings.add i fault).RecordedIn name
      (recordProblem name i (findings.add i fault) m).data := by
  have herrors : (findings.add i fault).errors ≠ [] := List.append_ne_nil_of_right_ne_nil _ nofun
  have hfirst : (findings.add i fault).failedStep = findings.failedStep.or (some i) := rfl
  refine ⟨⟨?_, ?_⟩, ?_, ?_⟩ <;> rw [get?_recordProblem]
  · cases hstep : findings.failedStep with
    | none => simp [hfirst, hstep]
    | some j =>
      have hne : j ≠ i := fun heq => hbefore (heq ▸ hstep)
      simpa [hfirst, hstep, hne] using h.failedStep
  · simp [herrors]
  · simpa [Findings.add] using h.completed
  · simp [hfirst]

theorem length_messages (i : Nat) (turns : List StepTurn) :
    (messages i turns).length = turns.countP StepTurn.bad := by
  induction turns generalizing i with
  | nil => rfl
  | cons t turns ih =>
    rw [messages_cons, List.countP_cons]
    split
    · exact congrArg (· + 1) (ih _)
    · exact ih _

end Findings

/-- How a validated sequence closes that has made its findings before step number `i` and then has
taken the turns: it has come to its end, it has been stopped by a bad step, or a turn could not be
judged. -/
inductive ValidatedCloses (name : String) (continueOnError : Bool) (i : Nat) (findings : Findings)
    (steps : List (Step Action)) : List StepTurn → Except Fault Unit → Data → Prop
  | finished {turns : List StepTurn} {data : Data} (hall : turns.length = steps.length)
      (hgood : continueOnError = false → ∀ t ∈ turns, t.bad = false)
      (hproblems : (findings.after i turns).ProblemsIn name data)
      (hcompleted : data.get? (name ++ "_" ++ "completed_steps") =
        some (.ofNat (findings.after i turns).completed))
      (hvalid : data.get? (name ++ "_" ++ "valid") =
        some (.bool (findings.after i turns).failedStep.isNone)) :
      ValidatedCloses name continueOnError i findings steps turns (.ok ()) data
  | stopped {past : List StepTurn} {last : StepTurn} {data : Data}
      (hstop : continueOnError = false) (hpast : ∀ t ∈ past, t.bad = false)
      (hlast : last.bad = true)
      (hrecorded : (findings.after i (past ++ [last])).RecordedIn name data) :
      ValidatedCloses name continueOnError i findings steps (past ++ [last])
        (.error (.action name (last.flaw (i + past.length)))) data
  | undecided {turns : List StepTurn} {outcome : Except Fault Unit} {data : Data} {t : StepTurn}
      (ht : t ∈ turns) (hundecided : t.Undecided) :
      ValidatedCloses name continueOnError i findings steps turns outcome data

/-- A bad turn stops the sequence at once if it is not to continue. -/
theorem ValidatedCloses.of_bad (hstop : continueOnError = false) (hbad : t.bad = true)
    (hrecorded : (findings.after i [t]).RecordedIn name data) :
    ValidatedCloses name continueOnError i findings steps [t] (.error (.action name (t.flaw i)))
      data := by
  have hclose : ValidatedCloses name continueOnError i findings steps ([] ++ [t])
      (.error (.action name (t.flaw (i + ([] : List StepTurn).length)))) data :=
    .stopped hstop (List.forall_mem_nil _) hbad hrecorded
  exact hclose

/-- A turn that does not stop the sequence comes before those in which it closes. -/
theorem ValidatedCloses.cons (hpass : continueOnError = false → t.bad = false)
    (h : ValidatedCloses name continueOnError (i + 1) (findings.after i [t]) steps turns outcome
      data) :
    ValidatedCloses name continueOnError i findings (t.step :: steps) (t :: turns) outcome data := by
  cases h with
  | finished hall hgood hproblems hcompleted hvalid =>
    rw [← Findings.after_cons] at hproblems hcompleted hvalid
    exact .finished (congrArg (· + 1) hall)
      (fun hc => List.forall_mem_cons.2 ⟨hpass hc, hgood hc⟩) hproblems hcompleted hvalid
  | @stopped past last _ hstop hpast hlast hrecorded =>
    rw [← Findings.after_cons] at hrecorded
    have hclose : ValidatedCloses name continueOnError i findings (t.step :: steps)
        (t :: past ++ [last]) (.error (.action name (last.flaw (i + (t :: past).length)))) data :=
      .stopped hstop (List.forall_mem_cons.2 ⟨hpass hstop, hpast⟩) hlast hrecorded
    rw [number_cons] at hclose
    exact hclose
  | undecided ht hundecided => exact .undecided (List.mem_cons_of_mem _ ht) hundecided

theorem notes_recordProblem {own : List String}
    (hown : recordKeys (validated name steps continueOnError) = own) (hordered : m.data.Ordered)
    (i : Nat) (findings : Findings) : m.Notes own (recordProblem name i findings m) := by
  have hvalid : name ++ "_" ++ "valid" ∈ own := by simp [← hown, recordKeys]
  have herrors : name ++ "_" ++ "errors" ∈ own := by simp [← hown, recordKeys]
  have hfailed : name ++ "_" ++ "failed_step" ∈ own := by simp [← hown, recordKeys]
  unfold recordProblem
  split
  · exact (((Moment.Notes.refl hordered).record hfailed _).record herrors _).record hvalid _
  · exact ((Moment.Notes.refl hordered).record herrors _).record hvalid _

/-- However the loop goes on from its findings, there are turns that tell its course. -/
theorem exists_course_of_runValidated {all : List (Step Action)} {own : List String}
    (hown : recordKeys (validated name all continueOnError) = own)
    (hsteps : ∀ step ∈ steps, StepIgnores own step) (hordered : m.data.Ordered)
    (hrecorded : findings.RecordedIn name m.data) (hbefore : ∀ j ∈ findings.failedStep, j < i)
    (h : (runValidated site name continueOnError i findings steps).Reaches d m (some outcome) m') :
    ∃ turns, Course d site own i m steps turns m' ∧ (∀ t ∈ turns, t.outcome.isSome = true) ∧
      ValidatedCloses name continueOnError i findings steps turns outcome m'.data := by
  have hcompleted : name ++ "_" ++ "completed_steps" ∈ own := by simp [← hown, recordKeys]
  have hvalid : name ++ "_" ++ "valid" ∈ own := by simp [← hown, recordKeys]
  induction steps generalizing i findings m with
  | nil =>
    rw [runValidated] at h
    obtain ⟨hr, rfl⟩ := Work.reaches_done.1 (Work.reaches_after.1 h)
    cases hr
    let m' := (recordCompleted name findings m).record name "valid" findings.failedStep.isNone
    have hnotes : m.Notes own m' :=
      ((Moment.Notes.refl hordered).record hcompleted _).record hvalid _
    have hkept : ∀ suffix, suffix ≠ "completed_steps" → suffix ≠ "valid" →
        m'.data.get? (name ++ "_" ++ suffix) = m.data.get? (name ++ "_" ++ suffix) := by
      intro suffix hcompleted hvalid
      simp [m', recordCompleted, Data.get?_put_own, hcompleted, hvalid]
    have hproblems : findings.ProblemsIn name m'.data :=
      ⟨(hkept _ (by decide) (by decide)).trans hrecorded.failedStep,
        (hkept _ (by decide) (by decide)).trans hrecorded.errors⟩
    refine ⟨[], .ended hnotes, List.forall_mem_nil _,
      .finished rfl (fun _ => List.forall_mem_nil _) hproblems ?_ ?_⟩
    · simp [recordCompleted, Data.get?_put_own, Findings.after]
    · simp [Findings.after]
  | cons step steps ih =>
    obtain ⟨⟨haction, -⟩, hrest⟩ := List.forall_mem_cons.1 hsteps
    obtain ⟨action, test, required⟩ := step
    rw [runValidated] at h
    obtain ⟨result, m₂, hrun, h⟩ := Work.reaches_bind_some.1 h
    rw [Work.reaches_look] at h
    let t : StepTurn := ⟨⟨action, test, required⟩, m, some result, m₂⟩
    have htakes : Takes d site i t := hrun
    have hkeeps : m.data.Keeps own m₂.data := htakes.keeps haction hordered
    have hrecorded₂ := hrecorded.keeps (hown ▸ hkeeps)
    rcases verdict_turn name i (t := t) rfl with
      ⟨fault, hverdict, hundecided⟩ | ⟨hverdict, hgood⟩ | ⟨hverdict, hbad⟩
    · simp only [t] at hverdict
      rw [hverdict] at h
      obtain ⟨hr, rfl⟩ := Work.reaches_done.1 h
      exact ⟨[t], .turn htakes (.refl hkeeps.ordered) (.ended (.refl hkeeps.ordered)),
        List.forall_mem_singleton.2 rfl, .undecided List.mem_cons_self hundecided⟩
    · simp only [t] at hverdict
      rw [hverdict] at h
      have hnotes := (Moment.Notes.refl hkeeps.ordered).record hcompleted
        (.ofNat (findings.completed + 1))
      obtain ⟨turns, hcourse, hran, hcloses⟩ := ih hrest hnotes.context.data.ordered'
        hrecorded₂.good (fun j hj => (hbefore j hj).trans (Nat.lt_succ_self i))
        (Work.reaches_after.1 h)
      rw [← Findings.after_good hgood findings i] at hcloses
      exact ⟨t :: turns, .turn htakes hnotes hcourse, List.forall_mem_cons.2 ⟨rfl, hran⟩,
        hcloses.cons fun _ => hgood⟩
    · simp only [t] at hverdict
      rw [hverdict] at h
      have hproblem := hrecorded₂.bad (fun hi => Nat.lt_irrefl i (hbefore i hi)) (t.flaw i)
      have hnotes := notes_recordProblem hown hkeeps.ordered i (findings.add i (t.flaw i))
      rw [Work.reaches_after] at h
      split at h
      next hcontinue =>
        have hbefore' : ∀ j ∈ (findings.add i (t.flaw i)).failedStep, j < i + 1 := by
          intro j hj
          rcases Option.or_eq_some_iff.1 hj with hj | ⟨-, hj⟩
          · exact (hbefore j hj).trans (Nat.lt_succ_self i)
          · cases hj
            exact Nat.lt_succ_self i
        have hreported := hnotes.report .warn "Step failed, continuing"
          [("action", name), ("step", toString i), ("error", (t.flaw i).message)]
        obtain ⟨turns, hcourse, hran, hcloses⟩ := ih hrest hreported.context.data.ordered' hproblem
          hbefore' (Work.reaches_after.1 h)
        rw [← Findings.after_bad hbad findings i] at hcloses
        exact ⟨t :: turns, .turn htakes hreported hcourse, List.forall_mem_cons.2 ⟨rfl, hran⟩,
          hcloses.cons fun hstop => Bool.noConfusion (hcontinue.symm.trans hstop)⟩
      next hstop =>
        obtain ⟨hr, rfl⟩ := Work.reaches_done.1 h
        cases hr
        have hrecorded' : (findings.after i [t]).RecordedIn name
            (recordProblem name i (findings.add i (t.flaw i)) m₂).data := by
          rw [Findings.after_bad hbad]
          exact hproblem
        exact ⟨[t], .turn htakes hnotes (.ended (.refl hnotes.context.data.ordered')),
          List.forall_mem_singleton.2 rfl,
          .of_bad (Bool.eq_false_of_not_eq_true hstop) hbad hrecorded'⟩

theorem messages_eq_nil_iff : messages i turns = [] ↔ turns.any bad = false := by
  rw [← List.length_eq_zero_iff, Findings.length_messages, List.countP_eq_zero, List.any_eq_false]

/-- The records of a validated sequence tally the turns that its steps have had. The number of those
that were not bad is missing if the very first one has stopped it. -/
structure Tallied (name : String) (continueOnError : Bool) (turns : List StepTurn) (data : Data) :
    Prop where
  completed : data.get? (name ++ "_" ++ "completed_steps") =
    if continueOnError = false ∧ turns.head?.any bad = true then none
    else some (.ofNat (turns.countP fun t => !t.bad))
  valid : data.get? (name ++ "_" ++ "valid") = some (.bool (turns.all fun t => !t.bad))
  failedStep : data.get? (name ++ "_" ++ "failed_step") = (turns.findIdx? bad).map .ofNat
  errors : data.get? (name ++ "_" ++ "errors") =
    if turns.any bad then some (.array ((messages 0 turns).map .string)) else none

theorem countP_good (h : ∀ t ∈ turns, t.bad = false) :
    (turns.countP fun t => !t.bad) = turns.length :=
  List.countP_eq_length.2 fun t ht => by rw [h t ht]; rfl

theorem countP_stopped {past : List StepTurn} (hpast : ∀ t ∈ past, t.bad = false)
    (hlast : t.bad = true) : ((past ++ [t]).countP fun t => !t.bad) = past.length := by
  rw [List.countP_append, countP_good hpast, List.countP_singleton, hlast]
  rfl

theorem head_good (h : ∀ t ∈ turns, t.bad = false) : turns.head?.any bad = false := by
  cases turns with
  | nil => rfl
  | cons t turns => exact h t List.mem_cons_self

theorem Findings.ProblemsIn.failedStep_eq
    (h : (({} : Findings).after 0 turns).ProblemsIn name data) :
    data.get? (name ++ "_" ++ "failed_step") = (turns.findIdx? bad).map .ofNat := by
  rw [h.failedStep, failedStep_after]
  simp

theorem Findings.ProblemsIn.errors_eq (h : (({} : Findings).after 0 turns).ProblemsIn name data) :
    data.get? (name ++ "_" ++ "errors") =
      if turns.any bad then some (.array ((messages 0 turns).map .string)) else none := by
  have hmessages : (({} : Findings).after 0 turns).errors = messages 0 turns :=
    (errors_after _ _ _).trans (List.nil_append _)
  rw [h.errors, hmessages]
  by_cases hbad : turns.any bad = true
  · rw [if_pos hbad, if_neg (by rw [messages_eq_nil_iff, hbad]; exact Bool.noConfusion)]
  · rw [if_neg hbad, if_pos (messages_eq_nil_iff.2 (Bool.eq_false_of_not_eq_true hbad))]

theorem isNone_failedStep (turns : List StepTurn) :
    (({} : Findings).after 0 turns).failedStep.isNone = turns.all fun t => !t.bad := by
  rw [Findings.failedStep_after]
  simp

/-- A sequence that closes has tallied its turns. -/
theorem ValidatedCloses.tallied (hdecided : ∀ t ∈ turns, ¬t.Undecided)
    (h : ValidatedCloses name continueOnError 0 {} steps turns outcome data) :
    Tallied name continueOnError turns data := by
  have hcount : (({} : Findings).after 0 turns).completed = turns.countP fun t => !t.bad :=
    (Findings.completed_after _ _ _).trans (Nat.zero_add _)
  cases h with
  | finished _ hgood hproblems hcompleted hvalid =>
    refine ⟨?_, ?_, hproblems.failedStep_eq, hproblems.errors_eq⟩
    · have hstarted : ¬(continueOnError = false ∧ turns.head?.any bad = true) := by
        rintro ⟨hc, hhead⟩
        exact Bool.noConfusion (hhead.symm.trans (head_good (hgood hc)))
      rw [if_neg hstarted, hcompleted, hcount]
    · rw [hvalid, isNone_failedStep]
  | @stopped past last _ hstop hpast hlast hrecorded =>
    refine ⟨?_, ?_, hrecorded.failedStep_eq, hrecorded.errors_eq⟩
    · rw [hrecorded.completed, hcount, countP_stopped hpast hlast]
      cases past with
      | nil => exact (if_pos ⟨hstop, hlast⟩).symm
      | cons t past =>
        have hhead : (t :: past ++ [last]).head?.any bad = false := hpast t List.mem_cons_self
        have hstarted : (t :: past).length ≠ 0 := Nat.succ_ne_zero _
        rw [if_neg hstarted, if_neg fun h => Bool.noConfusion (h.2.symm.trans hhead)]
    · have hfailed := isNone_failedStep (past ++ [last])
      have hall : ((past ++ [last]).all fun t => !t.bad) = false := by simp [hlast]
      rw [hall, Option.isNone_eq_false_iff] at hfailed
      rw [hrecorded.valid, if_pos hfailed, hall]
  | undecided ht hundecided => exact absurd hundecided (hdecided _ ht)

theorem ValidatedCloses.stops (hdecided : ∀ t ∈ turns, ¬t.Undecided)
    (hstop : continueOnError = false)
    (h : ValidatedCloses name continueOnError 0 {} steps turns outcome data) :
    (turns.length = steps.length ∧ (∀ t ∈ turns, t.bad = false) ∧ outcome = .ok ()) ∨
      ∃ past last, turns = past ++ [last] ∧ (∀ t ∈ past, t.bad = false) ∧ last.bad = true ∧
        outcome = .error (.action name (last.flaw past.length)) ∧
        (past ≠ [] → data.get? (name ++ "_" ++ "completed_steps") = some (.ofNat past.length)) := by
  have htallied := h.tallied hdecided
  cases h with
  | finished hall hgood _ _ _ => exact .inl ⟨hall, hgood hstop, rfl⟩
  | @stopped past last _ _ hpast hlast _ =>
    refine .inr ⟨past, last, rfl, hpast, hlast, by rw [Nat.zero_add], fun hsome => ?_⟩
    have hhead : (past ++ [last]).head?.any bad = false := by
      rw [List.head?_append_of_ne_nil _ hsome]
      exact head_good hpast
    rw [htallied.completed, if_neg fun h => Bool.noConfusion (h.2.symm.trans hhead),
      countP_stopped hpast hlast]
  | undecided ht hundecided => exact absurd hundecided (hdecided _ ht)

theorem ValidatedCloses.passes (hdecided : ∀ t ∈ turns, ¬t.Undecided)
    (hcontinue : continueOnError = true)
    (h : ValidatedCloses name continueOnError 0 {} steps turns outcome data) :
    turns.length = steps.length ∧ outcome = .ok () ∧
      (turns.countP fun t => !t.bad) + (messages 0 turns).length = steps.length := by
  cases h with
  | finished hall _ _ _ _ =>
    refine ⟨hall, rfl, ?_⟩
    have hsplit := List.length_eq_countP_add_countP (fun t => !t.bad) (l := turns)
    simp only [Bool.not_eq_true, Bool.not_eq_false', Bool.decide_eq_true] at hsplit
    rw [Findings.length_messages, ← hall, hsplit]
  | stopped hstop _ _ _ => exact Bool.noConfusion (hstop.symm.trans hcontinue)
  | undecided ht hundecided => exact absurd hundecided (hdecided _ ht)

/-- A validated sequence that nothing in its steps interferes with has turns that tell its course,
and its records tally these turns. Unless it is to continue on errors, it stops right after the
first bad step and fails as this one has; else it takes all its steps. -/
theorem validated_tallied (hparts : (validated name steps continueOnError).PartsShun
      (recordKeys (validated name steps continueOnError)))
    (hordered : m.data.Ordered)
    (hfresh : ∀ key ∈ recordKeys (validated name steps continueOnError), m.data.get? key = none)
    (site : Site) (cancelAt : Option Nat) :
    ∃ outcome m', (∃ fuel, ∀ more ≥ fuel,
        ((validated name steps continueOnError).run site).carryOut more cancelAt m =
          some (outcome, m')) ∧
      ∃ turns, Course .free site (recordKeys (validated name steps continueOnError)) 0 m steps
          turns m' ∧
        (∀ t ∈ turns, t.outcome.isSome = true) ∧
        ((∀ t ∈ turns, ¬t.Undecided) →
          Tallied name continueOnError turns m'.data ∧
          (continueOnError = false →
            (turns.length = steps.length ∧ (∀ t ∈ turns, t.bad = false) ∧ outcome = .ok ()) ∨
              ∃ past last, turns = past ++ [last] ∧ (∀ t ∈ past, t.bad = false) ∧
                last.bad = true ∧ outcome = .error (.action name (last.flaw past.length)) ∧
                (past ≠ [] → m'.data.get? (name ++ "_" ++ "completed_steps") =
                  some (.ofNat past.length))) ∧
          (continueOnError = true → turns.length = steps.length ∧ outcome = .ok () ∧
            (turns.countP fun t => !t.bad) + (messages 0 turns).length = steps.length)) := by
  obtain ⟨outcome, m', hends, hreaches⟩ :=
    exists_execution (validated name steps continueOnError) site cancelAt m
  rw [run] at hreaches
  have hrecorded : ({} : Findings).RecordedIn name m.data :=
    ⟨⟨hfresh _ (by simp [recordKeys]), hfresh _ (by simp [recordKeys])⟩,
      hfresh _ (by simp [recordKeys]), hfresh _ (by simp [recordKeys])⟩
  have hbefore : ∀ j ∈ ({} : Findings).failedStep, j < 0 := fun j hj =>
    absurd hj (Option.not_mem_none j)
  obtain ⟨turns, hcourse, hran, hcloses⟩ := exists_course_of_runValidated rfl
    (steps_ignore steps hparts) hordered hrecorded hbefore hreaches
  refine ⟨outcome, m', hends, turns, hcourse, hran, fun hdecided => ?_⟩
  exact ⟨hcloses.tallied hdecided, (hcloses.stops hdecided ·), (hcloses.passes hdecided ·)⟩

/-- One step, after which the validator does not hold: no step has been completed, but there is no
record that says so. -/
theorem validated_tallied_unstarted :
    let checked := validated "v" [⟨leaf "set" (.set "a" (.int 1)), some (.exactly "a" (.int 2)),
      false⟩] false
    let m : Moment := { context := { identity := { session := "s" } } }
    ∃ outcome m' turns, (checked.run { owner := "s" }).carryOut 9 none m = some (outcome, m') ∧
      Course .free { owner := "s" } checked.recordKeys 0 m
        [⟨leaf "set" (.set "a" (.int 1)), some (.exactly "a" (.int 2)), false⟩] turns m' ∧
      Tallied "v" false turns m'.data ∧ (turns.countP fun t => !t.bad) = 0 ∧
      m'.data.get? "v_completed_steps" = none := by
  intro checked m
  have hparts : checked.PartsShun checked.recordKeys := by
    refine ⟨⟨⟨List.disjoint_nil_left _, ?_⟩, ?_⟩, trivial⟩
    · show "a" ∉ checked.recordKeys
      decide
    · rintro _ ⟨⟩
      exact Predicate.shuns_exactly (by decide) _
  obtain ⟨outcome, m', hends, turns, hcourse, -, htally⟩ := validated_tallied hparts (m := m)
    Table.ordered_nil (fun _ _ => rfl) { owner := "s" } none
  have hrun : ((checked.run { owner := "s" }).carryOut 9 none m).map
      (fun done => (done.1.isOk, done.2.data.get? "v_completed_steps")) = some (false, none) := by
    rfl
  obtain ⟨done, hdone, hresult⟩ := Option.map_eq_some_iff.1 hrun
  obtain ⟨houtcome, hmissing⟩ := Prod.mk.inj hresult
  obtain rfl := execution_unique hdone hends
  have hdecided : ∀ t ∈ turns, ¬t.Undecided := by
    rintro t ht ⟨-, fault, hjudgement⟩
    rw [judgement, List.mem_singleton.1 (hcourse.step_mem ht)] at hjudgement
    cases hjudgement
  obtain ⟨htallied, hstops, -⟩ := htally hdecided
  refine ⟨outcome, m', turns, hdone, hcourse, htallied, ?_, hmissing⟩
  obtain ⟨-, -, rfl⟩ | ⟨past, last, rfl, hpast, hlast, -, hcompleted⟩ := hstops rfl
  · cases houtcome
  · rw [countP_stopped hpast hlast]
    by_contra hsome
    have hrecorded := hcompleted fun hnil => hsome (hnil ▸ rfl)
    rw [show "v" ++ "_" ++ "completed_steps" = "v_completed_steps" by decide, hmissing] at hrecorded
    cases hrecorded

end Action

end Workflow
