import Workflow.Proofs.Engine.Assembly
import Workflow.Proofs.Engine.Resolution
import Workflow.Proofs.Engine.Trace

/-!
# Verdicts without a preference

A verdict that names no next state leaves the decision to the edges. It does so unless the empty
name, which stands for no preference, is that of a final state: building an engine keeps only the
initial state from having an empty name. Then such a verdict ends the run where it stands, in a
state that need not be final, and this is the only way in which a run can end well elsewhere.
-/

namespace Workflow

namespace Draft

variable {d : Draft} {e : Engine} {name : String}

theorem mem_finals_of_build (h : d.build = .ok e) :
    name ∈ e.finals ↔
      name ∈ d.finals ∨ ∃ state ∈ d.states, state.isFinal = true ∧ state.name = name := by
  obtain ⟨table, -, -, -, rfl⟩ := build_eq_ok.1 h
  exact mem_finalNames

/-- All final states are states of the draft. -/
theorem exists_of_mem_finals (h : d.build = .ok e) (hname : name ∈ e.finals) :
    ∃ state ∈ d.states, state.name = name := by
  obtain ⟨table, -, -, hreferences, rfl⟩ := build_eq_ok.1 h
  have hreference : ("final state", name) ∈ d.references :=
    List.mem_cons_of_mem _ (List.mem_append_left _ (List.mem_append_left _
      (List.mem_map.2 ⟨name, hname, rfl⟩)))
  obtain ⟨state, hstate⟩ := Option.isSome_iff_exists.1 (hreferences _ hreference)
  obtain ⟨hmem, hname⟩ := mem_states_of_get? h hstate
  exact ⟨state, hmem, hname⟩

end Draft

namespace Engine

variable {d : Draft} {e : Engine} {current : String} {state : State} {verdict : Verdict}
  {run run' : Run} {m m' : Moment}

theorem isFinal_iff {name : String} : e.isFinal name = true ↔ name ∈ e.finals :=
  List.contains_iff_mem

def Resolves (e : Engine) (current : String) (verdict : Verdict) (m : Moment) : Prop :=
  ∃ m₁, m.Noted m₁ ∧ ∀ d run r m', (e.follow current run (.ok verdict)).Reaches d m r m' ↔
    r = some (e.heed current run verdict m₁ (e.firstOpen current m.data)).1 ∧
      m' = (e.heed current run verdict m₁ (e.firstOpen current m.data)).2

def Completes (e : Engine) (current : String) (verdict : Verdict) (m : Moment) : Prop :=
  (e.complete current verdict m).context.currentState = current ∧
    ∀ d run r m', (e.follow current run (.ok verdict)).Reaches d m r m' ↔
      r = some (.ended run (.ok ())) ∧ m' = e.complete current verdict m

theorem currentState_complete (e : Engine) (current : String) (verdict : Verdict) (m : Moment) :
    (e.complete current verdict m).context.currentState =
      if verdict.isOpen then current else verdict.next := rfl

theorem isLast_of_isOpen (hcomplete : verdict.complete = false) (hopen : verdict.isOpen = true) :
    e.isLast verdict = e.isFinal "" := by
  rw [isLast, hcomplete, Bool.false_or, String.isEmpty_iff.1 hopen]

theorem resolves (hcomplete : verdict.complete = false) (hopen : verdict.isOpen = true)
    (hempty : "" ∉ e.finals) : e.Resolves current verdict m := by
  have hlast : e.isLast verdict = false := by
    rw [isLast_of_isOpen hcomplete hopen, ← Bool.not_eq_true, isFinal_iff]
    exact hempty
  have hpick : e.pick current verdict.next m.data = e.firstOpen current m.data := if_pos hopen
  have hgives := e.resolve_gives current verdict.next m
  rw [hpick] at hgives
  exact follow_reaches_iff hgives hlast

theorem completes (hcomplete : verdict.complete = false) (hopen : verdict.isOpen = true)
    (hempty : "" ∈ e.finals) : e.Completes current verdict m := by
  have hlast : e.isLast verdict = true := by
    rw [isLast_of_isOpen hcomplete hopen, isFinal_iff]
    exact hempty
  refine ⟨(e.currentState_complete current verdict m).trans (if_pos hopen), fun d run r m' => ?_⟩
  rw [follow, if_pos hlast, Work.reaches_after, Work.reaches_done]

theorem answers_cases (h : Answers state verdict) (hkind : ∀ fixed, state.task ≠ .answer fixed) :
    state.isFinal = true ∧ verdict = .finish state.name ∨
      state.isFinal = false ∧ verdict.complete = false := by
  unfold Answers at h
  unfold State.isFinal
  cases htask : state.task with
  | perform action =>
    rw [htask] at h
    obtain rfl := h
    exact .inr ⟨rfl, rfl⟩
  | route test yes no =>
    have hpreference : ∀ preferred, (State.preference preferred).complete = false := by
      rintro (_ | preferred) <;> rfl
    rw [htask] at h
    rcases h with ⟨-, rfl⟩ | ⟨-, rfl | rfl⟩
    · exact .inr ⟨rfl, rfl⟩
    · exact .inr ⟨rfl, hpreference yes⟩
    · exact .inr ⟨rfl, hpreference no⟩
  | stop =>
    rw [htask] at h
    exact .inl ⟨rfl, h⟩
  | answer fixed => exact absurd htask (hkind fixed)

/-- The run stands in the state that it has dispatched last, which is not of the final kind, and the
verdict of that state has left the decision to the edges. -/
structure LeftOpen (e : Engine) (run : Run) (m : Moment) : Prop where
  last : run.last = some m.context.currentState
  verdict : ∃ state verdict m₁ m₂, e.states.get? m.context.currentState = some state ∧
    state.isFinal = false ∧ (e.dispatch state).Reaches .free m₁ (some (.ok verdict)) m₂ ∧
    verdict.complete = false ∧ verdict.isOpen = true

theorem ended_well (hbuild : d.build = .ok e)
    (hkinds : ∀ state ∈ d.states, ∀ fixed, state.task ≠ .answer fixed)
    (hstep : e.Stepped .free run m (.ended run' (.ok ())) m') :
    m'.context.currentState ∈ e.finals ∨ "" ∈ e.finals ∧ e.LeftOpen run' m' := by
  cases hstep with
  | @dispatched state _ _ _ m₂ _ _ _ hstate hwork hm hfollow =>
    cases hfollow with
    | @completed verdict hlast =>
      obtain ⟨hmem, hname⟩ := Draft.mem_states_of_get? hbuild hstate
      have hcurrent := e.currentState_complete m.context.currentState verdict m₂
      rcases answers_cases (answers_of_dispatch hwork) (hkinds state hmem) with
        ⟨hfinal, rfl⟩ | ⟨hfinal, hcomplete⟩
      · -- A state of the final kind names itself, whether its name is empty or not.
        have hstays : (Verdict.finish state.name).next = m.context.currentState := hname
        rw [hstays, ite_self] at hcurrent
        rw [hcurrent]
        exact .inl ((Draft.mem_finals_of_build hbuild).2 (.inr ⟨state, hmem, hfinal, hname⟩))
      · rw [isLast, hcomplete, Bool.false_or, isFinal_iff] at hlast
        by_cases hopen : verdict.isOpen = true
        · rw [if_pos hopen] at hcurrent
          rw [String.isEmpty_iff.1 hopen] at hlast
          refine .inr ⟨hlast, congrArg some hcurrent.symm, ?_⟩
          rw [hcurrent]
          exact ⟨state, verdict, _, _, hstate, hfinal, hwork, hcomplete, hopen⟩
        · rw [if_neg hopen] at hcurrent
          rw [hcurrent]
          exact .inl hlast

/-- Take an engine whose states act, choose or end the run. A verdict that neither ends the run nor
prefers a state has the run search for an edge, unless the empty name is final: then the run ends
well where it stands. The empty name is final if it is listed among the final states of the draft or
is the name of a state of the final kind; there is a state with this name then. A run that ends well
ends in a final state, or the empty name is final and the verdict of the state in which it ends has
left the decision to the edges. -/
theorem open_verdict_resolved_iff (hbuild : d.build = .ok e)
    (hkinds : ∀ state ∈ d.states, ∀ fixed, state.task ≠ .answer fixed) :
    ("" ∈ e.finals ↔
      "" ∈ d.finals ∨ ∃ state ∈ d.states, state.isFinal = true ∧ state.name = "") ∧
    ("" ∈ e.finals → ∃ state ∈ d.states, state.name = "") ∧
    (∀ current verdict m, verdict.complete = false → verdict.isOpen = true →
      ("" ∉ e.finals → e.Resolves current verdict m) ∧
      ("" ∈ e.finals → e.Completes current verdict m)) ∧
    ∀ fuel cancelAt m done, e.carryOut fuel cancelAt m = some done → done.outcome = .ok () →
      done.moment.context.currentState ∈ e.finals ∨
        "" ∈ e.finals ∧ e.LeftOpen done.run done.moment := by
  refine ⟨Draft.mem_finals_of_build hbuild, Draft.exists_of_mem_finals hbuild,
    fun _ _ _ hcomplete hopen =>
      ⟨fun hempty => resolves hcomplete hopen hempty,
        fun hempty => completes hcomplete hopen hempty⟩,
    fun fuel cancelAt m done hrun => ?_⟩
  exact carryOut_induction
    (P := fun _ _ => True)
    (Q := fun run outcome m' => outcome = .ok () →
      m'.context.currentState ∈ e.finals ∨ "" ∈ e.finals ∧ e.LeftOpen run m')
    (fun _ _ => trivial)
    (fun _ hstep houtcome => ended_well hbuild hkinds (houtcome ▸ hstep)) trivial hrun

def unnamed : Draft where
  name := "unnamed"
  states := [⟨"a", .perform (.leaf "noop" .noop)⟩, ⟨"c", .stop⟩, ⟨"", .stop⟩]
  transitions := [.always "a" "c"]
  initial := "a"

/-- The run ends well in its first state, which is not final, although the edge is open there. -/
theorem open_verdict_resolved_iff_unnamed :
    ∃ e done, unnamed.build = .ok e ∧
      (∀ state ∈ unnamed.states, ∀ fixed, state.task ≠ .answer fixed) ∧
      e.carryOut 9 none { context := { identity := { session := "s" } } } = some done ∧
      done.outcome = .ok () ∧ done.moment.context.currentState = "a" ∧ "a" ∉ e.finals ∧
      e.firstOpen "a" done.moment.data = .ok (.always "a" "c") ∧
      e.Completes "a" .proceed done.moment ∧ e.LeftOpen done.run done.moment := by
  obtain ⟨e, he, hrun⟩ : ∃ e, unnamed.build = .ok e ∧
      (e.carryOut 9 none { context := { identity := { session := "s" } } }).map
        (fun done => (done.outcome, done.moment.context.currentState, e.finals,
          e.firstOpen "a" done.moment.data)) =
        some (.ok (), "a", ["", "c"], .ok (.always "a" "c")) := ⟨_, rfl, rfl⟩
  obtain ⟨done, hdone, hresult⟩ := Option.map_eq_some_iff.1 hrun
  obtain ⟨houtcome, hcurrent, hfinals, hopen⟩ :
      done.outcome = .ok () ∧ done.moment.context.currentState = "a" ∧ e.finals = ["", "c"] ∧
        e.firstOpen "a" done.moment.data = .ok (.always "a" "c") := by
    simpa only [Prod.mk.injEq] using hresult
  have hkinds : ∀ state ∈ unnamed.states, ∀ fixed, state.task ≠ .answer fixed :=
    List.forall_mem_cons.2 ⟨fun _ => nofun, List.forall_mem_cons.2 ⟨fun _ => nofun,
      List.forall_mem_singleton.2 fun _ => nofun⟩⟩
  have hempty : "" ∈ e.finals := hfinals ▸ List.mem_cons_self
  have hfinal : "a" ∉ e.finals := by
    rw [hfinals]
    decide
  obtain ⟨-, -, hverdict, hruns⟩ := open_verdict_resolved_iff he hkinds
  have hleft := ((hruns _ _ _ _ hdone houtcome).resolve_left (hcurrent.symm ▸ hfinal)).2
  exact ⟨e, done, he, hkinds, hdone, houtcome, hcurrent, hfinal, hopen,
    (hverdict "a" .proceed done.moment rfl rfl).2 hempty, hleft⟩

end Engine

end Workflow
