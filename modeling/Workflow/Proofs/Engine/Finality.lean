import Mathlib.Data.List.Nodup
import Workflow.Proofs.Engine.Outcome

/-!
# Final states

A state of the final kind ends every run that dispatches it. A state that is only listed among the
final ones does so when a run completes in it, but not when a run enters it by an edge or as an
error target: then it is dispatched like any other state, and the run leaves it again or gets stuck.
-/

namespace Workflow.Engine

variable {hooks : List Hook} {maxSteps : Option Nat} {spec : WorkflowSpec} {e : Engine}
  {run run' : Run}
  {m m' m₁ m₂ : Moment} {ctx₀ : Context} {state : State} {name : String}

/-- The work of a state without a task cannot fail. -/
theorem outcome_of_stop {outcome : Except Fault Verdict} (htask : state.task = .stop)
    (h : (e.dispatch state).Reaches .free m (some outcome) m') :
    outcome = .ok (.finish state.name) := by
  have hrun : state.run = .done (.ok (.finish state.name)) := by rw [State.run, htask]
  unfold dispatch at h
  rw [hrun] at h
  split at h
  · obtain ⟨u, m₁, hdone, -, ⟨-, h⟩ | ⟨-, hn, -⟩ | ⟨rfl, -, -⟩⟩ := h
    · obtain ⟨rfl, -⟩ := Work.reaches_done.1 hdone
      exact Option.some.inj (Work.reaches_done.1 h).1
    · cases hn
    · cases (Work.reaches_done.1 hdone).1
  · exact Option.some.inj (Work.reaches_done.1 h).1

/-- A state of the final kind can only end the run where it stands. -/
theorem Assembled.outcome_of_final (h : Assembled .builtins hooks maxSteps spec e)
    {outcome : Except Fault Verdict} (hkind : spec.HasKind name "final")
    (hstate : e.states.get? name = some state)
    (hwork : (e.dispatch state).Reaches .free m (some outcome) m') :
    outcome = .ok (.finish name) := by
  obtain ⟨s, hs, hname, hbuilt, hname'⟩ := h.spec_of_state hstate
  obtain ⟨s', hs', hs'name, hk'⟩ := hkind
  have heq : s' = s := List.inj_on_of_nodup_map h.valid.distinct hs' hs (hs'name.trans hname.symm)
  subst heq
  rcases Registry.task_of_buildState hbuilt with ⟨hk, -⟩ | ⟨hk, -⟩ | ⟨-, ht⟩
  · exact absurd (hk'.symm.trans hk) (by decide)
  · exact absurd (hk'.symm.trans hk) (by decide)
  · exact hname' ▸ outcome_of_stop ht hwork

/-- A step that goes on does not leave a state of the final kind. -/
theorem Assembled.not_final_of_goes (h : Assembled .builtins hooks maxSteps spec e)
    (hstep : e.Stepped .free run m (.goesOn run') m') :
    ¬spec.HasKind m.context.currentState "final" := by
  intro hkind
  cases hstep with
  | dispatched _ _ hstate hwork _ hfollow =>
    cases h.outcome_of_final hkind hstate hwork
    cases hfollow with
    | moved _ hlast _ => cases hlast

def Rests (name : String) (outcome : Except Fault Unit) (ctx : Context) : Prop :=
  ctx.currentState = name ∧
    (outcome = .ok () ∨ (∃ stopped, outcome = .error (.cancelled stopped)) ∨
      ∃ limit, outcome = .error (.stepLimit name limit))

/-- The run has failed in the state, or no edge has led on from there. -/
def Breaks (name : String) (outcome : Except Fault Unit) : Prop :=
  outcome = .error (.noTransition name) ∨ ∃ fault, outcome = .error (.state name fault)

/-- The run never leaves the state and does not break there: once it is the current one, it stays
so. -/
structure Remains (first name : String) (outcome : Except Fault Unit) (ctx : Context)
    (moves : List Move) : Prop where
  unleft : ∀ move ∈ moves, move.origin ≠ name
  unbroken : ¬Breaks name outcome
  rests : name ∈ first :: moves.map Move.target → Rests name outcome ctx

def Passes (spec : WorkflowSpec) (name : String) (outcome : Except Fault Unit) (ctx : Context)
    (moves : List Move) : Prop :=
  (∃ move ∈ moves, move.origin = name) ∨ Breaks name outcome ∨
    spec.HasKind name "conditional" ∧ outcome = .ok () ∧ ctx.currentState = name

/-- What becomes of a state: the run remains in it if it is of the final kind or never dispatched,
and passes through it otherwise. -/
structure Settled (spec : WorkflowSpec) (first : String) (outcome : Except Fault Unit)
    (ctx : Context) (moves : List Move) (visited : List String) (name : String) : Prop where
  remains : spec.HasKind name "final" ∨ name ∉ visited → Remains first name outcome ctx moves
  passes : ¬spec.HasKind name "final" → name ∈ visited → Passes spec name outcome ctx moves

section Settled

variable {first : String} {ctx : Context} {moves : List Move} {visited : List String}
  {outcome : Except Fault Unit}

theorem Rests.not_breaks (h : Rests name outcome ctx) (other : String) : ¬Breaks other outcome := by
  rintro (rfl | ⟨fault, rfl⟩)
  · rcases h.2 with ho | ⟨_, ho⟩ | ⟨_, ho⟩ <;> cases ho
  · rcases h.2 with ho | ⟨_, ho⟩ | ⟨_, ho⟩ <;> cases ho

/-- The states that a run has entered are those that it has left, and the current one. -/
theorem remains_of_chained (h : Chained first moves ctx.currentState)
    (hunleft : ∀ move ∈ moves, move.origin ≠ name) (hunbroken : ¬Breaks name outcome)
    (hrests : name = ctx.currentState → Rests name outcome ctx) :
    Remains first name outcome ctx moves := by
  refine ⟨hunleft, hunbroken, fun hmem => ?_⟩
  rw [← h.origins_append] at hmem
  rcases List.mem_append.1 hmem with hmem | hmem
  · obtain ⟨move, hmove, horigin⟩ := List.mem_map.1 hmem
    exact absurd horigin (hunleft move hmove)
  · exact hrests (List.mem_singleton.1 hmem)

/-- Every state that has been dispatched has been left. -/
theorem settled_left (h : Chained first moves ctx.currentState)
    (hleft : ∀ move ∈ moves, ¬spec.HasKind move.origin "final")
    (hrests : Rests ctx.currentState outcome ctx) (name : String) :
    Settled spec first outcome ctx moves (moves.map Move.origin) name where
  remains hname := by
    refine remains_of_chained h ?_ (hrests.not_breaks name) fun heq => heq ▸ hrests
    rintro move hmem rfl
    rcases hname with hkind | hvisited
    · exact hleft move hmem hkind
    · exact hvisited (List.mem_map_of_mem hmem)
  passes _ hvisited := .inl (List.mem_map.1 hvisited)

/-- The run has ended in the state that it has dispatched last. -/
theorem settled_stays (h : Chained first moves ctx.currentState)
    (hleft : ∀ move ∈ moves, ¬spec.HasKind move.origin "final")
    (hrests : spec.HasKind ctx.currentState "final" → Rests ctx.currentState outcome ctx)
    (hbreaks : ∀ name, Breaks name outcome → name = ctx.currentState)
    (hpasses : ¬spec.HasKind ctx.currentState "final" →
      Passes spec ctx.currentState outcome ctx moves) (name : String) :
    Settled spec first outcome ctx moves (moves.map Move.origin ++ [ctx.currentState]) name where
  remains hname := by
    have hcurrent : name = ctx.currentState → spec.HasKind name "final" := fun heq =>
      hname.resolve_right fun hvisited =>
        hvisited (List.mem_append_right _ (List.mem_singleton.2 heq))
    refine remains_of_chained h ?_ (fun hbreak => ?_) fun heq => ?_
    · rintro move hmem rfl
      rcases hname with hkind | hvisited
      · exact hleft move hmem hkind
      · exact hvisited (List.mem_append_left _ (List.mem_map_of_mem hmem))
    · have heq := hbreaks name hbreak
      exact (hrests (heq ▸ hcurrent heq)).not_breaks name hbreak
    · rw [heq]
      exact hrests (heq ▸ hcurrent heq)
  passes hkind hvisited := by
    rcases List.mem_append.1 hvisited with hmem | hmem
    · exact .inl (List.mem_map.1 hmem)
    · rw [List.mem_singleton.1 hmem] at hkind ⊢
      exact hpasses hkind

end Settled

def Proceeds (e : Engine) (spec : WorkflowSpec) (origin target : String) : Prop :=
  e.Links origin target ∧ ¬spec.HasKind origin "final"

def Terminated (e : Engine) (spec : WorkflowSpec) (ctx₀ : Context) (outcome : Except Fault Unit)
    (ctx : Context) : Prop :=
  ∃ moves visited, Told e.Links (e.firstState ctx₀) ctx₀ outcome ctx moves visited ∧
    ∀ name, Settled spec (e.firstState ctx₀) outcome ctx moves visited name

theorem Assembled.goes (ha : Assembled .builtins hooks maxSteps spec e)
    (h : ∃ moves, Trail (Proceeds e spec) (e.firstState ctx₀) ctx₀ m.context moves)
    (hstep : e.Stepped .free run m (.goesOn run') m') :
    ∃ moves, Trail (Proceeds e spec) (e.firstState ctx₀) ctx₀ m'.context moves :=
  Trail.goes h hstep ⟨(moved_of_goes hstep).2.2, ha.not_final_of_goes hstep⟩

section Ends

variable {moves : List Move} {ctx ctx' : Context} {outcome : Except Fault Unit}
  (h : Trail (Proceeds e spec) (e.firstState ctx₀) ctx₀ ctx moves)

include h

theorem terminated_here (hrests : Rests ctx.currentState outcome ctx) :
    Terminated e spec ctx₀ outcome ctx :=
  ⟨moves, moves.map Move.origin, h.told_here.imp (fun _ _ hlinks => hlinks.1),
    settled_left h.chained (fun move hmem => (h.links move hmem).2) hrests⟩

theorem terminated_stays (hhistory : ctx'.history = ctx.history)
    (hpath : ctx'.path = ctx.path ++ [ctx.currentState])
    (hcurrent : ctx'.currentState = ctx.currentState)
    (hrests : spec.HasKind ctx.currentState "final" → outcome = .ok ())
    (hbreaks : ∀ name, Breaks name outcome → name = ctx.currentState)
    (hpasses : ¬spec.HasKind ctx.currentState "final" →
      Breaks ctx.currentState outcome ∨
        spec.HasKind ctx.currentState "conditional" ∧ outcome = .ok ()) :
    Terminated e spec ctx₀ outcome ctx' := by
  refine ⟨moves, _, (h.told_stays hhistory hpath hcurrent).imp (fun _ _ hlinks => hlinks.1), ?_⟩
  rw [← hcurrent] at hrests hbreaks hpasses ⊢
  refine settled_stays (hcurrent ▸ h.chained) (fun move hmem => (h.links move hmem).2)
    (fun hkind => ⟨rfl, .inl (hrests hkind)⟩) hbreaks fun hkind => .inr ?_
  exact (hpasses hkind).imp_right fun ⟨hcond, hok⟩ => ⟨hcond, hok, rfl⟩

theorem terminated_leaves {data : Data} (hkind : ¬spec.HasKind ctx.currentState "final")
    (hhistory : ctx'.history = ctx.history ++ [⟨ctx.currentState, ctx'.currentState, data⟩])
    (hpath : ctx'.path = ctx.path ++ [ctx.currentState]) :
    Terminated e spec ctx₀ (.ok ()) ctx' := by
  refine ⟨_, _, (h.told_leaves hhistory hpath).imp (fun _ _ hlinks => hlinks.1), fun name => ?_⟩
  have horigins : moves.map Move.origin ++ [ctx.currentState] =
      List.map Move.origin (moves ++ [⟨ctx.currentState, ctx'.currentState, data⟩]) := by
    rw [List.map_append]
    rfl
  rw [horigins]
  refine settled_left h.chained.snoc (fun move hmem => ?_) ⟨rfl, .inl rfl⟩ name
  rcases List.mem_append.1 hmem with hmem | hmem
  · exact (h.links move hmem).2
  · rw [List.mem_singleton.1 hmem]
    exact hkind

end Ends

theorem Assembled.ends (ha : Assembled .builtins hooks maxSteps spec e)
    {outcome : Except Fault Unit}
    (h : ∃ moves, Trail (Proceeds e spec) (e.firstState ctx₀) ctx₀ m.context moves)
    (hdeclared : m.context.currentState ∈ spec.stateNames)
    (hstep : e.Stepped .free run m (.ended run' outcome) m') :
    Terminated e spec ctx₀ outcome m'.context := by
  obtain ⟨moves, h⟩ := h
  cases hstep with
  | cancelled hm _ _ =>
    rw [hm.context]
    exact terminated_here h ⟨rfl, .inr (.inl ⟨_, rfl⟩)⟩
  | spent hm _ =>
    rw [hm.context]
    exact terminated_here h ⟨rfl, .inr (.inr ⟨_, rfl⟩)⟩
  | lost _ hnone =>
    obtain ⟨state, hstate⟩ := ha.exists_state hdeclared
    rw [hnone] at hstate
    cases hstate
  | @dispatched state _ _ m₁ m₂ _ _ _ hstate hwork hm hfollow =>
    obtain ⟨hhistory, hpath, hcurrent⟩ := trace_of_dispatch hwork hm.noted
    have hfinal := fun hkind => ha.outcome_of_final hkind hstate hwork
    cases hfollow with
    | failed hm' _ =>
      rw [← hm'.context] at hhistory hpath hcurrent
      refine terminated_stays h hhistory hpath hcurrent (fun hkind => ?_) (fun name => ?_)
        fun _ => .inl (.inr ⟨_, rfl⟩)
      · cases hfinal hkind
      · rintro (hbreak | ⟨fault, hbreak⟩) <;> cases hbreak
        rfl
    | stuck hm' hlast hpick =>
      rw [← hm'.context] at hhistory hpath hcurrent
      rcases pick_eq_error hpick with ⟨rfl, -⟩ | ⟨t, hmem, hfault⟩
      · refine terminated_stays h hhistory hpath hcurrent (fun hkind => ?_) (fun name => ?_)
          fun _ => .inl (.inl rfl)
        · cases hfinal hkind
          cases hlast
        · rintro (hbreak | ⟨fault, hbreak⟩) <;> cases hbreak
          rfl
      · -- the guards of a specification always give an answer
        obtain ⟨edge, -, c, -, -, -, hopen⟩ := ha.edge_of_transition (List.mem_filter.1 hmem).1
        cases (hopen m₂.data).symm.trans hfault
    | @completed verdict hlast =>
      obtain ⟨hpath', hmoved⟩ := e.trace_of_complete m.context.currentState verdict m₂
      rw [← hpath'] at hpath
      rw [hhistory] at hmoved
      have hunbroken : ∀ name, ¬Breaks name (.ok ()) := fun name hbreak => by
        rcases hbreak with hbreak | ⟨fault, hbreak⟩ <;> cases hbreak
      have hverdict : spec.HasKind m.context.currentState "final" ∨
          spec.HasKind m.context.currentState "conditional" := by
        rcases ha.answers hstate (answers_of_dispatch hwork) with ⟨-, rfl⟩ | ⟨hkind, -⟩ | ⟨hkind, -⟩
        · rw [isLast, Verdict.proceed, ha.isFinal_empty] at hlast
          cases hlast
        · exact .inr hkind
        · exact .inl hkind
      rcases hmoved with ⟨hcurrent', hhistory'⟩ | ⟨hne, data, hhistory'⟩
      · exact terminated_stays h hhistory' hpath hcurrent' (fun _ => rfl)
          (fun name hbreak => absurd hbreak (hunbroken name))
          fun hkind => .inr ⟨hverdict.resolve_left hkind, rfl⟩
      · refine terminated_leaves h (fun hkind => ?_) hhistory' hpath
        cases hfinal hkind
        exact hne rfl

/-- The states that end every run are those of the final kind: once such a state is the current one,
it stays so and the run ends well, unless it is cancelled or has to stop. Any other state, listed as
a final one or not, does the same only when the run enters it without dispatching it; where it is
dispatched, the run leaves it again or breaks there. -/
theorem final_kind_terminates {fuel : Nat} {cancelAt : Option Nat} {m : Moment} {done : Finished}
    (he : (ofSpec .builtins hooks maxSteps spec).2 = .ok e)
    (hm : m.context.currentState = "" ∨ m.context.currentState ∈ spec.stateNames)
    (h : e.carryOut fuel cancelAt m = some done) :
    Terminated e spec m.context done.outcome done.moment.context := by
  have ha := assembled_of_ofSpec he
  refine carryOut_induction
    (P := fun _ m' => m'.context.currentState ∈ spec.stateNames ∧
      ∃ moves, Trail (Proceeds e spec) (e.firstState m.context) m.context m'.context moves)
    (Q := fun _ outcome m' => Terminated e spec m.context outcome m'.context)
    (fun ⟨_, h⟩ hstep => ⟨ha.declared_of_goes hstep, ha.goes h hstep⟩)
    (fun ⟨hdeclared, h⟩ hstep => ha.ends h hdeclared hstep) ⟨?_, [], trail_start _ m⟩ h
  rw [context_start]
  exact ha.firstState_declared hm

/-- A state that is listed as a final one is left by an edge. -/
theorem final_kind_terminates_listed :
    ∃ e done, (ofSpec .builtins [] none { Sample.linear with finalStates := ["b"] }).2 = .ok e ∧
      e.carryOut 9 none { context := { identity := { session := "s" } } } = some done ∧
      done.moment.context.path = ["a", "b", "c"] ∧
      Terminated e { Sample.linear with finalStates := ["b"] } { identity := { session := "s" } }
        done.outcome done.moment.context := by
  obtain ⟨e, done, he, hdone, hpath⟩ := exists_run .builtins [] none
    { Sample.linear with finalStates := ["b"] } 9 none
    { context := { identity := { session := "s" } } } ["a", "b", "c"] rfl
  exact ⟨e, done, he, hdone, hpath, final_kind_terminates he (.inl rfl) hdone⟩

end Workflow.Engine
