import Workflow.Proofs.Engine.Outcome
import Workflow.Proofs.Lint.Codes
import Workflow.Proofs.Lint.Traps

/-!
# States that cannot be reached

Linting reports the states to which no edges lead from the initial one. No run dispatches such a
state: all moves from a dispatched state to the next one follow edges. But a run may end in one,
since a conditional state that prefers a final state completes the run there, whether or not an edge
leads to it.
-/

namespace Workflow

namespace Lint

variable {spec : WorkflowSpec} {known : Option Registry}

/-- States are reported as unreachable only by the check of the graph, and so only if the initial
state is declared. -/
theorem mem_unreachableFrom_of_mem_lint {finding : Finding} (h : finding ∈ lint known spec)
    (hcode : finding.code = .unreachable) :
    spec.initialState ∈ spec.stateNames ∧
      ∃ name ∈ (Graph.ofSpec spec).unreachableFrom spec.initialState,
        finding = unreachableFinding spec name := by
  obtain ⟨hinitial, h⟩ := (mem_lint_iff_mem_checkGraph (hcode ▸ .head _)).1 h
  refine ⟨hinitial, ?_⟩
  rcases List.mem_append.1 h with h | h
  · obtain ⟨name, hname, rfl⟩ := List.mem_map.1 h
    exact ⟨name, hname, rfl⟩
  · have hexits := within_checkExits _ _ _ _ finding h
    rw [hcode] at hexits
    exact absurd hexits (by decide)

/-- No edges lead from the initial state to one that is reported as unreachable. -/
theorem not_leads_of_mem_lint {finding : Finding} {name : String} (h : finding ∈ lint known spec)
    (hcode : finding.code = .unreachable) (hname : finding.state = some name) :
    ¬Graph.Leads (Graph.ofSpec spec).successors spec.initialState name := by
  obtain ⟨-, other, hother, rfl⟩ := mem_unreachableFrom_of_mem_lint h hcode
  cases hname
  intro hleads
  have hmissing := List.of_mem_filter hother
  rw [List.contains_iff_mem.2 (Graph.mem_reachableFrom.2 hleads)] at hmissing
  cases hmissing

end Lint

def StateSpec.Prefers (spec : StateSpec) (name : String) : Prop :=
  spec.kind = "conditional" ∧
    (Params.string? ⟨spec.name, spec.params⟩ "then" = .ok (some name) ∨
      Params.string? ⟨spec.name, spec.params⟩ "else" = .ok (some name))

/-- The context of a run on a specification, from `start` on, that has dispatched the states
`visited`: edges lead to all of them from the initial state, and to the current state as well. -/
structure WorkflowSpec.Explored (spec : WorkflowSpec) (start ctx : Context)
    (visited : List String) : Prop where
  path : ctx.path = start.path ++ visited
  dispatched : ∀ name ∈ visited,
    Graph.Leads (Graph.ofSpec spec).successors spec.initialState name
  current : Graph.Leads (Graph.ofSpec spec).successors spec.initialState ctx.currentState

/-- A run ends in the state only to complete: the state that it has dispatched last is a conditional
one that prefers this state, which is a final one. -/
structure WorkflowSpec.CompletesIn (spec : WorkflowSpec) (name : String) (visited : List String)
    (outcome : Except Fault Unit) : Prop where
  outcome : outcome = .ok ()
  ends : spec.Ends name
  preferred : ∃ state ∈ spec.states, state.Prefers name ∧ visited.getLast? = some state.name

namespace Engine

variable {hooks : List Hook} {maxSteps : Option Nat} {spec : WorkflowSpec} {e : Engine}
  {run run' : Run}
  {m m' : Moment} {start : Context}

/-- The moves of an engine follow the edges of its specification. -/
theorem Assembled.mem_successors {r : Registry} (h : Assembled r hooks maxSteps spec e)
    {origin target : String} (hlinks : e.Links origin target) :
    target ∈ (Graph.ofSpec spec).successors origin := by
  have hedge : (origin, target) ∈ (Graph.ofSpec spec).edges := by
    rcases hlinks with ⟨t, ht, rfl, rfl⟩ | htarget
    · obtain ⟨edge, hedge, -, -, horigin, htarget, -⟩ := h.edge_of_transition ht
      rw [horigin, htarget]
      exact List.mem_append_left _ (List.mem_map_of_mem hedge)
    · rw [h.errorTargets] at htarget
      obtain ⟨s, hs, hhandler⟩ := Option.bind_eq_some_iff.1 htarget
      obtain ⟨hmem, rfl⟩ := spec.mem_of_state? hs
      apply List.mem_append_right
      exact List.mem_filterMap.2 ⟨s, hmem, by rw [hhandler]; rfl⟩
  exact Graph.mem_successors.2 ⟨(Graph.closed_ofSpec h.valid _ hedge).1, hedge⟩

/-- A state that answers with another one prefers it. -/
theorem Assembled.prefers (h : Assembled .builtins hooks maxSteps spec e) {name : String}
    {state : State}
    {verdict : Verdict} (hstate : e.states.get? name = some state)
    (hverdict : Answers state verdict) (hnext : verdict.next ≠ "") (hne : verdict.next ≠ name) :
    ∃ s ∈ spec.states, s.Prefers verdict.next ∧ s.name = name := by
  obtain ⟨s, hs, hname, hbuilt, hname'⟩ := h.spec_of_state hstate
  refine ⟨s, hs, ?_, hname⟩
  obtain ⟨meaning, hkind, hbuilt⟩ := bind_eq_ok.1 hbuilt
  unfold Answers at hverdict
  rcases Registry.stateKind?_builtins hkind with ⟨-, rfl⟩ | ⟨hk, rfl⟩ | ⟨-, rfl⟩
  · obtain ⟨action, rfl⟩ := Registry.buildActionState_eq_ok hbuilt
    subst hverdict
    exact absurd rfl hnext
  · obtain ⟨test, -, hbuilt⟩ := bind_eq_ok.1 hbuilt
    obtain ⟨yes, hyes, hbuilt⟩ := bind_eq_ok.1 hbuilt
    obtain ⟨no, hno, hbuilt⟩ := bind_eq_ok.1 hbuilt
    cases hbuilt
    have hpreference : ∀ choice, verdict = State.preference choice →
        choice = some verdict.next := fun choice hv => by
      cases choice with
      | none =>
        subst hv
        exact absurd rfl hnext
      | some target =>
        subst hv
        rfl
    rcases hverdict with ⟨-, rfl⟩ | ⟨-, hv | hv⟩
    · exact absurd rfl hnext
    · exact ⟨hk, .inl (hpreference yes hv ▸ hyes)⟩
    · exact ⟨hk, .inr (hpreference no hv ▸ hno)⟩
  · cases hbuilt
    subst hverdict
    exact absurd hname' hne

/-- A step that goes on explores the graph by one more edge. -/
theorem Assembled.explored_of_goes (h : Assembled .builtins hooks maxSteps spec e)
    (hexplored : ∃ visited, spec.Explored start m.context visited)
    (hstep : e.Stepped .free run m (.goesOn run') m') :
    ∃ visited, spec.Explored start m'.context visited := by
  obtain ⟨visited, hpath, hdispatched, hcurrent⟩ := hexplored
  obtain ⟨-, hpath', hlinks⟩ := moved_of_goes hstep
  refine ⟨visited ++ [m.context.currentState], ?_, ?_, ?_⟩
  · rw [hpath', hpath, List.append_assoc]
  · exact List.forall_mem_append.2 ⟨hdispatched, List.forall_mem_singleton.2 hcurrent⟩
  · exact hcurrent.trans (.step (h.mem_successors hlinks))

def EndsExplored (spec : WorkflowSpec) (start : Context) (outcome : Except Fault Unit)
    (ctx : Context) : Prop :=
  ∃ visited, ctx.path = start.path ++ visited ∧
    (∀ name ∈ visited, Graph.Leads (Graph.ofSpec spec).successors spec.initialState name) ∧
    (Graph.Leads (Graph.ofSpec spec).successors spec.initialState ctx.currentState ∨
      spec.CompletesIn ctx.currentState visited outcome)

theorem Assembled.endsExplored_of_ended (h : Assembled .builtins hooks maxSteps spec e)
    (hexplored : ∃ visited, spec.Explored start m.context visited) {outcome : Except Fault Unit}
    (hstep : e.Stepped .free run m (.ended run' outcome) m') :
    EndsExplored spec start outcome m'.context := by
  obtain ⟨visited, hpath, hdispatched, hcurrent⟩ := hexplored
  cases hstep with
  | cancelled hm _ _ | spent hm _ =>
    rw [← hm.context] at hpath hcurrent
    exact ⟨visited, hpath, hdispatched, .inl hcurrent⟩
  | lost _ _ => exact ⟨visited, hpath, hdispatched, .inl hcurrent⟩
  | @dispatched state _ _ m₁ m₂ _ _ _ hstate hwork hm hfollow =>
    obtain ⟨-, hpath₂, hcurrent₂⟩ := trace_of_dispatch hwork hm.noted
    have hpath' : m₂.context.path = start.path ++ (visited ++ [m.context.currentState]) := by
      rw [hpath₂, hpath, List.append_assoc]
    have hdispatched' : ∀ name ∈ visited ++ [m.context.currentState],
        Graph.Leads (Graph.ofSpec spec).successors spec.initialState name :=
      List.forall_mem_append.2 ⟨hdispatched, List.forall_mem_singleton.2 hcurrent⟩
    cases hfollow with
    | failed hm' _ | stuck hm' _ _ =>
      rw [← hm'.context] at hpath' hcurrent₂
      exact ⟨_, hpath', hdispatched', .inl (hcurrent₂ ▸ hcurrent)⟩
    | @completed verdict hlast =>
      let current := m.context.currentState
      let target := if verdict.next.isEmpty then current else verdict.next
      have hpath₃ : (e.complete current verdict m₂).context.path = m₂.context.path :=
        (e.trace_of_complete current verdict m₂).1
      refine ⟨visited ++ [current], hpath₃.trans hpath', hdispatched', ?_⟩
      change Graph.Leads _ _ target ∨ spec.CompletesIn target _ _
      by_cases hstay : target = current
      · exact .inl (hstay ▸ hcurrent)
      · have hnext : verdict.next ≠ "" := fun hempty =>
          hstay (if_pos (String.isEmpty_iff.2 hempty))
        have htarget : target = verdict.next := if_neg (mt String.isEmpty_iff.1 hnext)
        rw [htarget] at hstay ⊢
        have hanswers := answers_of_dispatch hwork
        obtain ⟨s, hs, hprefers, hname⟩ := h.prefers hstate hanswers hnext hstay
        have hends : spec.Ends verdict.next := by
          rcases Bool.or_eq_true_iff.1 hlast with hcomplete | hfinal
          · rcases h.answers hstate hanswers with ⟨-, rfl⟩ | ⟨-, hopen⟩ | ⟨-, rfl⟩
            · cases hcomplete
            · rw [hopen] at hcomplete
              cases hcomplete
            · exact absurd rfl hstay
          · exact h.mem_finals.1 (List.contains_iff_mem.1 hfinal)
        exact .inr ⟨rfl, hends, s, hs, hprefers, by rw [hname, List.getLast?_concat]⟩

/-- A state that linting reports as unreachable is never dispatched by a run from an empty current
state, and such a run ends in it only to complete, when the conditional state that it has dispatched
last prefers it and it is a final state. -/
theorem unreachable_not_dispatched {known : Option Registry} {finding : Lint.Finding} {name : String}
    {fuel : Nat} {cancelAt : Option Nat} {done : Finished}
    (he : (ofSpec .builtins hooks maxSteps spec).2 = .ok e) (hfound : finding ∈ lint known spec)
    (hcode : finding.code = .unreachable) (hname : finding.state = some name)
    (hm : m.context.currentState = "") (h : e.carryOut fuel cancelAt m = some done) :
    ∃ visited, done.moment.context.path = m.context.path ++ visited ∧ name ∉ visited ∧
      (done.moment.context.currentState = name →
        spec.CompletesIn name visited done.outcome) := by
  have ha := assembled_of_ofSpec he
  have hunreachable := Lint.not_leads_of_mem_lint hfound hcode hname
  have hfirst : e.firstState m.context = spec.initialState := by
    rw [firstState, hm, ← ha.initial]
    rfl
  have hstart : ∃ visited, spec.Explored m.context (e.start m).context visited := by
    rw [context_start, hfirst]
    exact ⟨[], (List.append_nil _).symm, List.forall_mem_nil _, .refl _⟩
  obtain ⟨visited, hpath, hdispatched, hended⟩ := carryOut_induction
    (P := fun _ m' => ∃ visited, spec.Explored m.context m'.context visited)
    (Q := fun _ outcome m' => EndsExplored spec m.context outcome m'.context)
    ha.explored_of_goes (fun hexplored hstep => ha.endsExplored_of_ended hexplored hstep) hstart h
  refine ⟨visited, hpath, fun hmem => hunreachable (hdispatched name hmem), ?_⟩
  rintro rfl
  exact hended.resolve_left hunreachable

def shortcut : WorkflowSpec :=
  let start : WorkflowSpec := { name := "shortcut", initialState := "a" }
  let choice : StateSpec :=
    { name := "a", kind := "conditional", params := [("condition", "always"), ("then", "b")] }
  (((start.withState choice).withState (Sample.finalState "b")).withState
    (Sample.finalState "c")).withTransition { origin := "a", target := "c" }

/-- The state that is reported as unreachable is the one in which the run ends. -/
theorem unreachable_completed_in :
    ∃ e done, (ofSpec .builtins [] none shortcut).2 = .ok e ∧
      Lint.unreachableFinding shortcut "b" ∈ lint (some .builtins) shortcut ∧
      e.carryOut 9 none { context := { identity := { session := "s" } } } = some done ∧
      done.moment.context.currentState = "b" := by
  obtain ⟨e, done, he, hdone, hcurrent⟩ := exists_finished
    (fun done => done.moment.context.currentState) .builtins [] none shortcut 9 none
    { context := { identity := { session := "s" } } } "b" rfl
  exact ⟨e, done, he, by decide +kernel, hdone, hcurrent⟩

theorem unreachable_not_dispatched_shortcut :
    ∃ e done visited, (ofSpec .builtins [] none shortcut).2 = .ok e ∧
      e.carryOut 9 none { context := { identity := { session := "s" } } } = some done ∧
      done.moment.context.path = visited ∧ "b" ∉ visited ∧
      shortcut.CompletesIn "b" visited done.outcome := by
  obtain ⟨e, done, he, hdone, hcurrent⟩ := exists_finished
    (fun done => done.moment.context.currentState) .builtins [] none shortcut 9 none
    { context := { identity := { session := "s" } } } "b" rfl
  have hfound : Lint.unreachableFinding shortcut "b" ∈ lint none shortcut := by decide +kernel
  obtain ⟨visited, hpath, hmissing, hcompletes⟩ :=
    unreachable_not_dispatched he hfound rfl rfl rfl hdone
  exact ⟨e, done, visited, he, hdone, hpath, hmissing, hcompletes hcurrent⟩

end Engine

end Workflow
