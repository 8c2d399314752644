import Workflow.Proofs.Action.Agree
import Workflow.Proofs.Work.Ends

/-!
# Parallel actions

Each branch of a parallel action does on its copy of the context what it does alone. The replies
come together at once: either some branch has failed, and all failures are reported together, or
what the strategy picks is laid over the data in the order of the branches. In between, and when the
action is dropped, the context stays as it was.
-/

namespace Workflow

namespace Table

variable {α : Type} {t later : Table α} {key : String}

theorem get?_eq_none (h : ∀ other ∈ t.names, key < other) : t.get? key = none := by
  rw [← Option.not_isSome_iff_eq_none]
  intro hsome
  exact absurd (h key ((has_iff_mem_names key t).1 hsome)) (String.lt_irrefl key)

theorem get?_merge (h : later.Ordered) :
    (t.merge later).get? key = (later.get? key).or (t.get? key) := by
  induction later generalizing t with
  | nil => rfl
  | cons entry later ih =>
    obtain ⟨hlt, hlater⟩ := List.pairwise_cons.1 h
    rw [merge, List.foldl_cons, ← merge, ih hlater, get?_put, get?_cons]
    by_cases heq : key = entry.1
    · subst heq
      rw [if_pos rfl, if_pos rfl, get?_eq_none hlt]
      rfl
    · rw [if_neg heq, if_neg heq]

theorem get?_filter (h : t.Ordered) (keep : String × α → Bool) :
    Table.get? key (t.filter keep) = (t.get? key).filter fun value => keep (key, value) := by
  induction t with
  | nil => rfl
  | cons entry t ih =>
    obtain ⟨hlt, ht⟩ := List.pairwise_cons.1 h
    obtain ⟨name, value⟩ := entry
    rw [List.filter_cons, get?_cons]
    by_cases heq : key = name
    · subst heq
      rw [if_pos rfl, Option.filter_some]
      split
      · rw [get?_cons, if_pos rfl]
      · rw [ih ht, get?_eq_none hlt]
        rfl
    · rw [if_neg heq, ← ih ht]
      split
      · rw [get?_cons, if_neg heq]
      · rfl

end Table

/-- The value that a key has once the data of some replies have been laid over the old ones: each
time the new one, unless it is the same as before. -/
def Data.overlaid (old : Data) (replies : List Reply) (key : String) : Option Json :=
  replies.foldl (fun value reply =>
    let new := reply.context.data.get? key
    if old.get? key != new then new else value) (old.get? key)

theorem Data.get?_changes {old new : Data} (hnew : new.Ordered) (hgrown : old.Grown new)
    (key : String) (value : Option Json) :
    ((old.changes new).get? key).or value =
      if old.get? key != new.get? key then new.get? key else value := by
  rw [changes, Table.get?_filter hnew]
  cases hkey : new.get? key with
  | none =>
    have hold : old.get? key = none := by
      rw [← Option.not_isSome_iff_eq_none]
      intro hsome
      have hhas := hgrown.keys key hsome
      rw [Table.has, hkey] at hhas
      cases hhas
    rw [hold]
    rfl
  | some v =>
    rw [Option.filter_some]
    dsimp only
    split <;> rfl

theorem Data.get?_foldl_merge {old : Data} {replies : List Reply}
    (h : ∀ reply ∈ replies, reply.context.data.Ordered ∧ old.Grown reply.context.data)
    (key : String) (data : Data) :
    ((replies.map fun reply => old.changes reply.context.data).foldl Table.merge data).get? key =
      replies.foldl (fun value reply =>
        let new := reply.context.data.get? key
        if old.get? key != new then new else value) (data.get? key) := by
  induction replies generalizing data with
  | nil => rfl
  | cons reply replies ih =>
    obtain ⟨⟨hordered, hgrown⟩, h⟩ := List.forall_mem_cons.1 h
    have hchanges : (old.changes reply.context.data).Ordered :=
      hordered.sublist (List.filter_sublist.map Prod.fst)
    rw [List.map_cons, List.foldl_cons, ih h, List.foldl_cons, Table.get?_merge hchanges,
      Data.get?_changes hordered hgrown]

namespace Action

def Picks (strategy : MergeStrategy) (total : Nat) (successes picked : List Reply) : Prop :=
  match strategy with
  | .first => picked = successes.head?.toList
  | .majority => total < 2 * successes.length ∧ picked = successes ∨
      2 * successes.length ≤ total ∧ picked = []
  | .all => picked = successes

def faultsOf (branches : List Action) (replies : List Reply) : List Fault :=
  (branches.zip replies).filterMap fun (branch, reply) =>
    match reply.outcome with
    | .error fault => some (.action branch.name fault)
    | .ok () => none

inductive Joined (name : String) (branches : List Action) (strategy : MergeStrategy)
    (continueOnError : Bool) (ctx : Context) (replies : List Reply) :
    Except Fault Unit → Context → Prop
  | failed (hfailed : ∃ reply ∈ replies, reply.outcome.isOk = false)
      (hstop : continueOnError = false) :
      Joined name branches strategy continueOnError ctx replies
        (.error (.aggregate name (faultsOf branches replies))) ctx
  | merged {picked : List Reply} {data : Data}
      (hgood : continueOnError = true ∨ ∀ reply ∈ replies, reply.outcome.isOk = true)
      (hpicked : Picks strategy branches.length (replies.filter (·.outcome.isOk)) picked)
      (hdata : ∀ key, data.get? key = ctx.data.overlaid picked key) :
      Joined name branches strategy continueOnError ctx replies (.ok ()) { ctx with data }

theorem picks_select (strategy : MergeStrategy) (total : Nat) (successes : List Reply) :
    Picks strategy total successes (strategy.select total successes) := by
  cases strategy with
  | first => cases successes <;> rfl
  | majority =>
    unfold Picks MergeStrategy.select
    dsimp only
    split
    next hmost => exact .inl ⟨hmost, rfl⟩
    next hfew => exact .inr ⟨Nat.le_of_not_lt hfew, rfl⟩
  | all => rfl

theorem select_map {α β : Type} (strategy : MergeStrategy) (total : Nat) (f : α → β)
    (results : List α) :
    strategy.select total (results.map f) = (strategy.select total results).map f := by
  cases strategy with
  | first => exact List.map_take.symm
  | majority =>
    simp only [MergeStrategy.select, List.length_map]
    split <;> rfl
  | all => rfl

theorem mem_of_mem_select {α : Type} {strategy : MergeStrategy} {total : Nat} {results : List α}
    {result : α} (h : result ∈ strategy.select total results) : result ∈ results := by
  cases strategy with
  | first => exact List.mem_of_mem_take h
  | majority =>
    simp only [MergeStrategy.select] at h
    split at h
    · exact h
    · cases h
  | all => exact h

theorem branchFaults_eq (branches : List Action) (replies : List Reply) :
    branchFaults (branches.map Action.name) replies = faultsOf branches replies := by
  rw [branchFaults, List.zip_map_left, List.filterMap_map]
  rfl

theorem branchChanges_eq (base : Data) (replies : List Reply) :
    branchChanges base replies =
      (replies.filter (·.outcome.isOk)).map fun reply => base.changes reply.context.data := by
  rw [branchChanges]
  induction replies with
  | nil => rfl
  | cons reply replies ih =>
    obtain ⟨context, outcome⟩ := reply
    cases outcome with
    | error fault => exact ih
    | ok _ => exact congrArg _ ih

theorem faultsOf_eq_nil {branches : List Action} {replies : List Reply}
    (hlength : branches.length = replies.length) :
    faultsOf branches replies = [] ↔ ∀ reply ∈ replies, reply.outcome.isOk = true := by
  induction replies generalizing branches with
  | nil =>
    rw [faultsOf, List.zip_nil_right]
    exact ⟨fun _ => List.forall_mem_nil _, fun _ => rfl⟩
  | cons reply replies ih =>
    obtain ⟨context, outcome⟩ := reply
    cases branches with
    | nil => cases hlength
    | cons branch branches =>
      rw [List.forall_mem_cons, ← ih (Nat.succ.inj hlength)]
      cases outcome with
      | error fault =>
        constructor
        · intro h
          cases h
        · rintro ⟨h, -⟩
          cases h
      | ok _ => exact ⟨fun h => ⟨rfl, h⟩, fun h => h.2⟩

theorem context_mergeChanges (name : String) (strategy : MergeStrategy) (total : Nat)
    (changes : List Data) (m : Moment) :
    (mergeChanges name strategy total changes m).context =
      { m.context with data := (strategy.select total changes).foldl Table.merge m.data } := by
  have hfold : ∀ (selected : List Data) (m : Moment),
      (selected.foldl (fun m changes => m.update (·.merge changes)) m).context =
        { m.context with data := selected.foldl Table.merge m.data } := fun selected => by
    induction selected with
    | nil => exact fun _ => rfl
    | cons changes selected ih => exact fun m => ih _
  unfold mergeChanges
  dsimp only
  rw [hfold]
  split <;> rfl

theorem context_reportBranchFaults (name : String) (faults : List Fault) (m : Moment) :
    (faults.foldl (reportBranchFault name) m).context = m.context := by
  induction faults generalizing m with
  | nil => rfl
  | cons fault faults ih => exact ih _

theorem joined_of_join {name : String} {branches : List Action} {strategy : MergeStrategy}
    {continueOnError : Bool} {base : Data} {m m' : Moment} {replies : List Reply} {d : Drift}
    {outcome : Except Fault Unit} (hbase : base = m.data)
    (hlength : branches.length = replies.length)
    (hreplies : ∀ reply ∈ replies, reply.context.data.Ordered ∧ base.Grown reply.context.data)
    (h : (join name (branches.map Action.name) strategy continueOnError base replies).Reaches d m
      (some outcome) m') :
    Joined name branches strategy continueOnError m.context replies outcome m'.context := by
  rw [join, branchFaults_eq, List.length_map] at h
  have hnil := faultsOf_eq_nil hlength
  split at h
  next hfail =>
    obtain ⟨ho, rfl⟩ := Work.reaches_done.1 h
    cases ho
    rw [Bool.and_eq_true, Bool.not_eq_true', Bool.not_eq_true', List.isEmpty_eq_false_iff] at hfail
    refine .failed ?_ hfail.2
    by_contra hnone
    refine hfail.1 (hnil.2 fun reply hmem => ?_)
    rw [← Bool.not_eq_false]
    exact fun hfailed => hnone ⟨reply, hmem, hfailed⟩
  next hgood =>
    obtain ⟨ho, rfl⟩ := Work.reaches_done.1 (Work.reaches_after.1 h)
    cases ho
    rw [context_mergeChanges, context_reportBranchFaults]
    refine .merged ?_ (picks_select strategy branches.length _) fun key => ?_
    · rw [Bool.and_eq_true, Bool.not_eq_true', Bool.not_eq_true', List.isEmpty_eq_false_iff,
        not_and_or, not_not, hnil, Bool.not_eq_false] at hgood
      exact hgood.symm
    · have hdata : (List.foldl (reportBranchFault name) m (faultsOf branches replies)).data = base :=
        (congrArg Context.data (context_reportBranchFaults name _ m)).trans hbase.symm
      have hpicked : ∀ reply ∈ strategy.select branches.length (replies.filter (·.outcome.isOk)),
          reply.context.data.Ordered ∧ base.Grown reply.context.data := fun reply hmem =>
        hreplies reply (List.mem_of_mem_filter (mem_of_mem_select hmem))
      rw [branchChanges_eq, select_map, hdata, Data.get?_foldl_merge hpicked, hbase]
      rfl

/-- Joining takes no time, so nothing can drop it. -/
theorem not_reaches_none_join {name : String} {names : List String} {strategy : MergeStrategy}
    {continueOnError : Bool} {base : Data} {replies : List Reply} {d : Drift} {m m' : Moment} :
    ¬(join name names strategy continueOnError base replies).Reaches d m none m' := by
  intro h
  rw [join] at h
  split at h
  · cases (Work.reaches_done.1 h).1
  · cases (Work.reaches_done.1 (Work.reaches_after.1 h)).1

/-- No time limit of an attempt in the action runs out in the very instant in which something under
it ends, whatever has been reported and counted before. -/
def Untied (action : Action) (site : Site) (m : Moment) : Prop :=
  ∀ m', m.Even m' → (action.run site).Untied [] m'

/-- The action leaves the reply when it runs alone on a copy of the context. If a time limit and the
end of what stands under it fall on the same instant, then either may come first, and another run of
the action may leave another reply. Otherwise, and also if no attempt has a time limit, this is the
outcome of carrying out the action, and the context then. -/
structure RepliesAlone (action : Action) (site : Site) (m : Moment) (reply : Reply) : Prop where
  reached : ∃ m₁ m₁', m.Even m₁ ∧ (action.run site).Reaches .calm m₁ (some reply.outcome) m₁' ∧
    m₁'.context = reply.context
  own : action.All Leaf.Builtin RetryPolicy.Patient ∨ action.Untied site m →
    ∃ fuel m', (action.run site).carryOut fuel none m = some (reply.outcome, m') ∧
      m'.context = reply.context

structure RepliesOf (branches : List Action) (site : Site) (m : Moment) (replies : List Reply) :
    Prop where
  length : replies.length = branches.length
  alone {i : Nat} {branch : Action} {reply : Reply} (hbranch : branches[i]? = some branch)
    (hreply : replies[i]? = some reply) : RepliesAlone branch (site.part i) m reply

/-- What becomes of the context of a parallel action that has ended with an outcome, or is still
under way or dropped. -/
def Isolated (name : String) (branches : List Action) (strategy : MergeStrategy)
    (continueOnError : Bool) (site : Site) (m : Moment) :
    Option (Except Fault Unit) → Context → Prop
  | none, ctx => ctx = m.context
  | some outcome, ctx => ∃ replies, RepliesOf branches site m replies ∧
      Joined name branches strategy continueOnError m.context replies outcome ctx

/-- A single attempt at a rest that is shorter than its limit is untied. -/
theorem untied_single {policy : RetryPolicy} {limit span : Span} (hsingle : policy.attempts = 1)
    (hlimit : policy.attemptTimeout = some limit) (hspan : span.pauseTicks < limit.ticks)
    (name : String) (veto : Veto) (delays : Bool) (rest : String) (site : Site) (m : Moment) :
    (retry name policy veto delays (leaf rest (.delay span))).Untied site m := by
  intro m' _
  have hpolicy : (retrier site name policy veto).policy = policy := rfl
  rw [run, Retrier.run, hpolicy, hsingle, Retrier.loop]
  simp only [Retrier.attempt, hpolicy, hlimit, run, Leaf.run]
  change 0 < limit.ticks ∧ _ ∧ (m'.now + span.pauseTicks ∉ [m'.now + limit.ticks] ∧ _) ∧ _
  refine ⟨Nat.zero_lt_of_lt hspan, List.not_mem_nil, ⟨?_, fun _ _ _ => trivial⟩, fun u _ _ => ?_⟩
  · rw [List.mem_singleton]
    omega
  · -- whatever has come of the attempt, nothing that takes time follows
    dsimp only [Work.bind]
    cases u.getD (.error ((retrier site name policy veto).overrun 1 limit)) with
    | ok => trivial
    | error fault =>
      dsimp only
      cases (retrier site name policy veto).stop? 0 fault <;> trivial

section Tidy

variable {w : Work (Except Fault Unit)} (hw : w.Only Moment.Tidies)

include hw

theorem reaches_of_carryOut {fuel : Nat} {m m' : Moment} {outcome : Except Fault Unit}
    (h : w.carryOut fuel none m = some (outcome, m')) : w.Reaches .calm m (some outcome) m' :=
  Work.reaches_of_carryOut (hw.imp fun _ _ => Moment.Tidies.allows) (fun _ hn => by cases hn) h

theorem exists_carryOut (m : Moment) :
    ∃ fuel outcome m', w.carryOut fuel none m = some (outcome, m') := by
  obtain ⟨outcome, m', fuel, hrun⟩ := Work.exists_carryOut (d := .calm)
    (hw.imp fun _ _ => Moment.Tidies.allows) (fun _ (hn : _ ∈ none) => by cases hn) m
  exact ⟨fuel, outcome, m', hrun fuel le_rfl⟩

end Tidy

theorem repliesAlone_of_leaves {m : Moment} {action : Action} {site : Site} {reply : Reply}
    (hbuiltin : action.All Leaf.Builtin fun _ => True)
    (h : (action.run site).Leaves .calm m reply) : RepliesAlone action site m reply := by
  obtain ⟨s, m₁', hs, hnow, hreach, hcontext⟩ := h
  have heven : m.Even (m.within s) := ⟨rfl, hnow, hs.2⟩
  refine ⟨⟨m.within s, m₁', heven, hreach, hcontext⟩, fun hown => ?_⟩
  obtain ⟨fuel, outcome, m', hrun⟩ := exists_carryOut (tidies_run hbuiltin site) m
  have hreach' := reaches_of_carryOut (tidies_run hbuiltin site) hrun
  have hsame : outcome = reply.outcome ∧ m'.context = m₁'.context := by
    rcases hown with hpatient | huntied
    · obtain ⟨houtcome, halike⟩ := agree_run site action hpatient _ _ _ _ _ _
        ⟨heven.context.symm, heven.cancelled.symm⟩ hreach' hreach
      exact ⟨houtcome, halike.context⟩
    · obtain ⟨houtcome, hend, -⟩ := (sure_run hbuiltin site).settled heven List.not_mem_nil
        (huntied m (.refl m)) (huntied _ heven) hreach' hreach
      exact ⟨houtcome, hend.context.symm⟩
  exact ⟨fuel, m', hsame.1 ▸ hrun, hsame.2.trans hcontext⟩

theorem runBranches_eq_mapIdx (site : Site) (i : Nat) (branches : List Action) :
    runBranches site i branches =
      branches.mapIdx fun k branch => branch.run (site.part (i + k)) := by
  induction branches generalizing i with
  | nil => rfl
  | cons branch branches ih =>
    rw [runBranches, ih, List.mapIdx_cons]
    simp only [Nat.add_right_comm, Nat.add_assoc, Nat.add_zero]

theorem builtin_of_getElem? {branches : List Action} {i : Nat} {branch : Action}
    (h : AllOf Leaf.Builtin (fun _ => True) branches) (hbranch : branches[i]? = some branch) :
    branch.All Leaf.Builtin fun _ => True := by
  induction branches generalizing i with
  | nil => cases hbranch
  | cons first branches ih =>
    cases i with
    | zero =>
      cases hbranch
      exact h.1
    | succ i => exact ih h.2 hbranch

theorem repliesOf_of_leaves {m : Moment} {site : Site} {branches : List Action}
    {replies : List Reply} (hbuiltin : AllOf Leaf.Builtin (fun _ => True) branches)
    (h : List.Forall₂ (Work.Leaves .calm m) (runBranches site 0 branches) replies) :
    RepliesOf branches site m replies where
  length := by
    rw [← h.length_eq, runBranches_eq_mapIdx, List.length_mapIdx]
  alone {i branch reply} hbranch hreply := by
    have hrun : (runBranches site 0 branches)[i]? = some (branch.run (site.part i)) := by
      rw [runBranches_eq_mapIdx, List.getElem?_mapIdx, hbranch, Nat.zero_add]
      rfl
    obtain ⟨hi, hrun⟩ := List.getElem?_eq_some_iff.1 hrun
    obtain ⟨hi', hreply⟩ := List.getElem?_eq_some_iff.1 hreply
    have hleaves := h.get hi hi'
    rw [List.get_eq_getElem, List.get_eq_getElem, hrun, hreply] at hleaves
    exact repliesAlone_of_leaves (builtin_of_getElem? hbuiltin hbranch) hleaves

theorem grown_of_leaves {m : Moment} {works : List (Work (Except Fault Unit))}
    {replies : List Reply} (hw : ∀ w ∈ works, w.Only Moment.Tidies)
    (h : List.Forall₂ (Work.Leaves .calm m) works replies) :
    ∀ reply ∈ replies, m.data.Grown reply.context.data := by
  induction h with
  | nil => exact List.forall_mem_nil _
  | cons hbranch _ ih =>
    obtain ⟨hbranchw, hw⟩ := List.forall_mem_cons.1 hw
    obtain ⟨s, m', -, -, hreach, hcontext⟩ := hbranch
    refine List.forall_mem_cons.2 ⟨?_, ih hw⟩
    rw [← hcontext]
    exact (hreach.kept hbranchw).data

section Parallel

variable {name : String} {branches : List Action} {strategy : MergeStrategy}
  {continueOnError : Bool} {site : Site} {m : Moment}
  (hbuiltin : AllOf Leaf.Builtin (fun _ => True) branches) (hdata : m.data.Ordered)

include hbuiltin hdata

theorem isolated_of_reaches {r : Option (Except Fault Unit)} {m' : Moment}
    (h : ((parallel name branches strategy continueOnError).run site).Reaches .calm m r m') :
    Isolated name branches strategy continueOnError site m r m'.context := by
  rw [run, Work.reaches_look, Work.reaches_bind] at h
  obtain ⟨replies, m₁, htogether, h⟩ | ⟨rfl, h⟩ := h
  · obtain ⟨⟨s, -, rfl⟩, hleaves⟩ := Work.reaches_together htogether
    have hgrown := grown_of_leaves (only_runBranches Moment.Tidies.licence
      (fun _ hP name site => Leaf.tidies_run hP name site) site 0 branches hbuiltin) hleaves
    have hreplies := repliesOf_of_leaves hbuiltin hleaves
    cases r with
    | none => exact absurd h not_reaches_none_join
    | some outcome =>
      have hjoined := joined_of_join (m := m.within s) rfl hreplies.length.symm
        (fun reply hmem => ⟨(hgrown reply hmem).ordered hdata, hgrown reply hmem⟩) h
      exact ⟨replies, hreplies, hjoined⟩
  · exact Work.context_of_together h

theorem isolated_of_limited {limit : Span} {overrun : Fault} {outcome : Except Fault Unit}
    {m' : Moment} (h : (Work.limited limit overrun
      ((parallel name branches strategy continueOnError).run site)).Reaches .calm m
        (some outcome) m') :
    Isolated name branches strategy continueOnError site m (some outcome) m'.context ∨
      outcome = .error overrun ∧ m'.context = m.context := by
  obtain ⟨u, m₁, hinner, -, ⟨hu, h⟩ | ⟨-, hn, -⟩ | ⟨rfl, -, h⟩⟩ := h
  · obtain ⟨ho, rfl⟩ := Work.reaches_done.1 h
    cases u with
    | none => cases hu
    | some value =>
      cases ho
      exact .inl (isolated_of_reaches hbuiltin hdata hinner)
  · cases hn
  · obtain ⟨ho, rfl⟩ := Work.reaches_done.1 h
    cases ho
    exact .inr ⟨rfl, isolated_of_reaches hbuiltin hdata hinner⟩

end Parallel

/-- Uses up its turn with attempts that fail at once, and then waits in a nested branch for as long
as the attempt that this stands under may last. -/
def tied : ActionSpec :=
  let again : Json :=
    .object [("params", .object
        [("action", .object [("type", "fail")]), ("backoff", .int 0), ("max_retries", .int 129)]),
      ("type", "retry")]
  let spend : Json :=
    .object [("params", .object [("fallback", .object [("type", "noop")]), ("primary", again)]),
      ("type", "try_with_fallback")]
  let rest : Json := .object [("params", .object [("duration", "5ms")]), ("type", "delay")]
  let nested : Json :=
    .object [("params", .object [("actions", .array [rest])]), ("type", "parallel")]
  let limited : Json :=
    .object [("params", .object
        [("action", nested), ("attempt_timeout", "5ms"), ("max_attempts", .int 1)]),
      ("type", "retry_with_backoff")]
  { kind := "sequence", params := [("actions", .array [spend, limited])] }

end Action

end Workflow
