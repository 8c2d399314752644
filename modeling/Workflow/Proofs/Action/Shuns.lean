import Workflow.Proofs.Action.Parallel
import Workflow.Proofs.Work.Shadow

/-!
# Actions that shun some keys

Two contexts may differ in what they have under some keys. What neither reads nor writes these keys
does the same on both, and leaves them as they are: that is shown here for the leaves of an action,
and for what a parallel action makes of the replies of its branches.
-/

namespace Workflow

open Work

variable {keys : List String} {c₀ c₀' c c' d d' : Context}

structure Data.AgreeOff (keys : List String) (data data' : Data) : Prop where
  ordered : data.Ordered
  ordered' : data'.Ordered
  off : ∀ key ∉ keys, data'.get? key = data.get? key

structure Context.AgreeOff (keys : List String) (c c' : Context) : Prop where
  rest : c' = { c with data := c'.data }
  data : c.data.AgreeOff keys c'.data

/-- The contexts differ only in what they have under the keys, and that is what two earlier contexts
have there. -/
structure Context.Held (keys : List String) (c₀ c₀' c c' : Context) : Prop
    extends c.AgreeOff keys c' where
  held : ∀ key ∈ keys, c.data.get? key = c₀.data.get? key
  held' : ∀ key ∈ keys, c'.data.get? key = c₀'.data.get? key

namespace Data

theorem AgreeOff.put {data data' : Data} (h : data.AgreeOff keys data') (key : String)
    (value : Json) : AgreeOff keys (data.put key value) (data'.put key value) where
  ordered := h.ordered.put key value
  ordered' := h.ordered'.put key value
  off other hother := by rw [Table.get?_put, Table.get?_put, h.off other hother]

end Data

namespace Context

theorem AgreeOff.of_data (h : c.AgreeOff keys c') {data data' : Data}
    (hdata : data.AgreeOff keys data') :
    AgreeOff keys { c with data } { c' with data := data' } where
  rest := by rw [h.rest]
  data := hdata

theorem AgreeOff.set (h : c.AgreeOff keys c') (key : String) (value : Json) :
    (c.set key value).AgreeOff keys (c'.set key value) :=
  h.of_data (h.data.put key value)

/-- Whatever is put under the keys, the contexts agree elsewhere. -/
theorem AgreeOff.merge_right (h : c.AgreeOff keys c') {extra : Data}
    (hextra : ∀ key ∈ extra.names, key ∈ keys) : c.AgreeOff keys (c'.merge extra) := by
  induction extra generalizing c' with
  | nil => exact h
  | cons entry extra ih =>
    obtain ⟨hkey, hextra⟩ := List.forall_mem_cons.1 hextra
    have hput : c.data.AgreeOff keys (c'.data.put entry.1 entry.2) :=
      { ordered := h.data.ordered
        ordered' := h.data.ordered'.put entry.1 entry.2
        off := fun other hother => by
          have hne : other ≠ entry.1 := fun heq => hother (heq ▸ hkey)
          rw [Table.get?_put_of_ne entry.2 c'.data hne, h.data.off other hother] }
    exact ih (h.of_data hput) hextra

theorem AgreeOff.held (h : c.AgreeOff keys c') : Held keys c c' c c' :=
  ⟨h, fun _ _ => rfl, fun _ _ => rfl⟩

theorem Held.trans (h : Held keys c₀ c₀' c c') (h' : Held keys c c' d d') :
    Held keys c₀ c₀' d d' where
  toAgreeOff := h'.toAgreeOff
  held key hkey := (h'.held key hkey).trans (h.held key hkey)
  held' key hkey := (h'.held' key hkey).trans (h.held' key hkey)

theorem Held.set (h : Held keys c₀ c₀' c c') {key : String} (hkey : key ∉ keys) (value : Json) :
    Held keys c₀ c₀' (c.set key value) (c'.set key value) := by
  have hne : ∀ other ∈ keys, other ≠ key := fun other hother heq => hkey (heq ▸ hother)
  refine ⟨h.toAgreeOff.set key value, fun other hother => ?_, fun other hother => ?_⟩
  · exact (Table.get?_put_of_ne value c.data (hne other hother)).trans (h.held other hother)
  · exact (Table.get?_put_of_ne value c'.data (hne other hother)).trans (h.held' other hother)

theorem Held.merge (h : Held keys c₀ c₀' c c') {extra : Data}
    (hextra : ∀ key ∈ extra.names, key ∉ keys) :
    Held keys c₀ c₀' (c.merge extra) (c'.merge extra) := by
  induction extra generalizing c c' with
  | nil => exact h
  | cons entry extra ih =>
    obtain ⟨hkey, hextra⟩ := List.forall_mem_cons.1 hextra
    exact ih (h.set hkey entry.2) hextra

end Context

def Predicate.Shuns (keys : List String) (test : Predicate) : Prop :=
  ∀ data data' : Data, data.AgreeOff keys data' → test.evaluate data' = test.evaluate data

def Leaf.Shuns (keys : List String) (name : String) : Leaf → Prop
  | noop | fail _ _ | delay _ | cancel _ | raise _ => True
  | set key _ => key ∉ keys
  | copy origin target => origin ∉ keys ∧ target ∉ keys
  | log message =>
    ∀ data data' : Data, data.AgreeOff keys data' →
      Template.render data' message = Template.render data message
  | apply f =>
    ∀ data data' : Data, data.AgreeOff keys data' →
      (f data').2 = (f data).2 ∧ (f data).1.AgreeOff keys (f data').1 ∧
        ∀ key ∈ keys, (f data).1.get? key = data.get? key ∧ (f data').1.get? key = data'.get? key
  | flaky _ _ => name ++ "_" ++ "executed" ∉ keys
  | mark extra =>
    name ++ "_" ++ "executed" ∉ keys ∧ ∀ key ∈ extra.names, key ∉ keys

/-- A leaf that shuns the keys does the same on contexts that differ in nothing else. -/
theorem Leaf.shadow_run {name : String} {work : Leaf} (hwork : work.Shuns keys name) (place : Place)
    (h : Context.Held keys c₀ c₀' c c') :
    Shadow (Context.Held keys c₀ c₀') (fun _ => Context.Held keys c₀ c₀') c (work.run name place)
      c' (work.run name place) := by
  have hstate : c'.currentState = c.currentState := by rw [h.rest]
  cases work with
  | noop | fail message permanent | raise fault => exact .done h
  | set key value =>
    exact .change (h.set hwork value) fun _ => ⟨rfl, rfl, rfl⟩
  | copy origin target =>
    apply Shadow.look
    intro s
    simp only [Moment.data, h.data.off origin hwork.1]
    split
    next value _ => exact .change (h.set hwork.2 value) fun _ => ⟨rfl, rfl, rfl⟩
    · exact .done h
  | delay span => exact .wait span {} h fun _ => h
  | log message =>
    have hrender := hwork c.data c'.data h.data
    refine .change h fun s => ⟨rfl, rfl, ?_⟩
    simp only [Moment.report, Moment.data, hrender, hstate]
  | apply f =>
    obtain ⟨houtcome, hdata, hheld⟩ := hwork c.data c'.data h.data
    apply Shadow.look
    intro s
    simp only [Moment.data, houtcome]
    have happlied : Context.Held keys c₀ c₀' { c with data := (f c.data).1 }
        { c' with data := (f c'.data).1 } :=
      { toAgreeOff := h.toAgreeOff.of_data hdata
        held := fun key hkey => (hheld key hkey).1.trans (h.held key hkey)
        held' := fun key hkey => (hheld key hkey).2.trans (h.held' key hkey) }
    exact .after (.done happlied) fun _ => ⟨rfl, rfl, rfl⟩
  | flaky failures permanent =>
    have hmoves : Moment.Moves (·.start place) (·.start place) c c' c c' :=
      fun _ => ⟨rfl, rfl, rfl⟩
    refine .act hmoves fun s => ?_
    -- whether it fails depends on how often the place has been started, which the scene knows
    have hcount : ∀ context : Context, ({ s with context } : Moment).startsAt place =
        (s.starts.lookup place).getD 0 := fun _ => rfl
    simp only [hcount]
    split
    · exact .done h
    · exact .change (h.set hwork true) fun _ => ⟨rfl, rfl, rfl⟩
  | mark extra =>
    exact .change ((h.set hwork.1 true).merge hwork.2) fun _ => ⟨rfl, rfl, rfl⟩
  | cancel fault =>
    cases fault with
    | none => exact .change h fun _ => ⟨rfl, rfl, rfl⟩
    | some fault => exact .after (.done h) fun _ => ⟨rfl, rfl, rfl⟩

structure Data.ChangeAlike (keys : List String) (data data' changes changes' : Data) : Prop
    extends changes.AgreeOff keys changes' where
  idle : ∀ key ∈ keys, ∀ value, changes.get? key = some value → data.get? key = some value
  idle' : ∀ key ∈ keys, ∀ value, changes'.get? key = some value → data'.get? key = some value

theorem Data.get?_of_changes {old new : Data} (h : new.Ordered) {key : String} {value : Json}
    (hvalue : (old.changes new).get? key = some value) : new.get? key = some value := by
  rw [changes, Table.get?_filter h, Option.filter_eq_some_iff] at hvalue
  exact hvalue.1

namespace Context

/-- What branches have changed on contexts that differ only in what they have under the keys, if
they have left that alone. -/
theorem Held.changeAlike (h : Held keys c₀ c₀' c c') (hd : Held keys c₀ c₀' d d') :
    Data.ChangeAlike keys c₀.data c₀'.data (c.data.changes d.data) (c'.data.changes d'.data) where
  ordered := hd.data.ordered.sublist (List.filter_sublist.map Prod.fst)
  ordered' := hd.data.ordered'.sublist (List.filter_sublist.map Prod.fst)
  off key hkey := by
    rw [Data.changes, Data.changes, Table.get?_filter hd.data.ordered',
      Table.get?_filter hd.data.ordered]
    simp only [hd.data.off key hkey, h.data.off key hkey]
  idle key hkey value hvalue := by
    rw [← hd.held key hkey]
    exact Data.get?_of_changes hd.data.ordered hvalue
  idle' key hkey value hvalue := by
    rw [← hd.held' key hkey]
    exact Data.get?_of_changes hd.data.ordered' hvalue

theorem Held.merge_changes (h : Held keys c₀ c₀' c c') {changes changes' : Data}
    (hchanges : Data.ChangeAlike keys c₀.data c₀'.data changes changes') :
    Held keys c₀ c₀' (c.merge changes) (c'.merge changes') := by
  have hget : ∀ key, (c.merge changes).data.get? key = (changes.get? key).or (c.data.get? key) :=
    fun _ => Table.get?_merge hchanges.ordered
  have hget' : ∀ key, (c'.merge changes').data.get? key =
      (changes'.get? key).or (c'.data.get? key) := fun _ => Table.get?_merge hchanges.ordered'
  have hoff : (c.merge changes).data.AgreeOff keys (c'.merge changes').data :=
    { ordered := h.data.ordered.merge changes
      ordered' := h.data.ordered'.merge changes'
      off := fun key hkey => by
        rw [hget, hget', hchanges.off key hkey, h.data.off key hkey] }
  refine ⟨h.toAgreeOff.of_data hoff, fun key hkey => ?_, fun key hkey => ?_⟩
  · rw [hget, h.held key hkey]
    cases hvalue : changes.get? key with
    | none => rfl
    | some value => exact (hchanges.idle key hkey value hvalue).symm
  · rw [hget', h.held' key hkey]
    cases hvalue : changes'.get? key with
    | none => rfl
    | some value => exact (hchanges.idle' key hkey value hvalue).symm

theorem Held.merges (h : Held keys c₀ c₀' c c') {selected selected' : List Data}
    (hselected : List.Forall₂ (Data.ChangeAlike keys c₀.data c₀'.data) selected selected') :
    Held keys c₀ c₀' { c with data := selected.foldl Table.merge c.data }
      { c' with data := selected'.foldl Table.merge c'.data } := by
  induction hselected generalizing c c' with
  | nil => exact h
  | cons hchanges _ ih => exact ih (h.merge_changes hchanges)

end Context

namespace Action

abbrev HeldReplies (keys : List String) (c₀ c₀' : Context) : List Reply → List Reply → Prop :=
  List.Forall₂ (Reply.Tied fun _ => Context.Held keys c₀ c₀')

theorem branchFaults_of_held {replies replies' : List Reply}
    (h : HeldReplies keys c₀ c₀' replies replies') (names : List String) :
    branchFaults names replies' = branchFaults names replies := by
  unfold branchFaults
  induction h generalizing names with
  | nil => rfl
  | cons hreply _ ih =>
    cases names with
    | nil => rfl
    | cons name names =>
      rw [List.zip_cons_cons, List.zip_cons_cons, List.filterMap_cons, List.filterMap_cons, ih]
      dsimp only
      rw [hreply.outcome]

theorem branchChanges_of_held (h : Context.Held keys c₀ c₀' c c') {replies replies' : List Reply}
    (hreplies : HeldReplies keys c₀ c₀' replies replies') :
    List.Forall₂ (Data.ChangeAlike keys c₀.data c₀'.data) (branchChanges c.data replies)
      (branchChanges c'.data replies') := by
  unfold branchChanges
  induction hreplies with
  | nil => exact .nil
  | @cons reply reply' _ _ hreply _ ih =>
    have houtcome := hreply.outcome
    rw [List.filterMap_cons, List.filterMap_cons, houtcome]
    cases reply.outcome with
    | error fault => exact ih
    | ok _ => exact .cons (h.changeAlike hreply.contexts) ih

theorem forall₂_select {α : Type} {R : α → α → Prop} {results results' : List α}
    (h : List.Forall₂ R results results') (strategy : MergeStrategy) (total : Nat) :
    List.Forall₂ R (strategy.select total results) (strategy.select total results') := by
  cases strategy with
  | first => exact List.forall₂_take 1 h
  | majority =>
    simp only [MergeStrategy.select, h.length_eq]
    split
    · exact h
    · exact .nil
  | all => exact h

theorem toScene_report_congr {m m' : Moment} (h : m'.toScene = m.toScene) (level : Level)
    (message : String) (fields : List (String × String)) :
    (m'.report level message fields).toScene = (m.report level message fields).toScene :=
  congrArg (fun s : Scene => { s with journal := ⟨level, message, fields⟩ :: s.journal }) h

theorem toScene_reportBranchFaults (name : String) (faults : List Fault) {m m' : Moment}
    (h : m'.toScene = m.toScene) :
    (faults.foldl (reportBranchFault name) m').toScene =
      (faults.foldl (reportBranchFault name) m).toScene := by
  induction faults generalizing m m' with
  | nil => exact h
  | cons fault faults ih => exact ih (toScene_report_congr h _ _ _)

theorem toScene_merges (selected : List Data) (m : Moment) :
    (selected.foldl (fun m changes => m.update (·.merge changes)) m).toScene = m.toScene := by
  induction selected generalizing m with
  | nil => rfl
  | cons changes selected ih => exact ih _

theorem toScene_mergeChanges (name : String) (strategy : MergeStrategy) (total : Nat)
    {changes changes' : List Data} (hlength : changes'.length = changes.length)
    (hselected : (strategy.select total changes').length = (strategy.select total changes).length)
    {m m' : Moment} (h : m'.toScene = m.toScene) :
    (mergeChanges name strategy total changes' m').toScene =
      (mergeChanges name strategy total changes m).toScene := by
  unfold mergeChanges
  dsimp only
  rw [toScene_merges, toScene_merges, hlength, hselected]
  apply toScene_report_congr
  split
  · exact toScene_report_congr h _ _ _
  · exact h

/-- A parallel action makes the same of the replies of branches that shun the keys. -/
theorem shadow_join (name : String) (names : List String) (strategy : MergeStrategy)
    (continueOnError : Bool) (h : Context.Held keys c₀ c₀' c c') {replies replies' : List Reply}
    (hreplies : HeldReplies keys c₀ c₀' replies replies') :
    Shadow (Context.Held keys c₀ c₀') (fun _ => Context.Held keys c₀ c₀')
      c (join name names strategy continueOnError c.data replies)
      c' (join name names strategy continueOnError c'.data replies') := by
  have hchanges := branchChanges_of_held h hreplies
  have hselected := forall₂_select hchanges strategy names.length
  simp only [join, branchFaults_of_held hreplies]
  split
  · exact .done h
  · refine .change (h.merges hselected) fun s => ⟨?_, ?_, ?_⟩
    · rw [context_mergeChanges, Moment.data, context_reportBranchFaults]
    · rw [context_mergeChanges, Moment.data, context_reportBranchFaults]
    · exact toScene_mergeChanges name strategy names.length hchanges.length_eq.symm
        hselected.length_eq.symm (toScene_reportBranchFaults name _ rfl)

end Action

end Workflow
