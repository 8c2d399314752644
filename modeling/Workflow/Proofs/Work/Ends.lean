import Mathlib.Logic.Hydra
import Mathlib.Order.WellFounded
import Workflow.Proofs.Work.Crew
import Workflow.Proofs.Work.Rank

/-!
# Work that is carried out ends

In every round of a crew something is lost that does not come back: a worker gets nearer to the end
of its work, at the price of hands with less to do; or news is read, an alarm rings, or somebody's
call is answered in vain. And a crew in which nobody can go on has an alarm to wait for, as the last
hand that is still at work cannot wait for another one. So the run comes to an end, whatever the
work is: `Work.exists_carryOut`.
-/

namespace Workflow

open Relation

structure Load where
  ranks : Multiset Ordinal.{0}
  /-- Alarms, calls of hands that have ended, and all that is to be read. -/
  tasks : Nat
  yielded : Nat
  calls : Nat

namespace Load

/-- Less is left to do: of the first thing that has changed. -/
inductive Lighter (l' l : Load) : Prop
  | ranks (h : CutExpand (· < ·) l'.ranks l.ranks)
  | tasks (hranks : l'.ranks = l.ranks) (h : l'.tasks < l.tasks)
  | yielded (hranks : l'.ranks = l.ranks) (htasks : l'.tasks = l.tasks)
      (h : l'.yielded < l.yielded)
  | calls (hranks : l'.ranks = l.ranks) (htasks : l'.tasks = l.tasks)
      (hyielded : l'.yielded = l.yielded) (h : l'.calls < l.calls)

theorem wellFounded_lighter : WellFounded Lighter := by
  have hranks : WellFounded (CutExpand ((· < ·) : Ordinal.{0} → Ordinal.{0} → Prop)) :=
    wellFounded_lt.cutExpand
  have hlex := WellFounded.prod_lex hranks
    (WellFounded.prod_lex Nat.lt_wfRel.wf (WellFounded.prod_lex Nat.lt_wfRel.wf Nat.lt_wfRel.wf))
  refine Subrelation.wf ?_
    (InvImage.wf (fun l : Load => (l.ranks, l.tasks, l.yielded, l.calls)) hlex)
  rintro ⟨ranks', tasks', yielded', calls'⟩ ⟨ranks, tasks, yielded, calls⟩ h
  cases h with
  | ranks h => exact .left _ _ h
  | tasks hranks h =>
    cases hranks
    exact .right _ (.left _ _ h)
  | yielded hranks htasks h =>
    cases hranks
    cases htasks
    exact .right _ (.right _ (.left _ _ h))
  | calls hranks htasks hyielded h =>
    cases hranks
    cases htasks
    cases hyielded
    exact .right _ (.right _ (.right _ h))

theorem lighter_of_le {l' l : Load} (hranks : l'.ranks = l.ranks) (htasks : l'.tasks ≤ l.tasks)
    (hyielded : l'.yielded ≤ l.yielded) (hcalls : l'.calls < l.calls) : Lighter l' l := by
  rcases htasks.lt_or_eq with hlt | htasks
  · exact .tasks hranks hlt
  · rcases hyielded.lt_or_eq with hlt | hyielded
    · exact .yielded hranks htasks hlt
    · exact .calls hranks htasks hyielded hcalls

/-- A rank gives way to lower ones. -/
theorem cutExpand_set {l new : List Ordinal.{0}} {i : Nat} {rank rank' : Ordinal.{0}}
    (hi : l[i]? = some rank) (hlt : rank' < rank) (hnew : ∀ other ∈ new, other < rank) :
    CutExpand (· < ·) (((l ++ new).set i rank' : List _) : Multiset Ordinal.{0}) l := by
  obtain ⟨hlength, hget⟩ := List.getElem?_eq_some_iff.1 hi
  have hset : ((l.set i rank' : List _) : Multiset Ordinal.{0}) =
      {rank'} + (l.eraseIdx i : Multiset Ordinal.{0}) :=
    Multiset.coe_eq_coe.2 (List.set_perm_cons_eraseIdx hlength rank')
  have hl : (l : Multiset Ordinal.{0}) = {rank} + (l.eraseIdx i : Multiset Ordinal.{0}) := by
    have hperm := (List.getElem_cons_eraseIdx_perm hlength).symm
    rw [hget] at hperm
    exact Multiset.coe_eq_coe.2 hperm
  refine ⟨{rank'} + (new : Multiset Ordinal.{0}), rank, ?_, ?_⟩
  · intro other hmem
    rcases Multiset.mem_add.1 hmem with hmem | hmem
    · exact (Multiset.mem_singleton.1 hmem).trans_lt hlt
    · exact hnew other hmem
  · rw [List.set_append_left _ _ hlength, ← Multiset.coe_add, hset, hl]
    ac_rfl

end Load

open Load

namespace Floor

variable {f f' : Floor} {lead : Ordinal.{0}} {i : Nat}

noncomputable def ranks (f : Floor) : List Ordinal.{0} :=
  f.stations.map fun station => station.thread.rank

theorem ranks_congr (h : f'.stations = f.stations) : f'.ranks = f.ranks := by
  rw [ranks, h, ranks]

theorem ranks_put (f : Floor) (i : Nat) (station : Station (Except Fault Unit)) :
    (f.put i station).ranks = f.ranks.set i station.thread.rank := by
  rw [ranks, stations_put, ← List.set_eq_modify, List.map_set, ranks]

/-- The hands that have ended are those of rank zero. -/
theorem hasEnded_iff_rank : f.hasEnded i = true ↔ f.ranks[i]? = some 0 := by
  rw [hasEnded_iff, ranks, List.getElem?_map, Option.map_eq_some_iff]
  constructor
  · rintro ⟨context, outcome, hget⟩
    exact ⟨_, hget, rfl⟩
  · rintro ⟨⟨context, thread⟩, hget, hrank⟩
    obtain ⟨outcome, rfl⟩ := Thread.exists_ended_of_rank hrank
    exact ⟨context, outcome, hget⟩

theorem hasEnded_of_ranks (h : f'.ranks = f.ranks) : f'.hasEnded = f.hasEnded := by
  funext i
  rw [Bool.eq_iff_iff, hasEnded_iff_rank, hasEnded_iff_rank, h]

def tasks (f : Floor) : Nat :=
  f.alarms.length + 2 * f.queue.countP f.hasEnded + (f.news.length + f.yielded.length)

noncomputable def load (lead : Ordinal.{0}) (f : Floor) : Load where
  ranks := {lead} + (f.ranks : Multiset Ordinal.{0})
  tasks := f.tasks
  yielded := f.yielded.length
  calls := f.queue.length + f.leadCalled.toNat

theorem tasks_call (f : Floor) (worker : Worker) : (f.call worker).tasks = f.tasks := by
  cases worker with
  | lead => rfl
  | hand i =>
    simp only [call]
    split
    · rfl
    next h =>
      rw [Bool.or_eq_true, not_or, Bool.not_eq_true, Bool.not_eq_true] at h
      have hcount : (f.queue ++ [i]).countP f.hasEnded = f.queue.countP f.hasEnded := by
        rw [List.countP_append, List.countP_singleton, h.2]
        rfl
      have hended : { f with queue := f.queue ++ [i] }.hasEnded = f.hasEnded := rfl
      rw [tasks, hended, hcount, tasks]

theorem tasks_callAll (f : Floor) (workers : List Worker) :
    (f.callAll workers).tasks = f.tasks := by
  induction workers generalizing f with
  | nil => rfl
  | cons worker workers ih =>
    rw [callAll, List.foldl_cons, ← callAll, ih, tasks_call]

theorem tasks_tell (f : Floor) (worker : Worker) (i : Nat) :
    (f.tell worker i).tasks ≤ f.tasks + 1 := by
  unfold tell
  rw [tasks_call]
  split
  · exact Nat.le_succ _
  · have hended : { f with news := f.news ++ [(worker, i)] }.hasEnded = f.hasEnded := rfl
    rw [tasks, tasks, hended]
    dsimp only
    rw [List.length_append, List.length_singleton]
    omega

theorem tasks_announce (f : Floor) (i : Nat) : (f.announce i).tasks ≤ f.tasks + 1 := by
  unfold announce
  split
  · exact f.tasks_tell _ i
  · exact Nat.le_succ _

theorem tasks_cons {queue : List Nat} (hqueue : f.queue = i :: queue) :
    f.tasks = { f with queue }.tasks + 2 * (f.hasEnded i).toNat := by
  have hended : { f with queue }.hasEnded = f.hasEnded := rfl
  rw [tasks, tasks, hended, hqueue, List.countP_cons]
  cases f.hasEnded i with
  | true =>
    simp only [if_pos, Bool.toNat_true]
    omega
  | false =>
    simp only [Bool.false_eq_true, if_false, Bool.toNat_false]
    omega

theorem ranks_of_hires {rank : Ordinal.{0}} {t t' : Turn} (h : Turn.HiresBelow rank t t') :
    ∃ new : List Ordinal.{0},
      t'.floor.ranks = t.floor.ranks ++ new ∧ ∀ other ∈ new, other < rank := by
  obtain ⟨new, hnew, hbelow⟩ := h
  refine ⟨new.map fun station => station.thread.rank, ?_, ?_⟩
  · rw [ranks, hnew, List.map_append, ranks]
  intro other hmem
  obtain ⟨station, hstation, rfl⟩ := List.mem_map.1 hmem
  exact hbelow station hstation

theorem load_recall (lead : Ordinal.{0}) (f : Floor) (again : Bool) (worker : Worker) :
    ((if again then f.call worker else f).load lead).ranks = (f.load lead).ranks ∧
      ((if again then f.call worker else f).load lead).tasks = (f.load lead).tasks := by
  split
  · have hranks := ranks_congr (stations_congr (f.hands_call worker))
    exact ⟨by rw [load, load, hranks], f.tasks_call worker⟩
  · exact ⟨rfl, rfl⟩

/-- A hand that is as far from the end as before is put back without much ado. -/
theorem put_stalled {station : Station (Except Fault Unit)}
    (hranks : (f.put i station).ranks = f.ranks) :
    (f.put i station).tasks ≤ f.tasks + (f.hasEnded i).toNat ∧
      (f.hasEnded i = false →
        (f.put i station).queue = f.queue ∧ (f.put i station).leadCalled = f.leadCalled ∧
          (f.put i station).yielded = f.yielded) := by
  generalize hg : { f with
    hands := f.hands.modify i fun hand => { hand with toStation := station } } = g
  have hput : f.put i station = if g.hasEnded i then g.announce i else g := by
    rw [← hg]
    rfl
  have hhands : (f.put i station).hands = g.hands := by
    rw [hput]
    split
    · exact hands_announce g i
    · rfl
  have hended : g.hasEnded = f.hasEnded := by
    rw [ranks_congr (stations_congr hhands)] at hranks
    exact hasEnded_of_ranks hranks
  have htasks : g.tasks = f.tasks := by
    rw [tasks, hended, tasks, ← hg]
  rw [hput, hended]
  cases f.hasEnded i with
  | true => exact ⟨(tasks_announce g i).trans_eq (by rw [htasks]; rfl), fun h => by cases h⟩
  | false =>
    rw [if_neg Bool.false_ne_true]
    exact ⟨htasks.le, fun _ => by rw [← hg]; exact ⟨rfl, rfl, rfl⟩⟩

/-- What is left to do when a worker has looked in vain. -/
theorem tasks_of_reads {t t' : Turn} (h : Turn.Reads t t') :
    t'.floor.tasks < t.floor.tasks ∨
      t'.floor.tasks = t.floor.tasks ∧ t'.floor.yielded.length = t.floor.yielded.length ∧
        t'.again = t.again := by
  have hended : t'.floor.hasEnded = t.floor.hasEnded := funext h.hasEnded
  have hfewer := h.fewer
  rw [Turn.unread, Turn.unread] at hfewer
  rw [tasks, tasks, h.alarms, h.queue, hended]
  rcases hfewer with hlt | ⟨hnews, hyielded, hagain⟩
  · exact .inl (Nat.add_lt_add_left hlt _)
  · exact .inr ⟨by rw [hnews, hyielded], hyielded, hagain⟩

section TurnOf

variable {queue : List Nat} {rank : Ordinal.{0}} {start t : Turn}
  {th : Thread (Except Fault Unit)} (lead : Ordinal.{0}) (hqueue : f.queue = i :: queue)
  (hstart : start.floor = { f with queue }) (hrank : f.ranks[i]? = some rank)

include hstart hrank

theorem lighter_of_nears (h : Turn.Nears rank start th t) :
    Lighter ((if t.again then (t.floor.put i ⟨t.context, th⟩).call (.hand i)
      else t.floor.put i ⟨t.context, th⟩).load lead) (f.load lead) := by
  obtain ⟨new, hnew, hbelow⟩ := ranks_of_hires h.hires
  have hold : start.floor.ranks = f.ranks := by
    rw [hstart]
    rfl
  apply Lighter.ranks
  rw [(load_recall lead _ t.again (.hand i)).1, load, load, ranks_put, hnew, hold]
  exact (cutExpand_add_left _).2 (cutExpand_set hrank h.rank hbelow)

include hqueue

theorem lighter_of_stalls (hagain : start.again = false) (h : Turn.Stalls rank start th t) :
    Lighter ((if t.again then (t.floor.put i ⟨t.context, th⟩).call (.hand i)
      else t.floor.put i ⟨t.context, th⟩).load lead) (f.load lead) := by
  have hranks : t.floor.ranks = f.ranks := by
    rw [ranks_congr h.stations, hstart]
    rfl
  have hput : (t.floor.put i ⟨t.context, th⟩).ranks = t.floor.ranks := by
    rw [← h.rank, ← hranks] at hrank
    obtain ⟨hlt, hget⟩ := List.getElem?_eq_some_iff.1 hrank
    rw [ranks_put, ← hget, List.set_getElem_self]
  obtain ⟨hload, hrecall⟩ := load_recall lead (t.floor.put i ⟨t.context, th⟩) t.again (.hand i)
  obtain ⟨hle, hquiet⟩ := put_stalled hput
  have htasks := tasks_cons hqueue
  rw [← hstart] at htasks
  have hsame : ((t.floor.put i ⟨t.context, th⟩).load lead).ranks = (f.load lead).ranks := by
    rw [load, load, hput, hranks]
  rw [hasEnded_of_ranks hranks] at hle hquiet
  rcases tasks_of_reads h.toReads with hlt | ⟨htasks', hyielded, hagain'⟩
  · refine .tasks (hload.trans hsame) (hrecall.trans_lt ?_)
    simp only [load]
    omega
  cases hi : f.hasEnded i with
  | true =>
    rw [hi, Bool.toNat_true] at hle htasks
    refine .tasks (hload.trans hsame) (hrecall.trans_lt ?_)
    simp only [load]
    omega
  | false =>
    obtain ⟨hqueue', hlead', hyielded'⟩ := hquiet hi
    rw [hi, Bool.toNat_false] at hle htasks
    rw [hagain', hagain, if_neg Bool.false_ne_true]
    refine lighter_of_le hsame ?_ ?_ ?_
    · simp only [load]
      omega
    · simp only [load]
      rw [hyielded', hyielded, hstart]
    · simp only [load]
      rw [hqueue', hlead', h.queue, h.leadCalled, hstart, hqueue]
      exact Nat.add_lt_add_right (Nat.lt_succ_self _) _

end TurnOf

/-- A turn of a hand leaves less to do. -/
theorem lighter_turnOf (lead : Ordinal.{0}) {queue : List Nat} (hqueue : f.queue = i :: queue) :
    Lighter (({ f with queue }.turnOf i).load lead) (f.load lead) := by
  unfold turnOf
  split
  · refine lighter_of_le rfl ((Nat.le_add_right _ _).trans_eq (tasks_cons hqueue).symm) le_rfl ?_
    simp only [load]
    rw [hqueue]
    exact Nat.add_lt_add_right (Nat.lt_succ_self _) _
  next hand hhand =>
    have hrank : f.ranks[i]? = some hand.thread.rank := by
      have hhand' : f.hands[i]? = some hand := hhand
      rw [ranks, stations, List.map_map, List.getElem?_map, hhand']
      rfl
    let start : Turn := { floor := { f with queue }, worker := .hand i, context := hand.context }
    have hstart : start.floor = { f with queue } := rfl
    rcases hand.thread.resume_nears_or_stalls (t := start) rfl 0 with hnears | hstalls
    · exact lighter_of_nears lead hstart hrank hnears
    · exact lighter_of_stalls lead hqueue hstart hrank rfl hstalls

/-- Turns of some hands leave less to do, unless nobody has been called. -/
theorem turns_lighter (lead : Ordinal.{0}) (n : Nat) (f : Floor) :
    f.turns n = f ∧ (n = 0 ∨ f.queue = []) ∨
      TransGen Lighter ((f.turns n).load lead) (f.load lead) := by
  induction n generalizing f with
  | zero => exact .inl ⟨rfl, .inl rfl⟩
  | succ n ih =>
    simp only [turns]
    split
    next hqueue => exact .inl ⟨rfl, .inr hqueue⟩
    next i queue hqueue =>
      have hturn := lighter_turnOf lead hqueue
      rcases ih ({ f with queue }.turnOf i) with ⟨heq, -⟩ | hturns
      · rw [heq]
        exact .inr (.single hturn)
      · exact .inr (.tail hturns hturn)

theorem lighter_ring (lead : Ordinal.{0}) (h : f.ring? = some f') :
    Lighter (f'.load lead) (f.load lead) := by
  obtain ⟨instant, hmin, rfl⟩ := Option.map_eq_some_iff.1 h
  obtain ⟨alarm, halarm, rfl⟩ := List.mem_map.1 (List.min?_mem hmin)
  have hfewer : (f.alarms.filter (alarm.instant < ·.instant)).length < f.alarms.length := by
    rw [List.length_filter_lt_length_iff_exists]
    exact ⟨alarm, halarm, by simp⟩
  refine .tasks ?_ ?_
  · rw [load, load, ranks_congr (stations_congr (hands_callAll _ _))]
    rfl
  · simp only [load, tasks_callAll]
    have hended : { f with
        scene := { f.scene with now := max f.scene.now alarm.instant }
        alarms := f.alarms.filter (alarm.instant < ·.instant) }.hasEnded = f.hasEnded := rfl
    rw [tasks, tasks, hended]
    dsimp only
    omega

theorem yielded_callBacks (calls : List Call) (f : Floor) :
    (calls.foldl callBack f).yielded = f.yielded := by
  induction calls generalizing f with
  | nil => rfl
  | cons call calls ih =>
    rw [List.foldl_cons, ih, callBack]
    split
    · exact (callsMore_call _ _).yielded
    · exact (callsMore_call _ _).yielded

theorem tasks_callBacks (calls : List Call) (f : Floor) :
    (calls.foldl callBack f).tasks ≤ f.tasks + calls.length := by
  induction calls generalizing f with
  | nil => exact Nat.le_refl _
  | cons call calls ih =>
    have hcall : (f.callBack call).tasks ≤ f.tasks + 1 := by
      unfold callBack
      split
      · exact f.tasks_tell _ _
      · exact (f.tasks_call _).trans_le (Nat.le_succ _)
    have hcalls := ih (f.callBack call)
    rw [List.foldl_cons, List.length_cons]
    omega

theorem lighter_callYielded (lead : Ordinal.{0}) (h : f.yielded ≠ []) :
    Lighter (f.callYielded.load lead) (f.load lead) := by
  have hranks : (f.callYielded.load lead).ranks = (f.load lead).ranks := by
    rw [load, load, ranks_congr (stations_congr (hands_callYielded f))]
  have htasks := tasks_callBacks f.yielded { f with yielded := [] }
  have hyielded := yielded_callBacks f.yielded { f with yielded := [] }
  rw [← callYielded_eq] at htasks hyielded
  have hclear : { f with yielded := [] }.tasks + f.yielded.length = f.tasks := by
    have hended : { f with yielded := [] }.hasEnded = f.hasEnded := rfl
    rw [tasks, tasks, hended]
    dsimp only
    rw [List.length_nil]
    omega
  rw [hclear] at htasks
  rcases htasks.lt_or_eq with hlt | heq
  · exact .tasks hranks hlt
  · refine .yielded hranks heq ?_
    simp only [load]
    rw [hyielded]
    exact List.length_pos_of_ne_nil h

theorem close?_lighter (lead : Ordinal.{0}) (h : f.close? = some f') :
    f' = f ∧ ¬f.IsCalm ∧ f.yielded = [] ∨ Lighter (f'.load lead) (f.load lead) := by
  rcases close?_eq_some h with ⟨-, hring⟩ | ⟨hcalm, rfl⟩
  · exact .inr (lighter_ring lead hring)
  · by_cases hyielded : f.yielded = []
    · refine .inl ⟨?_, hcalm, hyielded⟩
      rw [callYielded_eq, hyielded, List.foldl_nil, ← hyielded]
    · exact .inr (lighter_callYielded lead hyielded)

end Floor

namespace Crew

variable {α : Type} {c : Crew α}

noncomputable def load (c : Crew α) : Load :=
  c.floor.load c.lead.thread.rank

theorem lighter_leadTurn (h : c.floor.leadCalled = true) : Lighter c.leadTurn.load c.load := by
  let start : Turn :=
    { floor := { c.floor with leadCalled := false }, worker := .lead, context := c.lead.context }
  have hranks : start.floor.ranks = c.floor.ranks := rfl
  have hturn := c.lead.thread.resume_nears_or_stalls (t := start) rfl 0
  rw [leadTurn, if_pos h, Station.work]
  rcases hp : c.lead.thread.resume 0 start with ⟨th, t⟩
  rw [hp] at hturn
  dsimp only at hturn ⊢
  obtain ⟨hload, hrecall⟩ := Floor.load_recall th.rank t.floor t.again .lead
  rcases hturn with hnears | hstalls
  · obtain ⟨new, hnew, hbelow⟩ := Floor.ranks_of_hires hnears.hires
    apply Lighter.ranks
    simp only [load]
    rw [hload, Floor.load, Floor.load, hnew, hranks]
    exact cutExpand_set (l := c.lead.thread.rank :: c.floor.ranks) (i := 0) rfl hnears.rank
      hbelow
  · have hsame : (t.floor.load th.rank).ranks = (c.floor.load c.lead.thread.rank).ranks := by
      rw [Floor.load, Floor.load, Floor.ranks_congr hstalls.stations, hranks, hstalls.rank]
    have htasks : start.floor.tasks = c.floor.tasks := rfl
    rcases Floor.tasks_of_reads hstalls.toReads with hlt | ⟨heq, hyielded, hagain⟩
    · refine .tasks (hload.trans hsame) (hrecall.trans_lt ?_)
      simp only [load, Floor.load]
      omega
    · have hnot : t.again = false := hagain
      rw [hnot, if_neg Bool.false_ne_true]
      refine lighter_of_le hsame (heq.trans htasks).le hyielded.le ?_
      simp only [load, Floor.load]
      rw [hstalls.queue, hstalls.leadCalled, h]
      exact Nat.lt_succ_self _

theorem leadTurn_of_not_called (h : c.floor.leadCalled = false) : c.leadTurn = c := by
  rw [leadTurn, h, if_neg Bool.false_ne_true]

/-- A round leaves less to do: somebody has a turn, or the round ends with a change. -/
theorem lighter_round {floor : Floor} (h : c.leadTurn.floor.round? = some floor) :
    TransGen Lighter (load { c.leadTurn with floor }) c.load := by
  rw [Floor.round?_eq] at h
  have hturns := Floor.turns_lighter c.leadTurn.lead.thread.rank 61 c.leadTurn.floor
  have hclose := Floor.close?_lighter c.leadTurn.lead.thread.rank h
  have hweak : ReflTransGen Lighter (load { c.leadTurn with floor })
      ((c.leadTurn.floor.turns 61).load c.leadTurn.lead.thread.rank) := by
    rcases hclose with ⟨rfl, -⟩ | hclose
    · exact .refl
    · exact .single hclose
  cases hcalled : c.floor.leadCalled with
  | true =>
    have hrest : ReflTransGen Lighter (load { c.leadTurn with floor }) c.leadTurn.load := by
      rcases hturns with ⟨heq, -⟩ | hturns
      · rw [heq] at hweak
        exact hweak
      · exact hweak.trans hturns.to_reflTransGen
    exact .tail' hrest (lighter_leadTurn hcalled)
  | false =>
    have hlead := leadTurn_of_not_called hcalled
    rw [hlead] at h hturns hclose hweak ⊢
    rcases hturns with ⟨heq, hidle⟩ | hturns
    · rw [heq] at hclose
      rcases hclose with ⟨-, hcalm, hyielded⟩ | hclose
      · have hqueue := hidle.resolve_left (by decide)
        exact absurd ⟨hqueue, hyielded, hcalled⟩ hcalm
      · exact .single hclose
    · exact .trans_right hweak hturns

end Crew

section Waits

variable {α : Type} {d : Drift} {e : Errands} {owner : Nat → Worker} {goal : Prospect α}
  {side : List (Prospect (Except Fault Unit))} {worker : Worker} {f : Floor} {c : Crew α}
  {s : Scene}

/-- A worker that waits has set an alarm, or it waits for a hand. -/
theorem Thread.IsIdle.alarm_or_awaits {th : Thread α} {depth least : Nat} (hopen : th.IsOpen)
    (hnoted : th.Noted owner worker f depth) (hacc : th.Accounts f least)
    (hidle : th.IsIdle worker f) : f.alarms ≠ [] ∨ ∃ i ≥ least, f.IsBusy i := by
  induction th generalizing depth with
  | ended value => cases hopen
  | ready work => cases hidle
  | resting instant interrupts next =>
    have halarm := hnoted.1.resolve_right (Nat.not_le_of_lt hidle.1)
    exact .inl (List.ne_nil_of_mem halarm)
  | joining join next =>
    obtain ⟨i, hi⟩ := List.exists_mem_of_ne_nil _ hnoted.1
    obtain ⟨hle, hlt, -⟩ := hacc i (hnoted.2.subset hi)
    exact .inr ⟨i, hle, hlt, (hidle i hi).1⟩
  | within limit inner next ih => exact ih hopen hnoted.2 hacc hidle.2.2

namespace Crew

/-- When nobody can go on there is an alarm, since the last hand that is at work has set one. -/
theorem Pursues.alarms_ne_nil (h : c.Pursues d goal side e owner) (hcalm : c.floor.IsCalm) :
    c.floor.alarms ≠ [] := by
  intro hnil
  have hnone : ∀ i ≥ 0, ¬c.floor.IsBusy i := by
    apply Floor.not_all_wait
    intro i _ ⟨hlt, hended⟩
    have hget := List.getElem?_eq_getElem hlt
    have hat := h.sound.isOpen hget hended
    exact ((h.hand_idle hcalm hget hat).alarm_or_awaits hat.isOpen (h.hand_noted hget)
      hat.accounts).resolve_left fun hsome => hsome hnil
  obtain ⟨i, hi, hbusy⟩ := ((h.lead_idle hcalm).alarm_or_awaits h.lead.isOpen h.minded.noted
    h.lead.accounts).resolve_left fun hsome => hsome hnil
  exact hnone i hi hbusy

theorem Pursues.exists_round (h : c.Pursues d goal side e owner) :
    ∃ floor, c.floor.round? = some floor := by
  obtain ⟨e', owner', hturns, -⟩ := h.turns 61
  rw [Floor.round?_eq, Floor.close?]
  split
  next hcalm =>
    rw [Bool.and_eq_true, Bool.and_eq_true, List.isEmpty_iff, List.isEmpty_iff,
      Bool.not_eq_true'] at hcalm
    have halarms := hturns.alarms_ne_nil ⟨hcalm.1.1, hcalm.1.2, hcalm.2⟩
    have hsome : ((c.floor.turns 61).alarms.map Alarm.instant).min? ≠ none := by
      rw [ne_eq, List.min?_eq_none_iff, List.map_eq_nil_iff]
      exact halarms
    obtain ⟨instant, hmin⟩ := Option.ne_none_iff_exists'.1 hsome
    rw [Floor.ring?, hmin]
    exact ⟨_, rfl⟩
  · exact ⟨_, rfl⟩

/-- A crew that pursues its work comes to the end of it. -/
theorem exists_run (hc : Goes d goal side s c.leadTurn) :
    ∃ fuel value m', c.run fuel = some (value, m') := by
  induction hl : c.load using wellFounded_lighter.transGen.induction generalizing c s with
  | _ l ih =>
    rcases hc.goes with ⟨e, owner, hpursues⟩ | ⟨value, hended, -⟩
    · obtain ⟨floor, hround⟩ := hpursues.exists_round
      obtain ⟨e', owner', hnext⟩ := hpursues.round? hround
      obtain ⟨fuel, value, m', hrun⟩ := ih _ (hl ▸ lighter_round hround) hnext.leadTurn rfl
      refine ⟨fuel + 1, value, m', ?_⟩
      rw [run_succ_of_open hpursues.lead.isOpen.ne_ended, hround]
      exact hrun
    · exact ⟨1, value, c.leadTurn.moment, run_succ_of_ended hended⟩

end Crew

end Waits

/-- Work that is carried out ends, with one value at one moment. -/
theorem Work.exists_carryOut {α : Type} {d : Drift} {work : Work α} {cancelAt : Option Nat}
    (hw : work.Only d.Allows) (hcancel : ∀ n ∈ cancelAt, ∀ m : Moment, d.Allows m m.cancel)
    (m : Moment) :
    ∃ value m', ∃ fuel, ∀ more ≥ fuel, work.carryOut more cancelAt m = some (value, m') := by
  have hbeside : ∀ w ∈ cancelAt.toList.map fun n => cancelAfter (.ofMillis n), w.Only d.Allows := by
    intro w hmem
    obtain ⟨n, hn, rfl⟩ := List.mem_map.1 hmem
    exact fun _ m => ⟨hcancel n (Option.mem_toList.1 hn) m, trivial⟩
  obtain ⟨fuel, value, m', hrun⟩ := Crew.exists_run (Crew.goes_of (m := m) hw hbeside)
  exact ⟨value, m', fuel, fun more hle => carryOut_of_le hrun hle⟩

end Workflow
