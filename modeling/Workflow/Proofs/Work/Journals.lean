import Workflow.Proofs.Work.Collect

/-!
# Floors with another journal

Nothing on the floor depends on what has been reported. All operations on a floor, and all parts of
a turn but changes of the moment, do the same when the journal is another one.
-/

namespace Workflow

namespace Floor

def withJournal (f : Floor) (journal : Journal) : Floor :=
  { f with scene := { f.scene with journal } }

variable (f : Floor) (journal : Journal)

theorem call_withJournal (worker : Worker) :
    (f.withJournal journal).call worker = (f.call worker).withJournal journal := by
  cases worker with
  | lead => rfl
  | hand i =>
    have hended : (f.withJournal journal).hasEnded i = f.hasEnded i := rfl
    have hqueue : (f.withJournal journal).queue = f.queue := rfl
    simp only [call, hended, hqueue]
    split <;> rfl

theorem callAll_withJournal (workers : List Worker) :
    (f.withJournal journal).callAll workers = (f.callAll workers).withJournal journal := by
  induction workers generalizing f with
  | nil => rfl
  | cons worker workers ih =>
    have hcall := f.call_withJournal journal worker
    simp only [callAll, List.foldl_cons] at ih ⊢
    rw [hcall, ih]

theorem tell_withJournal (worker : Worker) (i : Nat) :
    (f.withJournal journal).tell worker i = (f.tell worker i).withJournal journal := by
  let g : Floor :=
    { f with news := if f.news.contains (worker, i) then f.news else f.news ++ [(worker, i)] }
  exact g.call_withJournal journal worker

theorem announce_withJournal (i : Nat) :
    (f.withJournal journal).announce i = (f.announce i).withJournal journal := by
  have hhands : (f.withJournal journal).hands = f.hands := rfl
  simp only [announce, hhands]
  cases f.hands[i]?.bind Hand.client with
  | none => rfl
  | some client => exact f.tell_withJournal journal client i

theorem giveWay_withJournal (call : Call) :
    (f.withJournal journal).giveWay call = (f.giveWay call).withJournal journal := by
  have hyielded : (f.withJournal journal).yielded = f.yielded := rfl
  simp only [giveWay, hyielded]
  split <;> rfl

theorem callBack_withJournal (call : Call) :
    (f.withJournal journal).callBack call = (f.callBack call).withJournal journal := by
  obtain ⟨worker, branch⟩ := call
  cases branch with
  | none => exact f.call_withJournal journal worker
  | some i => exact f.tell_withJournal journal worker i

theorem callBacks_withJournal (calls : List Call) :
    calls.foldl callBack (f.withJournal journal) =
      (calls.foldl callBack f).withJournal journal := by
  induction calls generalizing f with
  | nil => rfl
  | cons call calls ih => rw [List.foldl_cons, List.foldl_cons, callBack_withJournal, ih]

theorem callYielded_withJournal :
    (f.withJournal journal).callYielded = f.callYielded.withJournal journal :=
  callBacks_withJournal { f with yielded := [] } journal f.yielded

theorem ring?_withJournal :
    (f.withJournal journal).ring? = f.ring?.map (·.withJournal journal) := by
  have halarms : (f.withJournal journal).alarms = f.alarms := rfl
  simp only [ring?, halarms, Option.map_map]
  congr 1
  funext instant
  let g : Floor :=
    { f with
      scene := { f.scene with now := max f.scene.now instant }
      alarms := f.alarms.filter (instant < ·.instant) }
  exact g.callAll_withJournal journal _

theorem hire_withJournal (hand : Hand) :
    (f.withJournal journal).hire hand = (f.hire hand).withJournal journal := by
  let g : Floor := { f with hands := f.hands ++ [hand] }
  exact g.call_withJournal journal _

theorem put_withJournal (i : Nat) (station : Station (Except Fault Unit)) :
    (f.withJournal journal).put i station = (f.put i station).withJournal journal := by
  let g : Floor :=
    { f with hands := f.hands.modify i fun hand => { hand with toStation := station } }
  have hput : (f.withJournal journal).put i station =
      if g.hasEnded i then (g.withJournal journal).announce i else g.withJournal journal := rfl
  have hput' : f.put i station = if g.hasEnded i then g.announce i else g := rfl
  rw [hput, hput', announce_withJournal]
  split <;> rfl

end Floor

namespace Turn

def withJournal (t : Turn) (journal : Journal) : Turn :=
  t.onFloor (·.withJournal journal)

variable (t : Turn) (journal : Journal)

theorem payFor_withJournal (wake : Wake) :
    (t.withJournal journal).payFor wake = (t.payFor wake).withJournal journal := by
  cases wake <;> rfl

theorem giveWay_withJournal (branch : Option Nat) :
    (t.withJournal journal).giveWay branch = (t.giveWay branch).withJournal journal := by
  have hfloor := t.floor.giveWay_withJournal journal ⟨t.worker, branch⟩
  exact congrArg (fun f => { t with floor := f }) hfloor

theorem rest_withJournal (depth instant : Nat) (interrupts : Interrupts) :
    (t.withJournal journal).rest depth instant interrupts =
      (t.rest depth instant interrupts).withJournal journal := by
  unfold rest
  split <;> split <;> rfl

theorem checkLimit_withJournal (depth : Nat) (limit : Limit) (solvent : Bool) :
    (t.withJournal journal).checkLimit depth limit solvent =
      ((t.checkLimit depth limit solvent).1,
        (t.checkLimit depth limit solvent).2.withJournal journal) := by
  have hspent : (t.withJournal journal).isSpent = t.isSpent := rfl
  have hnow : (t.withJournal journal).now = t.now := rfl
  simp only [checkLimit, hspent, hnow, giveWay_withJournal]
  split
  · rfl
  · split
    · rfl
    · split <;> rfl

theorem miss_withJournal (i : Nat) (branch : Option Nat) :
    (t.withJournal journal).miss i branch = (t.miss i branch).withJournal journal := by
  have hspent : (t.withJournal journal).isSpent = t.isSpent := rfl
  simp only [miss, hspent]
  split
  · exact t.giveWay_withJournal journal branch
  · rfl

theorem takeReplies_withJournal (missing : List Nat) :
    takeReplies missing (t.withJournal journal) =
      ((takeReplies missing t).1, (takeReplies missing t).2.withJournal journal) := by
  induction missing generalizing t with
  | nil => rfl
  | cons i rest ih =>
    have hlook : (!(t.withJournal journal).isSpent && (t.withJournal journal).floor.hasEnded i) =
        (!t.isSpent && t.floor.hasEnded i) := rfl
    simp only [takeReplies, hlook]
    split
    · exact ih (t.take i)
    · rw [miss_withJournal, ih]

theorem takeNews_withJournal (news : List Nat) (vain : Nat) (missing : List Nat) :
    takeNews news vain missing (t.withJournal journal) =
      ((takeNews news vain missing t).1, (takeNews news vain missing t).2.1,
        (takeNews news vain missing t).2.2.withJournal journal) := by
  induction news generalizing t vain missing with
  | nil => rfl
  | cons i rest ih =>
    have hlook : (!(t.withJournal journal).isSpent && (t.withJournal journal).floor.hasEnded i) =
        (!t.isSpent && t.floor.hasEnded i) := rfl
    simp only [takeNews, hlook]
    split
    · exact ih (t.take i) 0 (missing.erase i)
    · rw [miss_withJournal]
      split
      · rfl
      · exact ih _ _ _

theorem collect_withJournal (join : Join) :
    (t.withJournal journal).collect join =
      ((t.collect join).1, (t.collect join).2.withJournal journal) := by
  have hnews : (t.withJournal journal).floor.news = t.floor.news := rfl
  have hworker : (t.withJournal journal).worker = t.worker := rfl
  simp only [collect, hnews, hworker, takeReplies_withJournal, takeNews_withJournal]
  split <;> rfl

theorem fork_withJournal (branches : List (Work (Except Fault Unit))) :
    (t.withJournal journal).fork branches =
      ((t.fork branches).1, (t.fork branches).2.withJournal journal) := by
  have hfold : ∀ (branches : List (Work (Except Fault Unit))) (f : Floor),
      branches.foldl (fun f work => f.hire { context := t.context, thread := .ready work })
          (f.withJournal journal) =
        (branches.foldl (fun f work =>
          f.hire { context := t.context, thread := .ready work }) f).withJournal journal := by
    intro branches
    induction branches with
    | nil => exact fun _ => rfl
    | cons work branches ih =>
      intro f
      rw [List.foldl_cons, List.foldl_cons, Floor.hire_withJournal, ih]
  have hfloor := hfold branches { t.floor with
    news := t.floor.news ++
      ((List.range branches.length).map (t.floor.hands.length + ·)).map (t.worker, ·) }
  exact congrArg (fun f => ((t.fork branches).1, { t with floor := f })) hfloor

end Turn

end Workflow
