import Workflow.Proofs.Work.Collect

/-!
# The outline of a floor

Who has a turn next, what wakes a worker and how long it waits do not depend on what the hands are
at work on, but only on whether they have ended. The outline of a floor shows no more of its hands
than that. All operations on a floor, and all parts of a turn, keep to it: floors of one outline
have one outline again afterwards.
-/

namespace Workflow

/-- The station without its context and its work: it shows only whether the work has ended. -/
def Station.outline (station : Station (Except Fault Unit)) : Station (Except Fault Unit) where
  context := default
  thread :=
    match station.thread with
    | .ended _ => .ended (.ok ())
    | _ => .ready .idle

def Hand.outline (hand : Hand) : Hand :=
  { hand with toStation := hand.toStation.outline }

/-- What is done to one hand is done to its outline. -/
theorem map_outline_modify (hands : List Hand) (i : Nat) (g g' : Hand → Hand)
    (h : ∀ hand, (g hand).outline = g' hand.outline) :
    (hands.modify i g).map Hand.outline = (hands.map Hand.outline).modify i g' := by
  apply List.ext_getElem?
  intro j
  rw [List.getElem?_map, List.getElem?_modify, List.getElem?_modify, List.getElem?_map]
  split
  · cases hands[j]? with
    | none => rfl
    | some hand => exact congrArg some (h hand)
  · simp only [id_map']

namespace Floor

def outline (f : Floor) : Floor :=
  { f with hands := f.hands.map Hand.outline }

variable (f : Floor)

theorem hasEnded_outline (i : Nat) : f.outline.hasEnded i = f.hasEnded i := by
  rw [hasEnded, hasEnded, reply?, reply?, outline, List.getElem?_map]
  cases f.hands[i]? with
  | none => rfl
  | some hand =>
    obtain ⟨⟨context, thread⟩, client⟩ := hand
    cases thread <;> rfl

theorem client_outline (i : Nat) :
    f.outline.hands[i]?.bind Hand.client = f.hands[i]?.bind Hand.client := by
  rw [outline, List.getElem?_map]
  cases f.hands[i]? <;> rfl

theorem outline_call (worker : Worker) : (f.call worker).outline = f.outline.call worker := by
  cases worker with
  | lead => rfl
  | hand i =>
    have hqueue : f.outline.queue = f.queue := rfl
    simp only [call, hasEnded_outline, hqueue]
    split <;> rfl

theorem outline_callAll (workers : List Worker) :
    (f.callAll workers).outline = f.outline.callAll workers := by
  induction workers generalizing f with
  | nil => rfl
  | cons worker workers ih =>
    simp only [callAll, List.foldl_cons] at ih ⊢
    rw [ih, outline_call]

theorem outline_tell (worker : Worker) (i : Nat) :
    (f.tell worker i).outline = f.outline.tell worker i := by
  let g : Floor :=
    { f with news := if f.news.contains (worker, i) then f.news else f.news ++ [(worker, i)] }
  exact g.outline_call worker

theorem outline_announce (i : Nat) : (f.announce i).outline = f.outline.announce i := by
  simp only [announce, client_outline]
  cases f.hands[i]?.bind Hand.client with
  | none => rfl
  | some client => exact f.outline_tell client i

theorem outline_giveWay (call : Call) : (f.giveWay call).outline = f.outline.giveWay call := by
  have hyielded : f.outline.yielded = f.yielded := rfl
  simp only [giveWay, hyielded]
  split <;> rfl

theorem outline_callBack (call : Call) : (f.callBack call).outline = f.outline.callBack call := by
  obtain ⟨worker, branch⟩ := call
  cases branch with
  | none => exact f.outline_call worker
  | some i => exact f.outline_tell worker i

theorem outline_callBacks (calls : List Call) :
    (calls.foldl callBack f).outline = calls.foldl callBack f.outline := by
  induction calls generalizing f with
  | nil => rfl
  | cons call calls ih => rw [List.foldl_cons, List.foldl_cons, ih, outline_callBack]

theorem outline_callYielded : f.callYielded.outline = f.outline.callYielded :=
  outline_callBacks { f with yielded := [] } f.yielded

theorem outline_setScene (scene : Scene) :
    (f.setScene scene).outline = f.outline.setScene scene := by
  have hscene : f.outline.scene = f.scene := rfl
  simp only [setScene, hscene]
  split
  · exact outline_callAll { f with scene, watchers := [] } f.watchers
  · rfl

theorem outline_ring? : f.outline.ring? = f.ring?.map outline := by
  have halarms : f.outline.alarms = f.alarms := rfl
  simp only [ring?, halarms, Option.map_map]
  congr 1
  funext instant
  let g : Floor :=
    { f with
      scene := { f.scene with now := max f.scene.now instant }
      alarms := f.alarms.filter (instant < ·.instant) }
  exact (g.outline_callAll _).symm

theorem outline_await (client : Worker) (i : Nat) :
    (f.await client i).outline = f.outline.await client i := by
  have hhands := map_outline_modify f.hands i (fun hand => { hand with client := some client })
    (fun hand => { hand with client := some client }) fun _ => rfl
  simp only [await, outline, hhands]

theorem outline_dismiss (worker : Worker) :
    (f.dismiss worker).outline = f.outline.dismiss worker := by
  have hhands : ((f.hands.map fun hand =>
      if hand.client = some worker then { hand with client := none } else hand).map Hand.outline) =
      (f.hands.map Hand.outline).map fun hand =>
        if hand.client = some worker then { hand with client := none } else hand := by
    rw [List.map_map, List.map_map]
    apply List.map_congr_left
    intro hand _
    have hclient : hand.outline.client = hand.client := rfl
    simp only [Function.comp_apply, hclient]
    split <;> rfl
  simp only [dismiss, outline, hhands]

theorem outline_hire (hand : Hand) : (f.hire hand).outline = f.outline.hire hand.outline := by
  let g : Floor := { f with hands := f.hands ++ [hand] }
  have hg : g.outline = { f.outline with hands := f.outline.hands ++ [hand.outline] } := by
    simp only [g, outline, List.map_append, List.map_cons, List.map_nil]
  have hlength : f.outline.hands.length = f.hands.length := List.length_map _
  have hcall : (f.hire hand).outline = g.outline.call (.hand f.hands.length) :=
    g.outline_call (.hand f.hands.length)
  rw [hcall, hg, hire, hlength]

theorem outline_hires (context : Context) (branches : List (Work (Except Fault Unit))) :
    (branches.foldl (fun f work => f.hire { context, thread := .ready work }) f).outline =
      (List.replicate branches.length Work.idle).foldl
        (fun f work => f.hire { context := default, thread := .ready work }) f.outline := by
  induction branches generalizing f with
  | nil => rfl
  | cons work branches ih =>
    rw [List.foldl_cons, ih, outline_hire, List.length_cons, List.replicate_succ, List.foldl_cons]
    rfl

theorem outline_put (i : Nat) (station : Station (Except Fault Unit)) :
    (f.put i station).outline = f.outline.put i station.outline := by
  have hhands := map_outline_modify f.hands i (fun hand => { hand with toStation := station })
    (fun hand => { hand with toStation := station.outline }) fun _ => rfl
  let g : Floor :=
    { f with hands := f.hands.modify i fun hand => { hand with toStation := station } }
  have hg : g.outline = { f.outline with
      hands := f.outline.hands.modify i fun hand => { hand with toStation := station.outline } } := by
    simp only [g, outline, hhands]
  have hput : f.put i station = if g.hasEnded i then g.announce i else g := rfl
  have hput' : f.outline.put i station.outline =
      if g.outline.hasEnded i then g.outline.announce i else g.outline := by
    rw [hg]
    rfl
  rw [hput, hput', hasEnded_outline, ← outline_announce]
  split <;> rfl

end Floor

namespace Turn

def outline (t : Turn) : Turn :=
  { t with floor := t.floor.outline, context := default }

variable (t : Turn)

theorem outline_act (change : Moment → Moment) :
    (t.act change).outline =
      { t.outline with floor := t.floor.outline.setScene (change t.moment).toScene } := by
  simp only [act, outline, Floor.outline_setScene]

theorem outline_payFor (wake : Wake) : (t.payFor wake).outline = t.outline.payFor wake := by
  cases wake <;> rfl

theorem outline_onFloor {change : Floor → Floor}
    (h : (change t.floor).outline = change t.floor.outline) :
    (t.onFloor change).outline = t.outline.onFloor change :=
  congrArg (fun f => { t with floor := f, context := default }) h

theorem outline_giveWay (branch : Option Nat) :
    (t.giveWay branch).outline = t.outline.giveWay branch :=
  t.outline_onFloor (t.floor.outline_giveWay ⟨t.worker, branch⟩)

theorem outline_rest (depth instant : Nat) (interrupts : Interrupts) :
    (t.rest depth instant interrupts).outline = t.outline.rest depth instant interrupts := by
  unfold rest
  split <;> split <;> rfl

theorem outline_dismiss :
    (t.onFloor (·.dismiss t.worker)).outline =
      t.outline.onFloor (·.dismiss t.outline.worker) :=
  t.outline_onFloor (t.floor.outline_dismiss t.worker)

theorem outline_drop (depth : Nat) : (t.drop depth).outline = t.outline.drop depth :=
  (t.rise depth).outline_dismiss

theorem outline_checkLimit (depth : Nat) (limit : Limit) (solvent : Bool) :
    t.outline.checkLimit depth limit solvent =
      ((t.checkLimit depth limit solvent).1, (t.checkLimit depth limit solvent).2.outline) := by
  have hspent : t.outline.isSpent = t.isSpent := rfl
  have hnow : t.outline.now = t.now := rfl
  simp only [checkLimit, hspent, hnow]
  split
  · rw [outline_giveWay]
  · split
    · rw [outline_drop]
      rfl
    · split <;> rfl

theorem outline_miss (i : Nat) (branch : Option Nat) :
    (t.miss i branch).outline = t.outline.miss i branch := by
  have hspent : t.outline.isSpent = t.isSpent := rfl
  simp only [miss, hspent]
  split
  · exact t.outline_giveWay branch
  · exact t.outline_onFloor (t.floor.outline_await t.worker i)

theorem look_outline (i : Nat) :
    (!t.outline.isSpent && t.outline.floor.hasEnded i) = (!t.isSpent && t.floor.hasEnded i) :=
  congrArg (!t.isSpent && ·) (t.floor.hasEnded_outline i)

theorem takeReplies_outline (missing : List Nat) :
    takeReplies missing t.outline =
      ((takeReplies missing t).1, (takeReplies missing t).2.outline) := by
  induction missing generalizing t with
  | nil => rfl
  | cons i rest ih =>
    simp only [takeReplies, look_outline]
    split
    · exact ih (t.take i)
    · rw [← outline_miss, ih]

theorem takeNews_outline (news : List Nat) (vain : Nat) (missing : List Nat) :
    takeNews news vain missing t.outline =
      ((takeNews news vain missing t).1, (takeNews news vain missing t).2.1,
        (takeNews news vain missing t).2.2.outline) := by
  induction news generalizing t vain missing with
  | nil => rfl
  | cons i rest ih =>
    simp only [takeNews, look_outline]
    split
    · exact ih (t.take i) 0 (missing.erase i)
    · rw [← outline_miss]
      split
      · rfl
      · exact ih _ _ _

theorem outline_collect (join : Join) :
    t.outline.collect join = ((t.collect join).1, (t.collect join).2.outline) := by
  have hnews : t.outline.floor.news = t.floor.news := rfl
  have hworker : t.outline.worker = t.worker := rfl
  simp only [collect, hnews, hworker, takeReplies_outline, takeNews_outline]
  split <;> rfl

theorem outline_fork (branches : List (Work (Except Fault Unit))) :
    t.outline.fork (List.replicate branches.length .idle) =
      ((t.fork branches).1, (t.fork branches).2.outline) := by
  have hlength : t.outline.floor.hands.length = t.floor.hands.length := List.length_map _
  have hfloor := Floor.outline_hires { t.floor with
    news := t.floor.news ++
      ((List.range branches.length).map (t.floor.hands.length + ·)).map (t.worker, ·) }
    t.context branches
  simp only [fork, hlength, List.length_replicate]
  exact congrArg (fun f => ((t.fork branches).1, { t with floor := f, context := default }))
    hfloor.symm

end Turn

end Workflow
