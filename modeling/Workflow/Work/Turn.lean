import Workflow.Work.Floor

/-!
# Turns

A worker that has been called has a turn: it goes on with its work as far as it can. In one turn
only so many waits may end, or else it has to give way; the limit of some work is looked at when the
work cannot go on.

`Work.proceed` follows a piece of work by recursion on its tree, and `Thread.resume` takes up what
remains of one.
-/

namespace Workflow

structure Turn where
  floor : Floor
  worker : Worker
  context : Context
  /-- How many more waits may end. -/
  budget : Nat := 128
  /-- Whether the worker wants to be called again right away. -/
  again : Bool := false

namespace Turn

def now (t : Turn) : Nat :=
  t.floor.scene.now

def moment (t : Turn) : Moment :=
  { t.floor.scene with context := t.context }

def act (change : Moment → Moment) (t : Turn) : Turn :=
  let m := change t.moment
  { t with floor := t.floor.setScene m.toScene, context := m.context }

def onFloor (f : Floor → Floor) (t : Turn) : Turn :=
  { t with floor := f t.floor }

def isSpent (t : Turn) : Bool :=
  t.budget == 0

def spend (t : Turn) : Turn :=
  { t with budget := t.budget - 1 }

def giveWay (branch : Option Nat) (t : Turn) : Turn :=
  t.onFloor (·.giveWay ⟨t.worker, branch⟩)

/-- What ends a pause that is to last until `instant`, if anything does by now. -/
def wake? (instant : Nat) (interrupts : Interrupts) (t : Turn) : Option Wake :=
  if interrupts.cancellable && t.floor.scene.cancelled then some .cancelled
  else if interrupts.deadline.any (· ≤ t.now) then some .expired
  else if instant ≤ t.now then some .rested
  else none

/-- Waking takes its share of the budget, unless it is by cancellation. -/
def payFor (wake : Wake) (t : Turn) : Turn :=
  match wake with
  | .cancelled => t
  | _ => t.spend

def setAlarm (depth instant : Nat) (t : Turn) : Turn :=
  t.onFloor (·.setAlarm ⟨instant, t.worker, depth⟩)

def rest (depth instant : Nat) (interrupts : Interrupts) (t : Turn) : Turn :=
  let t := if interrupts.cancellable then t.onFloor (·.watch t.worker) else t
  let t := match interrupts.deadline with
    | some deadline => t.setAlarm depth deadline
    | none => t
  t.setAlarm depth instant

def rise (depth : Nat) (t : Turn) : Turn :=
  t.onFloor fun f => (f.clearAlarms t.worker depth).unwatch t.worker

def drop (depth : Nat) (t : Turn) : Turn :=
  (t.rise depth).onFloor (·.dismiss t.worker)

/-- Looks at the limit of work that cannot go on: what remains of the limit, or nothing when it has
passed and the work is dropped. `solvent` tells whether there was some budget left when that work
went on; only then the limit is looked at for free if there is none left now. -/
def checkLimit (depth : Nat) (limit : Limit) (solvent : Bool) (t : Turn) : Option Limit × Turn :=
  if t.isSpent && !solvent then (some limit, t.giveWay none)
  else if limit.instant ≤ t.now then (none, t.spend.drop depth)
  else if limit.isSet then (some limit, t)
  else (some { limit with isSet := true }, t.setAlarm depth limit.instant)

/-- Hires a hand for each of the branches. All of them are yet to be looked at. -/
def fork (branches : List (Work (Except Fault Unit))) (t : Turn) : Join × Turn :=
  let first := t.floor.hands.length
  let hands := (List.range branches.length).map (first + ·)
  (⟨hands, hands⟩,
    t.onFloor fun f =>
      branches.foldl
        (fun f work => f.hire { context := t.context, thread := .ready work })
        { f with news := f.news ++ hands.map (t.worker, ·) })

def take (i : Nat) (t : Turn) : Turn :=
  t.spend.onFloor (·.release i)

/-- What follows when a branch has been looked at in vain: the branch is to tell when it has ended;
without any budget nothing was seen of it, and the worker gives way by the given call. -/
def miss (i : Nat) (branch : Option Nat) (t : Turn) : Turn :=
  if t.isSpent then t.giveWay branch else t.onFloor (·.await t.worker i)

/-- Looks at branches one after the other and takes the replies that are there. Gives those that are
still missing. -/
def takeReplies : List Nat → Turn → List Nat × Turn
  | [], t => ([], t)
  | i :: rest, t =>
    if !t.isSpent && t.floor.hasEnded i then takeReplies rest (t.take i)
    else
      let (missing, t) := takeReplies rest (t.miss i none)
      (i :: missing, t)

/-- Looks at the branches that there is news of. Gives those that are still missing and the news
that are left: whoever has looked in vain at as many branches as are missing wants another turn
instead of going on; `vain` counts them. -/
def takeNews : (news : List Nat) → (vain : Nat) → (missing : List Nat) → Turn →
    List Nat × List Nat × Turn
  | [], _, missing, t => (missing, [], t)
  | i :: news, vain, missing, t =>
    if !t.isSpent && t.floor.hasEnded i then takeNews news 0 (missing.erase i) (t.take i)
    else
      let t := t.miss i (some i)
      if vain + 1 = missing.length then (missing, news, { t with again := true })
      else takeNews news (vain + 1) missing t

/-- Takes replies of branches that are waited for. Up to thirty branches are all looked at each
time, more only when there is news of them. -/
def collect (join : Join) (t : Turn) : Join × Turn :=
  if join.hands.length ≤ 30 then
    let (missing, t) := takeReplies join.missing t
    ({ join with missing }, t)
  else
    let (mine, others) := t.floor.news.partition (·.1 == t.worker)
    let (missing, news, t) := takeNews (mine.map Prod.snd) 0 join.missing t
    ({ join with missing }, t.onFloor ({ · with news := others ++ news.map (t.worker, ·) }))

def replies (join : Join) (t : Turn) : List Reply :=
  join.hands.filterMap t.floor.reply?

end Turn

/-- Goes on with a piece of work that stands under `depth` time limits. -/
def Work.proceed {α : Type} (depth : Nat) : Work α → Turn → Thread α × Turn
  | .done value, t => (.ended value, t)
  | .act change next, t => (next (t.act change).moment).proceed depth (t.act change)
  | .pause span interrupts next, t =>
    let instant := t.now + span.pauseTicks
    if t.isSpent then (.ready (.pause span interrupts next), t.giveWay none)
    else
      match t.wake? instant interrupts with
      | some wake => (next wake).proceed depth (t.payFor wake)
      | none => (.resting instant interrupts next, t.rest depth instant interrupts)
  | .within span inner next, t =>
    let limit : Limit := { instant := t.now + span.ticks }
    match inner.proceed (depth + 1) t with
    | (.ended value, after) => (next (some value)).proceed depth after
    | (inner, after) =>
      match after.checkLimit depth limit (!t.isSpent) with
      | (none, after) => (next none).proceed depth after
      | (some limit, after) => (.within limit inner next, after)
  | .fork _ branch next, t =>
    let (join, t) := t.fork (List.ofFn branch)
    let (join, t) := t.collect join
    if join.missing.isEmpty then
      (next (t.replies join)).proceed depth (t.onFloor (·.dismiss t.worker))
    else (.joining join next, t)

/-- Takes up what remains of some work. -/
def Thread.resume {α : Type} (depth : Nat) : Thread α → Turn → Thread α × Turn
  | .ended value, t => (.ended value, t)
  | .ready work, t => work.proceed depth t
  | .resting instant interrupts next, t =>
    match t.wake? instant interrupts with
    | some wake => (next wake).proceed depth ((t.payFor wake).rise depth)
    | none => (.resting instant interrupts next, t)
  | .joining join next, t =>
    let (join, t) := t.collect join
    if join.missing.isEmpty then
      (next (t.replies join)).proceed depth (t.onFloor (·.dismiss t.worker))
    else (.joining join next, t)
  | .within limit inner next, t =>
    match inner.resume (depth + 1) t with
    | (.ended value, after) => (next (some value)).proceed depth (after.rise depth)
    | (inner, after) =>
      match after.checkLimit depth limit (!t.isSpent) with
      | (none, after) => (next none).proceed depth after
      | (some limit, after) => (.within limit inner next, after)

end Workflow
