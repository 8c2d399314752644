import Workflow.Work.Basic

/-!
# The floor

All workers on a run share a floor. The lead carries out the run itself; a hand carries out one
branch, or something that goes on beside the run. Only one of them works at a time. A worker that
cannot go on leaves a note of what will wake it, and is called when that happens; hands that are
called queue up.

Workers that are woken by the same event are called in the order in which they began to wait for it.
Only those that have given way are called in the opposite order: the one that did so last comes
first.
-/

namespace Workflow

inductive Worker where
  | lead
  | hand (number : Nat)
  deriving DecidableEq, Repr

structure Alarm where
  instant : Nat
  worker : Worker
  /-- Under how many time limits the worker stood when the alarm was set. -/
  depth : Nat

/-- A worker to be called; if it is to look at a certain branch, on behalf of that branch. -/
structure Call where
  worker : Worker
  branch : Option Nat := none
  deriving DecidableEq

structure Limit where
  instant : Nat
  /-- Whether an alarm has been set for it. -/
  isSet : Bool := false

structure Join where
  /-- The hands that carry them out, in the order of the branches. -/
  hands : List Nat
  /-- Those whose replies have not been taken. -/
  missing : List Nat

/-- What remains of a piece of work after one or more turns. -/
inductive Thread : Type → Type 1 where
  | ended {α : Type} (value : α) : Thread α
  /-- Work that has not been begun, or that is to go on as soon as the worker is called. -/
  | ready {α : Type} (work : Work α) : Thread α
  | resting {α : Type} (instant : Nat) (interrupts : Interrupts) (next : Wake → Work α) : Thread α
  | joining {α : Type} (join : Join) (next : List Reply → Work α) : Thread α
  | within {α β : Type} (limit : Limit) (inner : Thread β) (next : Option β → Work α) : Thread α

structure Station (α : Type) where
  context : Context
  thread : Thread α

structure Hand extends Station (Except Fault Unit) where
  /-- Who is to be told when the work has ended. -/
  client : Option Worker := none

def Hand.reply? (hand : Hand) : Option Reply :=
  match hand.thread with
  | .ended outcome => some ⟨hand.context, outcome⟩
  | _ => none

structure Floor where
  scene : Scene
  hands : List Hand := []
  /-- The hands that have been called, in order. -/
  queue : List Nat := []
  leadCalled : Bool := true
  alarms : List Alarm := []
  /-- The workers that wait for cancellation. -/
  watchers : List Worker := []
  /-- The workers that have given way, to be called at the end of the round; last one first. -/
  yielded : List Call := []
  /-- Branches to look at, each with the worker that waits for it. -/
  news : List (Worker × Nat) := []

namespace Floor

def reply? (f : Floor) (i : Nat) : Option Reply :=
  f.hands[i]?.bind Hand.reply?

def hasEnded (f : Floor) (i : Nat) : Bool :=
  (f.reply? i).isSome

/-- Calls a worker, unless it has been called already or has nothing left to do. -/
def call (f : Floor) : Worker → Floor
  | .lead => { f with leadCalled := true }
  | .hand i =>
    if f.queue.contains i || f.hasEnded i then f else { f with queue := f.queue ++ [i] }

def callAll (f : Floor) (workers : List Worker) : Floor :=
  workers.foldl call f

def tell (f : Floor) (worker : Worker) (i : Nat) : Floor :=
  let news := if f.news.contains (worker, i) then f.news else f.news ++ [(worker, i)]
  { f with news }.call worker

def announce (f : Floor) (i : Nat) : Floor :=
  match f.hands[i]?.bind Hand.client with
  | some client => f.tell client i
  | none => f

/-- Notes that a worker has given way; a note that was the last one is not repeated. -/
def giveWay (f : Floor) (call : Call) : Floor :=
  if f.yielded.head? = some call then f else { f with yielded := call :: f.yielded }

/-- Calls the workers that have given way, the last one first. -/
def callYielded (f : Floor) : Floor :=
  f.yielded.foldl (fun f call =>
    match call.branch with
    | some i => f.tell call.worker i
    | none => f.call call.worker) { f with yielded := [] }

/-- Changes the scene; if that cancels the run, all workers that wait for it are called. -/
def setScene (f : Floor) (scene : Scene) : Floor :=
  if scene.cancelled && !f.scene.cancelled then
    { f with scene, watchers := [] }.callAll f.watchers
  else { f with scene }

def setAlarm (f : Floor) (alarm : Alarm) : Floor :=
  { f with alarms := f.alarms ++ [alarm] }

/-- Withdraws the alarms that a worker has set at a depth or below it. -/
def clearAlarms (f : Floor) (worker : Worker) (depth : Nat) : Floor :=
  { f with alarms := f.alarms.filter fun alarm => alarm.worker != worker || alarm.depth < depth }

def watch (f : Floor) (worker : Worker) : Floor :=
  { f with watchers := f.watchers ++ [worker] }

def unwatch (f : Floor) (worker : Worker) : Floor :=
  { f with watchers := f.watchers.filter (· != worker) }

/-- Notes who is to be told when the work of hand `i` has ended. -/
def await (f : Floor) (client : Worker) (i : Nat) : Floor :=
  { f with hands := f.hands.modify i fun hand => { hand with client := some client } }

/-- Nobody is going to look at hand `i` any more. -/
def release (f : Floor) (i : Nat) : Floor :=
  { f with yielded := f.yielded.filter (·.branch != some i) }

/-- Lets go of the hands that a worker waits for. Their work goes on. -/
def dismiss (f : Floor) (worker : Worker) : Floor :=
  { f with
    hands := f.hands.map fun hand =>
      if hand.client = some worker then { hand with client := none } else hand
    yielded := f.yielded.filter fun call => call.worker != worker || call.branch.isNone
    news := f.news.filter (·.1 != worker) }

/-- Moves the clock to the next alarm, and calls those that it wakes; nothing if there is none. -/
def ring? (f : Floor) : Option Floor :=
  (f.alarms.map Alarm.instant).min?.map fun instant =>
    let due := f.alarms.filter (·.instant ≤ instant)
    { f with
      scene := { f.scene with now := max f.scene.now instant }
      alarms := f.alarms.filter (instant < ·.instant) }.callAll (due.map Alarm.worker)

def hire (f : Floor) (hand : Hand) : Floor :=
  { f with hands := f.hands ++ [hand] }.call (.hand f.hands.length)

/-- Puts hand `i` where its work has got to; if that has ended, the worker that waits is told. -/
def put (f : Floor) (i : Nat) (station : Station (Except Fault Unit)) : Floor :=
  let f := { f with hands := f.hands.modify i fun hand => { hand with toStation := station } }
  if f.hasEnded i then f.announce i else f

end Floor

end Workflow
