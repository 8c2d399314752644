import Workflow.Fault.Basic
import Workflow.Moment
import Workflow.Span.Basic

/-!
# Work

A piece of work is a tree of what is done one after the other: changes that take no time, pauses,
work within a time limit, and branches side by side. What follows on a node depends on what came of
it. The tree says nothing about the order in which several pieces of work take turns; that is the
business of a crew.

Work is a monad, and binding is associative, so work may be taken apart at any point.
-/

namespace Workflow

/-- What can cut a pause short. -/
structure Interrupts where
  /-- Whether cancellation of the run does. -/
  cancellable : Bool := true
  /-- An instant at which it ends. -/
  deadline : Option Nat := none
  deriving Inhabited

inductive Wake where
  | rested
  | cancelled
  | expired
  deriving DecidableEq, Repr

/-- What comes of a pause that should not be cut short. -/
def Wake.outcome : Wake → Except Fault Unit
  | rested => .ok ()
  | cancelled => .error (.cancelled "retry backoff")
  | expired => .error (.deadline "retry backoff")

/-- What a branch leaves: the copy of the context that it worked on, and its outcome. -/
structure Reply where
  context : Context
  outcome : Except Fault Unit

inductive Work : Type → Type 1 where
  | done {α : Type} (value : α) : Work α
  /-- Changes the moment, and goes on from the changed one. -/
  | act {α : Type} (change : Moment → Moment) (next : Moment → Work α) : Work α
  | pause {α : Type} (span : Span) (interrupts : Interrupts) (next : Wake → Work α) : Work α
  /-- Work that is dropped when it takes longer than the limit; then nothing comes of it. -/
  | within {α β : Type} (limit : Span) (inner : Work β) (next : Option β → Work α) : Work α
  /-- Branches side by side, each on a copy of the context. -/
  | fork {α : Type} (count : Nat) (branch : Fin count → Work (Except Fault Unit))
      (next : List Reply → Work α) : Work α

namespace Work

variable {α β γ ε : Type}

instance [Inhabited α] : Inhabited (Work α) := ⟨done default⟩

protected def bind : Work α → (α → Work β) → Work β
  | done value, k => k value
  | act change next, k => act change fun m => (next m).bind k
  | pause span interrupts next, k => pause span interrupts fun wake => (next wake).bind k
  | within limit inner next, k => within limit inner fun value => (next value).bind k
  | fork count branch next, k => fork count branch fun replies => (next replies).bind k

instance : Monad Work where
  pure := done
  bind := Work.bind

@[simp] theorem pure_eq_done (value : α) : (pure value : Work α) = done value := rfl

@[simp] theorem bind_eq (w : Work α) (k : α → Work β) : w >>= k = w.bind k := rfl

@[simp] theorem done_bind (value : α) (k : α → Work β) : (done value).bind k = k value := rfl

@[simp] theorem act_bind (change : Moment → Moment) (next : Moment → Work α) (k : α → Work β) :
    (act change next).bind k = act change fun m => (next m).bind k := rfl

@[simp] theorem pause_bind (span : Span) (interrupts : Interrupts) (next : Wake → Work α)
    (k : α → Work β) :
    (pause span interrupts next).bind k =
      pause span interrupts fun wake => (next wake).bind k := rfl

@[simp] theorem within_bind (limit : Span) (inner : Work γ) (next : Option γ → Work α)
    (k : α → Work β) :
    (within limit inner next).bind k = within limit inner fun value => (next value).bind k := rfl

@[simp] theorem fork_bind (count : Nat) (branch : Fin count → Work (Except Fault Unit))
    (next : List Reply → Work α) (k : α → Work β) :
    (fork count branch next).bind k =
      fork count branch fun replies => (next replies).bind k := rfl

@[simp] theorem bind_done (w : Work α) : w.bind done = w := by
  induction w with
  | done value => rfl
  | act change next ih => simp [ih]
  | pause span interrupts next ih => simp [ih]
  | within limit inner next _ ih => simp [ih]
  | fork count branch next _ ih => simp [ih]

theorem bind_assoc (w : Work α) (k : α → Work β) (l : β → Work γ) :
    (w.bind k).bind l = w.bind fun value => (k value).bind l := by
  induction w with
  | done value => rfl
  | act change next ih => simp [ih]
  | pause span interrupts next ih => simp [ih]
  | within limit inner next _ ih => simp [ih]
  | fork count branch next _ ih => simp [ih]

def idle : Work (Except ε Unit) :=
  done (.ok ())

def fail (fault : ε) : Work (Except ε α) :=
  done (.error fault)

def andThen (w : Work (Except ε α)) (next : α → Work (Except ε β)) : Work (Except ε β) :=
  w.bind fun
    | .ok value => next value
    | .error fault => fail fault

def mapFault {ε' : Type} (f : ε → ε') (w : Work (Except ε α)) : Work (Except ε' α) :=
  w.bind fun outcome => done (outcome.mapError f)

@[simp] theorem andThen_fail (fault : ε) (next : α → Work (Except ε β)) :
    (fail fault : Work (Except ε α)).andThen next = fail fault := rfl

@[simp] theorem andThen_ok (value : α) (next : α → Work (Except ε β)) :
    (done (.ok value) : Work (Except ε α)).andThen next = next value := rfl

def change (f : Moment → Moment) : Work (Except ε Unit) :=
  act f fun _ => idle

def after (f : Moment → Moment) (next : Work α) : Work α :=
  act f fun _ => next

/-- Goes on as the moment says, which stays as it is. -/
def look (next : Moment → Work α) : Work α :=
  act id next

/-- A pause that fails when it is cut short. -/
def wait (span : Span) (interrupts : Interrupts) : Work (Except Fault Unit) :=
  pause span interrupts fun wake => done wake.outcome

/-- Work that fails with `overrun` when it takes longer than the limit. -/
def limited (limit : Span) (overrun : ε) (w : Work (Except ε α)) : Work (Except ε α) :=
  within limit w fun outcome => done (outcome.getD (.error overrun))

def together (branches : List (Work (Except Fault Unit))) : Work (List Reply) :=
  fork branches.length branches.get done

/-- Cancels the run after a span of time, if it has not ended by then. -/
def cancelAfter (span : Span) : Work (Except Fault Unit) :=
  pause span { cancellable := false } fun _ => change Moment.cancel

end Work

end Workflow
