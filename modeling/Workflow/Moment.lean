import Workflow.Context
import Workflow.Journal

/-!
# Moments

All that is done in a run is done at some moment. A moment consists of a scene, which is the same
for all workers on the run, and of the context of the one at work.
-/

namespace Workflow

/-- An action within the tree of its state: the state's name and the way down the tree. -/
structure Place where
  owner : String
  branch : List Nat := []
  deriving DecidableEq, Repr, Inhabited

def Place.part (place : Place) (i : Nat) : Place :=
  { place with branch := place.branch ++ [i] }

/-- A place, with what may be drawn there and below. -/
structure Site extends Place where
  draws : Draws := default
  deriving Inhabited

namespace Site

def part (site : Site) (i : Nat) : Site where
  toPlace := site.toPlace.part i
  draws := site.draws.part i

/-- The place at which something is repeated, for the repetition with number `n`. -/
def turn (site : Site) (n : Nat) : Site where
  toPlace := site.toPlace.part 0
  draws := site.draws.part n

end Site

/-- What all workers on a run share. -/
structure Scene where
  /-- Milliseconds since the run began. -/
  now : Nat := 0
  cancelled : Bool := false
  /-- How often the actions that keep count have been started. -/
  starts : List (Place × Nat) := []
  journal : Journal := []
  deriving Inhabited

structure Moment extends Scene where
  context : Context
  deriving Inhabited

namespace Moment

def data (m : Moment) : Data :=
  m.context.data

def update (m : Moment) (f : Context → Context) : Moment :=
  { m with context := f m.context }

def set (m : Moment) (key : String) (value : Json) : Moment :=
  m.update (·.set key value)

/-- Records a value under a key that starts with the name of an action. -/
def record (m : Moment) (action suffix : String) (value : Json) : Moment :=
  m.set (action ++ "_" ++ suffix) value

def report (m : Moment) (level : Level) (message : String) (fields : List (String × String)) :
    Moment :=
  { m with journal := ⟨level, message, fields⟩ :: m.journal }

def cancel (m : Moment) : Moment :=
  { m with cancelled := true }

def startsAt (m : Moment) (place : Place) : Nat :=
  (m.starts.lookup place).getD 0

def start (m : Moment) (place : Place) : Moment :=
  { m with starts := (place, m.startsAt place + 1) :: m.starts.filter (·.1 != place) }

@[simp] theorem data_set (m : Moment) (key : String) (value : Json) :
    (m.set key value).data = m.data.put key value := rfl

@[simp] theorem data_record (m : Moment) (action suffix : String) (value : Json) :
    (m.record action suffix value).data = m.data.put (action ++ "_" ++ suffix) value := rfl

@[simp] theorem toScene_update (m : Moment) (f : Context → Context) :
    (m.update f).toScene = m.toScene := rfl

@[simp] theorem context_update (m : Moment) (f : Context → Context) :
    (m.update f).context = f m.context := rfl

@[simp] theorem toScene_set (m : Moment) (key : String) (value : Json) :
    (m.set key value).toScene = m.toScene := rfl

@[simp] theorem toScene_record (m : Moment) (action suffix : String) (value : Json) :
    (m.record action suffix value).toScene = m.toScene := rfl

@[simp] theorem context_report (m : Moment) (level : Level) (message : String)
    (fields : List (String × String)) : (m.report level message fields).context = m.context := rfl

@[simp] theorem now_report (m : Moment) (level : Level) (message : String)
    (fields : List (String × String)) : (m.report level message fields).now = m.now := rfl

@[simp] theorem cancelled_report (m : Moment) (level : Level) (message : String)
    (fields : List (String × String)) :
    (m.report level message fields).cancelled = m.cancelled := rfl

@[simp] theorem context_cancel (m : Moment) : m.cancel.context = m.context := rfl

@[simp] theorem context_start (m : Moment) (place : Place) :
    (m.start place).context = m.context := rfl

end Moment

end Workflow
