import Workflow.Hook
import Workflow.State
import Workflow.Transition

/-!
# Engines

An engine holds the states of a workflow and the edges between them. It is made from a draft: the
draft collects the parts in any order, and `Draft.build` refuses one whose parts do not fit
together.
-/

namespace Workflow

structure Engine where
  name : String
  states : Table State
  /-- In the order in which they are tried. -/
  transitions : List Transition
  initial : String
  /-- The states in which a run ends, in increasing order. -/
  finals : List String
  defaultTimeout : Option Span
  timeouts : Table Span
  /-- Where a run continues when a state fails. -/
  errorTargets : Table String
  /-- Whether a run looks for cancellation before each state. -/
  cancellation : Bool
  /-- How many states a run may dispatch. -/
  maxSteps : Option Nat
  /-- In the order in which they are told. -/
  hooks : List Hook
  deriving Inhabited

namespace Engine

def stateNames (e : Engine) : List String :=
  e.states.names

def timeoutFor (e : Engine) (state : String) : Option Span :=
  (e.timeouts.get? state).or e.defaultTimeout

def isFinal (e : Engine) (state : String) : Bool :=
  e.finals.contains state

def outgoing (e : Engine) (state : String) : List Transition :=
  e.transitions.filter (·.origin == state)

end Engine

structure Draft where
  name : String
  states : List State := []
  transitions : List Transition := []
  initial : String := ""
  finals : List String := []
  defaultTimeout : Option Span := none
  timeouts : Table Span := []
  errorTargets : Table String := []
  cancellation : Bool := true
  maxSteps : Option Nat := none
  hooks : List Hook := []
  deriving Inhabited

namespace Draft

def addState (d : Draft) (state : State) : Draft :=
  { d with states := d.states ++ [state] }

def addTransition (d : Draft) (t : Transition) : Draft :=
  { d with transitions := d.transitions ++ [t] }

def startAt (d : Draft) (state : String) : Draft :=
  { d with initial := state }

def addFinal (d : Draft) (state : String) : Draft :=
  { d with finals := d.finals ++ [state] }

/-- Limits the time of one state; zero means no limit of its own. -/
def limitState (d : Draft) (state : String) (limit : Span) : Draft :=
  { d with
    timeouts :=
      if limit.nanos = 0 then d.timeouts.erase state else d.timeouts.put state limit }

/-- Limits the time of the states without a limit of their own; zero means no limit. -/
def limitStates (d : Draft) (limit : Span) : Draft :=
  { d with defaultTimeout := if limit.nanos = 0 then none else some limit }

def onError (d : Draft) (state target : String) : Draft :=
  { d with errorTargets := d.errorTargets.put state target }

def addHook (d : Draft) (hook : Hook) : Draft :=
  { d with hooks := d.hooks ++ [hook] }

/-- The names of the final states: those listed and those that end the run by themselves. -/
def finalNames (d : Draft) : List String :=
  (Table.ofEntries ((d.finals ++ (d.states.filter State.isFinal).map State.name).map (·, ()))).names

def stateTable (seen : Table State) : List State → Except Fault (Table State)
  | [] => .ok seen
  | state :: states =>
    if seen.has state.name then
      .error (.invalid .uniqueName ("duplicate state: " ++ state.name))
    else stateTable (seen.put state.name state) states

/-- Fails unless the state `name`, which is referred to in the given role, is there. -/
def checkName (states : Table State) (role name : String) : Except Fault Unit :=
  if states.has name then .ok ()
  else .error (.invalid .missingEndpoint (role ++ " references unknown state: " ++ name))

def checkNames (states : Table State) : List (String × String) → Except Fault Unit
  | [] => .ok ()
  | (role, name) :: rest => do
    checkName states role name
    checkNames states rest

/-- All states that the draft refers to, with their roles, in the order in which they are
checked. -/
def references (d : Draft) : List (String × String) :=
  let edges := d.transitions.flatMap fun t =>
    [("transition source", t.origin), ("transition target", t.target)]
  let handlers := d.errorTargets.flatMap fun (state, target) =>
    [("error handler", state), ("error target", target)]
  ("initial state", d.initial) :: (d.finalNames.map (("final state", ·)) ++ edges ++ handlers)

def build (d : Draft) : Except Fault Engine := do
  let states ← stateTable [] d.states
  if d.initial.isEmpty then throw (.invalid .missingField "initial state is required")
  checkNames states d.references
  return {
    name := d.name
    states
    transitions := d.transitions
    initial := d.initial
    finals := d.finalNames
    defaultTimeout := d.defaultTimeout
    timeouts := d.timeouts
    errorTargets := d.errorTargets
    cancellation := d.cancellation
    maxSteps := d.maxSteps
    hooks := d.hooks }

end Draft

end Workflow
