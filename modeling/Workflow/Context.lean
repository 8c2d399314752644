import Workflow.Data
import Workflow.Draw

/-!
# Execution contexts

The state of one workflow run: who it belongs to, where it stands, its data, the moves it has made
and the states it has entered.
-/

namespace Workflow

/-- Ids that a run carries from its start to its end. -/
structure Identity where
  session : String
  project : Option String := none
  tool : Option String := none
  provider : Option String := none
  chunk : Option String := none
  deriving DecidableEq, Repr, Inhabited

/-- A move from one state to another, with the data that came with it. -/
structure Move where
  origin : String
  target : String
  data : Data
  deriving Inhabited

structure Context where
  identity : Identity
  currentState : String := ""
  data : Data := []
  history : List Move := []
  path : List String := []
  /-- What is drawn at random, the number of the dispatch leading the address. -/
  draws : Draws := default
  deriving Inhabited

namespace Context

def set (ctx : Context) (key : String) (value : Json) : Context :=
  { ctx with data := ctx.data.put key value }

def merge (ctx : Context) (data : Data) : Context :=
  { ctx with data := ctx.data.merge data }

def remove (ctx : Context) (key : String) : Context :=
  { ctx with data := ctx.data.erase key }

def enter (ctx : Context) (state : String) : Context :=
  { ctx with currentState := state }

def visit (ctx : Context) (state : String) : Context :=
  { ctx with path := ctx.path ++ [state] }

/-- What the state that is dispatched may draw. -/
def dispatchDraws (ctx : Context) : Draws :=
  ctx.draws.part ctx.path.length

/-- Notes a move, without making it. -/
def addMove (ctx : Context) (origin target : String) (data : Data) : Context :=
  { ctx with history := ctx.history ++ [⟨origin, target, data⟩] }

end Context

def Identity.toJson (id : Identity) : Json :=
  let text := fun (value : Option String) =>
    match value with
    | some s => Json.string s
    | none => .null
  .object [("chunk_id", text id.chunk), ("project_id", text id.project),
    ("provider", text id.provider), ("session_id", id.session), ("tool_name", text id.tool)]

def Move.toJson (move : Move) : Json :=
  .object [("data_snapshot", .object move.data), ("from", move.origin), ("to", move.target)]

/-- The whole context as a value, for reports. -/
def Context.snapshot (ctx : Context) : Json :=
  .object [("current_state", ctx.currentState), ("data", .object ctx.data),
    ("history", .array (ctx.history.map Move.toJson)), ("identity", ctx.identity.toJson),
    ("path_history", .array (ctx.path.map Json.string))]

end Workflow
