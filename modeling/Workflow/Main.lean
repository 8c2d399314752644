import Workflow.Command

/-!
# The command line

Reads the file and the variables that it refers to, carries out the command and prints what it
leaves behind. The clock of a run is the real one: what took time there takes time here.
-/

namespace Workflow.Command

def usage : String :=
  "usage: show FILE\n" ++
  "       lint FILE [--json]\n" ++
  "       run FILE [--set KEY=VALUE]... [--session ID] [--max-steps N]\n"

def readSource (path : String) : IO Source := do
  try
    let bytes ← IO.FS.readBinFile path
    match String.fromUTF8? bytes with
    | some content => return .text content
    | none => return .unreadable "stream did not contain valid UTF-8"
  catch
    | .noFileOrDirectory .. => return .missing
    | .inappropriateType .. => return .unreadable "Is a directory (os error 21)"
    | problem => return .unreadable (toString problem)

def readVariables (source : Source) : IO (Table String) := do
  let names := match source with
    | .text content => Environment.names content
    | _ => []
  let mut env : Table String := []
  for name in "WAYPOINT_SESSION" :: names do
    if let some value ← IO.getEnv name then
      env := env.put name value
  return env

/-- A random session id: five groups of hexadecimal digits. -/
def freshSession : IO String := do
  let mut groups : List String := []
  for size in [8, 4, 4, 4, 12] do
    let mut digits : List Char := []
    for _ in List.range size do
      digits := Nat.digitChar (← IO.rand 0 15) :: digits
    groups := groups ++ [String.ofList digits]
  return String.intercalate "-" groups

/-- Numbers that depend on a random seed and on their addresses. -/
def freshDraws : IO Draws := do
  let seed ← IO.rand 0 0xFFFFFFFFFFFFFFFF
  return fun address =>
    let (n, _) := randNat (mkStdGen (hash (seed :: address)).toNat) 0 0x1FFFFFFFFFFFFF
    .ofFloat (n.toFloat / 9007199254740992.0)

def executeOn (path : String) (command : Command) : IO UInt32 := do
  let source ← readSource path
  let around : Surroundings :=
    { path, source, env := ← readVariables source, freshSession := ← freshSession,
      draws := ← freshDraws }
  match command.execute 0x4000000000000000 around with
  | none => return 1
  | some output =>
    IO.sleep output.elapsed.toUInt32
    IO.print output.stdout
    IO.eprint output.stderr
    return output.code.toUInt32

end Workflow.Command

open Workflow in
def main (args : List String) : IO UInt32 := do
  match args with
  | name :: path :: options =>
    match Command.read? name options with
    | some command => command.executeOn path
    | none =>
      IO.eprint Command.usage
      return 2
  | _ =>
    IO.eprint Command.usage
    return 2
