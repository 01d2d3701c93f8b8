import Clockwork.CommandLine.Command

namespace Clockwork.CommandLine

def readFile? (path : String) : IO (Option String) := do
  try
    return some (← IO.FS.readFile path)
  catch _ =>
    return none

def loadWorkspace (args : List String) : IO Workspace := do
  let paths := ((Request.ofArguments? args).map Request.files).getD []
  let files ← paths.filterMapM fun path => do
    return (← readFile? path).map fun text => (path, text)
  return ⟨files⟩

def stepLimit : Nat := 1000000000000000

end Clockwork.CommandLine

open Clockwork.CommandLine in
def main (args : List String) : IO UInt32 := do
  match execute stepLimit (← loadWorkspace args) args with
  | none =>
    IO.eprintln "error: the run does not end"
    return 1
  | some report =>
    IO.print report.output
    IO.eprint report.messages
    return report.code.toUInt32
