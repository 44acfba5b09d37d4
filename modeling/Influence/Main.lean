import Influence.Command.Run

/-! # The executable

Reads the files that the arguments name, runs `Command.run` on them and writes what it leaves. -/

namespace Influence

/-- The text of a file, if it can be read. -/
def readFile? (path : String) : IO (Option String) := do
  try return some (← IO.FS.readFile path)
  catch _ => return none

/-- The texts of those files among some paths that can be read. -/
def readFiles (paths : List String) : IO (List (String × String)) :=
  paths.filterMapM fun path => do return (← readFile? path).map fun text => (path, text)

/-- The files that the arguments name. -/
def namedFiles (arguments : List String) : List String :=
  match Arguments.read arguments with
  | .ok o => o.file.toList ++ o.config.toList
  | .error _ => []

end Influence

open Influence in
/-- Runs the program. -/
def main (arguments : List String) : IO UInt32 := do
  let files ← readFiles (namedFiles arguments)
  let outcome := Command.run (fun path => files.lookup path) arguments
  (← IO.getStdout).putStr outcome.output
  (← IO.getStderr).putStr outcome.errors
  return UInt32.ofNat outcome.code
