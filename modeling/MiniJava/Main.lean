import MiniJava.CommandLine.Run

/-!
# The command
-/

namespace MiniJava

/-- The text of a file, if it can be read. -/
def readFile? (path : String) : IO (Option String) := do
  try
    return some (← IO.FS.readFile path)
  catch _ =>
    return none

/-- Writes a file and tells whether that worked. -/
def writeFile (path text : String) : IO Bool := do
  try
    IO.FS.writeFile path text
    return true
  catch _ =>
    return false

end MiniJava

open MiniJava in
/-- Reads the files that the arguments name, runs the command, and does what is left to do. -/
def main (args : List String) : IO UInt32 := do
  let files ← (CommandLine.inputs args).mapM fun path => return (path, ← readFile? path)
  let outcome ← match CommandLine.run (fun path => (files.lookup path).bind id) args with
    | .finish outcome => pure outcome
    | .write path text => pure (CommandLine.afterWrite path (← writeFile path text))
  (← IO.getStdout).putStr outcome.stdout
  (← IO.getStderr).putStr outcome.stderr
  return outcome.exitCode
