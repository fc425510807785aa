import Treewalk.CommandLine

/-!
# The program

Arguments, files and the terminal, around the pure functions of `CommandLine` and `Prompt`.
-/

namespace Treewalk

/-- The bytes of a file, if there is one. -/
def readFile (path : String) : IO (Except OpenError ByteArray) := do
  try
    return .ok (← IO.FS.readBinFile path)
  catch
    | .noFileOrDirectory _ _ _ => return .error .missing
    | e => throw e

/-- Show what a run gave; a run that broke off has the exit code 1. -/
def finish (console : Console) : IO UInt32 := do
  IO.print console.output
  IO.eprint console.errors
  match console.exit with
  | .ok code => return code.toUInt32
  | .error _ => return 1

/-- A line of input without its line end. -/
def withoutLineEnd (line : String) : String :=
  let text := CommandLine.unifyLineEnds line.toList
  String.ofList (if text.getLast? = some '\n' then text.dropLast else text)

/-- Ask for lines and answer them until the input ends. -/
partial def talk (session : Session) (input : IO.FS.Stream) : IO UInt32 := do
  IO.print Prompt.mark
  (← IO.getStdout).flush
  let line ← input.getLine
  if line.isEmpty then
    IO.print Prompt.farewell
    return 0
  let (session, reply) := Prompt.enter session (withoutLineEnd line)
  IO.print reply.output
  IO.eprint reply.errors
  match reply.results with
  | .ok _ => talk session input
  | .error _ => return 1

end Treewalk

open Treewalk

/-- Run the program with the arguments of the command line. -/
def main (arguments : List String) : IO UInt32 := do
  match CommandLine.request arguments with
  | .prompt =>
    IO.print Prompt.banner
    talk .start (← IO.getStdin)
  | .script path => finish (CommandLine.runScript path (← readFile path))
  | .usage => finish (CommandLine.run arguments (fun _ => .error .missing) [])
