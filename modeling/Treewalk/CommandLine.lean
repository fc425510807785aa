import Treewalk.Directory
import Treewalk.Prompt

/-!
# The command line

Without arguments the program starts the prompt, with one it runs that script, and with more it explains its use.

* `CommandLine.run`: exit code and output for given arguments, files and lines at the prompt.
* `CommandLine.unifyLineEnds`: in a script, every kind of line end counts as a line feed.
-/

namespace Treewalk

/-- Why the program breaks off without an exit code. -/
inductive Crash where
  | escape (e : Escape)
  /-- The script is there but cannot be opened. -/
  | unopened (e : OpenError)
  /-- The script is not valid UTF-8. -/
  | notText
deriving DecidableEq

/-- What the world sees of a run of the program. -/
structure Console where
  exit : Except Crash Nat
  output : String
  errors : String

/-- What the arguments ask for. -/
inductive Request where
  | prompt
  | script (path : String)
  | usage
deriving DecidableEq

namespace CommandLine

/-- What the arguments ask for. -/
def request : List String → Request
  | [] => .prompt
  | [path] => .script path
  | _ => .usage

/-- How to use the program. -/
def usageText : String := "Usage: lox [script]\n"

/-- Each carriage return, with a line feed behind it or without, becomes a line feed. -/
def unifyLineEnds : List Char → List Char
  | '\r' :: '\n' :: rest => '\n' :: unifyLineEnds rest
  | '\r' :: rest => '\n' :: unifyLineEnds rest
  | c :: rest => c :: unifyLineEnds rest
  | [] => []

/-- The source text in the bytes of a script. -/
def decodeScript (bytes : ByteArray) : Option String :=
  (String.fromUTF8? bytes).map fun text => String.ofList (unifyLineEnds text.toList)

/-- The exit code after a script: an error in the source comes before one at run time. -/
def exitCode (flags : Flags) : Nat :=
  if flags.hadError then 65 else if flags.hadRuntimeError then 70 else 0

/-- Run the source text of a script. -/
def runText (source : String) : Console :=
  let (session, reply) := Session.start.run source
  match reply.results with
  | .ok _ => ⟨.ok (exitCode session.flags), reply.output, reply.errors⟩
  | .error escape => ⟨.error (.escape escape), reply.output, reply.errors⟩

/-- Run a script from its bytes, or say that there is no such file. -/
def runScript (path : String) : Except OpenError ByteArray → Console
  | .error .missing => ⟨.ok 66, "", "Error: file " ++ path ++ " not found\n"⟩
  | .error e => ⟨.error (.unopened e), "", ""⟩
  | .ok bytes =>
    match decodeScript bytes with
    | none => ⟨.error .notText, "", ""⟩
    | some source => runText source

/-- Run the prompt on the given input. -/
def runPrompt (input : List PromptInput) : Console :=
  let talk := Prompt.converse .start input
  match talk.escape with
  | none => ⟨.ok 0, talk.output, talk.errors⟩
  | some escape => ⟨.error (.escape escape), talk.output, talk.errors⟩

/-- Run the program with the given arguments, way of reading files, and input. -/
def run (arguments : List String) (read : String → Except OpenError ByteArray) (input : List PromptInput) : Console :=
  match request arguments with
  | .prompt => runPrompt input
  | .script path => runScript path (read path)
  | .usage => ⟨.ok 64, usageText, ""⟩

end CommandLine

end Treewalk
