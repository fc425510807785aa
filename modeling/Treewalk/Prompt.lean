import Treewalk.Session

/-!
# The interactive prompt

At the prompt each line is a source text of its own.  Names stay bound from line to line, while the flags are cleared
after each line; an empty line does nothing.  The prompt ends at the end of input or when it is interrupted.
-/

namespace Treewalk

/-- What can arrive at the prompt. -/
inductive PromptInput where
  | line (text : String)
  | interrupt
deriving DecidableEq

/-- What happened at a prompt: a reply to each line, the session at the end, and what broke it off, if anything. -/
structure Conversation where
  replies : List Reply
  session : Session
  escape : Option Escape

namespace Prompt

/-- The greeting. -/
def banner : String := "Lox REPL (Ctrl+C to exit)\n"

/-- The mark that asks for a line. -/
def mark : String := "> "

/-- The last words. -/
def farewell : String := "\nExiting.\n"

/-- Enter one line. -/
def enter (session : Session) (line : String) : Session × Reply :=
  if line = "" then (session, .silent)
  else
    let (session, reply) := session.run line
    match reply.results with
    | .ok _ => (session.reset, reply)
    | .error _ => (session, reply)

/-- Enter lines until there are no more or an interrupt arrives.  A line that breaks off ends everything. -/
def converse (session : Session) : List PromptInput → Conversation
  | .line text :: later =>
    let (session, reply) := enter session text
    match reply.results with
    | .ok _ =>
      let more := converse session later
      { more with replies := reply :: more.replies }
    | .error escape => ⟨[reply], session, some escape⟩
  | .interrupt :: _ => ⟨[], session, none⟩
  | [] => ⟨[], session, none⟩

end Prompt

namespace Conversation

/-- What goes to the output stream. -/
def output (talk : Conversation) : String :=
  Prompt.banner ++ String.join (talk.replies.map fun reply => Prompt.mark ++ reply.output) ++
    match talk.escape with
    | none => Prompt.mark ++ Prompt.farewell
    | some _ => ""

/-- What goes to the error stream. -/
def errors (talk : Conversation) : String :=
  String.join (talk.replies.map Reply.errors)

end Conversation

end Treewalk
