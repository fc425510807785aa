import Treewalk.Run
import Treewalk.Source

/-!
# Sessions

A session runs one source text after another.  Between them it keeps the scopes and the flags of what has been
reported, and nothing else.

* `Session.run`: read a source text and run it, unless an error in a source has been reported since the flags were
  last cleared.
* `Session.force`: read a source text and run what could be read of it in any case.
-/

namespace Treewalk

/-- What a session keeps. -/
structure Session where
  flags : Flags
  scopes : Chain
deriving DecidableEq

/-- Why a step of a session ends without results. -/
inductive Escape where
  | unread (stop : Stop)
  | fault (f : Fault)
deriving DecidableEq

/-- What a step of a session gives: the values of the statements that were run, the printed lines and the reports. -/
structure Reply where
  results : Except Escape (List Value)
  printed : List String
  reports : List Report

/-- A step of a session. -/
inductive Step where
  | run (source : String)
  | force (source : String)
  | reset

/-- Text as it goes to an output stream, a line for each item. -/
def linesText (lines : List String) : String :=
  String.join (lines.map (· ++ "\n"))

namespace Reply

/-- Nothing happens. -/
def silent : Reply := ⟨.ok [], [], []⟩

/-- What goes to the output stream. -/
def output (reply : Reply) : String := linesText reply.printed

/-- What goes to the error stream. -/
def errors (reply : Reply) : String := String.join (reply.reports.map Report.text)

end Reply

namespace Session

/-- A new session: nothing reported, no name bound. -/
def start : Session := ⟨.clear, .global .empty⟩

/-- Run a program.  An error at run time is reported and ends it; its results up to then remain. -/
def interpret (session : Session) (program : List Stmt) : Session × Reply :=
  let run := runProgram program session.scopes
  match run.halt with
  | none => (⟨session.flags, run.scopes⟩, ⟨.ok run.values, run.printed, []⟩)
  | some (.error e) => (⟨session.flags.record e.report, run.scopes⟩, ⟨.ok run.values, run.printed, [e.report]⟩)
  | some (.fault f) => (⟨session.flags, run.scopes⟩, ⟨.error (.fault f), run.printed, []⟩)

/-- Go on after reading: report what there is to report, then run the program or, if it is `gated` and an error in a
source has been reported, run nothing. -/
def proceed (session : Session) (gated : Bool) (reading : SourceReading) : Session × Reply :=
  let session := { session with flags := session.flags.recordAll reading.reports }
  match reading.result with
  | .error stop => (session, ⟨.error (.unread stop), [], reading.reports⟩)
  | .ok program =>
    if gated && session.flags.hadError then (session, ⟨.ok [], [], reading.reports⟩)
    else
      let (session, reply) := session.interpret program
      (session, { reply with reports := reading.reports ++ reply.reports })

/-- Read a source text and run it, unless an error in a source has been reported. -/
def run (session : Session) (source : String) : Session × Reply :=
  session.proceed true (readSource source)

/-- Read a source text and run what could be read of it. -/
def force (session : Session) (source : String) : Session × Reply :=
  session.proceed false (readSource source)

/-- Clear the flags. -/
def reset (session : Session) : Session :=
  { session with flags := .clear }

/-- One step. -/
def step (session : Session) : Step → Session × Reply
  | .run source => session.run source
  | .force source => session.force source
  | .reset => (session.reset, .silent)

/-- Several steps; after each of them the session as it is then, and the reply. -/
def steps (session : Session) : List Step → List (Session × Reply)
  | [] => []
  | s :: later =>
    let next := session.step s
    next :: steps next.1 later

end Session

end Treewalk
