import Treewalk.Token.Scan

/-!
# Error reports

An error is reported as one line of text, and from then on a flag remembers that there was one.  Errors in the
source and errors at run time have a flag each, and stay until the flags are cleared.
-/

namespace Treewalk

/-- A reported error. -/
inductive Report where
  /-- An error in the source of which only the line is known. -/
  | onLine (line : Int) (message : String)
  /-- An error in the source at a token. -/
  | atToken (token : Token) (message : String)
  /-- An error while running; the token tells the line. -/
  | running (token : Token) (message : String)
deriving DecidableEq

namespace Report

/-- Where an error at a token is said to be. -/
def place (token : Token) : String :=
  if token.kind = .eof then " at end" else " at '" ++ token.lexeme ++ "'"

/-- The line of text that reports an error. -/
def text : Report → String
  | .onLine line message => "[line " ++ toString line ++ "] Error: " ++ message ++ "\n"
  | .atToken token message => "[line " ++ toString token.line ++ "] Error" ++ place token ++ ": " ++ message ++ "\n"
  | .running token message => "[line " ++ toString token.line ++ "] Error: " ++ message ++ "\n"

end Report

/-- The report of an error met while scanning. -/
def LexicalError.report (e : LexicalError) : Report :=
  .onLine e.line e.problem.message

/-- What has been reported since the flags were last cleared. -/
structure Flags where
  /-- There was an error in a source. -/
  hadError : Bool
  /-- There was an error at run time. -/
  hadRuntimeError : Bool
deriving DecidableEq

namespace Flags

/-- Nothing has been reported. -/
def clear : Flags := ⟨false, false⟩

/-- Remember one report. -/
def record (flags : Flags) : Report → Flags
  | .running _ _ => { flags with hadRuntimeError := true }
  | _ => { flags with hadError := true }

/-- Remember several reports. -/
def recordAll (flags : Flags) (reports : List Report) : Flags :=
  reports.foldl record flags

end Flags

end Treewalk
