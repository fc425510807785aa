import Treewalk.Token.Segment

/-!
# Scanning

`scan` turns a source text into its tokens, with an end mark behind them, and the errors it met on the way.  Tokens
and errors carry the line on which their segment ends, so a string over several lines counts for its last one.
-/

namespace Treewalk

/-- What can be wrong with a stretch of source text. -/
inductive LexicalProblem where
  | unexpectedCharacter
  | unterminatedString
deriving DecidableEq

/-- The wording of a lexical problem. -/
def LexicalProblem.message : LexicalProblem → String
  | .unexpectedCharacter => "Unexpected character."
  | .unterminatedString => "Unterminated string."

/-- A stretch of source text that is no token, and its line. -/
structure LexicalError where
  line : Int
  problem : LexicalProblem
deriving DecidableEq

/-- The outcome of scanning. -/
structure Scanned where
  tokens : List Token
  errors : List LexicalError
deriving DecidableEq

/-- Whether a line end may stand in a segment: as a blank, or in a string, even in one that is never closed.  A comment
stops in front of it. -/
def Piece.mayEndLine : Piece → Bool
  | .token kind _ => kind = .string
  | .blank | .unterminated => true
  | .comment | .stray => false

/-- How many lines a segment ends.  They are counted only where a line end may stand. -/
def Segment.lineEnds (s : Segment) : Nat :=
  if s.piece.mayEndLine then s.text.count '\n' else 0

/-- The tokens and errors of a list of segments, the first of which starts on the given line. -/
def Scanned.ofSegments (line : Int) : List Segment → Scanned
  | [] => ⟨[Token.endMark line], []⟩
  | ⟨piece, text⟩ :: later =>
    let line := line + Segment.lineEnds ⟨piece, text⟩
    let ⟨tokens, errors⟩ := ofSegments line later
    match piece with
    | .token kind literal => ⟨⟨kind, String.ofList text, literal, line⟩ :: tokens, errors⟩
    | .blank => ⟨tokens, errors⟩
    | .comment => ⟨tokens, errors⟩
    | .stray => ⟨tokens, ⟨line, .unexpectedCharacter⟩ :: errors⟩
    | .unterminated => ⟨tokens, ⟨line, .unterminatedString⟩ :: errors⟩

/-- The tokens of a source text and the errors in it. -/
def scan (source : String) : Scanned :=
  Scanned.ofSegments 1 (Segment.split source.toList)

end Treewalk
