import Treewalk.Program

/-!
# Reading source texts

Scanning and reading a source text in one go.  The errors in the text come first, then those in its tokens.
-/

namespace Treewalk

/-- The outcome of reading a source text: the program in it, unless reading stopped, and what there is to report. -/
structure SourceReading where
  result : Except Stop (List Stmt)
  reports : List Report

/-- Read the program in what scanning gave. -/
def Scanned.read (scanned : Scanned) : SourceReading :=
  let reading := parse scanned.tokens
  ⟨reading.result, scanned.errors.map LexicalError.report ++ reading.errors.map SyntaxError.report⟩

/-- Read the program in a source text. -/
def readSource (source : String) : SourceReading :=
  (scan source).read

/-- The outcome of reading one expression from a source text; `next` is the number of tokens taken. -/
structure ExpressionReading where
  result : Except Stop Expr
  reports : List Report
  next : Nat

/-- Read one expression from the front of a source text, and leave the rest. -/
def readExpression (source : String) : ExpressionReading :=
  let scanned := scan source
  let reading := parseExpression scanned.tokens
  { result := reading.result
    reports := scanned.errors.map LexicalError.report ++ reading.errors.map SyntaxError.report
    next := scanned.tokens.length - reading.rest.length }

end Treewalk
