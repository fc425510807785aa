import Treewalk.Token.Scan

/-!
# Lexemes

The texts of the tokens, without a view to how they are found, and what it means that a source text is cut into
segments by the rule of the longest match.

* `Lexeme`: the texts of tokens, each with the kind and the value it determines.
* `Fits`: what a segment may be, given the text behind it.  A token is the longest lexeme at its place.
* `Segmentation`: a text is made up of segments that fit.
-/

namespace Treewalk

/-- The operators, brackets and separators with their kinds. -/
def operatorLexemes : List (List Char × TokenKind) :=
  [(['('], .leftParen), ([')'], .rightParen), (['\x7b'], .leftBrace), (['\x7d'], .rightBrace), ([','], .comma),
    (['.'], .dot), (['-'], .minus), (['+'], .plus), ([';'], .semicolon), (['/'], .slash), (['*'], .star),
    (['!'], .bang), (['!', '='], .bangEqual), (['='], .equal), (['=', '='], .equalEqual),
    (['>'], .greater), (['>', '='], .greaterEqual), (['<'], .less), (['<', '='], .lessEqual)]

/-- The texts of tokens, with the kind and the value that each of them determines. -/
inductive Lexeme : List Char → TokenKind → Value → Prop where
  | operator {text : List Char} {kind : TokenKind} (h : (text, kind) ∈ operatorLexemes) : Lexeme text kind .nil
  | whole {digits : List Char} (hne : digits ≠ []) (h : ∀ d ∈ digits, d.isDigit = true) :
      Lexeme digits .number (.num (Decimal.ofDigits digits []).toFloat)
  | fraction {digits fraction : List Char} (hne : digits ≠ []) (h : ∀ d ∈ digits, d.isDigit = true)
      (hne' : fraction ≠ []) (h' : ∀ d ∈ fraction, d.isDigit = true) :
      Lexeme (digits ++ '.' :: fraction) .number (.num (Decimal.ofDigits digits fraction).toFloat)
  | string {body : List Char} (h : '"' ∉ body) : Lexeme ('"' :: (body ++ ['"'])) .string (.str (String.ofList body))
  | reserved {word : String} {kind : TokenKind} (h : (word, kind) ∈ TokenKind.reservedWords) :
      Lexeme word.toList kind .nil
  | name {c : Char} {letters : List Char} (hc : isNameStart c = true) (h : ∀ d ∈ letters, isNamePart d = true)
      (hfree : String.ofList (c :: letters) ∉ TokenKind.reservedWords.map Prod.fst) :
      Lexeme (c :: letters) .identifier .nil

/-- What a segment may be in front of the text `rest`. -/
inductive Fits : Segment → List Char → Prop where
  /-- A token is the longest lexeme at its place, and does not start a comment. -/
  | token {text rest : List Char} {kind : TokenKind} {literal : Value} (h : Lexeme text kind literal)
      (hlongest : ∀ other kind literal, Lexeme other kind literal → other <+: text ++ rest →
        other.length ≤ text.length)
      (hcomment : ¬['/', '/'] <+: text ++ rest) : Fits ⟨.token kind literal, text⟩ rest
  | blank {c : Char} {rest : List Char} (h : c ∈ [' ', '\t', '\r', '\n']) : Fits ⟨.blank, [c]⟩ rest
  /-- A comment reaches to the end of its line, or of the text. -/
  | comment {body rest : List Char} (h : '\n' ∉ body) (hrest : rest = [] ∨ ∃ more, rest = '\n' :: more) :
      Fits ⟨.comment, '/' :: '/' :: body⟩ rest
  /-- A stray character is none that could start anything else. -/
  | stray {c : Char} {rest : List Char} (hblank : c ∉ [' ', '\t', '\r', '\n'])
      (h : ∀ more kind literal, ¬Lexeme (c :: more) kind literal) : Fits ⟨.stray, [c]⟩ rest
  /-- A string that is never closed reaches to the end of the text. -/
  | unterminated {body : List Char} (h : '"' ∉ body) : Fits ⟨.unterminated, '"' :: body⟩ []

/-- The text is made up of the segments, each of which fits in front of what follows it. -/
inductive Segmentation : List Char → List Segment → Prop where
  | nil : Segmentation [] []
  | cons {s : Segment} {rest : List Char} {later : List Segment} (h : Fits s rest) (hlater : Segmentation rest later) :
      Segmentation (s.text ++ rest) (s :: later)

/-- The token that a segment is, if it is one: its kind, text and value. -/
def Segment.token? : Segment → Option (TokenKind × String × Value)
  | ⟨.token kind literal, text⟩ => some (kind, String.ofList text, literal)
  | _ => none

/-- What is reported about a segment, if anything. -/
def Segment.complaint? : Segment → Option String
  | ⟨.stray, _⟩ => some "Unexpected character."
  | ⟨.unterminated, _⟩ => some "Unterminated string."
  | _ => none

end Treewalk
