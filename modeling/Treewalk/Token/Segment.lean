import Treewalk.Token

/-!
# Segments of a source text

Every text splits into segments, each of which is a token, a blank, a comment, a stray character that can start
nothing, or a string that is never closed.  The first character of a segment decides what it is, and the segment
reaches as far as its kind allows.

* `Segment.first`: the first segment of a text, and the rest.
* `Segment.first_text_append`: the segment's text and the rest make up the text.
* `Segment.split`: all segments of a text.
-/

namespace Treewalk

/-! ### Character classes -/

/-- Space, tab, carriage return and line feed separate tokens and mean nothing else. -/
def isBlank (c : Char) : Bool :=
  c = ' ' || c = '\t' || c = '\r' || c = '\n'

/-- Names and words start with an ASCII letter or an underscore. -/
def isNameStart (c : Char) : Bool :=
  c.isAlpha || c = '_'

/-- Names and words go on with letters, underscores and digits. -/
def isNamePart (c : Char) : Bool :=
  isNameStart c || c.isDigit

/-- What a character can start. -/
inductive Lead where
  /-- A token of one character. -/
  | mark (kind : TokenKind)
  /-- A token that is longer if an equals sign follows. -/
  | markOrEqual (alone followed : TokenKind)
  /-- A division sign or a comment. -/
  | slash
  | blank
  | quote
  | digit
  | letter
  | nothing
deriving DecidableEq

namespace Lead

/-- The characters that are neither blanks, digits nor letters and can start something. -/
def marks : List (Char × Lead) :=
  [('(', .mark .leftParen), (')', .mark .rightParen), ('\x7b', .mark .leftBrace), ('\x7d', .mark .rightBrace),
    (',', .mark .comma), ('.', .mark .dot), ('-', .mark .minus), ('+', .mark .plus), (';', .mark .semicolon),
    ('*', .mark .star), ('!', .markOrEqual .bang .bangEqual), ('=', .markOrEqual .equal .equalEqual),
    ('<', .markOrEqual .less .lessEqual), ('>', .markOrEqual .greater .greaterEqual), ('/', .slash), ('"', .quote)]

/-- What the character `c` can start. -/
def of (c : Char) : Lead :=
  if isBlank c then .blank
  else if c.isDigit then .digit
  else if isNameStart c then .letter
  else (marks.lookup c).getD .nothing

end Lead

/-! ### Segments -/

/-- What a segment is. -/
inductive Piece where
  | token (kind : TokenKind) (literal : Value)
  | blank
  | comment
  /-- A character that can start nothing. -/
  | stray
  /-- A string whose closing quote is missing. -/
  | unterminated
deriving DecidableEq

/-- A stretch of source text and what it is. -/
structure Segment where
  piece : Piece
  text : List Char
deriving DecidableEq

namespace Segment

/-- A numeral whose digits before the point are `whole`: a point belongs to it only if a digit follows. -/
def numeral (whole cs : List Char) : Segment × List Char :=
  match cs with
  | '.' :: d :: after =>
    if d.isDigit then
      let fraction := d :: after.takeWhile Char.isDigit
      (⟨.token .number (.num (Decimal.ofDigits whole fraction).toFloat), whole ++ '.' :: fraction⟩,
        after.dropWhile Char.isDigit)
    else (⟨.token .number (.num (Decimal.ofDigits whole []).toFloat), whole⟩, cs)
  | _ => (⟨.token .number (.num (Decimal.ofDigits whole []).toFloat), whole⟩, cs)

/-- A string that `quote` opens: it ends with the next such mark, on whichever line that is. -/
def quoted (quote : Char) (cs : List Char) : Segment × List Char :=
  let body := cs.takeWhile (· ≠ quote)
  match cs.dropWhile (· ≠ quote) with
  | close :: rest => (⟨.token .string (.str (String.ofList body)), quote :: (body ++ [close])⟩, rest)
  | [] => (⟨.unterminated, quote :: cs⟩, [])

/-- A word: a reserved word, or else a name. -/
def word (letters : List Char) : Segment :=
  ⟨.token ((TokenKind.reserved? (String.ofList letters)).getD .identifier) .nil, letters⟩

/-- The first segment of the text `c :: cs`, and the text after it. -/
def first (c : Char) (cs : List Char) : Segment × List Char :=
  match Lead.of c with
  | .mark kind => (⟨.token kind .nil, [c]⟩, cs)
  | .markOrEqual alone followed =>
    match cs with
    | '=' :: rest => (⟨.token followed .nil, [c, '=']⟩, rest)
    | _ => (⟨.token alone .nil, [c]⟩, cs)
  | .slash =>
    match cs with
    | '/' :: rest => (⟨.comment, c :: '/' :: rest.takeWhile (· ≠ '\n')⟩, rest.dropWhile (· ≠ '\n'))
    | _ => (⟨.token .slash .nil, [c]⟩, cs)
  | .blank => (⟨.blank, [c]⟩, cs)
  | .quote => quoted c cs
  | .digit => numeral (c :: cs.takeWhile Char.isDigit) (cs.dropWhile Char.isDigit)
  | .letter => (word (c :: cs.takeWhile isNamePart), cs.dropWhile isNamePart)
  | .nothing => (⟨.stray, [c]⟩, cs)

/-! ### Nothing is lost -/

private theorem numeral_text_append (whole cs : List Char) :
    (numeral whole cs).1.text ++ (numeral whole cs).2 = whole ++ cs := by
  unfold numeral
  split
  · split <;> simp
  · rfl

private theorem quoted_text_append (quote : Char) (cs : List Char) :
    (quoted quote cs).1.text ++ (quoted quote cs).2 = quote :: cs := by
  unfold quoted
  split
  · next close rest h =>
    have := List.takeWhile_append_dropWhile (p := (· ≠ quote)) (l := cs)
    rw [h] at this
    simpa using this
  · simp

/-- The text of the first segment and the rest make up the text. -/
theorem first_text_append (c : Char) (cs : List Char) :
    (first c cs).1.text ++ (first c cs).2 = c :: cs := by
  unfold first
  split
  · rfl
  · split <;> rfl
  · split <;> simp
  · rfl
  · exact quoted_text_append c cs
  · simp [numeral_text_append]
  · simp [word]
  · rfl

/-- No segment is empty. -/
theorem first_text_ne_nil (c : Char) (cs : List Char) : (first c cs).1.text ≠ [] := by
  unfold first
  split
  · simp
  · split <;> simp
  · split <;> simp
  · simp
  · unfold quoted; split <;> simp
  · unfold numeral; split
    · split <;> simp
    · simp
  · simp [word]
  · simp

private theorem length_rest_lt (c : Char) (cs : List Char) : (first c cs).2.length < (c :: cs).length := by
  have happ := congrArg List.length (first_text_append c cs)
  have hpos := List.length_pos_iff.2 (first_text_ne_nil c cs)
  rw [List.length_append] at happ
  omega

/-- The segments of a text, in order. -/
def split : List Char → List Segment
  | [] => []
  | c :: cs => (first c cs).1 :: split (first c cs).2
termination_by text => text.length
decreasing_by exact length_rest_lt c cs

end Segment

end Treewalk
