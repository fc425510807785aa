import Treewalk.Tree.Outline
import Treewalk.Proofs.Decimal.Fewest
import Treewalk.Proofs.Lexeme.Exact
import Treewalk.Proofs.Pieces

/-!
# Literals that read back

The outline of a literal is a source text for its value, for every value that can be written at all.  Strings and the
three words are lexemes with the value as their meaning.  The text of a number is a numeral, perhaps with a minus sign,
which is an operator of its own: what is read is the negation of the absolute value.

* `Decimal.lexeme_text`: the text of a decimal is a numeral for the double nearest to it.
* `Lexeme.split_semicolon`: a lexeme ends where a semicolon stands behind it.
* `Session.run_outline`: running the outline of a literal gives its value, and no report.
-/

namespace Treewalk

open Float.Model Float.Model.UnpackedFloat

/-- The values that can be written in a source text: all but the infinite doubles, the NaN and the strings with a
quotation mark. -/
def Value.Expressible : Value → Prop
  | .num x => x.isFinite = true
  | .str s => '"' ∉ s.toList
  | _ => True

/-- Digits, and a point with more digits behind it if there is a fraction. -/
def IsNumeral (text : List Char) : Prop :=
  ∃ whole fraction : List Char, whole ≠ [] ∧ (∀ d ∈ whole ++ fraction, d.isDigit = true) ∧
    text = whole ++ if fraction = [] then [] else '.' :: fraction

/-! ### The text of a number -/

/-- The text of a decimal is a lexeme for the double nearest to it. -/
theorem Decimal.lexeme_text (d : Decimal) : Lexeme d.text.toList .number (.num d.toFloat) := by
  have hread := d.ofDigits_wholeDigits
  have hlength := d.length_fractionDigits
  rw [text, String.toList_ofList]
  split
  · next hplaces =>
    have hnone : d.fractionDigits = [] := List.eq_nil_of_length_eq_zero (hlength.trans hplaces)
    have hlexeme := Lexeme.whole d.wholeDigits_ne_nil (fun _ => isDigit_of_mem_wholeDigits)
    rwa [← hnone, hread] at hlexeme
  · next hplaces =>
    have hsome : d.fractionDigits ≠ [] := by
      intro hnil
      rw [hnil] at hlength
      exact hplaces hlength.symm
    have hlexeme := Lexeme.fraction d.wholeDigits_ne_nil (fun _ => isDigit_of_mem_wholeDigits) hsome
      (fun _ => isDigit_of_mem_fractionDigits)
    rwa [hread] at hlexeme

theorem Decimal.IsShortest.lexeme {d : Decimal} {x : Float} (h : d.IsShortest x) :
    Lexeme d.text.toList .number (.num x) :=
  h.reads ▸ d.lexeme_text

private theorem IsNumeral.count_newline {text : List Char} (h : IsNumeral text) : text.count '\n' = 0 := by
  obtain ⟨whole, fraction, -, hdigits, rfl⟩ := h
  have hnone : '\n' ∉ whole ++ fraction := fun hmem => absurd (hdigits _ hmem) (by decide)
  rw [List.count_eq_zero]
  rw [List.mem_append] at hnone ⊢
  split <;> simp_all

theorem Lexeme.isNumeral {text : List Char} {literal : Value} (h : Lexeme text .number literal) : IsNumeral text := by
  cases h with
  | operator h =>
    have hfree : ∀ entry ∈ operatorLexemes, entry.2 ≠ .number := by decide
    exact absurd rfl (hfree _ h)
  | whole hne h => exact ⟨_, [], hne, by simpa using h, by simp⟩
  | fraction hne h hne' h' =>
    refine ⟨_, _, hne, ?_, by rw [if_neg hne']⟩
    intro d hd
    exact (List.mem_append.1 hd).elim (h d) (h' d)
  | reserved h =>
    have hfree : ∀ entry ∈ TokenKind.reservedWords, entry.2 ≠ .number := by decide
    exact absurd rfl (hfree _ h)

/-! ### Scanning a literal -/

open Segment

private theorem separates_semicolon : Separates ';' := by
  constructor <;> decide

/-- A lexeme ends where a semicolon stands behind it. -/
theorem Lexeme.split_semicolon {text : List Char} {kind : TokenKind} {literal : Value} (h : Lexeme text kind literal) :
    split (text ++ [';']) = [⟨.token kind literal, text⟩, ⟨.token .semicolon .nil, [';']⟩] := by
  have hsemicolon : Lexeme [';'] .semicolon .nil := .operator (by decide)
  rw [h.split_append separates_semicolon, hsemicolon.split_eq]

private theorem Lexeme.lineEnds_eq {text : List Char} {kind : TokenKind} {literal : Value}
    (h : Lexeme text kind literal) : lineEnds ⟨.token kind literal, text⟩ = text.count '\n' := by
  have hsum := sum_lineEnds_split text
  rwa [h.split_eq, List.map_singleton, List.sum_singleton] at hsum

/-- A lexeme by itself is scanned as one token, without errors. -/
private theorem Lexeme.scan_eq {text : String} {kind : TokenKind} {literal : Value}
    (h : Lexeme text.toList kind literal) :
    let line : Int := 1 + text.toList.count '\n'
    scan text = ⟨[⟨kind, text, literal, line⟩, Token.endMark line], []⟩ := by
  simp only [scan, h.split_eq, Scanned.ofSegments, h.lineEnds_eq, String.ofList_toList]

private theorem scan_literal {text : String} {kind : TokenKind} {literal : Value}
    (h : Lexeme text.toList kind literal) :
    let line : Int := 1 + text.toList.count '\n'
    scan (text ++ ";") =
      ⟨[⟨kind, text, literal, line⟩] ++ [⟨.semicolon, ";", .nil, line⟩] ++ [Token.endMark line], []⟩ := by
  have hsource : (text ++ ";").toList = text.toList ++ [';'] := String.toList_append
  have hends : lineEnds ⟨.token .semicolon .nil, [';']⟩ = 0 := rfl
  simp only [scan, hsource, h.split_semicolon, Scanned.ofSegments, h.lineEnds_eq, hends, String.ofList_toList,
    Int.natCast_zero, Int.add_zero]
  rfl

private theorem scan_negated {text : String} {kind : TokenKind} {literal : Value}
    (h : Lexeme text.toList kind literal) :
    let line : Int := 1 + text.toList.count '\n'
    scan ("-" ++ text ++ ";") = ⟨[⟨.minus, "-", .nil, 1⟩, ⟨kind, text, literal, line⟩] ++
      [⟨.semicolon, ";", .nil, line⟩] ++ [Token.endMark line], []⟩ := by
  have hsource : ("-" ++ text ++ ";").toList = '-' :: (text.toList ++ [';']) := by
    rw [String.toList_append, String.toList_append]
    rfl
  have hminus (cs : List Char) : split ('-' :: cs) = ⟨.token .minus .nil, ['-']⟩ :: split cs := split.eq_2 '-' cs
  have hends : lineEnds ⟨.token .semicolon .nil, [';']⟩ = 0 := rfl
  have hends' : lineEnds ⟨.token .minus .nil, ['-']⟩ = 0 := rfl
  simp only [scan, hsource, hminus, h.split_semicolon, Scanned.ofSegments, h.lineEnds_eq, hends, hends',
    String.ofList_toList, Int.natCast_zero, Int.add_zero]
  rfl

/-! ### Reading and running a literal -/

private theorem ReadsAs.expression_of_unary {room : Nat} {ts : List Token} {e : Expr} {notes : List SyntaxError}
    (h : ReadsAs room .unary ts e notes) : ReadsAs (room + 6) .expression ts e notes :=
  .expression (.assignment h.equality_of_unary)

namespace Session

/-- Running a text with one expression and a semicolon in it gives the value of the expression. -/
private theorem run_of_scan {session : Session} {source : String} {ts : List Token} {semicolon mark : Token} {e : Expr}
    {v : Value} {room : Nat} (hflag : session.flags.hadError = false)
    (hscan : scan source = ⟨ts ++ [semicolon] ++ [mark], []⟩)
    (hsemicolon : semicolon.kind = .semicolon) (hmark : mark.kind = .eof)
    (hread : ReadsAs room .expression ts e []) (hroom : room + 3 ≤ readingRoom)
    (heval : e.eval runningRoom session.scopes = ⟨.ok v, session.scopes, []⟩) :
    session.run source = (session, ⟨.ok [v], [], []⟩) := by
  have hstatements : StatementsReadAs readingRoom (ts ++ [semicolon]) [.expression e] [] := by
    have hcons := StatementsReadAs.cons (.expression hread hsemicolon) .nil
    rw [List.append_nil, List.append_nil] at hcons
    exact hcons.mono hroom
  have hparse := hstatements.parse_eq hmark
  have hsource : readSource source = ⟨.ok [.expression e], []⟩ := by
    rw [readSource, hscan, Scanned.read, hparse]
    rfl
  rw [run_of_readSource hflag hsource]
  simp only [interpret, runProgram, runStatements, Stmt.exec, heval]
  rfl

private theorem run_literal {session : Session} (hflag : session.flags.hadError = false) {text : String}
    {kind : TokenKind} {literal v : Value} (h : Lexeme text.toList kind literal)
    (hread : ∀ t : Token, t.kind = kind → t.literal = literal → ReadsAs 1 .primary [t] (.literal v) []) :
    session.run (text ++ ";") = (session, ⟨.ok [v], [], []⟩) :=
  run_of_scan hflag (scan_literal h) rfl rfl (ReadsAs.unary (hread _ rfl rfl)).expression_of_unary (by decide) rfl

private theorem run_negated {session : Session} (hflag : session.flags.hadError = false) {text : String} {y : Float}
    (h : Lexeme text.toList .number (.num y)) :
    session.run ("-" ++ text ++ ";") = (session, ⟨.ok [.num (-y)], [], []⟩) := by
  -- there are no negative numerals: the sign goes through the rule for operators in front
  have hread {minus t : Token} (hminus : minus.kind = .minus) (ht : t.kind = .number) :
      ReadsAs 3 .unary [minus, t] (.unary minus (.literal t.literal)) [] :=
    .negate (.inl hminus) (.unary (.number ht))
  exact run_of_scan hflag (scan_negated h) rfl rfl (hread rfl rfl).expression_of_unary (by decide) rfl

private theorem run_word {word : String} {kind : TokenKind} {v : Value}
    (h : (word, kind) ∈ TokenKind.reservedWords)
    (hread : ∀ t : Token, t.kind = kind → ReadsAs 1 .primary [t] (.literal v) []) :
    Session.start.run (word ++ ";") = (Session.start, ⟨.ok [v], [], []⟩) :=
  run_literal rfl (.reserved h) (fun t hkind _ => hread t hkind)

private theorem run_string {s : String} (h : '"' ∉ s.toList) :
    Session.start.run ("\"" ++ s ++ "\"" ++ ";") = (Session.start, ⟨.ok [.str s], [], []⟩) := by
  have hlexeme : Lexeme ("\"" ++ s ++ "\"").toList .string (.str s) := by
    have hstring := Lexeme.string h
    rw [String.ofList_toList] at hstring
    rw [String.toList_append, String.toList_append]
    exact hstring
  exact run_literal rfl hlexeme (fun t hkind hliteral => hliteral ▸ .string hkind)

private theorem run_number {x : Float} (h : x.isFinite = true) :
    Session.start.run (numberText x ++ ";") = (Session.start, ⟨.ok [.num x], [], []⟩) := by
  obtain ⟨d, y, hd, ⟨htext, rfl⟩ | ⟨htext, rfl⟩⟩ := numberText_of_isFinite h
  · rw [htext]
    exact run_literal rfl hd.lexeme (fun t hkind hliteral => hliteral ▸ .number hkind)
  · rw [htext]
    exact run_negated rfl hd.lexeme

/-- Printed values read back.  For every value that can be written in a source text, the outline of its literal is one:
with a semicolon behind it, it runs in a new session without a report, and the value is the only result.  The text of
a number is a numeral, which is scanned as a single token, perhaps behind a minus sign. -/
theorem run_outline {v : Value} (h : v.Expressible) : ∃ text,
    (Expr.literal v).outline outlineRoom = .ok text ∧
      Session.start.run (text ++ ";") = (Session.start, ⟨.ok [v], [], []⟩) ∧
      ∀ x, v = .num x → ∃ numeral y, (v.text = numeral ∨ v.text = "-" ++ numeral) ∧ IsNumeral numeral.toList ∧
        scan numeral = ⟨[⟨.number, numeral, .num y, 1⟩, Token.endMark 1], []⟩ := by
  refine ⟨v.outline, rfl, ?_, ?_⟩
  · cases v with
    | nil => exact run_word (by decide) (fun t hkind => .nil_ hkind)
    | bool b =>
      cases b with
      | true => exact run_word (by decide) (fun t hkind => .true_ hkind)
      | false => exact run_word (by decide) (fun t hkind => .false_ hkind)
    | num x => exact run_number h
    | str s => exact run_string h
  · rintro x rfl
    obtain ⟨d, y, hd, htext⟩ := numberText_of_isFinite h
    have hscan := hd.lexeme.scan_eq
    rw [hd.lexeme.isNumeral.count_newline] at hscan
    exact ⟨d.text, y, htext.imp And.left And.left, hd.lexeme.isNumeral, hscan⟩

theorem run_outline_negative_zero :
    (Expr.literal (.num (-0.0))).outline outlineRoom = .ok "-0" ∧
      Session.start.run "-0;" = (Session.start, ⟨.ok [.num (-0.0)], [], []⟩) := by
  have houtline : (Expr.literal (.num (-0.0))).outline outlineRoom = .ok "-0" := by rfl
  obtain ⟨text, htext, hrun, -⟩ := run_outline (v := .num (-0.0)) (by rfl)
  cases houtline.symm.trans htext
  exact ⟨houtline, hrun⟩

end Session

end Treewalk
