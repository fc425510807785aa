import Treewalk.Proofs.Reading.Statements

/-!
# Programs in front of other tokens

A statement is over with the semicolon or the brace that closes it, and no rule looks at the token behind that one.  So
a program that can be read is read in the same way whatever stands behind it, and the tokens behind it are read as if
they stood alone, with all their errors.

* `StatementReadsAs.run_append`: one statement in front of a list of statements.
* `StatementsReadAs.run_append`: any number of them.
* `parse_append_of_no_errors`: a program without errors in front of any tokens with an end mark.
-/

namespace Treewalk

open Treewalk.Parser

/-- What becomes of the reading of a list of statements when others stand in front of it. -/
def Reading.behind (before : List Stmt) (notes : List SyntaxError) (later : Reading (List Stmt)) :
    Reading (List Stmt) :=
  ⟨later.result.map (before ++ ·), notes ++ later.errors, later.rest⟩

private theorem Reading.behind_nil (later : Reading (List Stmt)) : later.behind [] [] = later := by
  obtain ⟨result, errors, rest⟩ := later
  cases result <;> rfl

private theorem Reading.behind_behind (before before' : List Stmt) (notes notes' : List SyntaxError)
    (later : Reading (List Stmt)) :
    (later.behind before' notes').behind before notes = later.behind (before ++ before') (notes ++ notes') := by
  obtain ⟨result, errors, rest⟩ := later
  cases result <;> simp [behind, Except.map]

theorem StatementReadsAs.run_append {room : Nat} {ts : List Token} {s : Stmt} {notes : List SyntaxError}
    (h : StatementReadsAs room ts s notes) {closing : Option TokenKind}
    (hclosing : closing = none ∨ closing = some .rightBrace) (us : List Token) :
    (statements closing (statement room)).run (ts ++ us) =
      ((statements closing (statement room)).run us).behind [s] notes := by
  have hone := (h.yields us).recovering
  obtain ⟨t, later, rfl, hgo⟩ := h.start_ne_end hclosing
  exact statementsFrom_of_ok hgo hone

/-- What can be read as a list of statements is read in front of any tokens, and these are read as they are alone. -/
theorem StatementsReadAs.run_append {room : Nat} {closing : Option TokenKind}
    (hclosing : closing = none ∨ closing = some .rightBrace) (us : List Token) :
    ∀ {ts : List Token} {ss : List Stmt} {notes : List SyntaxError}, StatementsReadAs room ts ss notes →
      (statements closing (statement room)).run (ts ++ us) =
        ((statements closing (statement room)).run us).behind ss notes
  | _, _, _, .nil => (Reading.behind_nil _).symm
  | _, _, _, .cons h hs => by
    rw [List.append_assoc, h.run_append hclosing, hs.run_append hclosing us, Reading.behind_behind]
    rfl

/-- A program without errors is read independently of what follows.  In front of any tokens with an end mark among them,
however broken, its statements come first, then those read from the tokens behind it, and the errors are exactly those
of the tokens behind it. -/
theorem parse_append_of_no_errors (ts us : List Token) (e : Token) (hts : ∀ t ∈ ts, t.kind ≠ .eof)
    (he : e.kind = .eof) (h : (parse (ts ++ [e])).errors = []) (hus : HasEnd us) :
    ∃ ss ss', (parse (ts ++ [e])).result = .ok ss ∧ (parse us).result = .ok ss' ∧
      parse (ts ++ us) = ⟨.ok (ss ++ ss'), (parse us).errors, (parse us).rest⟩ := by
  obtain ⟨ss, hss, hread⟩ := readAs_of_parse hts he h
  obtain ⟨ss', hss', -⟩ := program_result readingRoom hus
  have hrun : parse (ts ++ us) = (parse us).behind ss [] := hread.run_append (.inl rfl) us
  refine ⟨ss, ss', hss, hss', ?_⟩
  rw [hrun, Reading.behind, show (parse us).result = .ok ss' from hss']
  rfl

/-- The tokens of `= 2; print a;` are as wrong behind `{ a = 1; }` as they are alone, and no more. -/
theorem parse_append_of_no_errors_broken_rest :
    let ts := (scan "\x7b a = 1; \x7d").tokens.dropLast
    let us := (scan "= 2; print a;").tokens
    (∀ t ∈ ts, t.kind ≠ .eof) ∧ (parse (ts ++ [.endMark 1])).errors = [] ∧ HasEnd us ∧
      (parse us).errors.map (·.problem) = [.expectedExpression] ∧
      ∃ ss ss', (parse (ts ++ [.endMark 1])).result = .ok ss ∧ (parse us).result = .ok ss' ∧
        parse (ts ++ us) = ⟨.ok (ss ++ ss'), (parse us).errors, (parse us).rest⟩ := by
  intro ts us
  have hts : ∀ t ∈ ts, t.kind ≠ .eof := by decide +kernel
  have hnone : (parse (ts ++ [.endMark 1])).errors = [] := by decide +kernel
  have hus : HasEnd us := ⟨.endMark 1, by decide +kernel, rfl⟩
  exact ⟨hts, hnone, hus, by decide +kernel, parse_append_of_no_errors ts us (.endMark 1) hts rfl hnone hus⟩

end Treewalk
