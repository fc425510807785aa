import Treewalk.Proofs.Reading.Rules

/-!
# What is read as a statement

The relation `ReadsAs` for statements and lists of statements.  It has no rule for a statement that had to be passed
over, so it describes the readings whose only errors are invalid assignment targets.

* `Parser.statementsReadAs_of_yields`: a list of statements that is yielded with no other errors is read in this sense.
* `StatementsReadAs.yields`: everything that can be read is yielded, within the same allowance.
* `readAs_of_parse`, `StatementsReadAs.parse_eq`: the same for whole programs.
-/

namespace Treewalk

mutual

/-- Within the allowance, all the tokens are read as one statement, and the errors are noted. -/
inductive StatementReadsAs : Nat → List Token → Stmt → List SyntaxError → Prop where
  | declare {room : Nat} {word name semicolon : Token} (hword : word.kind = .var_) (hname : name.kind = .identifier)
      (hsemicolon : semicolon.kind = .semicolon) :
      StatementReadsAs (room + 3) [word, name, semicolon] (.declare name none) []
  | define {room : Nat} {word name equals semicolon : Token} {ts : List Token} {e : Expr} {notes : List SyntaxError}
      (hword : word.kind = .var_) (hname : name.kind = .identifier) (hequals : equals.kind = .equal)
      (h : ReadsAs room .expression ts e notes) (hsemicolon : semicolon.kind = .semicolon) :
      StatementReadsAs (room + 3) (word :: name :: equals :: (ts ++ [semicolon])) (.declare name (some e)) notes
  | print {room : Nat} {word semicolon : Token} {ts : List Token} {e : Expr} {notes : List SyntaxError}
      (hword : word.kind = .print_) (h : ReadsAs room .expression ts e notes)
      (hsemicolon : semicolon.kind = .semicolon) :
      StatementReadsAs (room + 3) (word :: (ts ++ [semicolon])) (.print e) notes
  | block {room : Nat} {opening closing : Token} {ts : List Token} {body : List Stmt} {notes : List SyntaxError}
      (hopening : opening.kind = .leftBrace) (h : StatementsReadAs room ts body notes)
      (hclosing : closing.kind = .rightBrace) :
      StatementReadsAs (room + 3) (opening :: (ts ++ [closing])) (.block body) notes
  | expression {room : Nat} {semicolon : Token} {ts : List Token} {e : Expr} {notes : List SyntaxError}
      (h : ReadsAs room .expression ts e notes) (hsemicolon : semicolon.kind = .semicolon) :
      StatementReadsAs (room + 3) (ts ++ [semicolon]) (.expression e) notes

/-- Within the allowance, all the tokens are read as a list of statements, and the errors are noted. -/
inductive StatementsReadAs : Nat → List Token → List Stmt → List SyntaxError → Prop where
  | nil {room : Nat} : StatementsReadAs room [] [] []
  | cons {room : Nat} {ts us : List Token} {s : Stmt} {ss : List Stmt} {n₁ n₂ : List SyntaxError}
      (h : StatementReadsAs room ts s n₁) (hs : StatementsReadAs room us ss n₂) :
      StatementsReadAs room (ts ++ us) (s :: ss) (n₁ ++ n₂)

end

mutual

/-- A larger allowance serves as well. -/
theorem StatementReadsAs.mono {room room' : Nat} {ts : List Token} {s : Stmt} {notes : List SyntaxError}
    (h : StatementReadsAs room ts s notes) (hroom : room ≤ room') : StatementReadsAs room' ts s notes := by
  obtain ⟨below, rfl⟩ : ∃ k, room' = k + 3 := ⟨room' - 3, by cases h <;> omega⟩
  cases h with
  | declare hword hname hsemicolon => exact .declare hword hname hsemicolon
  | define hword hname hequals h hsemicolon => exact .define hword hname hequals (h.mono (by omega)) hsemicolon
  | print hword h hsemicolon => exact .print hword (h.mono (by omega)) hsemicolon
  | block hopening h hclosing => exact .block hopening (h.mono (by omega)) hclosing
  | expression h hsemicolon => exact .expression (h.mono (by omega)) hsemicolon

theorem StatementsReadAs.mono {room room' : Nat} {ts : List Token} {ss : List Stmt} {notes : List SyntaxError}
    (h : StatementsReadAs room ts ss notes) (hroom : room ≤ room') : StatementsReadAs room' ts ss notes := by
  cases h with
  | nil => exact .nil
  | cons h hs => exact .cons (h.mono hroom) (hs.mono hroom)

end

theorem StatementsReadAs.append {room : Nat} {ts us : List Token} {ss ss' : List Stmt} {n₁ n₂ : List SyntaxError} :
    StatementsReadAs room ts ss n₁ → StatementsReadAs room us ss' n₂ →
      StatementsReadAs room (ts ++ us) (ss ++ ss') (n₁ ++ n₂)
  | .nil, hs' => hs'
  | .cons h hs, hs' => by
    simp only [List.append_assoc, List.cons_append]
    exact .cons h (hs.append hs')

/-- Invalid assignment targets are the only errors. -/
def Mild (notes : List SyntaxError) : Prop := ∀ n ∈ notes, n.problem = .invalidAssignmentTarget

theorem mild_nil : Mild [] := fun _ h => nomatch h

private theorem Mild.left {n₁ n₂ : List SyntaxError} (h : Mild (n₁ ++ n₂)) : Mild n₁ :=
  fun n hn => h n (List.mem_append_left _ hn)

theorem Mild.right {n₁ n₂ : List SyntaxError} (h : Mild (n₁ ++ n₂)) : Mild n₂ :=
  fun n hn => h n (List.mem_append_right _ hn)

namespace Parser

/-! ### Whatever is yielded is read -/

/-- A statement is read, or it is passed over with a grave error. -/
theorem Yields.recovering_cases {item : Parser Stmt} (hitem : item.Orderly) {ts rest : List Token} {s : Stmt}
    {notes : List SyntaxError} (h : (Parser.recovering item).Yields ts s notes rest) :
    item.Yields ts s notes rest ∨ s = .skipped ∧ ∃ error ∈ notes, error.problem ≠ .invalidAssignmentTarget := by
  have hrun : recover (item.run ts) = ⟨.ok s, notes, rest⟩ := h
  have herrors : (recover (item.run ts)).errors = notes := by rw [hrun]
  have hgrave : ∀ error, (item.run ts).result = .error (.rejected error) →
      error ∈ (item.run ts).errors ∧ error.problem ≠ .invalidAssignmentTarget := fun _ => hitem.notes
  have hslot : (item.run ts).result = .ok s ∨ s = .skipped := recover_ok (by rw [hrun])
  rcases hread : item.run ts with ⟨result, errors, left⟩
  rw [hread] at hrun herrors hgrave hslot
  -- a rejection has been noted by the statement, and the limit is noted by the recovery: neither is mild
  match result, left with
  | .ok s', left => exact .inl (hread.trans hrun)
  | .error (.rejected error), left =>
    obtain ⟨hmem, hne⟩ := hgrave error rfl
    rw [recover_rejected, errors_giveUp] at herrors
    exact .inr ⟨hslot.resolve_left (by simp), error, herrors ▸ hmem, hne⟩
  | .error .tooDeep, [] => simp [recover] at hrun
  | .error .tooDeep, t :: left =>
    rw [recover_tooDeep, errors_giveUp] at herrors
    have hmem : (⟨t, .nestedTooDeep⟩ : SyntaxError) ∈ notes := herrors ▸ List.mem_append_right _ List.mem_cons_self
    exact .inr ⟨hslot.resolve_left (by simp), _, hmem, by simp⟩
  | .error .outOfTokens, _ => simp [recover] at hrun

/-- Passing over a statement is not done without a grave error. -/
theorem yields_of_recovering {item : Parser Stmt} (hitem : item.Orderly) {ts rest : List Token} {s : Stmt}
    {notes : List SyntaxError} (h : (recovering item).Yields ts s notes rest) (hnotes : Mild notes) :
    item.Yields ts s notes rest := by
  rcases h.recovering_cases hitem with hread | ⟨-, error, hmem, hne⟩
  · exact hread
  · exact absurd (hnotes error hmem) hne

private theorem statementsReadAs_of_item {room : Nat} {closing : Option TokenKind} {item : Item}
    (hitem : item.toParser.Orderly) (hread : ∀ {ts s notes rest}, item.toParser.Yields ts s notes rest → Mild notes →
      ∃ taken, ts = taken ++ rest ∧ StatementReadsAs room taken s notes)
    {ts rest : List Token} {ss : List Stmt} {notes : List SyntaxError}
    (h : (statements closing item).Yields ts ss notes rest) (hnotes : Mild notes) :
    ∃ taken, ts = taken ++ rest ∧ StatementsReadAs room taken ss notes ∧
      ∃ t later, rest = t :: later ∧ (t.kind = .eof ∨ some t.kind = closing) := by
  refine Yields.statements_induction (motive := fun ts ss notes => Mild notes → ∃ taken, ts = taken ++ rest ∧
    StatementsReadAs room taken ss notes ∧ ∃ t later, rest = t :: later ∧ (t.kind = .eof ∨ some t.kind = closing))
    (fun hrest ht _ => ⟨[], rfl, .nil, _, _, hrest, ht⟩) (fun hs ih hnotes => ?_) h hnotes
  obtain ⟨us, hus, hread⟩ := hread (yields_of_recovering hitem hs hnotes.left) hnotes.left
  obtain ⟨vs, rfl, hmore, hend⟩ := ih hnotes.right
  exact ⟨us ++ vs, by rw [hus, List.append_assoc], .cons hread hmore, hend⟩

private theorem statementReadsAs_of_anyStatement {room : Nat} {value : Parser Expr} {body : Parser (List Stmt)}
    (hvalue : ∀ {ts e notes rest}, value.Yields ts e notes rest →
      ∃ taken, ts = taken ++ rest ∧ ReadsAs room .expression taken e notes)
    (hbody : ∀ {ts ss notes rest}, body.Yields ts ss notes rest → Mild notes →
      ∃ taken, ts = taken ++ rest ∧ StatementsReadAs room taken ss notes)
    {ts rest : List Token} {s : Stmt} {notes : List SyntaxError}
    (h : (anyStatement value body).Yields ts s notes rest) (hnotes : Mild notes) :
    ∃ taken, ts = taken ++ rest ∧ StatementReadsAs (room + 3) taken s notes := by
  rcases h.anyStatement_cases with ⟨word, name, semicolon, hword, hname, hsemicolon, rfl, rfl, rfl⟩ |
    ⟨word, name, equals, us, e, semicolon, hword, hname, hequals, he, hsemicolon, rfl, rfl⟩ |
    ⟨word, us, e, semicolon, hword, he, hsemicolon, rfl, rfl⟩ |
    ⟨opening, us, ss, closing, hopening, hss, hclosing, rfl, rfl⟩ | ⟨e, semicolon, he, hsemicolon, rfl⟩
  · exact ⟨[word, name, semicolon], rfl, .declare hword hname hsemicolon⟩
  · obtain ⟨us, rfl, hus⟩ := hvalue he
    exact ⟨word :: name :: equals :: (us ++ [semicolon]), by simp, .define hword hname hequals hus hsemicolon⟩
  · obtain ⟨us, rfl, hus⟩ := hvalue he
    exact ⟨word :: (us ++ [semicolon]), by simp, .print hword hus hsemicolon⟩
  · obtain ⟨us, rfl, hus⟩ := hbody hss hnotes
    exact ⟨opening :: (us ++ [closing]), by simp, .block hopening hus hclosing⟩
  · obtain ⟨us, rfl, hus⟩ := hvalue he
    exact ⟨us ++ [semicolon], by simp, .expression hus hsemicolon⟩

/-- Whatever is yielded as a statement with mild errors only is read as one. -/
theorem statementReadsAs_of_yields : ∀ {room : Nat} {ts rest : List Token} {s : Stmt} {notes : List SyntaxError},
    (statement room).toParser.Yields ts s notes rest → Mild notes →
      ∃ taken, ts = taken ++ rest ∧ StatementReadsAs room taken s notes
  | 0, _, _, _, _, h, _ => absurd h not_yields_stop
  | 1, _, _, _, _, h, _ => absurd h not_yields_stop
  | 2, _, _, _, _, h, _ => absurd h not_yields_stop
  | room + 3, _, _, _, _, h, hnotes =>
    statementReadsAs_of_anyStatement (Rule.readsAs_of_yields .expression)
      (fun hss hnotes => by
        obtain ⟨taken, hts, hread, -⟩ :=
          statementsReadAs_of_item (statement_orderly room) statementReadsAs_of_yields hss hnotes
        exact ⟨taken, hts, hread⟩)
      h hnotes

/-- Whatever is yielded as a list of statements with mild errors only is read as one, up to a token that ends it. -/
theorem statementsReadAs_of_yields {room : Nat} {closing : Option TokenKind} {ts rest : List Token} {ss : List Stmt}
    {notes : List SyntaxError} (h : (statements closing (statement room)).Yields ts ss notes rest)
    (hnotes : Mild notes) : ∃ taken, ts = taken ++ rest ∧ StatementsReadAs room taken ss notes ∧
      ∃ t later, rest = t :: later ∧ (t.kind = .eof ∨ some t.kind = closing) :=
  statementsReadAs_of_item (statement_orderly room) statementReadsAs_of_yields h hnotes

end Parser

/-! ### Whatever can be read is yielded -/

/-- The kinds of tokens that start a statement. -/
def Stmt.starters : List TokenKind := .var_ :: .print_ :: .leftBrace :: Rule.starters

/-- A statement starts neither with the end mark nor with a closing brace. -/
theorem StatementReadsAs.start {room : Nat} {ts : List Token} {s : Stmt} {notes : List SyntaxError}
    (h : StatementReadsAs room ts s notes) : ∃ t later, ts = t :: later ∧ t.kind ∈ Stmt.starters := by
  cases h with
  | declare h | define h | print h | block h => exact ⟨_, _, rfl, by rw [h]; decide⟩
  | expression h =>
    obtain ⟨t, later, rfl, ht⟩ := h.start
    exact ⟨t, _, rfl, by simp [Stmt.starters, ht]⟩

/-- A statement is not taken for the end of the list in which it stands. -/
theorem StatementReadsAs.start_ne_end {room : Nat} {ts : List Token} {s : Stmt} {notes : List SyntaxError}
    (h : StatementReadsAs room ts s notes) {closing : Option TokenKind}
    (hclosing : closing = none ∨ closing = some .rightBrace) :
    ∃ t later, ts = t :: later ∧ ¬(t.kind = .eof ∨ some t.kind = closing) := by
  obtain ⟨t, later, rfl, ht⟩ := h.start
  refine ⟨t, later, rfl, ?_⟩
  rintro (hk | hk)
  · rw [hk] at ht; revert ht; decide
  · rcases hclosing with rfl | rfl
    · cases hk
    · rw [Option.some.inj hk] at ht; revert ht; decide

section

open Treewalk.Parser

private theorem stops_semicolon {t : Token} (h : t.kind = .semicolon) (rest : List Token) :
    Rule.expression.Stops (t :: rest) :=
  ⟨t, rest, rfl, by rw [h]; decide⟩

private theorem yields_effect {room : Nat} {ts : List Token} {e : Expr} {notes : List SyntaxError}
    {semicolon : Token} (h : ReadsAs room .expression ts e notes) (hsemicolon : semicolon.kind = .semicolon)
    (rest : List Token) :
    (statement (room + 3)).toParser.Yields (ts ++ semicolon :: rest) (.expression e) notes rest := by
  have he := h.yields (stops_semicolon hsemicolon rest)
  have heffect : (effect (Rule.expression.parser room)).Yields (ts ++ semicolon :: rest) (.expression e) notes rest :=
    (yields_closed (by decide)).2 ⟨e, semicolon, he, hsemicolon, rfl⟩
  obtain ⟨t, later, rfl, ht⟩ := h.start
  show (anyStatement _ _).Yields _ _ _ _
  rw [List.cons_append, anyStatement, yields_branch_none]
  · exact heffect
  · intro _
    cases hk : t.kind with
    | var_ | print_ | leftBrace => rw [hk] at ht; simp [Rule.starters, Rule.primaryStarters] at ht
    | _ => rfl

mutual

/-- Whatever can be read as a statement is yielded, whatever stands behind it. -/
theorem StatementReadsAs.yields {room : Nat} {ts : List Token} {s : Stmt} {notes : List SyntaxError}
    (h : StatementReadsAs room ts s notes) (rest : List Token) :
    (statement room).toParser.Yields (ts ++ rest) s notes rest := by
  cases h with
  | @declare room word name semicolon hword hname hsemicolon =>
    show (anyStatement _ _).Yields (word :: name :: semicolon :: rest) _ _ _
    rw [anyStatement, yields_branch_some (by rw [hword]; decide) (by simp only [hword]; rfl), declaration, yields_bind]
    refine ⟨name, [], semicolon :: rest, [], (yields_expect (by decide)).2 ⟨hname, rfl, rfl⟩, ?_, rfl⟩
    refine (yields_closed (by decide)).2 ⟨none, semicolon, ?_, hsemicolon, rfl⟩
    rw [yields_branch_none fun _ => if_neg (by rw [hsemicolon]; decide), yields_pure]
    exact ⟨rfl, rfl, rfl⟩
  | @define room word name equals semicolon ts e notes hword hname hequals h hsemicolon =>
    have he := h.yields (stops_semicolon hsemicolon rest)
    show (anyStatement _ _).Yields (word :: name :: equals :: (ts ++ [semicolon] ++ rest)) _ _ _
    rw [anyStatement, yields_branch_some (by rw [hword]; decide) (by simp only [hword]; rfl), declaration, yields_bind]
    refine ⟨name, [], _, notes, (yields_expect (by decide)).2 ⟨hname, rfl, rfl⟩, ?_, rfl⟩
    refine (yields_closed (by decide)).2 ⟨some e, semicolon, ?_, hsemicolon, rfl⟩
    rw [yields_branch_some (by rw [hequals]; decide) (if_pos hequals), List.append_assoc]
    exact yields_bind.2 ⟨e, notes, semicolon :: rest, [], he, yields_pure.2 ⟨rfl, rfl, rfl⟩, by simp⟩
  | @print room word semicolon ts e notes hword h hsemicolon =>
    have he := h.yields (stops_semicolon hsemicolon rest)
    show (anyStatement _ _).Yields (word :: (ts ++ [semicolon] ++ rest)) _ _ _
    rw [anyStatement, yields_branch_some (by rw [hword]; decide) (by simp only [hword]; rfl), List.append_assoc]
    exact (yields_closed (by decide)).2 ⟨e, semicolon, he, hsemicolon, rfl⟩
  | @block room opening closing ts body notes hopening h hclosing =>
    have hends : closing.kind = .eof ∨ some closing.kind = some .rightBrace := .inr (by rw [hclosing])
    have hbody := h.yields (.inr rfl) hends rest
    show (anyStatement _ _).Yields (opening :: (ts ++ [closing] ++ rest)) _ _ _
    rw [anyStatement, yields_branch_some (by rw [hopening]; decide) (by simp only [hopening]; rfl), List.append_assoc]
    exact (yields_closed (by decide)).2 ⟨body, closing, hbody, hclosing, rfl⟩
  | @expression room semicolon ts e notes h hsemicolon =>
    rw [List.append_assoc]
    exact yields_effect h hsemicolon rest

/-- Whatever can be read as a list of statements is yielded in front of a token that ends it. -/
theorem StatementsReadAs.yields {room : Nat} {ts : List Token} {ss : List Stmt} {notes : List SyntaxError}
    (h : StatementsReadAs room ts ss notes) {closing : Option TokenKind}
    (hclosing : closing = none ∨ closing = some .rightBrace) {t : Token}
    (ht : t.kind = .eof ∨ some t.kind = closing) (rest : List Token) :
    (statements closing (statement room)).Yields (ts ++ t :: rest) ss notes (t :: rest) := by
  cases h with
  | nil => exact yields_statements_end ht
  | @cons room ts us s ss n₁ n₂ h hs =>
    have hone := (h.yields (us ++ t :: rest)).recovering
    have hmore := hs.yields hclosing ht rest
    rw [List.append_assoc]
    obtain ⟨u, later, rfl, hgo⟩ := h.start_ne_end hclosing
    rw [List.cons_append] at hone ⊢
    exact (yields_statements_cons hgo).2 ⟨s, n₁, _, ss, n₂, hone, hmore, rfl, rfl⟩

end

end

/-! ### Programs -/

/-- What is left at the end mark of a list without other end marks. -/
theorem eq_of_append_end {ts taken later : List Token} {e t : Token} (hts : ∀ t ∈ ts, t.kind ≠ .eof)
    (ht : t.kind = .eof) (h : ts ++ [e] = taken ++ t :: later) : taken = ts := by
  induction ts generalizing taken with
  | nil =>
    cases taken with
    | nil => rfl
    | cons u taken => simp at h
  | cons u ts ih =>
    cases taken with
    | nil =>
      obtain ⟨rfl, -⟩ := List.cons.inj h
      exact absurd ht (hts u List.mem_cons_self)
    | cons v taken =>
      obtain ⟨rfl, hrest⟩ := List.cons.inj h
      rw [ih (fun t ht => hts t (List.mem_cons_of_mem _ ht)) hrest]

/-- What is read without an error is a list of statements up to the end mark. -/
theorem readAs_of_parse {ts : List Token} {e : Token} (hts : ∀ t ∈ ts, t.kind ≠ .eof) (he : e.kind = .eof)
    (h : (parse (ts ++ [e])).errors = []) :
    ∃ ss, (parse (ts ++ [e])).result = .ok ss ∧ StatementsReadAs readingRoom ts ss [] := by
  have hend : HasEnd (ts ++ [e]) := ⟨e, by simp, he⟩
  obtain ⟨ss, hss, -⟩ := Parser.program_result readingRoom hend
  have hyields : (Parser.program readingRoom).Yields (ts ++ [e]) ss [] (parse (ts ++ [e])).rest := by
    rw [Parser.Yields, ← hss, ← h]
    rfl
  obtain ⟨taken, htaken, hread, t, later, hrest, ht⟩ := Parser.statementsReadAs_of_yields hyields mild_nil
  rw [hrest] at htaken
  have ht : t.kind = .eof := by simpa using ht
  obtain rfl := eq_of_append_end hts ht htaken
  exact ⟨ss, hss, hread⟩

/-- What can be read within the allowance for reading is read. -/
theorem StatementsReadAs.parse_eq {ts : List Token} {ss : List Stmt} {notes : List SyntaxError}
    (h : StatementsReadAs readingRoom ts ss notes) {e : Token} (he : e.kind = .eof) :
    parse (ts ++ [e]) = ⟨.ok ss, notes, [e]⟩ :=
  h.yields (.inl rfl) (.inl he) []

end Treewalk
