import Treewalk.Proofs.Reading.Statements

/-!
# Reading up to the end mark

Reading a program always comes to an end, and the first end mark decides where.  Without an end mark the tokens run
out, and there is no other way to fail.  With one there is a result, and nothing behind the mark is looked at.

Two facts carry this.

* `Parser.Bounded`: with an end mark ahead, more tokens behind it are just left.  All parsers of the grammar are
  bounded (`Parser.bounded_compositional`, `Parser.statement_bounded`).
* `Parser.statement_progress`: a statement that is read or passed over takes the token it starts with.  This is what
  ends the two loops over statements, since even a statement that fails at once is passed over by one token.
-/

namespace Treewalk

/-- The same reading with more tokens behind it. -/
def Reading.extend {α : Type} (reading : Reading α) (more : List Token) : Reading α :=
  ⟨reading.result, reading.errors, reading.rest ++ more⟩

/-- A list with an end mark, cut at the first one. -/
private theorem HasEnd.cut {ts : List Token} (h : HasEnd ts) :
    ∃ before e after, ts = before ++ e :: after ∧ (∀ t ∈ before, t.kind ≠ .eof) ∧ e.kind = .eof := by
  induction ts with
  | nil => exact absurd rfl h.ne_nil
  | cons t ts ih =>
    by_cases ht : t.kind = .eof
    · exact ⟨[], t, ts, rfl, by simp, ht⟩
    · obtain ⟨before, e, after, rfl, hbefore, he⟩ := ih (h.tail ht)
      exact ⟨t :: before, e, after, rfl, List.forall_mem_cons.2 ⟨ht, hbefore⟩, he⟩

namespace Parser

variable {α β : Type}

/-- With an end mark ahead, the parser leaves what stands behind its tokens and is not changed by it. -/
def Bounded (p : Parser α) : Prop :=
  ∀ ts more, HasEnd ts → p.run (ts ++ more) = (p.run ts).extend more

/-! ### Parsers put together -/

private theorem bounded_pure (a : α) : (pure a : Parser α).Bounded := fun _ _ _ => rfl

private theorem bounded_stop (reason : Stop) : (stop reason : Parser α).Bounded := fun _ _ _ => rfl

private theorem bounded_note (error : SyntaxError) : (note error).Bounded := fun _ _ _ => rfl

private theorem bounded_reject (problem : SyntaxProblem) : (reject problem : Parser α).Bounded := by
  intro ts more h
  cases ts with
  | nil => exact absurd rfl h.ne_nil
  | cons t ts => rfl

private theorem Bounded.bind {p : Parser α} {f : α → Parser β} (hp : p.Bounded) (hends : p.Orderly)
    (hf : ∀ a, (f a).Bounded) : (p >>= f).Bounded := by
  intro ts more h
  have hrun := hp ts more h
  have hrest := hends.keeps_end h
  simp only [bind_def, Parser.bind, hrun, Reading.extend]
  cases (p.run ts).result with
  | ok a =>
    have hnext := hf a (p.run ts).rest more hrest
    simp only [hnext, Reading.extend]
  | error reason => rfl

private theorem Bounded.branch {select : Token → Option (Parser α)} {otherwise : Parser α}
    (hs : ∀ t, ∀ p ∈ select t, p.Bounded) (ho : otherwise.Bounded) : (branch select otherwise).Bounded := by
  intro ts more h
  cases ts with
  | nil => exact absurd rfl h.ne_nil
  | cons t ts =>
    have hother := ho (t :: ts) more h
    rw [List.cons_append] at hother ⊢
    simp only [Parser.branch]
    split
    · exact hother
    · next ht =>
      split
      · next p hp => exact hs t p hp ts more (h.tail ht)
      · exact hother

private theorem Bounded.chainFrom {operand : Parser Expr} (h : operand.Bounded) (hends : operand.Orderly)
    (level : Level) (left : Expr) : ∀ ts more, HasEnd ts →
      chainFrom level operand left (ts ++ more) = (chainFrom level operand left ts).extend more := by
  intro ts more he
  fun_induction Parser.chainFrom level operand left ts with
  | case1 => exact absurd rfl he.ne_nil
  | case2 left t ts ht reading right hr next ih =>
    have hts := he.tail (level.ne_eof ht)
    have hrun : operand.run (ts ++ more) = reading.extend more := h ts more hts
    have hnext : Parser.chainFrom level operand (.binary left t right) (reading.rest ++ more) = next.extend more :=
      ih (hends.keeps_end hts)
    rw [List.cons_append, Parser.chainFrom, if_pos ht]
    simp only [hrun, Reading.extend, hr, hnext]
  | case3 left t ts ht reading reason hr =>
    have hrun : operand.run (ts ++ more) = reading.extend more := h ts more (he.tail (level.ne_eof ht))
    rw [List.cons_append, Parser.chainFrom, if_pos ht]
    simp only [hrun, Reading.extend, hr]
  | case4 left t ts ht => rw [List.cons_append, chainFrom_of_not_mem ht]; rfl

/-- It takes an orderly first part to have an end mark ahead of the second one. -/
theorem bounded_compositional : Compositional fun _ p => p.Orderly ∧ p.Bounded where
  pure a := ⟨orderly_pure a, bounded_pure a⟩
  tooDeep := ⟨orderly_tooDeep, bounded_stop .tooDeep⟩
  note _ := ⟨orderly_note _, bounded_note _⟩
  reject h := ⟨orderly_reject h, bounded_reject _⟩
  bind hp hf := ⟨Orderly.bind hp.1 fun a => (hf a).1, Bounded.bind hp.2 hp.1 fun a => (hf a).2⟩
  branch hs ho :=
    ⟨Orderly.branch (fun t p hp => (hs t p hp).1) ho.1, Bounded.branch (fun t p hp => (hs t p hp).2) ho.2⟩
  chain h level :=
    ⟨orderly_compositional.chain h.1 level, Bounded.bind h.2 h.1 fun left => h.2.chainFrom h.1 level left⟩

/-! ### Statements -/

private theorem boundary?_append {ts : List Token} (h : HasEnd ts) (last : TokenKind) (more : List Token) :
    boundary? last (ts ++ more) = (boundary? last ts).map (· ++ more) := by
  induction ts generalizing last with
  | nil => exact absurd rfl h.ne_nil
  | cons t ts ih =>
    rw [List.cons_append, boundary?, boundary?]
    split
    · rfl
    · next hgo => exact ih (h.tail fun ht => hgo (.inl ht)) t.kind

private theorem resume?_append {ts : List Token} (h : HasEnd ts) (more : List Token) :
    resume? (ts ++ more) = (resume? ts).map (· ++ more) := by
  cases ts with
  | nil => exact absurd rfl h.ne_nil
  | cons t ts =>
    rw [List.cons_append, resume?, resume?]
    split
    · rfl
    · next ht => exact boundary?_append (h.tail ht) t.kind more

private theorem giveUp_append {ts : List Token} (h : HasEnd ts) (errors : List SyntaxError) (more : List Token) :
    giveUp errors (ts ++ more) = (giveUp errors ts).extend more := by
  obtain ⟨rest, hr, -⟩ := resume?_hasEnd h
  have hmore := resume?_append h more
  rw [hr] at hmore
  simp only [giveUp, hr, hmore, Option.map_some, Reading.extend]

private theorem recover_extend {reading : Reading Stmt} (h : HasEnd reading.rest) (more : List Token) :
    recover (reading.extend more) = (recover reading).extend more := by
  obtain ⟨result, errors, rest⟩ := reading
  match result, rest with
  | .ok s, rest => rfl
  | .error (.rejected error), rest => exact giveUp_append h errors more
  | .error .tooDeep, [] => exact absurd rfl h.ne_nil
  | .error .tooDeep, t :: rest => exact giveUp_append h (errors ++ [⟨t, .nestedTooDeep⟩]) more
  | .error .outOfTokens, _ => rfl

private theorem Bounded.recovering {item : Parser Stmt} (h : item.Bounded) (hends : item.Orderly) :
    (recovering item).Bounded := by
  intro ts more hts
  show recover (item.run (ts ++ more)) = (recover (item.run ts)).extend more
  rw [h ts more hts, recover_extend (hends.keeps_end hts)]

private theorem Bounded.statements {item : Item} (h : item.toParser.Bounded) (hends : item.toParser.Orderly)
    (closing : Option TokenKind) : (statements closing item).Bounded := by
  intro ts more he
  show statementsFrom closing item (ts ++ more) = (statementsFrom closing item ts).extend more
  fun_induction statementsFrom closing item ts with
  | case1 => exact absurd rfl he.ne_nil
  | case2 t ts ht => rw [List.cons_append, statementsFrom, dif_pos ht]; rfl
  | case3 t ts ht reading s hs next ih =>
    have hrun : (Parser.recovering item.toParser).run (t :: (ts ++ more)) = reading.extend more :=
      h.recovering hends (t :: ts) more he
    have hrest : HasEnd reading.rest := by
      obtain ⟨-, -, hrest⟩ := hends.recovering_result he
      exact hrest
    simp only [Reading.extend, hs] at hrun
    rw [List.cons_append, statementsFrom_of_ok ht hrun, ih hrest]
    rfl
  | case4 t ts ht reading reason hr =>
    -- with an end mark ahead a statement does not fail
    obtain ⟨s, hs, -⟩ := hends.recovering_result he
    exact absurd (hr.symm.trans hs) (by simp)

theorem statement_bounded (room : Nat) : (statement room).toParser.Bounded :=
  (bounded_compositional.statement (fun _ h => ⟨h.1.statements _, h.2.statements h.1 _⟩) room).2

private theorem program_bounded (room : Nat) : (program room).Bounded :=
  Bounded.statements (statement_bounded room) (statement_orderly room) none

/-- Wherever there is a token other than the end mark, a statement that is read or passed over takes that token. -/
theorem statement_progress {room : Nat} {t : Token} {later rest : List Token} {s : Stmt} {errors : List SyntaxError}
    (ht : t.kind ≠ .eof) (h : (recovering (statement room).toParser).run (t :: later) = ⟨.ok s, errors, rest⟩) :
    rest <:+ later := by
  have hok : ((recovering (statement room).toParser).run (t :: later)).result = .ok s := by rw [h]
  have hlt := recovering_advances (statement room).advances ht hok
  have hsuffix := (recovering (statement room).toParser).rest_suffix (t :: later)
  rw [h] at hlt hsuffix
  rcases List.suffix_cons_iff.1 hsuffix with heq | hrest
  · have hlen : rest.length = (t :: later).length := congrArg List.length heq
    exact absurd hlt (by rw [hlen]; exact Nat.lt_irrefl _)
  · exact hrest

/-- A list of statements with a result has been read up to a token that ends it. -/
private theorem statements_rest {closing : Option TokenKind} {item : Item} {ts : List Token} (ss : List Stmt)
    (h : ((statements closing item).run ts).result = .ok ss) :
    ∃ t later, ((statements closing item).run ts).rest = t :: later ∧ (t.kind = .eof ∨ some t.kind = closing) := by
  change (statementsFrom closing item ts).result = .ok ss at h
  show ∃ t later, (statementsFrom closing item ts).rest = t :: later ∧ _
  revert ss
  fun_induction statementsFrom closing item ts with
  | case1 => intro ss h; cases h
  | case2 t ts ht => exact fun _ _ => ⟨t, ts, rfl, ht⟩
  | case3 t ts _ reading s hs next ih =>
    intro ss h
    cases hnext : next.result with
    | ok later => exact ih later hnext
    | error reason => rw [hnext] at h; cases h
  | case4 => intro ss h; cases h

end Parser

/-! ### Programs -/

/-- Without an end mark the tokens run out. -/
private theorem parse_of_not_hasEnd {tokens : List Token} (h : ¬HasEnd tokens) :
    (parse tokens).result = .error .outOfTokens := by
  cases hresult : (parse tokens).result with
  | ok ss =>
    -- a result would have ended at an end mark
    obtain ⟨t, later, hrest, ht⟩ := Parser.statements_rest ss hresult
    have hsuffix := (Parser.program readingRoom).rest_suffix tokens
    have hmem : t ∈ tokens := hsuffix.subset (hrest ▸ List.mem_cons_self)
    exact absurd ⟨t, hmem, by simpa using ht⟩ h
  | error reason => rw [Parser.statements_error hresult]

/-- A program is read up to the first end mark, whatever stands behind it. -/
private theorem parse_append_end {ts : List Token} {e : Token} (hts : ∀ t ∈ ts, t.kind ≠ .eof) (he : e.kind = .eof) :
    ∃ program errors, ∀ more, parse (ts ++ e :: more) = ⟨.ok program, errors, e :: more⟩ := by
  have hend : HasEnd (ts ++ [e]) := ⟨e, by simp, he⟩
  obtain ⟨program, hprogram, -⟩ := Parser.program_result readingRoom hend
  obtain ⟨t, later, hrest, ht⟩ := Parser.statements_rest program hprogram
  obtain ⟨taken, htaken⟩ := (Parser.program readingRoom).rest_suffix (ts ++ [e])
  have hleft : (parse (ts ++ [e])).rest = [e] := by
    have hsplit : ts ++ [e] = taken ++ t :: later := by rw [← hrest]; exact htaken.symm
    obtain rfl := eq_of_append_end hts (by simpa using ht) hsplit
    rw [parse, List.append_cancel_left htaken]
  refine ⟨program, (parse (ts ++ [e])).errors, fun more => ?_⟩
  have hmore := Parser.program_bounded readingRoom (ts ++ [e]) more hend
  rw [List.append_assoc, List.singleton_append] at hmore
  calc parse (ts ++ e :: more) = (parse (ts ++ [e])).extend more := hmore
    _ = ⟨.ok program, (parse (ts ++ [e])).errors, e :: more⟩ := by
      rw [Reading.extend, hleft, show (parse (ts ++ [e])).result = .ok program from hprogram]
      rfl

/-- Reading comes to an end for all tokens, and fails only if there is no end mark among them: it runs out of tokens.
Otherwise there is a result, and the result, the errors and the place where reading ends are the same whatever stands
behind the first end mark.  Both loops over statements ask for one only where there is a token other than the end mark;
there a statement that is read or passed over takes at least that token. -/
theorem parse_ends (tokens : List Token) :
    (¬HasEnd tokens → (parse tokens).result = .error .outOfTokens) ∧
      (HasEnd tokens → ∃ ts e later, tokens = ts ++ e :: later ∧ (∀ t ∈ ts, t.kind ≠ .eof) ∧ e.kind = .eof ∧
        ∃ program errors, ∀ more, parse (ts ++ e :: more) = ⟨.ok program, errors, e :: more⟩) ∧
      (∀ room t later s errors rest, t.kind ≠ .eof →
        (Parser.recovering (Parser.statement room).toParser).run (t :: later) = ⟨.ok s, errors, rest⟩ →
          rest <:+ later) := by
  refine ⟨parse_of_not_hasEnd, fun h => ?_, fun room t later s errors rest => Parser.statement_progress⟩
  obtain ⟨ts, e, later, htokens, hts, he⟩ := h.cut
  exact ⟨ts, e, later, htokens, hts, he, parse_append_end hts he⟩

/-- The tokens `{ ) ;`, of which only the last two are passed over: alone, and with two end marks behind them. -/
theorem parse_ends_open_block :
    let opening : Token := ⟨.leftBrace, "\x7b", .nil, 1⟩
    let closing : Token := ⟨.rightParen, ")", .nil, 1⟩
    let semicolon : Token := ⟨.semicolon, ";", .nil, 1⟩
    let tokens := [opening, closing, semicolon, .endMark 1, semicolon, .endMark 2]
    ¬HasEnd [opening, closing, semicolon] ∧ (parse [opening, closing, semicolon]).result = .error .outOfTokens ∧
      HasEnd tokens ∧ (∃ ts e later, tokens = ts ++ e :: later ∧ (∀ t ∈ ts, t.kind ≠ .eof) ∧ e.kind = .eof ∧
        ∃ program errors, ∀ more, parse (ts ++ e :: more) = ⟨.ok program, errors, e :: more⟩) ∧
      closing.kind ≠ .eof ∧
      (Parser.recovering (Parser.statement 20).toParser).run [closing, semicolon, .endMark 1] =
        ⟨.ok .skipped, [⟨closing, .expectedExpression⟩], [.endMark 1]⟩ ∧
      [Token.endMark 1] <:+ [semicolon, .endMark 1] := by
  intro opening closing semicolon tokens
  have hnone : ¬HasEnd [opening, closing, semicolon] := by
    simp [HasEnd, opening, closing, semicolon]
  have hsome : HasEnd tokens := ⟨.endMark 1, by simp [tokens], rfl⟩
  have hkind : closing.kind ≠ .eof := by decide
  have hrun : (Parser.recovering (Parser.statement 20).toParser).run [closing, semicolon, .endMark 1] =
      ⟨.ok .skipped, [⟨closing, .expectedExpression⟩], [.endMark 1]⟩ := rfl
  exact ⟨hnone, (parse_ends _).1 hnone, hsome, (parse_ends tokens).2.1 hsome, hkind, hrun,
    (parse_ends tokens).2.2 20 closing _ _ _ _ hkind hrun⟩

end Treewalk
