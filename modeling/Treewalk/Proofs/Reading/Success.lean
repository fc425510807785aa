import Treewalk.Program

/-!
# Successful readings

`p.Yields ts a notes rest` says that `p` reads a result `a` from the front of `ts`, notes some errors on the way and
leaves `rest`.  For every way of putting parsers together there is an equation that tells when the whole yields a
result in terms of its parts; everything about what the rules accept is derived from these equations.
-/

namespace Treewalk

namespace Parser

variable {α β : Type}

/-- The parser reads `a` from the front of `ts`, notes the errors `notes` and leaves `rest`. -/
def Yields (p : Parser α) (ts : List Token) (a : α) (notes : List SyntaxError) (rest : List Token) : Prop :=
  p.run ts = ⟨.ok a, notes, rest⟩

/-! ### Basic parsers -/

@[simp] theorem yields_pure {a b : α} {ts rest : List Token} {notes : List SyntaxError} :
    (pure a : Parser α).Yields ts b notes rest ↔ b = a ∧ notes = [] ∧ rest = ts := by
  show (⟨.ok a, [], ts⟩ : Reading α) = ⟨.ok b, notes, rest⟩ ↔ _
  simp only [Reading.mk.injEq, Except.ok.injEq]
  constructor
  · rintro ⟨rfl, rfl, rfl⟩; exact ⟨rfl, rfl, rfl⟩
  · rintro ⟨rfl, rfl, rfl⟩; exact ⟨rfl, rfl, rfl⟩

@[simp] theorem not_yields_stop {reason : Stop} {a : α} {ts rest : List Token} {notes : List SyntaxError} :
    ¬(stop reason : Parser α).Yields ts a notes rest := by
  intro h
  simp [Yields, stop] at h

@[simp] theorem not_yields_reject {problem : SyntaxProblem} {a : α} {ts rest : List Token}
    {notes : List SyntaxError} : ¬(reject problem : Parser α).Yields ts a notes rest := by
  intro h
  cases ts <;> simp [Yields, reject] at h

@[simp] theorem yields_note {error : SyntaxError} {u : Unit} {ts rest : List Token} {notes : List SyntaxError} :
    (note error).Yields ts u notes rest ↔ notes = [error] ∧ rest = ts := by
  simp only [Yields, note, Reading.mk.injEq, true_and]
  exact and_congr eq_comm eq_comm

/-! ### Sequences and choices -/

theorem yields_bind {p : Parser α} {f : α → Parser β} {ts rest : List Token} {b : β} {notes : List SyntaxError} :
    (p >>= f).Yields ts b notes rest ↔
      ∃ a n₁ mid n₂, p.Yields ts a n₁ mid ∧ (f a).Yields mid b n₂ rest ∧ notes = n₁ ++ n₂ := by
  simp only [Yields, bind_def, Parser.bind]
  constructor
  · intro h
    split at h
    · next a ha =>
      simp only [Reading.mk.injEq] at h
      obtain ⟨hb, rfl, rfl⟩ := h
      refine ⟨a, (p.run ts).errors, (p.run ts).rest, ((f a).run (p.run ts).rest).errors, ?_, ?_, rfl⟩
      · rw [← ha]
      · rw [← hb]
    · simp at h
  · rintro ⟨a, n₁, mid, n₂, hp, hf, rfl⟩
    simp only [hp, hf]

theorem yields_branch_some {select : Token → Option (Parser α)} {otherwise p : Parser α} {t : Token}
    {ts rest : List Token} {a : α} {notes : List SyntaxError} (ht : t.kind ≠ .eof) (hp : select t = some p) :
    (branch select otherwise).Yields (t :: ts) a notes rest ↔ p.Yields ts a notes rest := by
  simp only [Yields, branch, if_neg ht, hp]

theorem yields_branch_none {select : Token → Option (Parser α)} {otherwise : Parser α} {t : Token}
    {ts rest : List Token} {a : α} {notes : List SyntaxError} (hp : t.kind ≠ .eof → select t = none) :
    (branch select otherwise).Yields (t :: ts) a notes rest ↔ otherwise.Yields (t :: ts) a notes rest := by
  by_cases ht : t.kind = .eof
  · simp only [Yields, branch, if_pos ht]
  · simp only [Yields, branch, if_neg ht, hp ht]

@[simp] private theorem not_yields_branch_nil {select : Token → Option (Parser α)} {otherwise : Parser α}
    {rest : List Token} {a : α} {notes : List SyntaxError} : ¬(branch select otherwise).Yields [] a notes rest := by
  simp [Yields, branch]

/-- What a choice yields, it yields in one of two ways. -/
theorem Yields.branch_cases {select : Token → Option (Parser α)} {otherwise : Parser α} {ts rest : List Token}
    {a : α} {notes : List SyntaxError} (h : (branch select otherwise).Yields ts a notes rest) :
    (∃ t later p, ts = t :: later ∧ t.kind ≠ .eof ∧ select t = some p ∧ p.Yields later a notes rest) ∨
      otherwise.Yields ts a notes rest := by
  cases ts with
  | nil => exact absurd h not_yields_branch_nil
  | cons t later =>
    -- at the end mark the selection is not even asked
    by_cases ht : t.kind = .eof
    · rw [yields_branch_none (fun h => absurd ht h)] at h
      exact .inr h
    · cases hs : select t with
      | none =>
        rw [yields_branch_none fun _ => hs] at h
        exact .inr h
      | some p =>
        rw [yields_branch_some ht hs] at h
        exact .inl ⟨t, later, p, rfl, ht, hs, h⟩

theorem yields_expect {kind : TokenKind} (hk : kind ≠ .eof) {problem : SyntaxProblem} {ts rest : List Token}
    {t : Token} {notes : List SyntaxError} :
    (expect kind problem).Yields ts t notes rest ↔ t.kind = kind ∧ notes = [] ∧ ts = t :: rest := by
  constructor
  · intro h
    rcases h.branch_cases with ⟨u, later, p, rfl, -, hs, hp⟩ | h
    · split at hs
      · next hu =>
        cases hs
        obtain ⟨rfl, rfl, rfl⟩ := yields_pure.1 hp
        exact ⟨hu, rfl, rfl⟩
      · simp at hs
    · exact absurd h not_yields_reject
  · rintro ⟨ht, rfl, rfl⟩
    rw [expect, yields_branch_some (ht ▸ hk) (if_pos ht), yields_pure]
    exact ⟨rfl, rfl, rfl⟩

/-- Something with a token of a given kind behind it. -/
theorem yields_closed {p : Parser α} {kind : TokenKind} (hk : kind ≠ .eof) {problem : SyntaxProblem} {f : α → β}
    {ts rest : List Token} {b : β} {notes : List SyntaxError} :
    (p >>= fun a => expect kind problem >>= fun _ => pure (f a)).Yields ts b notes rest ↔
      ∃ a t, p.Yields ts a notes (t :: rest) ∧ t.kind = kind ∧ b = f a := by
  constructor
  · intro h
    obtain ⟨a, n₁, mid, n₂, ha, hend, rfl⟩ := yields_bind.1 h
    obtain ⟨t, n₃, mid', n₄, ht, hpure, rfl⟩ := yields_bind.1 hend
    obtain ⟨htk, rfl, rfl⟩ := (yields_expect hk).1 ht
    obtain ⟨rfl, rfl, rfl⟩ := yields_pure.1 hpure
    exact ⟨a, t, by simpa using ha, htk, rfl⟩
  · rintro ⟨a, t, ha, htk, rfl⟩
    refine yields_bind.2 ⟨a, notes, t :: rest, [], ha, yields_bind.2 ?_, by simp⟩
    exact ⟨t, [], rest, [], (yields_expect hk).2 ⟨htk, rfl, rfl⟩, yields_pure.2 ⟨rfl, rfl, rfl⟩, rfl⟩

/-! ### Chains of operators -/

/-- After an operator of the level, its operand and what follows. -/
theorem chainFrom_eq_ok_of_mem {level : Level} {operand : Parser Expr} {left e : Expr} {t : Token}
    {ts rest : List Token} {notes : List SyntaxError} (ht : t.kind ∈ level.operators) :
    chainFrom level operand left (t :: ts) = ⟨.ok e, notes, rest⟩ ↔
      ∃ right n₁ mid n₂, operand.Yields ts right n₁ mid ∧
        chainFrom level operand (.binary left t right) mid = ⟨.ok e, n₂, rest⟩ ∧ notes = n₁ ++ n₂ := by
  rw [chainFrom, if_pos ht]
  dsimp only
  constructor
  · intro h
    split at h
    · next right hr =>
      simp only [Reading.mk.injEq] at h
      obtain ⟨he, rfl, rfl⟩ := h
      refine ⟨right, (operand.run ts).errors, (operand.run ts).rest, _, ?_, ?_, rfl⟩
      · rw [Yields, ← hr]
      · rw [← he]
    · simp at h
  · rintro ⟨right, n₁, mid, n₂, hp, hc, rfl⟩
    rw [Yields] at hp
    simp only [hp, hc]

theorem chainFrom_of_not_mem {level : Level} {operand : Parser Expr} {left : Expr} {t : Token} {ts : List Token}
    (ht : t.kind ∉ level.operators) : chainFrom level operand left (t :: ts) = ⟨.ok left, [], t :: ts⟩ := by
  rw [chainFrom, if_neg ht]

/-- A chain is its first operand and what follows it. -/
theorem yields_chain {level : Level} {operand : Parser Expr} {ts rest : List Token} {e : Expr}
    {notes : List SyntaxError} :
    (chain level operand).Yields ts e notes rest ↔
      ∃ left n₁ mid n₂, operand.Yields ts left n₁ mid ∧
        chainFrom level operand left mid = ⟨.ok e, n₂, rest⟩ ∧ notes = n₁ ++ n₂ :=
  yields_bind

/-! ### Statements -/

/-- A statement is yielded in one of five forms; the errors are those of its expression or of the statements in it. -/
theorem Yields.anyStatement_cases {value : Parser Expr} {body : Parser (List Stmt)} {ts rest : List Token} {s : Stmt}
    {notes : List SyntaxError} (h : (anyStatement value body).Yields ts s notes rest) :
    (∃ word name semicolon, word.kind = .var_ ∧ name.kind = .identifier ∧ semicolon.kind = .semicolon ∧
      ts = word :: name :: semicolon :: rest ∧ s = .declare name none ∧ notes = []) ∨
    (∃ word name equals us e semicolon, word.kind = .var_ ∧ name.kind = .identifier ∧ equals.kind = .equal ∧
      value.Yields us e notes (semicolon :: rest) ∧ semicolon.kind = .semicolon ∧
      ts = word :: name :: equals :: us ∧ s = .declare name (some e)) ∨
    (∃ word us e semicolon, word.kind = .print_ ∧ value.Yields us e notes (semicolon :: rest) ∧
      semicolon.kind = .semicolon ∧ ts = word :: us ∧ s = .print e) ∨
    (∃ opening us ss closing, opening.kind = .leftBrace ∧ body.Yields us ss notes (closing :: rest) ∧
      closing.kind = .rightBrace ∧ ts = opening :: us ∧ s = .block ss) ∨
    ∃ e semicolon, value.Yields ts e notes (semicolon :: rest) ∧ semicolon.kind = .semicolon ∧ s = .expression e := by
  rcases h.branch_cases with ⟨t, later, p, rfl, -, hs, hp⟩ | heffect
  · split at hs
    · next hword =>
      cases hs
      obtain ⟨name, n₁, mid, n₂, hn, hmore, rfl⟩ := yields_bind.1 hp
      obtain ⟨hname, rfl, rfl⟩ := (yields_expect (by decide)).1 hn
      obtain ⟨initializer, semicolon, hinit, hsemicolon, rfl⟩ := (yields_closed (by decide)).1 hmore
      rcases hinit.branch_cases with ⟨equals, later, q, rfl, -, hs, hq⟩ | hnone
      · split at hs
        · next hequals =>
          cases hs
          obtain ⟨e, n₃, mid, n₄, he, hsome, rfl⟩ := yields_bind.1 hq
          obtain ⟨rfl, rfl, rfl⟩ := yields_pure.1 hsome
          rw [List.nil_append, List.append_nil]
          exact .inr (.inl ⟨t, name, equals, later, e, semicolon, hword, hname, hequals, he, hsemicolon, rfl, rfl⟩)
        · cases hs
      · obtain ⟨rfl, rfl, rfl⟩ := yields_pure.1 hnone
        exact .inl ⟨t, name, semicolon, hword, hname, hsemicolon, rfl, rfl, rfl⟩
    · next hword =>
      cases hs
      obtain ⟨e, semicolon, he, hsemicolon, rfl⟩ := (yields_closed (by decide)).1 hp
      exact .inr (.inr (.inl ⟨t, later, e, semicolon, hword, he, hsemicolon, rfl, rfl⟩))
    · next hopening =>
      cases hs
      obtain ⟨ss, closing, hss, hclosing, rfl⟩ := (yields_closed (by decide)).1 hp
      exact .inr (.inr (.inr (.inl ⟨t, later, ss, closing, hopening, hss, hclosing, rfl, rfl⟩)))
    · cases hs
  · obtain ⟨e, semicolon, he, hsemicolon, rfl⟩ := (yields_closed (by decide)).1 heffect
    exact .inr (.inr (.inr (.inr ⟨e, semicolon, he, hsemicolon, rfl⟩)))

/-- A statement that is read needs no recovery. -/
theorem Yields.recovering {item : Parser Stmt} {ts rest : List Token} {s : Stmt} {notes : List SyntaxError}
    (h : item.Yields ts s notes rest) : (recovering item).Yields ts s notes rest := by
  show recover (item.run ts) = _
  rw [h]
  rfl

/-- A list of statements ends before the end mark and before the closing token. -/
theorem yields_statements_end {closing : Option TokenKind} {item : Item} {t : Token} {ts : List Token}
    (ht : t.kind = .eof ∨ some t.kind = closing) :
    (statements closing item).Yields (t :: ts) [] [] (t :: ts) := by
  show statementsFrom closing item (t :: ts) = _
  rw [statementsFrom, dif_pos ht]

/-- One statement and the list of the others. -/
theorem statementsFrom_of_ok {closing : Option TokenKind} {item : Item} {t : Token} {ts rest : List Token} {s : Stmt}
    {errors : List SyntaxError} (ht : ¬(t.kind = .eof ∨ some t.kind = closing))
    (hs : (recovering item.toParser).run (t :: ts) = ⟨.ok s, errors, rest⟩) :
    statementsFrom closing item (t :: ts) =
      let more := statementsFrom closing item rest
      ⟨more.result.map (s :: ·), errors ++ more.errors, more.rest⟩ := by
  rw [statementsFrom, dif_neg ht]
  dsimp only
  split
  · next s' hs' =>
    obtain rfl : s = s' := by simpa [hs] using hs'
    rw [hs]
  · next stop hstop => simp [hs] at hstop

theorem statementsFrom_of_error {closing : Option TokenKind} {item : Item} {t : Token} {ts rest : List Token}
    {stop : Stop} {errors : List SyntaxError} (ht : ¬(t.kind = .eof ∨ some t.kind = closing))
    (hs : (recovering item.toParser).run (t :: ts) = ⟨.error stop, errors, rest⟩) :
    statementsFrom closing item (t :: ts) = ⟨.error stop, errors, rest⟩ := by
  rw [statementsFrom, dif_neg ht]
  dsimp only
  split
  · next s' hs' => simp [hs] at hs'
  · next stop' hstop =>
    obtain rfl : stop = stop' := by simpa [hs] using hstop
    rw [hs]

/-- A list of statements ends nowhere else. -/
theorem yields_statements_cons {closing : Option TokenKind} {item : Item} {t : Token} {ts rest : List Token}
    {ss : List Stmt} {notes : List SyntaxError} (ht : ¬(t.kind = .eof ∨ some t.kind = closing)) :
    (statements closing item).Yields (t :: ts) ss notes rest ↔
      ∃ s n₁ mid later n₂, (Parser.recovering item.toParser).Yields (t :: ts) s n₁ mid ∧
        (statements closing item).Yields mid later n₂ rest ∧ ss = s :: later ∧ notes = n₁ ++ n₂ := by
  show statementsFrom closing item (t :: ts) = _ ↔ _
  constructor
  · intro h
    rcases hs : (Parser.recovering item.toParser).run (t :: ts) with ⟨result, n₁, mid⟩
    cases result with
    | error stop => simp [statementsFrom_of_error ht hs] at h
    | ok s =>
      rw [statementsFrom_of_ok ht hs] at h
      rcases hm : statementsFrom closing item mid with ⟨result, n₂, rest'⟩
      cases result with
      | error stop => simp [hm, Except.map] at h
      | ok later =>
        simp only [hm, Except.map, Reading.mk.injEq, Except.ok.injEq] at h
        obtain ⟨rfl, rfl, rfl⟩ := h
        exact ⟨s, n₁, mid, later, n₂, hs, hm, rfl, rfl⟩
  · rintro ⟨s, n₁, mid, later, n₂, hp, hl, rfl, rfl⟩
    have hl : statementsFrom closing item mid = ⟨.ok later, n₂, rest⟩ := hl
    rw [statementsFrom_of_ok ht hp, hl]
    rfl

/-- Induction on a list of statements: it ends at the first token, or there is one that is read or passed over, and the
list of the others. -/
theorem Yields.statements_induction {closing : Option TokenKind} {item : Item} {rest : List Token}
    {motive : List Token → List Stmt → List SyntaxError → Prop}
    (nil : ∀ {t later}, rest = t :: later → t.kind = .eof ∨ some t.kind = closing → motive rest [] [])
    (cons : ∀ {ts mid s ss n₁ n₂}, (Parser.recovering item.toParser).Yields ts s n₁ mid → motive mid ss n₂ →
      motive ts (s :: ss) (n₁ ++ n₂))
    {ts : List Token} {ss : List Stmt} {notes : List SyntaxError}
    (h : (statements closing item).Yields ts ss notes rest) : motive ts ss notes := by
  -- on the number of tokens left, since recovery may pass over any number of them
  induction hn : ts.length using Nat.strongRecOn generalizing ts ss notes with
  | _ n ih =>
    subst hn
    cases ts with
    | nil => simp [Yields, statements, statementsFrom] at h
    | cons t ts =>
      by_cases ht : t.kind = .eof ∨ some t.kind = closing
      · have hend : (statements closing item).Yields (t :: ts) [] [] (t :: ts) := yields_statements_end ht
        rw [Yields] at h hend
        rw [hend] at h
        simp only [Reading.mk.injEq, Except.ok.injEq] at h
        obtain ⟨rfl, rfl, rfl⟩ := h
        exact nil rfl ht
      · obtain ⟨s, n₁, mid, later, n₂, hs, hlater, rfl, rfl⟩ := (yields_statements_cons ht).1 h
        have hlt : mid.length < (t :: ts).length := by
          have hok : ((Parser.recovering item.toParser).run (t :: ts)).result = .ok s := by rw [hs]
          have := recovering_advances item.advances (fun he => ht (.inl he)) hok
          rwa [hs] at this
        exact cons hs (ih mid.length hlt hlater rfl)

end Parser

end Treewalk
