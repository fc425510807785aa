import Treewalk.Proofs.Literals.Unsigned
import Treewalk.Proofs.Outline.Reader
import Treewalk.Proofs.Safety

/-!
# Outlines determine programs

Two source texts may differ in their layout, their comments and the way in which numbers are written, and may have
errors in different places.  If what is read from them has the same outline, it is the same program but for the lines of
its tokens, the slots of statements that could not be read included.

For what has been read is legible: the tokens in it are lexemes of the kinds that the grammar asks for, its strings hold
no quotation marks, and its numbers have no sign.  Of the numbers it has to be known that they are finite.

* `ReadsAs.legible`: what a rule reads from lexemes is legible.
* `readSource_legible`: and so is what is read from a source text.
* `outline_determines_program`: two source texts with the same outline.
-/

namespace Treewalk

/-! ### Finite numbers -/

/-- If the node is a number, it is finite. -/
def Expr.FiniteLiteral : Expr → Prop
  | .literal (.num x) => x.isFinite = true
  | _ => True

instance : DecidablePred Expr.FiniteLiteral
  | .literal (.num x) => inferInstanceAs (Decidable (x.isFinite = true))
  | .literal .nil | .literal (.bool _) | .literal (.str _) | .var _ | .assign _ _ | .unary _ _ | .binary _ _ _
  | .grouping _ | .misplaced _ => .isTrue trivial

namespace Expr

variable {P : Expr → Prop} [DecidablePred P]

/-- Whether every node of an expression is as demanded. -/
def decideEvery : (e : Expr) → Decidable (e.Every P)
  | .literal value => inferInstanceAs (Decidable (P (.literal value)))
  | .var name => inferInstanceAs (Decidable (P (.var name)))
  | .assign name value =>
    have := decideEvery value
    inferInstanceAs (Decidable (P (.assign name value) ∧ value.Every P))
  | .unary operator operand =>
    have := decideEvery operand
    inferInstanceAs (Decidable (P (.unary operator operand) ∧ operand.Every P))
  | .binary left operator right =>
    have := decideEvery left
    have := decideEvery right
    inferInstanceAs (Decidable (P (.binary left operator right) ∧ left.Every P ∧ right.Every P))
  | .grouping inner =>
    have := decideEvery inner
    inferInstanceAs (Decidable (P (.grouping inner) ∧ inner.Every P))
  | .misplaced found => inferInstanceAs (Decidable (P (.misplaced found)))

instance : DecidablePred (Every P) := decideEvery

end Expr

namespace Stmt

variable {P : Expr → Prop} [DecidablePred P]

mutual

/-- Whether every expression of a statement is as demanded. -/
def decideEvery : (s : Stmt) → Decidable (s.Every P)
  | .expression e => inferInstanceAs (Decidable (P e))
  | .print e => inferInstanceAs (Decidable (P e))
  | .declare _ none => .isTrue trivial
  | .declare _ (some e) => inferInstanceAs (Decidable (P e))
  | .block body => decideEveryIn body
  | .skipped => .isTrue trivial
  | .misplaced _ => .isFalse id

/-- Whether every expression of a list of statements is as demanded. -/
def decideEveryIn : (ss : List Stmt) → Decidable (EveryIn P ss)
  | [] => .isTrue trivial
  | s :: later =>
    have := decideEvery s
    have := decideEveryIn later
    inferInstanceAs (Decidable (s.Every P ∧ EveryIn P later))

end

instance : DecidablePred (Every P) := decideEvery

end Stmt

/-! ### Literals -/

/-- The value of a numeral is that of a decimal, and the value of a string holds no quotation mark. -/
private theorem Lexeme.literal_eq {text : List Char} {kind : TokenKind} {v : Value} (h : Lexeme text kind v) :
    (kind = .number → ∃ d : Decimal, v = .num d.toFloat) ∧
      (kind = .string → ∃ s : String, v = .str s ∧ '"' ∉ s.toList) := by
  cases h with
  | operator h =>
    have hfree : ∀ entry ∈ operatorLexemes, entry.2 ≠ .number ∧ entry.2 ≠ .string := by decide
    exact ⟨fun hkind => absurd hkind (hfree _ h).1, fun hkind => absurd hkind (hfree _ h).2⟩
  | whole | fraction => exact ⟨fun _ => ⟨_, rfl⟩, nofun⟩
  | string h => exact ⟨nofun, fun _ => ⟨_, rfl, by rwa [String.toList_ofList]⟩⟩
  | reserved h =>
    have hfree : ∀ entry ∈ TokenKind.reservedWords, entry.2 ≠ .number ∧ entry.2 ≠ .string := by decide
    exact ⟨fun hkind => absurd hkind (hfree _ h).1, fun hkind => absurd hkind (hfree _ h).2⟩
  | name => exact ⟨nofun, nofun⟩

private theorem Token.IsLexeme.legible_number {t : Token} (h : t.IsLexeme) (hkind : t.kind = .number)
    (hfinite : (Expr.literal t.literal).FiniteLiteral) : (Expr.literal t.literal).Legible := by
  obtain ⟨d, hd⟩ := h.literal_eq.1 hkind
  rw [hd] at hfinite ⊢
  exact Decimal.lexeme_numberText hfinite

private theorem Token.IsLexeme.legible_string {t : Token} (h : t.IsLexeme) (hkind : t.kind = .string) :
    (Expr.literal t.literal).Legible := by
  obtain ⟨s, hs, hquote⟩ := h.literal_eq.2 hkind
  have hlexeme := Lexeme.string hquote
  rw [String.ofList_toList] at hlexeme
  rw [hs, Expr.Legible, Value.content, String.toList_append, String.toList_append]
  exact hlexeme

/-! ### Expressions -/

/-- What a rule reads from lexemes is legible, if its numbers are finite. -/
theorem ReadsAs.legible {room : Nat} {r : Rule} {ts : List Token} {e : Expr} {notes : List SyntaxError}
    (h : ReadsAs room r ts e notes) (hts : ∀ t ∈ ts, t.kind ≠ .eof → t.IsLexeme)
    (hfinite : e.Every Expr.FiniteLiteral) : e.Every Expr.Legible := by
  induction h with
  | expression _ ih | assignment _ ih | operand _ ih | unary _ ih => exact ih hts hfinite
  | assign _ _ _ ihname ihvalue =>
    obtain ⟨hname, hvalue⟩ := List.forall_mem_append.1 hts
    exact ⟨ihname hname trivial, ihvalue (List.forall_mem_cons.1 hvalue).2 hfinite.2⟩
  | misassign _ _ _ _ ihtarget => exact ihtarget (List.forall_mem_append.1 hts).1 hfinite
  | @join _ level _ _ operator _ _ _ _ _ hoperator _ ihleft ihright =>
    obtain ⟨hleft, hright⟩ := List.forall_mem_append.1 hts
    obtain ⟨hlexeme, hright⟩ := List.forall_mem_cons.1 hright
    have hknown := level.operators_known _ hoperator
    have hmark : operator.kind ≠ .eof := by
      intro heof
      rw [heof] at hknown
      exact absurd hknown (by decide)
    exact ⟨⟨hknown, hlexeme hmark⟩, ihleft hleft hfinite.2.1, ihright hright hfinite.2.2⟩
  | @negate _ operator _ _ _ hoperator _ ih =>
    obtain ⟨hlexeme, hoperand⟩ := List.forall_mem_cons.1 hts
    have hknown : operator.kind ∈ unaryOperators ∧ operator.kind ≠ .eof := by
      rcases hoperator with h | h <;> rw [h] <;> decide
    exact ⟨⟨hknown.1, hlexeme hknown.2⟩, ih hoperand hfinite.2⟩
  | false_ | true_ | nil_ => exact Lexeme.reserved (by decide)
  | @number _ t hkind =>
    exact (hts t List.mem_cons_self (by rw [hkind]; decide)).legible_number hkind hfinite
  | @string _ t hkind => exact (hts t List.mem_cons_self (by rw [hkind]; decide)).legible_string hkind
  | @name _ t hkind => exact ⟨hkind, hts t List.mem_cons_self (by rw [hkind]; decide)⟩
  | grouping _ _ _ ih =>
    obtain ⟨hinner, -⟩ := List.forall_mem_append.1 (List.forall_mem_cons.1 hts).2
    exact ⟨trivial, ih hinner hfinite.2⟩

/-! ### Statements -/

namespace Parser

/-- What the parser gives from lexemes is legible, if its numbers are finite. -/
def GivesLegible (p : Parser Stmt) : Prop :=
  ∀ ⦃ts s notes rest⦄, p.Yields ts s notes rest → (∀ t ∈ ts, t.kind ≠ .eof → t.IsLexeme) →
    s.Every (Expr.Every Expr.FiniteLiteral) → s.Legible

private theorem GivesLegible.statements {item : Item} (h : item.toParser.GivesLegible) {closing : Option TokenKind}
    {ts rest : List Token} {ss : List Stmt} {notes : List SyntaxError}
    (hyields : (statements closing item).Yields ts ss notes rest) (hts : ∀ t ∈ ts, t.kind ≠ .eof → t.IsLexeme)
    (hfinite : Stmt.EveryIn (Expr.Every Expr.FiniteLiteral) ss) : Stmt.LegibleIn ss := by
  revert hts hfinite
  refine Yields.statements_induction
    (motive := fun ts ss _ => (∀ t ∈ ts, t.kind ≠ .eof → t.IsLexeme) →
      Stmt.EveryIn (Expr.Every Expr.FiniteLiteral) ss → Stmt.LegibleIn ss)
    (fun _ _ _ _ => trivial) ?_ hyields
  intro ts mid s ss n₁ n₂ hs ih hts hfinite
  have hmid : mid <:+ ts := by
    have hsuffix := (recovering item.toParser).rest_suffix ts
    rwa [hs] at hsuffix
  refine ⟨?_, ih (fun t ht => hts t (hmid.subset ht)) hfinite.2⟩
  have hresult : ((recovering item.toParser).run ts).result = .ok s := by rw [hs]
  rcases recover_ok hresult with hitem | rfl
  · have hyields : item.toParser.Yields ts s (item.run ts).errors (item.run ts).rest := by rw [Yields, ← hitem]
    exact h hyields hts hfinite.1
  · trivial

private theorem statement_givesLegible : ∀ room : Nat, (statement room).toParser.GivesLegible
  | 0, _, _, _, _, hyields, _, _ | 1, _, _, _, _, hyields, _, _ | 2, _, _, _, _, hyields, _, _ =>
    absurd hyields not_yields_stop
  | room + 3, ts, s, notes, rest, hyields, hts, hfinite => by
    have hvalue : ∀ {us e later}, (Rule.expression.parser room).Yields us e notes later →
        (∀ t ∈ us, t.kind ≠ .eof → t.IsLexeme) → e.Every Expr.FiniteLiteral → e.Every Expr.Legible := by
      intro us e later he hus hfinite
      obtain ⟨taken, rfl, hread⟩ := Rule.expression.readsAs_of_yields he
      exact hread.legible (List.forall_mem_append.1 hus).1 hfinite
    have hname : ∀ {name}, name ∈ ts → name.kind = .identifier → name.IsName :=
      fun hmem hkind => ⟨hkind, hts _ hmem (by rw [hkind]; decide)⟩
    rcases Yields.anyStatement_cases hyields with
      ⟨word, name, semicolon, -, hkind, -, rfl, rfl, -⟩ |
      ⟨word, name, equals, us, e, semicolon, -, hkind, -, he, -, rfl, rfl⟩ |
      ⟨word, us, e, semicolon, -, he, -, rfl, rfl⟩ | ⟨opening, us, ss, closing, -, hss, -, rfl, rfl⟩ |
      ⟨e, semicolon, he, -, rfl⟩
    · exact hname (by simp) hkind
    · exact ⟨hname (by simp) hkind, hvalue he (fun t ht => hts t (by simp [ht])) hfinite⟩
    · exact hvalue he (fun t ht => hts t (by simp [ht])) hfinite
    · exact (statement_givesLegible room).statements hss (fun t ht => hts t (by simp [ht])) hfinite
    · exact hvalue he hts hfinite

end Parser

/-- What is read from a source text is legible, whether there were errors or not, if its numbers are finite. -/
theorem readSource_legible {source : String} {program : List Stmt} (h : (readSource source).result = .ok program)
    (hfinite : ∀ s ∈ program, s.Every (Expr.Every Expr.FiniteLiteral)) : Stmt.LegibleIn program := by
  have hyields : (Parser.program readingRoom).Yields (scan source).tokens program
      (parse (scan source).tokens).errors (parse (scan source).tokens).rest := by
    have hresult : (parse (scan source).tokens).result = .ok program := h
    rw [Parser.Yields, ← hresult]
    rfl
  refine (Parser.statement_givesLegible readingRoom).statements hyields ?_ (Stmt.everyIn_iff.2 hfinite)
  obtain ⟨ts, htokens, -, hcontent⟩ := scan_tokens_content source
  intro t ht hkind
  rw [htokens, List.mem_append, List.mem_singleton] at ht
  rcases ht with ht | rfl
  · have hmem := List.mem_map_of_mem (f := Token.content) ht
    rw [hcontent] at hmem
    exact (segmentation_split source.toList).lexeme hmem
  · exact absurd rfl hkind

/-! ### Programs -/

/-- The outline of what is read from a source text determines it.  Let two source texts be read, with errors or without,
as programs in which all numbers are finite.  If both programs have the same outline, they are equal but for the lines
of their tokens, the slots of statements that could not be read included. -/
theorem outline_determines_program {a b : String} {p q : List Stmt} {text : String}
    (hp : (readSource a).result = .ok p) (hq : (readSource b).result = .ok q)
    (hfinite : ∀ s ∈ p, s.Every (Expr.Every Expr.FiniteLiteral))
    (hfinite' : ∀ s ∈ q, s.Every (Expr.Every Expr.FiniteLiteral))
    (htext : outlineProgram p = .ok text) (htext' : outlineProgram q = .ok text) :
    p.map (Stmt.relabel Token.unplaced) = q.map (Stmt.relabel Token.unplaced) := by
  have hread := readOutline_outlineProgram htext (readSource_legible hp hfinite)
  have hread' := readOutline_outlineProgram htext' (readSource_legible hq hfinite')
  exact Option.some.inj (hread.symm.trans hread')

/-- Two texts with errors in different places, with `1.50` and `1.5`, and with a string that looks like the rest of an
outline. -/
theorem outline_determines_program_layout :
    let a := "x=\"<error>\n)\"==1.50;)"
    let b := "\nx = \"<error>\n)\" == 1.5; // no more\n+ 2;"
    let text := "(expr_stmt (assign x (== \"<error>\n)\" 1.5)))\n<error>"
    (readSource a).reports ≠ (readSource b).reports ∧ ∃ p q, (readSource a).result = .ok p ∧
      (readSource b).result = .ok q ∧ outlineProgram p = .ok text ∧ outlineProgram q = .ok text ∧
      p.map (Stmt.relabel Token.unplaced) = q.map (Stmt.relabel Token.unplaced) := by
  intro a b text
  have hread : ∀ source ∈ [a, b], ∀ program, (readSource source).result = .ok program →
      outlineProgram program = .ok text ∧ ∀ s ∈ program, s.Every (Expr.Every Expr.FiniteLiteral) := by
    intro source hsource program hprogram
    have hchecked : ∀ source ∈ [a, b], (readSource source).result.toOption.map (fun program =>
        (outlineProgram program, decide (∀ s ∈ program, s.Every (Expr.Every Expr.FiniteLiteral)))) =
          some (.ok text, true) := by decide +kernel
    have hown := hchecked source hsource
    rw [hprogram] at hown
    simpa [Except.toOption] using hown
  obtain ⟨p, hp, -⟩ := readSource_result a
  obtain ⟨q, hq, -⟩ := readSource_result b
  obtain ⟨htext, hfinite⟩ := hread a (by simp) p hp
  obtain ⟨htext', hfinite'⟩ := hread b (by simp) q hq
  exact ⟨by decide +kernel, p, q, hp, hq, htext, htext',
    outline_determines_program hp hq hfinite hfinite' htext htext'⟩

end Treewalk
