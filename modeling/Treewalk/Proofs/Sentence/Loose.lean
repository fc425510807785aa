import Treewalk.Proofs.Sentence.Exact

/-!
# The relaxed grammar

An assignment to something that is no name is noted, but does not keep reading from going on.  So the texts that are
read without any other error are the sentences of the grammar with one rule relaxed,

    assignment  → equality ("=" assignment)?

* `LoosePhrase`, `LooseDeclaration`, `LooseProgram`: the sequences of tokens that the symbols of the relaxed grammar
  stand for.
* `looseDeclaration_iff_fitsIn`, `looseProgram_iff_readAs`: these are what can be read as a statement, or as a list of
  statements, within some allowance.
-/

namespace Treewalk

/-- The tokens are a phrase of the relaxed grammar for the symbol. -/
inductive LoosePhrase : Symbol → List Token → Prop where
  | expression {ts : List Token} (h : LoosePhrase .assignment ts) : LoosePhrase .expression ts
  | assign {ts us : List Token} {equals : Token} (htarget : LoosePhrase .equality ts) (hequals : equals.kind = .equal)
      (hvalue : LoosePhrase .assignment us) : LoosePhrase .assignment (ts ++ equals :: us)
  | assignment {ts : List Token} (h : LoosePhrase .equality ts) : LoosePhrase .assignment ts
  | equal {ts us : List Token} {operator : Token} (hleft : LoosePhrase .equality ts)
      (hoperator : operator.kind ∈ [.bangEqual, .equalEqual]) (hright : LoosePhrase .comparison us) :
      LoosePhrase .equality (ts ++ operator :: us)
  | equality {ts : List Token} (h : LoosePhrase .comparison ts) : LoosePhrase .equality ts
  | compare {ts us : List Token} {operator : Token} (hleft : LoosePhrase .comparison ts)
      (hoperator : operator.kind ∈ [.greater, .greaterEqual, .less, .lessEqual]) (hright : LoosePhrase .term us) :
      LoosePhrase .comparison (ts ++ operator :: us)
  | comparison {ts : List Token} (h : LoosePhrase .term ts) : LoosePhrase .comparison ts
  | add {ts us : List Token} {operator : Token} (hleft : LoosePhrase .term ts)
      (hoperator : operator.kind ∈ [.minus, .plus]) (hright : LoosePhrase .factor us) :
      LoosePhrase .term (ts ++ operator :: us)
  | term {ts : List Token} (h : LoosePhrase .factor ts) : LoosePhrase .term ts
  | multiply {ts us : List Token} {operator : Token} (hleft : LoosePhrase .factor ts)
      (hoperator : operator.kind ∈ [.slash, .star]) (hright : LoosePhrase .unary us) :
      LoosePhrase .factor (ts ++ operator :: us)
  | factor {ts : List Token} (h : LoosePhrase .unary ts) : LoosePhrase .factor ts
  | negate {operator : Token} {ts : List Token} (hoperator : operator.kind ∈ [.bang, .minus])
      (h : LoosePhrase .unary ts) : LoosePhrase .unary (operator :: ts)
  | unary {ts : List Token} (h : LoosePhrase .primary ts) : LoosePhrase .unary ts
  | single {t : Token} (h : t.kind ∈ [.number, .string, .true_, .false_, .nil_, .identifier]) :
      LoosePhrase .primary [t]
  | grouping {opening closing : Token} {ts : List Token} (hopening : opening.kind = .leftParen)
      (h : LoosePhrase .expression ts) (hclosing : closing.kind = .rightParen) :
      LoosePhrase .primary (opening :: (ts ++ [closing]))

mutual

/-- The tokens are a declaration or another statement of the relaxed grammar. -/
inductive LooseDeclaration : List Token → Prop where
  | declare {word name semicolon : Token} (hword : word.kind = .var_) (hname : name.kind = .identifier)
      (hsemicolon : semicolon.kind = .semicolon) : LooseDeclaration [word, name, semicolon]
  | define {word name equals semicolon : Token} {ts : List Token} (hword : word.kind = .var_)
      (hname : name.kind = .identifier) (hequals : equals.kind = .equal) (h : LoosePhrase .expression ts)
      (hsemicolon : semicolon.kind = .semicolon) : LooseDeclaration (word :: name :: equals :: (ts ++ [semicolon]))
  | print {word semicolon : Token} {ts : List Token} (hword : word.kind = .print_) (h : LoosePhrase .expression ts)
      (hsemicolon : semicolon.kind = .semicolon) : LooseDeclaration (word :: (ts ++ [semicolon]))
  | block {opening closing : Token} {ts : List Token} (hopening : opening.kind = .leftBrace) (h : LooseProgram ts)
      (hclosing : closing.kind = .rightBrace) : LooseDeclaration (opening :: (ts ++ [closing]))
  | expression {semicolon : Token} {ts : List Token} (h : LoosePhrase .expression ts)
      (hsemicolon : semicolon.kind = .semicolon) : LooseDeclaration (ts ++ [semicolon])

/-- The tokens are a sequence of declarations of the relaxed grammar. -/
inductive LooseProgram : List Token → Prop where
  | nil : LooseProgram []
  | cons {ts us : List Token} (h : LooseDeclaration ts) (hs : LooseProgram us) : LooseProgram (ts ++ us)

end

/-! ### Levels of operators -/

theorem LoosePhrase.join {level : Level} {ts us : List Token} {operator : Token}
    (hleft : LoosePhrase (Rule.binary level).symbol ts) (hoperator : operator.kind ∈ level.operators)
    (hright : LoosePhrase level.operand.symbol us) : LoosePhrase (Rule.binary level).symbol (ts ++ operator :: us) := by
  cases level with
  | equality => exact .equal hleft hoperator hright
  | comparison => exact .compare hleft hoperator hright
  | term => exact .add hleft hoperator hright
  | factor => exact .multiply hleft hoperator hright

theorem LoosePhrase.operand {level : Level} {ts : List Token} (h : LoosePhrase level.operand.symbol ts) :
    LoosePhrase (Rule.binary level).symbol ts := by
  cases level with
  | equality => exact .equality h
  | comparison => exact .comparison h
  | term => exact .term h
  | factor => exact .factor h

/-! ### The relaxed grammar is what can be read -/

theorem ReadsAs.loosePhrase {room : Nat} {r : Rule} {ts : List Token} {e : Expr} {notes : List SyntaxError}
    (h : ReadsAs room r ts e notes) : LoosePhrase r.symbol ts := by
  induction h with
  | expression _ ih => exact .expression ih
  | assign _ hequals _ ihname ihvalue => exact .assign ihname hequals ihvalue
  | misassign _ _ hequals _ ihtarget ihvalue => exact .assign ihtarget hequals ihvalue
  | assignment _ ih => exact .assignment ih
  | join _ hoperator _ ihleft ihright => exact ihleft.join hoperator ihright
  | operand _ ih => exact ih.operand
  | negate hoperator _ ih => exact .negate (by simpa [or_comm] using hoperator) ih
  | unary _ ih => exact .unary ih
  | grouping hopening _ hclosing ih => exact .grouping hopening ih hclosing
  | _ h => exact .single (by rw [h]; decide)

/-- Both sides of an operator within one allowance. -/
private theorem readsAs_join (level : Level) {ts us : List Token} {operator : Token}
    (hleft : ∃ room e notes, ReadsAs room (.binary level) ts e notes) (hoperator : operator.kind ∈ level.operators)
    (hright : ∃ room e notes, ReadsAs room level.operand us e notes) :
    ∃ room e notes, ReadsAs room (.binary level) (ts ++ operator :: us) e notes := by
  obtain ⟨room₁, e₁, n₁, hleft⟩ := hleft
  obtain ⟨room₂, e₂, n₂, hright⟩ := hright
  exact ⟨max room₁ room₂ + 1, _, _, .join (hleft.mono (by omega)) hoperator (hright.mono (by omega))⟩

/-- What stands before the sign of an assignment is a name, or else the error is noted. -/
private theorem readsAs_assign {ts us : List Token} {equals : Token} (hequals : equals.kind = .equal)
    (htarget : ∃ room e notes, ReadsAs room (.binary .equality) ts e notes)
    (hvalue : ∃ room e notes, ReadsAs room .assignment us e notes) :
    ∃ room e notes, ReadsAs room .assignment (ts ++ equals :: us) e notes := by
  obtain ⟨room₁, target, n₁, htarget⟩ := htarget
  obtain ⟨room₂, value, n₂, hvalue⟩ := hvalue
  have htarget := htarget.mono (Nat.le_max_left room₁ room₂)
  have hvalue := hvalue.mono (Nat.le_max_right room₁ room₂)
  by_cases hname : ∃ name, target = .var name
  · obtain ⟨name, rfl⟩ := hname
    exact ⟨_, _, _, .assign htarget hequals hvalue⟩
  · exact ⟨_, _, _, .misassign htarget (fun name h => hname ⟨name, h⟩) hequals hvalue⟩

private theorem LoosePhrase.readsAs {s : Symbol} {ts : List Token} (h : LoosePhrase s ts) :
    ∃ room e notes, ReadsAs room s.rule ts e notes := by
  induction h with
  | expression _ ih =>
    obtain ⟨room, e, notes, ih⟩ := ih
    exact ⟨_, _, _, .expression ih⟩
  | assign _ hequals _ ihtarget ihvalue => exact readsAs_assign hequals ihtarget ihvalue
  | assignment _ ih =>
    obtain ⟨room, e, notes, ih⟩ := ih
    exact ⟨_, _, _, .assignment ih⟩
  | equal _ h _ ihleft ihright => exact readsAs_join .equality ihleft h ihright
  | compare _ h _ ihleft ihright => exact readsAs_join .comparison ihleft h ihright
  | add _ h _ ihleft ihright => exact readsAs_join .term ihleft h ihright
  | multiply _ h _ ihleft ihright => exact readsAs_join .factor ihleft h ihright
  | equality _ ih | comparison _ ih | term _ ih | factor _ ih =>
    obtain ⟨room, e, notes, ih⟩ := ih
    exact ⟨_, _, _, .operand ih⟩
  | negate hoperator _ ih =>
    obtain ⟨room, e, notes, ih⟩ := ih
    exact ⟨_, _, _, .negate (by simpa [or_comm] using hoperator) ih⟩
  | unary _ ih =>
    obtain ⟨room, e, notes, ih⟩ := ih
    exact ⟨_, _, _, .unary ih⟩
  | @single t h =>
    simp only [List.mem_cons, List.not_mem_nil, or_false] at h
    rcases h with h | h | h | h | h | h
    · exact ⟨1, _, _, .number h⟩
    · exact ⟨1, _, _, .string h⟩
    · exact ⟨1, _, _, .true_ h⟩
    · exact ⟨1, _, _, .false_ h⟩
    · exact ⟨1, _, _, .nil_ h⟩
    · exact ⟨1, _, _, .name h⟩
  | grouping hopening _ hclosing ih =>
    obtain ⟨room, e, notes, ih⟩ := ih
    exact ⟨_, _, _, .grouping hopening ih hclosing⟩

mutual

theorem StatementReadsAs.looseDeclaration {room : Nat} {ts : List Token} {s : Stmt} {notes : List SyntaxError}
    (h : StatementReadsAs room ts s notes) : LooseDeclaration ts := by
  cases h with
  | declare hword hname hsemicolon => exact .declare hword hname hsemicolon
  | define hword hname hequals h hsemicolon => exact .define hword hname hequals h.loosePhrase hsemicolon
  | print hword h hsemicolon => exact .print hword h.loosePhrase hsemicolon
  | block hopening h hclosing => exact .block hopening h.looseProgram hclosing
  | expression h hsemicolon => exact .expression h.loosePhrase hsemicolon

theorem StatementsReadAs.looseProgram {room : Nat} {ts : List Token} {ss : List Stmt} {notes : List SyntaxError}
    (h : StatementsReadAs room ts ss notes) : LooseProgram ts := by
  cases h with
  | nil => exact .nil
  | cons h hs => exact .cons h.looseDeclaration hs.looseProgram

end

mutual

private theorem LooseDeclaration.readsAs {ts : List Token} :
    LooseDeclaration ts → ∃ room s notes, StatementReadsAs room ts s notes
  | .declare hword hname hsemicolon => ⟨3, _, _, .declare hword hname hsemicolon⟩
  | .define hword hname hequals h hsemicolon => by
    obtain ⟨room, e, notes, hread⟩ := h.readsAs
    exact ⟨_, _, _, .define hword hname hequals hread hsemicolon⟩
  | .print hword h hsemicolon => by
    obtain ⟨room, e, notes, hread⟩ := h.readsAs
    exact ⟨_, _, _, .print hword hread hsemicolon⟩
  | .block hopening h hclosing => by
    obtain ⟨room, ss, notes, hread⟩ := h.readAs
    exact ⟨_, _, _, .block hopening hread hclosing⟩
  | .expression h hsemicolon => by
    obtain ⟨room, e, notes, hread⟩ := h.readsAs
    exact ⟨_, _, _, .expression hread hsemicolon⟩

private theorem LooseProgram.readAs {ts : List Token} :
    LooseProgram ts → ∃ room ss notes, StatementsReadAs room ts ss notes
  | .nil => ⟨0, _, _, .nil⟩
  | .cons h hs => by
    obtain ⟨room₁, s, n₁, hread⟩ := h.readsAs
    obtain ⟨room₂, ss, n₂, hmore⟩ := hs.readAs
    exact ⟨max room₁ room₂, _, _, .cons (hread.mono (by omega)) (hmore.mono (by omega))⟩

end

/-- Within the allowance, all the tokens can be read as one statement. -/
def FitsIn (room : Nat) (ts : List Token) : Prop := ∃ s notes, StatementReadsAs room ts s notes

/-- The sentences of the relaxed grammar are what can be read as a list of statements, within some allowance. -/
theorem looseProgram_iff_readAs {ts : List Token} :
    LooseProgram ts ↔ ∃ room ss notes, StatementsReadAs room ts ss notes :=
  ⟨LooseProgram.readAs, fun ⟨_, _, _, h⟩ => h.looseProgram⟩

end Treewalk
