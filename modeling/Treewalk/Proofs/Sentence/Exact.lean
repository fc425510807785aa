import Treewalk.Proofs.Reading.Room
import Treewalk.Proofs.Reading.Statements
import Treewalk.Proofs.Sentence

/-!
# Exactly the sentences are read

A list of tokens in front of an end mark is read without an error if and only if it is a sentence of the grammar, the
nesting allowance aside, and the result is the tree of the sentence.

The sentences are what can be read without noting an error (`program_iff_readAs`).  That there is only one tree
follows since reading is a function, within an allowance that suffices for both trees.  Whatever can be read within some
allowance is read within the one there is, or it is nested too deep for it (`StatementsReadAs.parse_or_tooDeep`).
-/

namespace Treewalk

/-! ### Sentences are what is read without errors -/

/-- The symbol that a rule stands for. -/
def Rule.symbol : Rule → Symbol
  | .expression => .expression
  | .assignment => .assignment
  | .binary .equality => .equality
  | .binary .comparison => .comparison
  | .binary .term => .term
  | .binary .factor => .factor
  | .unary => .unary
  | .primary => .primary

/-- The rule for a symbol. -/
def Symbol.rule : Symbol → Rule
  | .expression => .expression
  | .assignment => .assignment
  | .equality => .binary .equality
  | .comparison => .binary .comparison
  | .term => .binary .term
  | .factor => .binary .factor
  | .unary => .unary
  | .primary => .primary

/-- Only a bare name has the tree of a name. -/
private theorem Phrase.eq_singleton_of_var {s : Symbol} {ts : List Token} {e : Expr} {name : Token} (h : Phrase s ts e)
    (he : e = .var name) : ts = [name] ∧ name.kind = .identifier := by
  induction h with
  | expression _ ih | assignment _ ih | equality _ ih | comparison _ ih | term _ ih | factor _ ih | unary _ ih =>
    exact ih he
  | name h => cases he; exact ⟨rfl, h⟩
  | _ => cases he

private theorem Phrase.join {level : Level} {ts us : List Token} {operator : Token} {left right : Expr}
    (hleft : Phrase (Rule.binary level).symbol ts left) (hoperator : operator.kind ∈ level.operators)
    (hright : Phrase level.operand.symbol us right) :
    Phrase (Rule.binary level).symbol (ts ++ operator :: us) (.binary left operator right) := by
  cases level with
  | equality => exact .equal hleft (by simpa [Level.operators] using hoperator) hright
  | comparison => exact .compare hleft (by simpa [Level.operators] using hoperator) hright
  | term => exact .add hleft (by simpa [Level.operators] using hoperator) hright
  | factor => exact .multiply hleft (by simpa [Level.operators] using hoperator) hright

private theorem Phrase.operand {level : Level} {ts : List Token} {e : Expr} (h : Phrase level.operand.symbol ts e) :
    Phrase (Rule.binary level).symbol ts e := by
  cases level with
  | equality => exact .equality h
  | comparison => exact .comparison h
  | term => exact .term h
  | factor => exact .factor h

private theorem ReadsAs.phrase {room : Nat} {r : Rule} {ts : List Token} {e : Expr} {notes : List SyntaxError}
    (h : ReadsAs room r ts e notes) (hnotes : notes = []) : Phrase r.symbol ts e := by
  induction h with
  | expression _ ih => exact .expression (ih hnotes)
  | assign _ hequals _ ihname ihvalue =>
    obtain ⟨rfl, rfl⟩ := List.append_eq_nil_iff.1 hnotes
    obtain ⟨rfl, hname⟩ := (ihname rfl).eq_singleton_of_var rfl
    exact .assign hname hequals (ihvalue rfl)
  | misassign => simp at hnotes
  | assignment _ ih => exact .assignment (ih hnotes)
  | join _ hoperator _ ihleft ihright =>
    obtain ⟨rfl, rfl⟩ := List.append_eq_nil_iff.1 hnotes
    exact (ihleft rfl).join hoperator (ihright rfl)
  | operand _ ih => exact (ih hnotes).operand
  | negate hoperator _ ih => exact .negate hoperator.symm (ih hnotes)
  | unary _ ih => exact .unary (ih hnotes)
  | false_ h => exact .false_ h
  | true_ h => exact .true_ h
  | nil_ h => exact .nil_ h
  | number h => exact .number h
  | string h => exact .string h
  | name h => exact .name h
  | grouping hopening _ hclosing ih => exact .grouping hopening (ih hnotes) hclosing

private theorem ReadsAs.exists_join {level : Level} {ts us : List Token} {operator : Token} {left right : Expr}
    (hleft : ∃ room, ReadsAs room (.binary level) ts left []) (hoperator : operator.kind ∈ level.operators)
    (hright : ∃ room, ReadsAs room level.operand us right []) :
    ∃ room, ReadsAs room (.binary level) (ts ++ operator :: us) (.binary left operator right) [] := by
  obtain ⟨room₁, hleft⟩ := hleft
  obtain ⟨room₂, hright⟩ := hright
  exact ⟨max room₁ room₂ + 1, .join (hleft.mono (by omega)) hoperator (hright.mono (by omega))⟩

private theorem Phrase.readsAs {s : Symbol} {ts : List Token} {e : Expr} (h : Phrase s ts e) :
    ∃ room, ReadsAs room s.rule ts e [] := by
  induction h with
  | expression _ ih =>
    obtain ⟨room, ih⟩ := ih
    exact ⟨room + 1, .expression ih⟩
  | assign hname hequals _ ih =>
    obtain ⟨room, ih⟩ := ih
    -- the target stands in its own chain of rules, which needs a few units more
    have htarget : ReadsAs (room + 2) .unary _ _ [] := .unary (.name hname)
    exact ⟨room + 7, .assign htarget.equality_of_unary hequals (ih.mono (by omega))⟩
  | assignment _ ih =>
    obtain ⟨room, ih⟩ := ih
    exact ⟨room + 1, .assignment ih⟩
  | equal _ h _ ihleft ihright => exact ReadsAs.exists_join ihleft (by simpa [Level.operators] using h) ihright
  | compare _ h _ ihleft ihright => exact ReadsAs.exists_join ihleft (by simpa [Level.operators] using h) ihright
  | add _ h _ ihleft ihright => exact ReadsAs.exists_join ihleft (by simpa [Level.operators] using h) ihright
  | multiply _ h _ ihleft ihright => exact ReadsAs.exists_join ihleft (by simpa [Level.operators] using h) ihright
  | equality _ ih | comparison _ ih | term _ ih | factor _ ih =>
    obtain ⟨room, ih⟩ := ih
    exact ⟨room + 1, .operand ih⟩
  | negate hoperator _ ih =>
    obtain ⟨room, ih⟩ := ih
    exact ⟨room + 1, .negate hoperator.symm ih⟩
  | unary _ ih =>
    obtain ⟨room, ih⟩ := ih
    exact ⟨room + 1, .unary ih⟩
  | number h => exact ⟨1, .number h⟩
  | string h => exact ⟨1, .string h⟩
  | true_ h => exact ⟨1, .true_ h⟩
  | false_ h => exact ⟨1, .false_ h⟩
  | nil_ h => exact ⟨1, .nil_ h⟩
  | name h => exact ⟨1, .name h⟩
  | grouping hopening _ hclosing ih =>
    obtain ⟨room, ih⟩ := ih
    exact ⟨room + 1, .grouping hopening ih hclosing⟩

mutual

private theorem StatementReadsAs.declaration {room : Nat} {ts : List Token} {s : Stmt} {notes : List SyntaxError}
    (h : StatementReadsAs room ts s notes) (hnotes : notes = []) : Declaration ts s := by
  cases h with
  | declare hword hname hsemicolon => exact .declare hword hname hsemicolon
  | define hword hname hequals h hsemicolon => exact .define hword hname hequals (h.phrase hnotes) hsemicolon
  | print hword h hsemicolon => exact .print hword (h.phrase hnotes) hsemicolon
  | block hopening h hclosing => exact .block hopening (h.program hnotes) hclosing
  | expression h hsemicolon => exact .expression (h.phrase hnotes) hsemicolon

private theorem StatementsReadAs.program {room : Nat} {ts : List Token} {ss : List Stmt} {notes : List SyntaxError}
    (h : StatementsReadAs room ts ss notes) (hnotes : notes = []) : Program ts ss := by
  cases h with
  | nil => exact .nil
  | cons h hs =>
    obtain ⟨rfl, rfl⟩ := List.append_eq_nil_iff.1 hnotes
    exact .cons (h.declaration rfl) (hs.program rfl)

end

mutual

private theorem Declaration.readsAs {ts : List Token} {s : Stmt} (h : Declaration ts s) :
    ∃ room, StatementReadsAs room ts s [] := by
  cases h with
  | declare hword hname hsemicolon => exact ⟨3, .declare hword hname hsemicolon⟩
  | define hword hname hequals h hsemicolon =>
    obtain ⟨room, h⟩ := h.readsAs
    exact ⟨room + 3, .define hword hname hequals h hsemicolon⟩
  | print hword h hsemicolon =>
    obtain ⟨room, h⟩ := h.readsAs
    exact ⟨room + 3, .print hword h hsemicolon⟩
  | block hopening h hclosing =>
    obtain ⟨room, h⟩ := h.readAs
    exact ⟨room + 3, .block hopening h hclosing⟩
  | expression h hsemicolon =>
    obtain ⟨room, h⟩ := h.readsAs
    exact ⟨room + 3, .expression h hsemicolon⟩

private theorem Program.readAs {ts : List Token} {ss : List Stmt} (h : Program ts ss) :
    ∃ room, StatementsReadAs room ts ss [] := by
  cases h with
  | nil => exact ⟨0, .nil⟩
  | cons h hs =>
    obtain ⟨room₁, h⟩ := h.readsAs
    obtain ⟨room₂, hs⟩ := hs.readAs
    exact ⟨max room₁ room₂, .cons (h.mono (by omega)) (hs.mono (by omega))⟩

end

/-- The programs of the grammar are what can be read without errors, within some allowance. -/
theorem program_iff_readAs {ts : List Token} {ss : List Stmt} :
    Program ts ss ↔ ∃ room, StatementsReadAs room ts ss [] :=
  ⟨Program.readAs, fun ⟨_, h⟩ => h.program rfl⟩

/-! ### What a tree keeps of its tokens -/

/-- What a tree keeps of a token: the token itself, or the value it denotes. -/
inductive Leaf where
  | token (t : Token)
  | value (v : Value)
deriving DecidableEq

/-- What a tree keeps of a token, if anything; words and brackets leave nothing but the form of the tree. -/
def Token.leaf? (t : Token) : Option Leaf :=
  match t.kind with
  | .identifier | .bang | .minus | .plus | .slash | .star | .bangEqual | .equalEqual
  | .greater | .greaterEqual | .less | .lessEqual => some (.token t)
  | .number | .string => some (.value t.literal)
  | .true_ => some (.value (.bool true))
  | .false_ => some (.value (.bool false))
  | .nil_ => some (.value .nil)
  | _ => none

/-- What an expression keeps of its tokens, in their order. -/
def Expr.leaves : Expr → List Leaf
  | .literal value => [.value value]
  | .var name => [.token name]
  | .assign name value => .token name :: value.leaves
  | .unary operator operand => .token operator :: operand.leaves
  | .binary left operator right => left.leaves ++ .token operator :: right.leaves
  | .grouping inner => inner.leaves
  | .misplaced _ => []

/-- What a statement keeps of its tokens, in their order. -/
def Stmt.leaves : Stmt → List Leaf
  | .expression e => e.leaves
  | .print e => e.leaves
  | .declare name none => [.token name]
  | .declare name (some e) => .token name :: e.leaves
  | .block body => body.flatMap Stmt.leaves
  | .skipped => []
  | .misplaced _ => []

private theorem leaves_join {ts us : List Token} {operator : Token} {left right : Expr}
    (hleft : left.leaves = ts.filterMap Token.leaf?) (hoperator : operator.leaf? = some (.token operator))
    (hright : right.leaves = us.filterMap Token.leaf?) :
    (Expr.binary left operator right).leaves = (ts ++ operator :: us).filterMap Token.leaf? := by
  rw [Expr.leaves, hleft, hright, List.filterMap_append, List.filterMap_cons_some hoperator]

/-- The tree of a phrase keeps its tokens in their order, each of them once. -/
private theorem Phrase.leaves {s : Symbol} {ts : List Token} {e : Expr} (h : Phrase s ts e) :
    e.leaves = ts.filterMap Token.leaf? := by
  induction h with
  | expression _ ih | assignment _ ih | equality _ ih | comparison _ ih | term _ ih | factor _ ih | unary _ ih =>
    exact ih
  | assign hname hequals _ ih => simp [Expr.leaves, Token.leaf?, hname, hequals, ih]
  | equal _ h _ ihleft ihright => exact leaves_join ihleft (by rcases h with h | h <;> simp [Token.leaf?, h]) ihright
  | compare _ h _ ihleft ihright =>
    exact leaves_join ihleft (by rcases h with h | h | h | h <;> simp [Token.leaf?, h]) ihright
  | add _ h _ ihleft ihright => exact leaves_join ihleft (by rcases h with h | h <;> simp [Token.leaf?, h]) ihright
  | multiply _ h _ ihleft ihright =>
    exact leaves_join ihleft (by rcases h with h | h <;> simp [Token.leaf?, h]) ihright
  | negate h _ ih => rcases h with h | h <;> simp [Expr.leaves, Token.leaf?, h, ih]
  | number h | string h | true_ h | false_ h | nil_ h | name h => simp [Expr.leaves, Token.leaf?, h]
  | grouping hopening _ hclosing ih => simp [Expr.leaves, Token.leaf?, hopening, hclosing, ih]

mutual

private theorem Declaration.leaves {ts : List Token} {s : Stmt} (h : Declaration ts s) :
    s.leaves = ts.filterMap Token.leaf? := by
  cases h with
  | declare hword hname hsemicolon => simp [Stmt.leaves, Token.leaf?, hword, hname, hsemicolon]
  | define hword hname hequals h hsemicolon =>
    simp [Stmt.leaves, Token.leaf?, hword, hname, hequals, hsemicolon, h.leaves]
  | print hword h hsemicolon => simp [Stmt.leaves, Token.leaf?, hword, hsemicolon, h.leaves]
  | block hopening h hclosing => simp [Stmt.leaves, Token.leaf?, hopening, hclosing, h.leaves]
  | expression h hsemicolon => simp [Stmt.leaves, Token.leaf?, hsemicolon, h.leaves]

private theorem Program.leaves {ts : List Token} {ss : List Stmt} (h : Program ts ss) :
    ss.flatMap Stmt.leaves = ts.filterMap Token.leaf? := by
  cases h with
  | nil => rfl
  | cons h hs => rw [List.flatMap_cons, List.filterMap_append, h.leaves, hs.leaves]

end

/-! ### Reading is exact -/

/-- Within some allowance, a program in front of an end mark is read as its tree. -/
private theorem Program.yields {ts : List Token} {ss : List Stmt} (h : Program ts ss) : ∃ least, ∀ room,
    least ≤ room → ∀ e : Token, e.kind = .eof → (Parser.program room).Yields (ts ++ [e]) ss [] [e] := by
  obtain ⟨least, h⟩ := program_iff_readAs.1 h
  exact ⟨least, fun room hroom e he => (h.mono hroom).yields (.inl rfl) (.inl he) []⟩

/-- A program has only one tree. -/
private theorem Program.unique {ts : List Token} {ss ss' : List Stmt} (h : Program ts ss) (h' : Program ts ss') :
    ss = ss' := by
  obtain ⟨least, hyields⟩ := h.yields
  obtain ⟨least', hyields'⟩ := h'.yields
  have hrun := hyields (max least least') (by omega) (.endMark 1) rfl
  rw [Parser.Yields, hyields' (max least least') (by omega) (.endMark 1) rfl] at hrun
  exact (Except.ok.inj (congrArg Reading.result hrun)).symm

/-- What is read without an error is a program. -/
private theorem program_of_parse {ts : List Token} {e : Token} (hts : ∀ t ∈ ts, t.kind ≠ .eof) (he : e.kind = .eof)
    (h : (parse (ts ++ [e])).errors = []) : ∃ ss, (parse (ts ++ [e])).result = .ok ss ∧ Program ts ss := by
  obtain ⟨ss, hss, hread⟩ := readAs_of_parse hts he h
  exact ⟨ss, hss, program_iff_readAs.2 ⟨readingRoom, hread⟩⟩

/-- What can be read within some allowance is read, or it is nested too deep. -/
theorem StatementsReadAs.parse_or_tooDeep {room : Nat} {ts : List Token} {ss : List Stmt} {notes : List SyntaxError}
    (h : StatementsReadAs room ts ss notes) {e : Token} (he : e.kind = .eof) :
    parse (ts ++ [e]) = ⟨.ok ss, notes, [e]⟩ ∨
      ∃ error ∈ (parse (ts ++ [e])).errors, error.problem = .nestedTooDeep := by
  have hend : HasEnd (ts ++ [e]) := ⟨e, by simp, he⟩
  obtain ⟨_, hresult, hrest⟩ := Parser.program_result readingRoom hend
  have hyields : (Parser.program (max readingRoom room)).Yields (ts ++ [e]) ss notes [e] :=
    (h.mono (Nat.le_max_right _ _)).yields (.inl rfl) (.inl he) []
  -- the allowance for reading is compared with one that suffices for the tokens
  rcases Parser.program_below (Nat.le_max_left readingRoom room) (ts ++ [e]) with hcut | heq
  · rcases hcut with hcut | hcut | hcut
    · exact absurd (hcut.symm.trans hresult) (by simp)
    · exact .inr hcut
    · exact absurd hcut hrest.ne_nil
  · exact .inl (heq.trans hyields)

/-- A program is read as its tree, or it is nested too deep. -/
private theorem Program.parse {ts : List Token} {ss : List Stmt} (h : Program ts ss) {e : Token} (he : e.kind = .eof) :
    ((parse (ts ++ [e])).result = .ok ss ∧ (parse (ts ++ [e])).errors = []) ∨
      ∃ error ∈ (parse (ts ++ [e])).errors, error.problem = .nestedTooDeep := by
  obtain ⟨room, hread⟩ := program_iff_readAs.1 h
  rcases hread.parse_or_tooDeep he with hparse | hdeep
  · exact .inl ⟨congrArg Reading.result hparse, congrArg Reading.errors hparse⟩
  · exact .inr hdeep

/-- Exactly the sentences of the grammar are read without an error, and each is read as its tree, the nesting
allowance aside.  A sentence has only one tree, which keeps the tokens in their order and each of them once. -/
theorem parse_eq_ok_iff_program (ts : List Token) (e : Token) (hts : ∀ t ∈ ts, t.kind ≠ .eof) (he : e.kind = .eof) :
    ((parse (ts ++ [e])).errors = [] → ∃ ss, (parse (ts ++ [e])).result = .ok ss ∧ Program ts ss) ∧
      (∀ ss, Program ts ss →
        ((parse (ts ++ [e])).result = .ok ss ∧ (parse (ts ++ [e])).errors = []) ∨
          ∃ error ∈ (parse (ts ++ [e])).errors, error.problem = .nestedTooDeep) ∧
      (∀ ss ss', Program ts ss → Program ts ss' → ss = ss') ∧
      (∀ ss, Program ts ss → ss.flatMap Stmt.leaves = ts.filterMap Token.leaf?) :=
  ⟨program_of_parse hts he, fun _ h => h.parse he, fun _ _ h h' => h.unique h', fun _ h => h.leaves⟩

/-- The sentence `{ a = b = c - d - "x"; }`. -/
theorem parse_nested_assignments :
    let ts : List Token := [⟨.leftBrace, "\x7b", .nil, 1⟩, ⟨.identifier, "a", .nil, 1⟩, ⟨.equal, "=", .nil, 1⟩,
      ⟨.identifier, "b", .nil, 1⟩, ⟨.equal, "=", .nil, 1⟩, ⟨.identifier, "c", .nil, 1⟩, ⟨.minus, "-", .nil, 1⟩,
      ⟨.identifier, "d", .nil, 2⟩, ⟨.minus, "-", .nil, 2⟩, ⟨.string, "\"x\"", .str "x", 2⟩,
      ⟨.semicolon, ";", .nil, 2⟩, ⟨.rightBrace, "\x7d", .nil, 2⟩]
    (∀ t ∈ ts, t.kind ≠ .eof) ∧ (Token.endMark 2).kind = .eof ∧
      ∃ ss, (parse (ts ++ [.endMark 2])).result = .ok ss ∧ Program ts ss := by
  intro ts
  have hts : ∀ t ∈ ts, t.kind ≠ .eof := by decide
  exact ⟨hts, rfl, (parse_eq_ok_iff_program ts (.endMark 2) hts rfl).1 (by decide +kernel)⟩

end Treewalk
