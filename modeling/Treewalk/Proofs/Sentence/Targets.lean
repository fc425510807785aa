import Treewalk.Proofs.Sentence.Loose
import Treewalk.Proofs.Slots

/-!
# Invalid assignment targets

An assignment to something that is no bare name is noted once, at its equals sign, and reading goes on.  To say what
becomes of each equals sign, the sentences of the relaxed grammar are taken with their derivations: how the rules put
all the tokens together, those of the sides that leave nothing in the tree included.

* `PhraseDerivation`, `DeclarationDerivation`, `ProgramDerivation`: the derivations of the relaxed grammar.
* `tree`, `notes`: what a derivation is read as.  An assignment to a name is a node of its own.  Any other one is the
  tree of its left side alone, and is noted after whatever is noted in its two sides.
* `invalidTargets`: the equals signs of the assignments to something else, in the order of the text.
* `looseProgram_iff_derivation`: the sentences of the relaxed grammar are the tokens of derivations.
* `invalid_targets_noted_once`: a sentence is read as its derivation says.
-/

namespace Treewalk

/-! ### Derivations -/

/-- The derivations of a phrase of the relaxed grammar. -/
inductive PhraseDerivation : Rule → Type where
  | expression (inner : PhraseDerivation .assignment) : PhraseDerivation .expression
  | assign (target : PhraseDerivation (.binary .equality)) (equals : Token) (hequals : equals.kind = .equal)
      (value : PhraseDerivation .assignment) : PhraseDerivation .assignment
  | assignment (inner : PhraseDerivation (.binary .equality)) : PhraseDerivation .assignment
  | join {level : Level} (left : PhraseDerivation (.binary level)) (operator : Token)
      (hoperator : operator.kind ∈ level.operators) (right : PhraseDerivation level.operand) :
      PhraseDerivation (.binary level)
  | operand {level : Level} (inner : PhraseDerivation level.operand) : PhraseDerivation (.binary level)
  | negate (operator : Token) (hoperator : operator.kind = .minus ∨ operator.kind = .bang)
      (operand : PhraseDerivation .unary) : PhraseDerivation .unary
  | unary (inner : PhraseDerivation .primary) : PhraseDerivation .unary
  | single (t : Token) (h : t.kind ∈ [.number, .string, .true_, .false_, .nil_, .identifier]) :
      PhraseDerivation .primary
  | grouping (opening : Token) (hopening : opening.kind = .leftParen) (inner : PhraseDerivation .expression)
      (closing : Token) (hclosing : closing.kind = .rightParen) : PhraseDerivation .primary

mutual

/-- The derivations of a declaration or another statement. -/
inductive DeclarationDerivation where
  | declare (word name semicolon : Token) (hword : word.kind = .var_) (hname : name.kind = .identifier)
      (hsemicolon : semicolon.kind = .semicolon)
  | define (word name equals : Token) (hword : word.kind = .var_) (hname : name.kind = .identifier)
      (hequals : equals.kind = .equal) (value : PhraseDerivation .expression) (semicolon : Token)
      (hsemicolon : semicolon.kind = .semicolon)
  | print (word : Token) (hword : word.kind = .print_) (value : PhraseDerivation .expression) (semicolon : Token)
      (hsemicolon : semicolon.kind = .semicolon)
  | block (opening : Token) (hopening : opening.kind = .leftBrace) (body : ProgramDerivation) (closing : Token)
      (hclosing : closing.kind = .rightBrace)
  | expression (value : PhraseDerivation .expression) (semicolon : Token) (hsemicolon : semicolon.kind = .semicolon)

/-- The derivations of a sequence of declarations. -/
inductive ProgramDerivation where
  | nil
  | cons (first : DeclarationDerivation) (later : ProgramDerivation)

end

/-- The name that the tokens consist of, if they are a bare name. -/
def bareName? : List Token → Option Token
  | [t] => if t.kind = .identifier then some t else none
  | _ => none

/-- The equals sign of an assignment, if what is assigned to is no bare name. -/
def invalidTarget (target : List Token) (equals : Token) : List Token :=
  if bareName? target = none then [equals] else []

/-- The error that is noted at the equals sign of an assignment. -/
def targetNote (equals : Token) : SyntaxError := ⟨equals, .invalidAssignmentTarget⟩

/-- The tree of a token that is an expression by itself. -/
def Token.atom (t : Token) : Expr :=
  match t.kind with
  | .true_ => .literal (.bool true)
  | .false_ => .literal (.bool false)
  | .nil_ => .literal .nil
  | .identifier => .var t
  | _ => .literal t.literal

namespace PhraseDerivation

/-- The tokens of a derivation. -/
def tokens : {r : Rule} → PhraseDerivation r → List Token
  | _, .expression inner | _, .assignment inner | _, .operand inner | _, .unary inner => inner.tokens
  | _, .assign target equals _ value => target.tokens ++ equals :: value.tokens
  | _, .join left operator _ right => left.tokens ++ operator :: right.tokens
  | _, .negate operator _ inner => operator :: inner.tokens
  | _, .single t _ => [t]
  | _, .grouping opening _ inner closing _ => opening :: (inner.tokens ++ [closing])

/-- The tree that a derivation is read as. -/
def tree : {r : Rule} → PhraseDerivation r → Expr
  | _, .expression inner | _, .assignment inner | _, .operand inner | _, .unary inner => inner.tree
  | _, .assign target _ _ value =>
    match bareName? target.tokens with
    | some name => .assign name value.tree
    | none => target.tree
  | _, .join left operator _ right => .binary left.tree operator right.tree
  | _, .negate operator _ inner => .unary operator inner.tree
  | _, .single t _ => t.atom
  | _, .grouping _ _ inner _ _ => .grouping inner.tree

/-- The errors that are noted, in their order. -/
def notes : {r : Rule} → PhraseDerivation r → List SyntaxError
  | _, .expression inner | _, .assignment inner | _, .operand inner | _, .unary inner => inner.notes
  | _, .assign target equals _ value =>
    target.notes ++ (value.notes ++ (invalidTarget target.tokens equals).map targetNote)
  | _, .join left _ _ right => left.notes ++ right.notes
  | _, .negate _ _ inner => inner.notes
  | _, .single _ _ => []
  | _, .grouping _ _ inner _ _ => inner.notes

/-- The equals signs behind something else than a bare name, in the order of the text. -/
def invalidTargets : {r : Rule} → PhraseDerivation r → List Token
  | _, .expression inner | _, .assignment inner | _, .operand inner | _, .unary inner => inner.invalidTargets
  | _, .assign target equals _ value =>
    target.invalidTargets ++ (invalidTarget target.tokens equals ++ value.invalidTargets)
  | _, .join left _ _ right => left.invalidTargets ++ right.invalidTargets
  | _, .negate _ _ inner => inner.invalidTargets
  | _, .single _ _ => []
  | _, .grouping _ _ inner _ _ => inner.invalidTargets

end PhraseDerivation

mutual

/-- The tokens of a derivation. -/
def DeclarationDerivation.tokens : DeclarationDerivation → List Token
  | .declare word name semicolon _ _ _ => [word, name, semicolon]
  | .define word name equals _ _ _ value semicolon _ => word :: name :: equals :: (value.tokens ++ [semicolon])
  | .print word _ value semicolon _ => word :: (value.tokens ++ [semicolon])
  | .block opening _ body closing _ => opening :: (body.tokens ++ [closing])
  | .expression value semicolon _ => value.tokens ++ [semicolon]

@[inherit_doc DeclarationDerivation.tokens]
def ProgramDerivation.tokens : ProgramDerivation → List Token
  | .nil => []
  | .cons first later => first.tokens ++ later.tokens

end

mutual

/-- The tree that a derivation is read as. -/
def DeclarationDerivation.tree : DeclarationDerivation → Stmt
  | .declare _ name _ _ _ _ => .declare name none
  | .define _ name _ _ _ _ value _ _ => .declare name (some value.tree)
  | .print _ _ value _ _ => .print value.tree
  | .block _ _ body _ _ => .block body.trees
  | .expression value _ _ => .expression value.tree

/-- The trees that a derivation is read as. -/
def ProgramDerivation.trees : ProgramDerivation → List Stmt
  | .nil => []
  | .cons first later => first.tree :: later.trees

end

mutual

/-- The errors that are noted, in their order. -/
def DeclarationDerivation.notes : DeclarationDerivation → List SyntaxError
  | .declare .. => []
  | .define _ _ _ _ _ _ value _ _ | .print _ _ value _ _ | .expression value _ _ => value.notes
  | .block _ _ body _ _ => body.notes

@[inherit_doc DeclarationDerivation.notes]
def ProgramDerivation.notes : ProgramDerivation → List SyntaxError
  | .nil => []
  | .cons first later => first.notes ++ later.notes

end

mutual

/-- The equals signs of assignments to something else than a bare name, in the order of the text. -/
def DeclarationDerivation.invalidTargets : DeclarationDerivation → List Token
  | .declare .. => []
  | .define _ _ _ _ _ _ value _ _ | .print _ _ value _ _ | .expression value _ _ => value.invalidTargets
  | .block _ _ body _ _ => body.invalidTargets

@[inherit_doc DeclarationDerivation.invalidTargets]
def ProgramDerivation.invalidTargets : ProgramDerivation → List Token
  | .nil => []
  | .cons first later => first.invalidTargets ++ later.invalidTargets

end

/-! ### Bare names -/

private theorem bareName?_eq_none {ts : List Token} (h : 1 < ts.length) : bareName? ts = none := by
  match ts with
  | [] | [_] => simp at h
  | _ :: _ :: _ => rfl

namespace PhraseDerivation

private theorem length_tokens_pos {r : Rule} (d : PhraseDerivation r) : 0 < d.tokens.length := by
  induction d with
  | expression _ ih | assignment _ ih | operand _ ih | unary _ ih => exact ih
  | assign | join | negate | single | grouping => simp only [tokens, List.length_append, List.length_cons]; omega

/-- Only a bare name has the tree of a name. -/
private theorem tree_eq_var_iff {r : Rule} (d : PhraseDerivation r) (name : Token) :
    d.tree = .var name ↔ bareName? d.tokens = some name := by
  induction d with
  | expression _ ih | assignment _ ih | operand _ ih | unary _ ih => exact ih
  | assign target equals _ value ih =>
    have hpos := target.length_tokens_pos
    have hnone : bareName? (target.tokens ++ equals :: value.tokens) = none :=
      bareName?_eq_none (by rw [List.length_append, List.length_cons]; omega)
    simp only [tree, tokens, hnone]
    split
    · simp
    · next htarget => rw [ih, htarget]
  | join left operator _ right =>
    have hpos := left.length_tokens_pos
    have hnone : bareName? (left.tokens ++ operator :: right.tokens) = none :=
      bareName?_eq_none (by rw [List.length_append, List.length_cons]; omega)
    simp [tree, tokens, hnone]
  | negate operator _ inner =>
    have hnone : bareName? (operator :: inner.tokens) = none :=
      bareName?_eq_none (by rw [List.length_cons]; have := inner.length_tokens_pos; omega)
    simp [tree, tokens, hnone]
  | single t h =>
    simp only [List.mem_cons, List.not_mem_nil, or_false] at h
    rcases h with h | h | h | h | h | h <;> simp [tree, tokens, bareName?, Token.atom, h]
  | grouping opening _ inner closing _ =>
    have hnone : bareName? (opening :: (inner.tokens ++ [closing])) = none :=
      bareName?_eq_none (by simp)
    simp [tree, tokens, hnone]

/-! ### Derivations are what is read -/

private theorem readsAs_atom {t : Token} (h : t.kind ∈ [.number, .string, .true_, .false_, .nil_, .identifier]) :
    ReadsAs 1 .primary [t] t.atom [] := by
  simp only [List.mem_cons, List.not_mem_nil, or_false] at h
  unfold Token.atom
  rcases h with h | h | h | h | h | h
  · rw [h]; exact .number h
  · rw [h]; exact .string h
  · rw [h]; exact .true_ h
  · rw [h]; exact .false_ h
  · rw [h]; exact .nil_ h
  · rw [h]; exact .name h

/-- A derivation is read as its tree, with its notes. -/
private theorem readsAs {r : Rule} (d : PhraseDerivation r) : ∃ room, ReadsAs room r d.tokens d.tree d.notes := by
  induction d with
  | expression _ ih =>
    obtain ⟨room, ih⟩ := ih
    exact ⟨room + 1, .expression ih⟩
  | assign target equals hequals value ihtarget ihvalue =>
    obtain ⟨room₁, ihtarget⟩ := ihtarget
    obtain ⟨room₂, ihvalue⟩ := ihvalue
    have ihtarget := ihtarget.mono (Nat.le_max_left room₁ room₂)
    have ihvalue := ihvalue.mono (Nat.le_max_right room₁ room₂)
    refine ⟨max room₁ room₂ + 1, ?_⟩
    cases hname : bareName? target.tokens with
    | some name =>
      rw [(target.tree_eq_var_iff name).2 hname] at ihtarget
      have hread := ReadsAs.assign ihtarget hequals ihvalue
      simpa [tokens, tree, notes, invalidTarget, hname] using hread
    | none =>
      have hno : ∀ name, target.tree ≠ .var name := by
        intro name htree
        rw [target.tree_eq_var_iff, hname] at htree
        cases htree
      have hread := ReadsAs.misassign ihtarget hno hequals ihvalue
      simpa [tokens, tree, notes, invalidTarget, targetNote, hname] using hread
  | assignment _ ih =>
    obtain ⟨room, ih⟩ := ih
    exact ⟨room + 1, .assignment ih⟩
  | join left operator hoperator right ihleft ihright =>
    obtain ⟨room₁, ihleft⟩ := ihleft
    obtain ⟨room₂, ihright⟩ := ihright
    exact ⟨max room₁ room₂ + 1, .join (ihleft.mono (by omega)) hoperator (ihright.mono (by omega))⟩
  | operand _ ih =>
    obtain ⟨room, ih⟩ := ih
    exact ⟨room + 1, .operand ih⟩
  | negate operator hoperator _ ih =>
    obtain ⟨room, ih⟩ := ih
    exact ⟨room + 1, .negate hoperator ih⟩
  | unary _ ih =>
    obtain ⟨room, ih⟩ := ih
    exact ⟨room + 1, .unary ih⟩
  | single t h => exact ⟨1, readsAs_atom h⟩
  | grouping opening hopening _ closing hclosing ih =>
    obtain ⟨room, ih⟩ := ih
    exact ⟨room + 1, .grouping hopening ih hclosing⟩

end PhraseDerivation

/-- Whatever is read has a derivation. -/
private theorem ReadsAs.derivation {room : Nat} {r : Rule} {ts : List Token} {e : Expr} {notes : List SyntaxError}
    (h : ReadsAs room r ts e notes) : ∃ d : PhraseDerivation r, d.tokens = ts := by
  induction h with
  | expression _ ih =>
    obtain ⟨d, rfl⟩ := ih
    exact ⟨.expression d, rfl⟩
  | assign _ hequals _ ihtarget ihvalue | misassign _ _ hequals _ ihtarget ihvalue =>
    obtain ⟨target, rfl⟩ := ihtarget
    obtain ⟨value, rfl⟩ := ihvalue
    exact ⟨.assign target _ hequals value, rfl⟩
  | assignment _ ih =>
    obtain ⟨d, rfl⟩ := ih
    exact ⟨.assignment d, rfl⟩
  | join _ hoperator _ ihleft ihright =>
    obtain ⟨left, rfl⟩ := ihleft
    obtain ⟨right, rfl⟩ := ihright
    exact ⟨.join left _ hoperator right, rfl⟩
  | operand _ ih =>
    obtain ⟨d, rfl⟩ := ih
    exact ⟨.operand d, rfl⟩
  | negate hoperator _ ih =>
    obtain ⟨d, rfl⟩ := ih
    exact ⟨.negate _ hoperator d, rfl⟩
  | unary _ ih =>
    obtain ⟨d, rfl⟩ := ih
    exact ⟨.unary d, rfl⟩
  | grouping hopening _ hclosing ih =>
    obtain ⟨d, rfl⟩ := ih
    exact ⟨.grouping _ hopening d _ hclosing, rfl⟩
  | _ h => exact ⟨.single _ (by rw [h]; decide), rfl⟩

mutual

private theorem DeclarationDerivation.readsAs : ∀ d : DeclarationDerivation,
    ∃ room, StatementReadsAs room d.tokens d.tree d.notes
  | .declare _ _ _ hword hname hsemicolon => ⟨3, .declare hword hname hsemicolon⟩
  | .define _ _ _ hword hname hequals value _ hsemicolon => by
    obtain ⟨room, hvalue⟩ := value.readsAs
    exact ⟨room + 3, .define hword hname hequals hvalue hsemicolon⟩
  | .print _ hword value _ hsemicolon => by
    obtain ⟨room, hvalue⟩ := value.readsAs
    exact ⟨room + 3, .print hword hvalue hsemicolon⟩
  | .block _ hopening body _ hclosing => by
    obtain ⟨room, hbody⟩ := body.readAs
    exact ⟨room + 3, .block hopening hbody hclosing⟩
  | .expression value _ hsemicolon => by
    obtain ⟨room, hvalue⟩ := value.readsAs
    exact ⟨room + 3, .expression hvalue hsemicolon⟩

/-- A derivation is read as its trees, with its notes. -/
private theorem ProgramDerivation.readAs :
    ∀ d : ProgramDerivation, ∃ room, StatementsReadAs room d.tokens d.trees d.notes
  | .nil => ⟨0, .nil⟩
  | .cons first later => by
    obtain ⟨room₁, hfirst⟩ := first.readsAs
    obtain ⟨room₂, hlater⟩ := later.readAs
    exact ⟨max room₁ room₂, .cons (hfirst.mono (by omega)) (hlater.mono (by omega))⟩

end

mutual

private theorem StatementReadsAs.derivation {room : Nat} {ts : List Token} {s : Stmt} {notes : List SyntaxError}
    (h : StatementReadsAs room ts s notes) : ∃ d : DeclarationDerivation, d.tokens = ts := by
  cases h with
  | declare hword hname hsemicolon => exact ⟨.declare _ _ _ hword hname hsemicolon, rfl⟩
  | define hword hname hequals h hsemicolon =>
    obtain ⟨value, rfl⟩ := h.derivation
    exact ⟨.define _ _ _ hword hname hequals value _ hsemicolon, rfl⟩
  | print hword h hsemicolon =>
    obtain ⟨value, rfl⟩ := h.derivation
    exact ⟨.print _ hword value _ hsemicolon, rfl⟩
  | block hopening h hclosing =>
    obtain ⟨body, rfl⟩ := h.derivation
    exact ⟨.block _ hopening body _ hclosing, rfl⟩
  | expression h hsemicolon =>
    obtain ⟨value, rfl⟩ := h.derivation
    exact ⟨.expression value _ hsemicolon, rfl⟩

private theorem StatementsReadAs.derivation {room : Nat} {ts : List Token} {ss : List Stmt} {notes : List SyntaxError}
    (h : StatementsReadAs room ts ss notes) : ∃ d : ProgramDerivation, d.tokens = ts := by
  cases h with
  | nil => exact ⟨.nil, rfl⟩
  | cons h hs =>
    obtain ⟨first, rfl⟩ := h.derivation
    obtain ⟨later, rfl⟩ := hs.derivation
    exact ⟨.cons first later, rfl⟩

end

/-- The sentences of the relaxed grammar are the tokens of derivations. -/
theorem looseProgram_iff_derivation {ts : List Token} : LooseProgram ts ↔ ∃ d : ProgramDerivation, d.tokens = ts := by
  constructor
  · intro h
    obtain ⟨_, _, _, hread⟩ := looseProgram_iff_readAs.1 h
    exact hread.derivation
  · rintro ⟨d, rfl⟩
    obtain ⟨room, hread⟩ := d.readAs
    exact hread.looseProgram

/-! ### Nothing is skipped, and each invalid target is noted once -/

private theorem invalidTarget_sublist (target : List Token) (equals : Token) :
    (invalidTarget target equals).Sublist [equals] := by
  unfold invalidTarget
  split <;> simp

namespace PhraseDerivation

private theorem invalidTargets_sublist {r : Rule} (d : PhraseDerivation r) : d.invalidTargets.Sublist d.tokens := by
  induction d with
  | expression _ ih | assignment _ ih | operand _ ih | unary _ ih => exact ih
  | assign target equals _ value ihtarget ihvalue =>
    exact ihtarget.append ((invalidTarget_sublist target.tokens equals).append ihvalue)
  | join left operator _ right ihleft ihright => exact ihleft.append (ihright.cons operator)
  | negate operator _ inner ih => exact ih.cons operator
  | single t => exact List.nil_sublist [t]
  | grouping opening _ inner closing _ ih =>
    exact (ih.trans (List.sublist_append_left inner.tokens [closing])).cons opening

/-- The notes are those of the invalid targets.  Their order is another one, since an assignment is noted behind what is
noted in its right side. -/
private theorem notes_perm {r : Rule} (d : PhraseDerivation r) : d.notes.Perm (d.invalidTargets.map targetNote) := by
  induction d with
  | expression _ ih | assignment _ ih | operand _ ih | unary _ ih | negate _ _ _ ih | grouping _ _ _ _ _ ih => exact ih
  | assign target equals _ value ihtarget ihvalue =>
    simp only [notes, invalidTargets, List.map_append]
    exact ihtarget.append ((ihvalue.append_right _).trans List.perm_append_comm)
  | join left operator _ right ihleft ihright =>
    simp only [notes, invalidTargets, List.map_append]
    exact ihleft.append ihright
  | single => exact .nil

end PhraseDerivation

mutual

private theorem DeclarationDerivation.invalidTargets_sublist : ∀ d : DeclarationDerivation,
    d.invalidTargets.Sublist d.tokens
  | .declare word name semicolon _ _ _ => List.nil_sublist [word, name, semicolon]
  | .define word name equals _ _ _ value semicolon _ =>
    (((value.invalidTargets_sublist.trans (List.sublist_append_left _ [semicolon])).cons equals).cons name).cons word
  | .print word _ value semicolon _ =>
    (value.invalidTargets_sublist.trans (List.sublist_append_left _ [semicolon])).cons word
  | .block opening _ body closing _ =>
    (body.invalidTargets_sublist.trans (List.sublist_append_left _ [closing])).cons opening
  | .expression value semicolon _ => value.invalidTargets_sublist.trans (List.sublist_append_left _ [semicolon])

/-- Every invalid target has its own place in the text. -/
private theorem ProgramDerivation.invalidTargets_sublist : ∀ d : ProgramDerivation, d.invalidTargets.Sublist d.tokens
  | .nil => .slnil
  | .cons first later => first.invalidTargets_sublist.append later.invalidTargets_sublist

end

mutual

private theorem DeclarationDerivation.notes_perm : ∀ d : DeclarationDerivation,
    d.notes.Perm (d.invalidTargets.map targetNote)
  | .declare .. => .nil
  | .define _ _ _ _ _ _ value _ _ | .print _ _ value _ _ | .expression value _ _ => value.notes_perm
  | .block _ _ body _ _ => body.notes_perm

private theorem ProgramDerivation.notes_perm : ∀ d : ProgramDerivation, d.notes.Perm (d.invalidTargets.map targetNote)
  | .nil => .nil
  | .cons first later => by
    simp only [ProgramDerivation.notes, ProgramDerivation.invalidTargets, List.map_append]
    exact first.notes_perm.append later.notes_perm

end

mutual

private theorem DeclarationDerivation.slots_tree : ∀ d : DeclarationDerivation, d.tree.slots = 0
  | .declare .. | .define .. | .print .. | .expression .. => rfl
  | .block _ _ body _ _ => body.slotsIn_trees

/-- No statement of a derivation is passed over. -/
private theorem ProgramDerivation.slotsIn_trees : ∀ d : ProgramDerivation, Stmt.slotsIn d.trees = 0
  | .nil => rfl
  | .cons first later => by
    rw [ProgramDerivation.trees, Stmt.slotsIn, first.slots_tree, later.slotsIn_trees]

end

/-- Invalid assignment targets are noted once each and do not confuse the reading.  Every sentence of the relaxed
grammar has a derivation, and in front of an end mark it is read as any of its derivations says, the nesting allowance
aside.  No statement is passed over.  An assignment whose left side is a bare name is a node of the tree; any other one
is the tree of its left side alone, and is noted at its equals sign, after the notes of its left and then of its right
side.  There is exactly one note for each of these equals signs, and there are no others. -/
theorem invalid_targets_noted_once (ts : List Token) (e : Token) (h : LooseProgram ts) (he : e.kind = .eof) :
    (∃ d : ProgramDerivation, d.tokens = ts) ∧
      ∀ d : ProgramDerivation, d.tokens = ts →
        Stmt.slotsIn d.trees = 0 ∧ d.invalidTargets.Sublist ts ∧
          d.notes.Perm (d.invalidTargets.map fun equals => ⟨equals, .invalidAssignmentTarget⟩) ∧
          (parse (ts ++ [e]) = ⟨.ok d.trees, d.notes, [e]⟩ ∨
            ∃ error ∈ (parse (ts ++ [e])).errors, error.problem = .nestedTooDeep) := by
  refine ⟨looseProgram_iff_derivation.1 h, ?_⟩
  rintro d rfl
  obtain ⟨room, hread⟩ := d.readAs
  exact ⟨d.slotsIn_trees, d.invalidTargets_sublist, d.notes_perm, hread.parse_or_tooDeep he⟩

/-- In `(a) = nil = b = c;` the first two equals signs are noted, the second one before the first.  What is left of the
expression is `(a)`, and the proper assignment to `b` is dropped with the right sides in which it stands. -/
theorem invalid_targets_noted_once_chain :
    let opening : Token := ⟨.leftParen, "(", .nil, 1⟩
    let a : Token := ⟨.identifier, "a", .nil, 1⟩
    let closing : Token := ⟨.rightParen, ")", .nil, 1⟩
    let first : Token := ⟨.equal, "=", .nil, 1⟩
    let word : Token := ⟨.nil_, "nil", .nil, 1⟩
    let second : Token := ⟨.equal, "=", .nil, 2⟩
    let b : Token := ⟨.identifier, "b", .nil, 2⟩
    let third : Token := ⟨.equal, "=", .nil, 3⟩
    let c : Token := ⟨.identifier, "c", .nil, 3⟩
    let semicolon : Token := ⟨.semicolon, ";", .nil, 3⟩
    let ts := [opening, a, closing, first, word, second, b, third, c, semicolon]
    LooseProgram ts ∧ parse (ts ++ [.endMark 3]) = ⟨.ok [.expression (.grouping (.var a))],
      [⟨second, .invalidAssignmentTarget⟩, ⟨first, .invalidAssignmentTarget⟩], [.endMark 3]⟩ := by
  intro opening a closing first word second b third c semicolon ts
  let side (inner : PhraseDerivation .primary) : PhraseDerivation (.binary .equality) :=
    .operand (.operand (.operand (.operand (.unary inner))))
  let target : PhraseDerivation .primary :=
    .grouping opening rfl (.expression (.assignment (side (.single a (by decide))))) closing rfl
  let value : PhraseDerivation .assignment :=
    .assign (side (.single word (by decide))) second rfl
      (.assign (side (.single b (by decide))) third rfl (.assignment (side (.single c (by decide)))))
  let d : ProgramDerivation :=
    .cons (.expression (.expression (.assign (side target) first rfl value)) semicolon rfl) .nil
  have hts : LooseProgram ts := looseProgram_iff_derivation.2 ⟨d, rfl⟩
  have hfits : ¬∃ error ∈ (parse (ts ++ [.endMark 3])).errors, error.problem = .nestedTooDeep := by decide +kernel
  obtain ⟨-, -, -, hparse⟩ := (invalid_targets_noted_once ts (.endMark 3) hts rfl).2 d rfl
  exact ⟨hts, hparse.resolve_right hfits⟩

end Treewalk
