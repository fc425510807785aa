import Treewalk.Proofs.Reading.EndMark
import Treewalk.Proofs.WellFormed.Walks

/-!
# Trees that have been read

Whatever is read from a list of tokens with an end mark is well formed, has known operators only and is stratified,
also where errors had to be passed over.  So it can be shown and run without meeting a misplaced node.

* `Parser.Ensures`: the results of a parser are as demanded.
* `ReadsAs.sound`: what a rule reads is sound, and holds together as tightly as the rule asks for.
* `parsed_trees_fit`: what is read fits both walks, and the two walks agree on what fits.
-/

namespace Treewalk

/-! ### Expressions -/

/-- The node is an expression with a known operator, if any, and operands that are tight enough. -/
def Expr.Sound (e : Expr) : Prop := e.Placed ∧ e.OperatorKnown ∧ e.OperandsTight

/-- How tightly the expressions of a rule hold together at least. -/
def Rule.tightness : Rule → Nat
  | .expression => 0
  | .assignment => 0
  | .binary .equality => 1
  | .binary .comparison => 2
  | .binary .term => 3
  | .binary .factor => 4
  | .unary => 5
  | .primary => 6

theorem Level.operators_known (level : Level) : ∀ kind ∈ level.operators, kind ∈ binaryOperators := by
  cases level <;> decide

private theorem Level.operators_tightness (level : Level) :
    ∀ kind ∈ level.operators, kind.tightness = (Rule.binary level).tightness := by
  cases level <;> decide

private theorem Level.lt_operand_tightness (level : Level) :
    (Rule.binary level).tightness < level.operand.tightness := by
  cases level <;> decide

/-- What a rule reads is sound, and holds together as tightly as the rule asks for. -/
theorem ReadsAs.sound {room : Nat} {r : Rule} {ts : List Token} {e : Expr} {notes : List SyntaxError}
    (h : ReadsAs room r ts e notes) : e.Every Expr.Sound ∧ r.tightness ≤ e.tightness := by
  have hleaf : ∀ {e : Expr}, e.OperatorKnown = True → e.OperandsTight = True → e.Placed → e.Sound :=
    fun h₁ h₂ h => ⟨h, h₁ ▸ trivial, h₂ ▸ trivial⟩
  induction h with
  | expression _ ih => exact ih
  | assign _ _ _ _ ihvalue => exact ⟨⟨hleaf rfl rfl trivial, ihvalue.1⟩, Nat.le_refl _⟩
  | misassign _ _ _ _ ihtarget => exact ⟨ihtarget.1, Nat.zero_le _⟩
  | assignment _ ih => exact ⟨ih.1, Nat.zero_le _⟩
  | @join _ level _ _ operator left right _ _ _ hoperator _ ihleft ihright =>
    obtain ⟨hleft, htight⟩ := ihleft
    obtain ⟨hright, htight'⟩ := ihright
    have hown := level.operators_tightness _ hoperator
    have hlt := level.lt_operand_tightness
    have hnode : (Expr.binary left operator right).Sound :=
      ⟨trivial, level.operators_known _ hoperator, by rw [hown]; exact htight, by rw [hown]; omega⟩
    exact ⟨⟨hnode, hleft, hright⟩, Nat.le_of_eq hown.symm⟩
  | @operand _ level _ _ _ _ ih =>
    have hlt := level.lt_operand_tightness
    exact ⟨ih.1, by omega⟩
  | @negate _ operator _ operand _ hoperator _ ih =>
    have hknown : operator.kind ∈ unaryOperators := by rcases hoperator with h | h <;> rw [h] <;> decide
    exact ⟨⟨⟨trivial, hknown, ih.2⟩, ih.1⟩, Nat.le_refl _⟩
  | unary _ ih => exact ⟨ih.1, Nat.le_trans (by decide) ih.2⟩
  | false_ | true_ | nil_ | number | string | name => exact ⟨hleaf rfl rfl trivial, Nat.le_refl _⟩
  | grouping _ _ _ ih => exact ⟨⟨hleaf rfl rfl trivial, ih.1⟩, Nat.le_refl _⟩

namespace Parser

variable {α β : Type}

/-- Whatever the parser gives as a result is as demanded. -/
def Ensures (P : α → Prop) (p : Parser α) : Prop :=
  ∀ ts a, (p.run ts).result = .ok a → P a

private theorem rule_ensures (r : Rule) (room : Nat) : (r.parser room).Ensures (Expr.Every Expr.Sound) := by
  intro ts e h
  have hyields : (r.parser room).Yields ts e ((r.parser room).run ts).errors ((r.parser room).run ts).rest := by
    rw [Yields, ← h]
  obtain ⟨taken, -, hread⟩ := r.readsAs_of_yields hyields
  exact hread.sound.1

/-! ### Statements -/

private theorem ensures_pure {P : α → Prop} {a : α} (h : P a) : (pure a : Parser α).Ensures P := by
  intro ts b hb
  obtain rfl : a = b := Except.ok.inj hb
  exact h

private theorem ensures_stop (P : α → Prop) (reason : Stop) : (stop reason : Parser α).Ensures P := by
  intro ts a h
  cases h

private theorem Ensures.bind {P : α → Prop} {Q : β → Prop} {p : Parser α} {f : α → Parser β} (hp : p.Ensures P)
    (hf : ∀ a, P a → (f a).Ensures Q) : (p >>= f).Ensures Q := by
  intro ts b h
  simp only [bind_def, Parser.bind] at h
  split at h
  · next a ha => exact hf a (hp ts a ha) _ b h
  · cases h

private theorem Ensures.branch {P : α → Prop} {select : Token → Option (Parser α)} {otherwise : Parser α}
    (hs : ∀ t, ∀ p ∈ select t, p.Ensures P) (ho : otherwise.Ensures P) : (branch select otherwise).Ensures P := by
  intro ts a h
  cases ts with
  | nil => cases h
  | cons t ts =>
    simp only [Parser.branch] at h
    split at h
    · exact ho _ a h
    · split at h
      · next p hp => exact hs t p hp _ a h
      · exact ho _ a h

/-- An item that ends with a token of some kind and is known before it. -/
private theorem ensures_closed {P : α → Prop} {a : α} (h : P a) (kind : TokenKind) (problem : SyntaxProblem) :
    (expect kind problem >>= fun _ => pure a).Ensures P :=
  Ensures.bind (P := fun _ => True) (fun _ _ _ => trivial) fun _ _ => ensures_pure h

private theorem Ensures.recovering {P : Stmt → Prop} {item : Parser Stmt} (h : item.Ensures P) (hskipped : P .skipped) :
    (recovering item).Ensures P := by
  intro ts s hs
  rcases recover_ok hs with hs | rfl
  · exact h ts s hs
  · exact hskipped

private theorem Ensures.statements {P : Stmt → Prop} {item : Item} (h : item.toParser.Ensures P) (hskipped : P .skipped)
    (closing : Option TokenKind) : (statements closing item).Ensures (fun ss => ∀ s ∈ ss, P s) := by
  intro ts
  show ∀ ss, (statementsFrom closing item ts).result = .ok ss → ∀ s ∈ ss, P s
  fun_induction statementsFrom closing item ts with
  | case1 => intro ss hss; cases hss
  | case2 => intro ss hss; cases hss; simp
  | case3 t ts _ reading s hs next ih =>
    intro ss hss
    cases hnext : next.result with
    | error reason => rw [hnext] at hss; cases hss
    | ok later =>
      rw [hnext] at hss
      obtain rfl : s :: later = ss := Except.ok.inj hss
      have hfirst : P s := h.recovering hskipped _ s hs
      exact List.forall_mem_cons.2 ⟨hfirst, ih later hnext⟩
  | case4 => intro ss hss; cases hss

private theorem Ensures.anyStatement {P : Expr → Prop} {value : Parser Expr} {body : Parser (List Stmt)}
    (hv : value.Ensures P) (hb : body.Ensures fun ss => ∀ s ∈ ss, s.Every P) :
    (anyStatement value body).Ensures (Stmt.Every P) := by
  have heffect : (effect value).Ensures (Stmt.Every P) :=
    Ensures.bind hv fun e he => ensures_closed (show (Stmt.expression e).Every P from he) _ _
  refine Ensures.branch (fun t p hp => ?_) heffect
  split at hp
  · cases hp
    refine Ensures.bind (P := fun _ => True) (fun _ _ _ => trivial) fun name _ => ?_
    refine Ensures.bind (P := fun init => (Stmt.declare name init).Every P) ?_ fun init hinit =>
      ensures_closed hinit _ _
    refine Ensures.branch (fun u q hq => ?_) (ensures_pure trivial)
    split at hq
    · cases hq
      exact Ensures.bind hv fun e he => ensures_pure he
    · cases hq
  · cases hp
    exact Ensures.bind hv fun e he => ensures_closed (show (Stmt.print e).Every P from he) _ _
  · cases hp
    have hblock : ∀ ss : List Stmt, (∀ s ∈ ss, s.Every P) → (Stmt.block ss).Every P := fun _ => Stmt.everyIn_iff.2
    exact Ensures.bind hb fun ss hss => ensures_closed (hblock ss hss) _ _
  · cases hp

private theorem statement_ensures : ∀ room : Nat, (statement room).toParser.Ensures (Stmt.Every (Expr.Every Expr.Sound))
  | 0 => ensures_stop _ _
  | 1 => ensures_stop _ _
  | 2 => ensures_stop _ _
  | room + 3 =>
    Ensures.anyStatement (rule_ensures _ _) (Ensures.statements (statement_ensures room) trivial _)

end Parser

/-! ### Programs -/

/-- The statements of a program that has been read are sound. -/
private theorem parse_sound {tokens : List Token} {program : List Stmt} (h : (parse tokens).result = .ok program) :
    ∀ s ∈ program, s.Every (Expr.Every Expr.Sound) :=
  Parser.Ensures.statements (Parser.statement_ensures readingRoom) trivial none tokens program h

theorem parse_wellFormed {tokens : List Token} {program : List Stmt} (h : (parse tokens).result = .ok program) :
    Stmt.EveryIn Expr.WellFormed program :=
  Stmt.everyIn_iff.2 fun s hs => (parse_sound h s hs).imp fun _ he => he.imp fun _ hsound => hsound.1

/-- Showing a program that is not too high for the allowance meets a misplaced node if and only if there is one. -/
private theorem outlineWithin_misplaced_iff {room : Nat} {program : List Stmt}
    (h : outlineWithin room program ≠ .error .tooDeep) :
    (∃ misfit, outlineWithin room program = .error (.misplaced misfit)) ↔
      ∃ s ∈ program, ¬s.Every Expr.WellFormed := by
  have hall : (∃ s ∈ program, ¬s.Every Expr.WellFormed) ↔ ¬Stmt.EveryIn Expr.WellFormed program := by
    rw [Stmt.everyIn_iff]
    simp
  rw [hall]
  constructor
  · rintro ⟨misfit, hfault⟩
    exact outlineWithin_fault hfault
  · intro hnot
    cases hshown : outlineWithin room program with
    | ok text => exact absurd (wellFormed_of_outlineWithin hshown) hnot
    | error fault =>
      cases fault with
      | misplaced misfit => exact ⟨misfit, rfl⟩
      | tooDeep => exact absurd hshown h

/-- What is read from tokens with an end mark fits both walks over trees, whether there were errors or not: it is well
formed, has known operators and is stratified, so that neither showing nor running it meets a misplaced node.  For
trees built by hand the two walks agree, nesting aside: showing a program meets a misplaced node exactly if some tree
is not well formed, and if it meets none, neither does running the program in any session.  Nesting is no obstacle
within an allowance of three units for each level. -/
theorem parsed_trees_fit :
    (∀ tokens, HasEnd tokens → ∃ program, (parse tokens).result = .ok program ∧
      (∀ s ∈ program, s.Every Expr.WellFormed ∧ s.Every Expr.KnownOperators ∧ s.Every Expr.Stratified) ∧
      (∀ misfit, outlineProgram program ≠ .error (.misplaced misfit)) ∧
      ∀ session misfit, (Session.interpret session program).2.results ≠ .error (.fault (.misplaced misfit))) ∧
    (∀ program room, outlineWithin room program ≠ .error .tooDeep →
      ((∃ misfit, outlineWithin room program = .error (.misplaced misfit)) ↔
        ∃ s ∈ program, ¬s.Every Expr.WellFormed) ∧
      ((∀ misfit, outlineWithin room program ≠ .error (.misplaced misfit)) →
        ∀ session misfit,
          (Session.interpret session program).2.results ≠ .error (.fault (.misplaced misfit)))) ∧
    (∀ program, outlineProgram program = outlineWithin outlineRoom program) ∧
    (∀ program room, 3 * Stmt.heightOf program ≤ room → outlineWithin room program ≠ .error .tooDeep) := by
  refine ⟨fun tokens hend => ?_, fun program room hdeep => ⟨outlineWithin_misplaced_iff hdeep, fun hshown => ?_⟩,
    fun program => rfl, fun program room hroom hdeep => ?_⟩
  · obtain ⟨program, hprogram, -⟩ := Parser.program_result readingRoom hend
    have hsound := parse_sound hprogram
    have hformed := parse_wellFormed hprogram
    refine ⟨program, hprogram, fun s hs => ⟨?_, ?_, ?_⟩, fun misfit hfault => ?_,
      Session.interpret_of_wellFormed hformed⟩
    · exact (hsound s hs).imp fun _ he => he.imp fun _ h => h.1
    · exact (hsound s hs).imp fun _ he => he.imp fun _ h => h.2.1
    · exact (hsound s hs).imp fun _ he => he.imp fun _ h => h.2.2
    · have hfault : outlineWithin outlineRoom program = .error (.misplaced misfit) := hfault
      exact outlineWithin_fault hfault hformed
  · cases htext : outlineWithin room program with
    | ok text => exact Session.interpret_of_wellFormed (wellFormed_of_outlineWithin htext)
    | error fault =>
      cases fault with
      | misplaced misfit => exact absurd htext (hshown misfit)
      | tooDeep => exact absurd htext hdeep
  · have hlt : room < 3 * Stmt.heightOf program := outlineWithin_fault hdeep
    omega

/-- The tokens of `(a) = 1; ) ;`, with an invalid assignment and a statement that is passed over; and a tree with a
statement in the place of an operand, which is found when it is shown. -/
theorem parsed_trees_fit_broken :
    let a : Token := ⟨.identifier, "a", .nil, 1⟩
    let minus : Token := ⟨.minus, "-", .nil, 1⟩
    let tokens : List Token := [⟨.leftParen, "(", .nil, 1⟩, a, ⟨.rightParen, ")", .nil, 1⟩, ⟨.equal, "=", .nil, 1⟩,
      ⟨.number, "1", .num 1, 1⟩, ⟨.semicolon, ";", .nil, 1⟩, ⟨.rightParen, ")", .nil, 1⟩,
      ⟨.semicolon, ";", .nil, 1⟩, .endMark 1]
    let improper : List Stmt := [.skipped, .block [.print (.binary (.var a) minus (.misplaced (some .print)))]]
    let proper : List Stmt := [.skipped, .block [.print (.unary minus (.assign a (.var a)))]]
    HasEnd tokens ∧ (∃ program, (parse tokens).result = .ok program ∧
        ∀ s ∈ program, s.Every Expr.WellFormed ∧ s.Every Expr.KnownOperators ∧ s.Every Expr.Stratified) ∧
      3 * Stmt.heightOf improper ≤ outlineRoom ∧
      (∃ misfit, outlineWithin outlineRoom improper = .error (.misplaced misfit)) ∧
      outlineWithin outlineRoom proper = .ok "<error>\n(block (print (- (assign a a))))" ∧
      ∀ misfit, (Session.start.interpret proper).2.results ≠ .error (.fault (.misplaced misfit)) := by
  intro a minus tokens improper proper
  obtain ⟨hparsed, hbuilt, -, hroom⟩ := parsed_trees_fit
  have hend : HasEnd tokens := ⟨.endMark 1, by simp [tokens], rfl⟩
  obtain ⟨program, hprogram, hfit, -⟩ := hparsed tokens hend
  have hlow : 3 * Stmt.heightOf improper ≤ outlineRoom := by decide
  have hill : ∃ s ∈ improper, ¬s.Every Expr.WellFormed :=
    ⟨_, List.mem_cons_of_mem _ List.mem_cons_self, fun h => h.1.2.2⟩
  have htext : outlineWithin outlineRoom proper = .ok "<error>\n(block (print (- (assign a a))))" := by cbv
  exact ⟨hend, ⟨program, hprogram, hfit⟩, hlow, ((hbuilt improper _ (hroom improper _ hlow)).1.2 hill), htext,
    (hbuilt proper outlineRoom (by simp [htext])).2 (by simp [htext]) .start⟩

end Treewalk
