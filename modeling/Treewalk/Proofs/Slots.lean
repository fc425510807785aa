import Treewalk.Proofs.Gate

/-!
# Empty slots

A statement that cannot be read leaves an empty slot in its list, and the list it stands in may itself be given up, with
all the slots in it, if its block cannot be read to the end.  Still every error but an invalid assignment target leaves
a slot somewhere, and there is no slot without such an error, so that a program with slots in it is never run.

* `Stmt.slotsIn`: the number of empty slots in a list of statements, at any depth.
* `Parser.statement_accounts`, `Parser.program_accounts`: the slots are accounted for by the grave errors.
* `slots_match_errors`: whole programs, and the runs of a session.
-/

namespace Treewalk

namespace Stmt

mutual

/-- The number of empty slots in a statement. -/
def slots : Stmt → Nat
  | .block body => slotsIn body
  | .skipped => 1
  | _ => 0

/-- The number of empty slots in a list of statements. -/
def slotsIn : List Stmt → Nat
  | [] => 0
  | s :: later => s.slots + slotsIn later

end

end Stmt

/-! ### Grave errors -/

/-- The error is something else than an invalid assignment target. -/
def SyntaxError.isGrave (e : SyntaxError) : Bool := e.problem.message ≠ "Invalid assignment target."

theorem SyntaxError.isGrave_iff (e : SyntaxError) : e.isGrave = true ↔ e.problem ≠ .invalidAssignmentTarget := by
  have hmessage : ∀ problem : SyntaxProblem,
      problem.message ≠ "Invalid assignment target." ↔ problem ≠ .invalidAssignmentTarget := by
    intro problem
    cases problem <;> decide
  rw [isGrave, decide_eq_true_iff, hmessage]

theorem countP_isGrave_eq_zero {errors : List SyntaxError} : errors.countP SyntaxError.isGrave = 0 ↔ Mild errors := by
  simp only [List.countP_eq_zero, SyntaxError.isGrave_iff, Mild, not_not]

/-- An expression that is read has no grave errors: any other error ends it. -/
theorem ReadsAs.mild {room : Nat} {r : Rule} {ts : List Token} {e : Expr} {notes : List SyntaxError}
    (h : ReadsAs room r ts e notes) : Mild notes := by
  induction h with
  | expression _ ih | assignment _ ih | operand _ ih | unary _ ih | negate _ _ ih | grouping _ _ _ ih => exact ih
  | assign _ _ _ ihname ihvalue => exact List.forall_mem_append.2 ⟨ihname, ihvalue⟩
  | misassign _ _ _ _ ihtarget ihvalue =>
    exact List.forall_mem_append.2 ⟨ihtarget, List.forall_mem_append.2 ⟨ihvalue, by simp⟩⟩
  | join _ _ _ ihleft ihright => exact List.forall_mem_append.2 ⟨ihleft, ihright⟩
  | _ => exact mild_nil

/-- There are at least as many grave errors as slots, and none without a slot. -/
structure Accounted (slots : Nat) (errors : List SyntaxError) : Prop where
  le : slots ≤ errors.countP SyntaxError.isGrave
  mild : slots = 0 → errors.countP SyntaxError.isGrave = 0

namespace Accounted

private theorem of_mild {errors : List SyntaxError} (h : Mild errors) : Accounted 0 errors :=
  ⟨Nat.zero_le _, fun _ => countP_isGrave_eq_zero.2 h⟩

/-- One slot stands for any number of grave errors. -/
private theorem of_mem {errors : List SyntaxError} {e : SyntaxError} (he : e ∈ errors)
    (hgrave : e.problem ≠ .invalidAssignmentTarget) : Accounted 1 errors :=
  ⟨List.countP_pos_iff.2 ⟨e, he, e.isGrave_iff.2 hgrave⟩, fun h => by cases h⟩

private theorem append {m n : Nat} {n₁ n₂ : List SyntaxError} (h₁ : Accounted m n₁) (h₂ : Accounted n n₂) :
    Accounted (m + n) (n₁ ++ n₂) := by
  obtain ⟨hle₁, hmild₁⟩ := h₁
  obtain ⟨hle₂, hmild₂⟩ := h₂
  constructor <;> rw [List.countP_append] <;> omega

private theorem pos_iff {n : Nat} {errors : List SyntaxError} (h : Accounted n errors) :
    0 < n ↔ ∃ e ∈ errors, e.isGrave = true := by
  rw [← List.countP_pos_iff]
  obtain ⟨hle, hmild⟩ := h
  omega

end Accounted

namespace Parser

/-- Whatever the parser yields, its slots are accounted for. -/
def Accounts {α : Type} (p : Parser α) (slots : α → Nat) : Prop :=
  ∀ ⦃ts a notes rest⦄, p.Yields ts a notes rest → Accounted (slots a) notes

/-! ### Statements -/

/-- A statement that cannot be read leaves one slot, whatever slots there were in the part of it that was read. -/
private theorem Accounts.recovering {item : Parser Stmt} (h : item.Accounts Stmt.slots) (hitem : item.Orderly) :
    (Parser.recovering item).Accounts Stmt.slots := by
  intro ts s notes rest hs
  rcases hs.recovering_cases hitem with hread | ⟨rfl, error, hmem, hgrave⟩
  · exact h hread
  · exact .of_mem hmem hgrave

private theorem Accounts.statements {item : Item} (h : item.toParser.Accounts Stmt.slots)
    (hitem : item.toParser.Orderly) (closing : Option TokenKind) :
    (Parser.statements closing item).Accounts Stmt.slotsIn := by
  intro ts ss notes rest hss
  refine Yields.statements_induction (motive := fun _ ss notes => Accounted (Stmt.slotsIn ss) notes) ?_ ?_ hss
  · exact fun _ _ => .of_mild mild_nil
  · exact fun hs ih => (h.recovering hitem hs).append ih

/-- Only the slots in a block are slots of a statement that has been read. -/
private theorem Accounts.anyStatement {value : Parser Expr} {body : Parser (List Stmt)}
    (hvalue : value.Accounts fun _ => 0) (hbody : body.Accounts Stmt.slotsIn) :
    (Parser.anyStatement value body).Accounts Stmt.slots := by
  intro ts s notes rest h
  rcases h.anyStatement_cases with ⟨_, _, _, -, -, -, -, rfl, rfl⟩ | ⟨_, _, _, _, e, _, -, -, -, he, -, -, rfl⟩ |
    ⟨_, _, e, _, -, he, -, -, rfl⟩ | ⟨_, _, ss, _, -, hss, -, -, rfl⟩ | ⟨e, _, he, -, rfl⟩
  · exact .of_mild mild_nil
  · exact hvalue he
  · exact hvalue he
  · exact hbody hss
  · exact hvalue he

theorem statement_accounts : ∀ room : Nat, (statement room).toParser.Accounts Stmt.slots
  | 0 => fun _ _ _ _ h => absurd h not_yields_stop
  | 1 => fun _ _ _ _ h => absurd h not_yields_stop
  | 2 => fun _ _ _ _ h => absurd h not_yields_stop
  | room + 3 => by
    have hbody := (statement_accounts room).statements (statement_orderly room) (some .rightBrace)
    refine Accounts.anyStatement (fun _ _ _ _ he => ?_) hbody
    obtain ⟨taken, -, hread⟩ := Rule.readsAs_of_yields .expression he
    exact .of_mild hread.mild

theorem program_accounts (room : Nat) : (program room).Accounts Stmt.slotsIn :=
  (statement_accounts room).statements (statement_orderly room) none

end Parser

/-! ### Programs -/

/-- With an end mark ahead a program is read, and its slots are accounted for. -/
private theorem parse_accounted {tokens : List Token} (h : HasEnd tokens) :
    ∃ program, (parse tokens).result = .ok program ∧ Accounted (Stmt.slotsIn program) (parse tokens).errors := by
  obtain ⟨program, hprogram, -⟩ := Parser.program_result readingRoom h
  have hyields : (Parser.program readingRoom).Yields tokens program (parse tokens).errors (parse tokens).rest := by
    rw [Parser.Yields, ← hprogram]
    rfl
  exact ⟨program, hprogram, Parser.program_accounts readingRoom hyields⟩

/-- A program in a source text without errors has no slots. -/
private theorem slotsIn_of_readSource {source : String} {program : List Stmt}
    (h : readSource source = ⟨.ok program, []⟩) : Stmt.slotsIn program = 0 := by
  obtain ⟨program', hprogram, haccounted⟩ := parse_accounted (hasEnd_scan source)
  have hresult : (parse (scan source).tokens).result = .ok program := congrArg (·.result) h
  have hreports : (scan source).errors.map LexicalError.report ++
      (parse (scan source).tokens).errors.map SyntaxError.report = [] := congrArg (·.reports) h
  obtain rfl : program' = program := Except.ok.inj (hprogram.symm.trans hresult)
  have herrors : (parse (scan source).tokens).errors = [] :=
    List.map_eq_nil_iff.1 (List.append_eq_nil_iff.1 hreports).2
  rw [herrors] at haccounted
  exact Nat.le_zero.1 haccounted.le

/-- A program has an empty slot, at any depth, if and only if there is an error in it other than an invalid assignment
target, and it has no more slots than there are such errors.  So whatever a session runs has no slots in it: a run does
nothing but report, or it runs a program without slots. -/
theorem slots_match_errors :
    (∀ tokens, HasEnd tokens → ∃ program, (parse tokens).result = .ok program ∧
      (0 < Stmt.slotsIn program ↔ ∃ e ∈ (parse tokens).errors, e.problem.message ≠ "Invalid assignment target.") ∧
      Stmt.slotsIn program ≤
        (parse tokens).errors.countP fun e => e.problem.message ≠ "Invalid assignment target.") ∧
    ∀ (session : Session) (source : String), ∃ program, (readSource source).result = .ok program ∧
      ((session.flags.recordAll (readSource source).reports).hadError = true ∧
        session.run source = (⟨session.flags.recordAll (readSource source).reports, session.scopes⟩,
          ⟨.ok [], [], (readSource source).reports⟩) ∨
      Stmt.slotsIn program = 0 ∧ session.run source = session.interpret program) := by
  refine ⟨fun tokens h => ?_, fun session source => ?_⟩
  · obtain ⟨program, hprogram, haccounted⟩ := parse_accounted h
    exact ⟨program, hprogram, by simpa [SyntaxError.isGrave] using haccounted.pos_iff, haccounted.le⟩
  · obtain ⟨program, hprogram, -, hidle | ⟨-, hread, hrun⟩⟩ := session.run_cases source
    · exact ⟨program, hprogram, .inl hidle⟩
    · exact ⟨program, hprogram, .inr ⟨slotsIn_of_readSource hread, hrun⟩⟩

/-- A block with a slot in it, then an invalid assignment target, which leaves none, and a block that is not closed: the
slot in it is lost, and the block itself is a slot. -/
theorem slots_match_errors_open_block :
    let tokens := (scan "\x7b print; \x7d 1 = 2; \x7b print;").tokens
    let grave (e : SyntaxError) : Prop := e.problem.message ≠ "Invalid assignment target."
    HasEnd tokens ∧ (parse tokens).errors.map (·.problem) =
        [.expectedExpression, .invalidAssignmentTarget, .expectedExpression, .expectedBraceAfterBlock] ∧
      ∃ program, (parse tokens).result = .ok program ∧ Stmt.slotsIn program = 2 ∧
        (0 < Stmt.slotsIn program ↔ ∃ e ∈ (parse tokens).errors, grave e) ∧
        Stmt.slotsIn program ≤ (parse tokens).errors.countP grave := by
  intro tokens grave
  have hend : HasEnd tokens := ⟨.endMark 1, by decide +kernel, rfl⟩
  obtain ⟨program, hprogram, hiff, hle⟩ := slots_match_errors.1 tokens hend
  have hslots : (parse tokens).result.toOption.map Stmt.slotsIn = some 2 := by decide +kernel
  rw [hprogram] at hslots
  exact ⟨hend, by decide +kernel, program, hprogram, Option.some.inj hslots, hiff, hle⟩

end Treewalk
