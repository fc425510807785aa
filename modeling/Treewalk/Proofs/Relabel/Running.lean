import Treewalk.Proofs.Relabel
import Treewalk.Run

/-!
# Running relabelled trees

Running a tree looks at the kinds of its operators and at the texts of its names.  If a relabelling keeps both, the
relabelled tree runs as the tree itself does, and an error blames the relabelled token.

* `Expr.eval_relabel`, `Stmt.exec_relabel`: the outcomes of an expression and of a statement.
* `runStatements_relabel`: the run of a program.
-/

namespace Treewalk

/-! ### Relabelling outcomes -/

/-- An error that blames the relabelled token. -/
def RuntimeError.relabel (f : Token → Token) : RuntimeError → RuntimeError
  | .typeMismatch operator requirement => .typeMismatch (f operator) requirement
  | .undefinedVariable name => .undefinedVariable (f name)

/-- A reason to halt, with the token to blame relabelled if there is one. -/
def Halt.relabel (f : Token → Token) : Halt → Halt
  | .error e => .error (e.relabel f)
  | .fault reason => .fault reason

/-- A run with the token to blame relabelled. -/
def Run.relabel (f : Token → Token) (run : Run) : Run := { run with halt := run.halt.map (Halt.relabel f) }

namespace Action

variable {α β : Type} {f : Token → Token}

/-- An action that blames relabelled tokens. -/
def relabel (f : Token → Token) (action : Action α) : Action α := fun scopes =>
  let outcome := action scopes
  { outcome with result := outcome.result.mapError (Halt.relabel f) }

private theorem relabel_pure (a : α) : (pure a : Action α).relabel f = pure a := rfl

private theorem relabel_bind (action : Action α) (g : α → Action β) :
    (action >>= g).relabel f = action.relabel f >>= fun a => (g a).relabel f := by
  funext scopes
  show relabel f (action.bind g) scopes = (action.relabel f).bind (fun a => (g a).relabel f) scopes
  simp only [relabel, Action.bind]
  cases (action scopes).result <;> rfl

private theorem relabel_spending (cost room : Nat) : (spending cost room).relabel f = spending cost room := by
  funext scopes
  unfold relabel spending spend
  split <;> rfl

private theorem relabel_ofResult (result : Except RuntimeError α) :
    (ofResult result).relabel f = ofResult (result.mapError (RuntimeError.relabel f)) := by
  cases result <;> rfl

private theorem relabel_fault (fault : Fault) : (halt (.fault fault) : Action α).relabel f = halt (.fault fault) := rfl

private theorem relabel_print (text : String) : (print text).relabel f = print text := rfl

private theorem asking_relabel (hlexeme : ∀ t, (f t).lexeme = t.lexeme) (name : Token) (room : Nat) :
    asking (f name) room = (asking name room).relabel f := by
  funext scopes
  unfold asking
  rw [hlexeme]
  exact (congrFun (relabel_spending (scopes.asked name.lexeme) room) scopes).symm

private theorem lookup_relabel (hlexeme : ∀ t, (f t).lexeme = t.lexeme) (name : Token) :
    lookup (f name) = (lookup name).relabel f := by
  funext scopes
  simp only [lookup, relabel, hlexeme]
  cases scopes.get? name.lexeme <;> rfl

private theorem assign_relabel (hlexeme : ∀ t, (f t).lexeme = t.lexeme) (name : Token) (value : Value) :
    assign (f name) value = (assign name value).relabel f := by
  funext scopes
  simp only [assign, relabel, hlexeme]
  cases scopes.assign? name.lexeme value <;> rfl

private theorem define_relabel (hlexeme : ∀ t, (f t).lexeme = t.lexeme) (name : Token) (value : Value) :
    define (f name) value = (define name value).relabel f := by
  funext scopes
  simp only [define, relabel, hlexeme]
  rfl

private theorem relabel_inScope (action : Action α) : (inScope action).relabel f = inScope (action.relabel f) := rfl

end Action

/-! ### Trees -/

variable {f : Token → Token}

private theorem onNumbers_relabel (operator : Token) (g : Float → Float → Value) (left right : Value) :
    onNumbers (f operator) g left right = (onNumbers operator g left right).mapError (RuntimeError.relabel f) := by
  cases left <;> cases right <;> rfl

private theorem plus_relabel (operator : Token) (left right : Value) :
    plus (f operator) left right = (plus operator left right).mapError (RuntimeError.relabel f) := by
  cases left <;> cases right <;> rfl

private theorem applyBinary_relabel (hkind : ∀ t, (f t).kind = t.kind) (operator : Token) (left right : Value) :
    applyBinary (f operator) left right = (applyBinary operator left right).mapError (RuntimeError.relabel f) := by
  unfold applyBinary
  rw [hkind]
  cases operator.kind with
  | minus | slash | star | greater | greaterEqual | less | lessEqual => exact onNumbers_relabel operator _ left right
  | plus => exact plus_relabel operator left right
  | _ => rfl

private theorem applyUnary_relabel (hkind : ∀ t, (f t).kind = t.kind) (operator : Token) (operand : Value) :
    applyUnary (f operator) operand = (applyUnary operator operand).mapError (RuntimeError.relabel f) := by
  unfold applyUnary
  rw [hkind]
  cases operator.kind with
  | minus => cases operand <;> rfl
  | _ => rfl

open Treewalk.Action

/-- A relabelled expression has the same outcome, except for the token to blame. -/
theorem Expr.eval_relabel (hkind : ∀ t, (f t).kind = t.kind) (hlexeme : ∀ t, (f t).lexeme = t.lexeme) (e : Expr)
    (room : Nat) : (e.relabel f).eval room = (e.eval room).relabel f := by
  induction e generalizing room with
  | literal value => simp only [Expr.relabel, Expr.eval, relabel_bind, relabel_spending, relabel_pure]
  | var name =>
    simp only [Expr.relabel, Expr.eval, relabel_bind, relabel_spending, asking_relabel hlexeme, lookup_relabel hlexeme]
  | assign name value ih =>
    simp only [Expr.relabel, Expr.eval, relabel_bind, relabel_spending, relabel_pure, asking_relabel hlexeme,
      assign_relabel hlexeme, ih]
  | unary operator operand ih =>
    simp only [Expr.relabel, Expr.eval, relabel_bind, relabel_spending, relabel_ofResult, applyUnary_relabel hkind, ih]
  | binary left operator right ihleft ihright =>
    simp only [Expr.relabel, Expr.eval, relabel_bind, relabel_spending, relabel_ofResult, applyBinary_relabel hkind,
      ihleft, ihright]
  | grouping inner ih => simp only [Expr.relabel, Expr.eval, relabel_bind, relabel_spending, ih]
  | misplaced found => rfl

namespace Stmt

mutual

/-- A relabelled statement has the same outcome, except for the token to blame. -/
theorem exec_relabel (hkind : ∀ t, (f t).kind = t.kind) (hlexeme : ∀ t, (f t).lexeme = t.lexeme) (s : Stmt)
    (room : Nat) : (s.relabel f).exec room = (s.exec room).relabel f := by
  cases s with
  | expression e => rw [Stmt.relabel, exec, exec, Expr.eval_relabel hkind hlexeme]
  | print e =>
    simp only [Stmt.relabel, exec, relabel_bind, relabel_print, relabel_pure, Expr.eval_relabel hkind hlexeme]
  | declare name initializer =>
    cases initializer with
    | none => simp only [Stmt.relabel, Option.map_none, exec, relabel_bind, relabel_pure, define_relabel hlexeme]
    | some e =>
      simp only [Stmt.relabel, Option.map_some, exec, relabel_bind, relabel_pure, define_relabel hlexeme,
        Expr.eval_relabel hkind hlexeme]
  | block body =>
    simp only [Stmt.relabel, exec, relabel_bind, relabel_pure, relabel_spending, relabel_inScope,
      execBody_relabel hkind hlexeme body]
  | skipped => simp only [Stmt.relabel, exec, relabel_pure]
  | misplaced found => simp only [Stmt.relabel, exec, relabel_fault]

private theorem execBody_relabel (hkind : ∀ t, (f t).kind = t.kind) (hlexeme : ∀ t, (f t).lexeme = t.lexeme)
    (body : List Stmt) (room : Nat) : execBody (body.map (Stmt.relabel f)) room = (execBody body room).relabel f := by
  cases body with
  | nil => rfl
  | cons s later =>
    simp only [List.map_cons, execBody, relabel_bind, exec_relabel hkind hlexeme s,
      execBody_relabel hkind hlexeme later]

end

end Stmt

/-- A relabelled program runs as the program itself does, except for the token to blame. -/
theorem runStatements_relabel (hkind : ∀ t, (f t).kind = t.kind) (hlexeme : ∀ t, (f t).lexeme = t.lexeme) (room : Nat)
    (program : List Stmt) (scopes : Chain) :
    runStatements room (program.map (Stmt.relabel f)) scopes = (runStatements room program scopes).relabel f := by
  induction program generalizing scopes with
  | nil => rfl
  | cons s later ih =>
    rw [List.map_cons, runStatements, runStatements, Stmt.exec_relabel hkind hlexeme]
    simp only [Action.relabel]
    cases (s.exec room scopes).result with
    | ok value =>
      have hlater := ih (s.exec room scopes).scopes
      show (⟨value :: (runStatements room (later.map _) _).values, _, _, _⟩ : Run) = _
      rw [hlater]
      rfl
    | error halt => rfl

end Treewalk
