import Treewalk.Program

/-!
# Compositional properties of parsers

The parsers of the grammar are put together from a few basic ones, in a few ways.  A property that the basic ones have,
and that carries over from the parts to the whole, is a property of all rules of expressions.  If it also carries over
to the lists of statements in blocks, then it is a property of statements.

* `Parser.Compositional`: such a property.
* `Parser.Compositional.rule`, `Parser.Compositional.statement`: the parsers that have it.
-/

namespace Treewalk

namespace Parser

/-- A property that carries over from parsers to what the grammar puts together from them.  Only an invalid assignment
target is noted without stopping, and it is no reason to stop. -/
structure Compositional (P : ∀ α : Type, Parser α → Prop) : Prop where
  pure {α : Type} (a : α) : P α (pure a)
  tooDeep {α : Type} : P α (stop .tooDeep)
  note (t : Token) : P Unit (note ⟨t, .invalidAssignmentTarget⟩)
  reject {α : Type} {problem : SyntaxProblem} (h : problem ≠ .invalidAssignmentTarget) : P α (reject problem)
  bind {α β : Type} {p : Parser α} {f : α → Parser β} (hp : P α p) (hf : ∀ a, P β (f a)) : P β (p >>= f)
  branch {α : Type} {select : Token → Option (Parser α)} {otherwise : Parser α}
    (hs : ∀ t, ∀ p ∈ select t, P α p) (ho : P α otherwise) : P α (branch select otherwise)
  chain {operand : Parser Expr} (h : P Expr operand) (level : Level) : P Expr (chain level operand)

namespace Compositional

variable {P : ∀ α : Type, Parser α → Prop}

private theorem expect (hP : Compositional P) (kind : TokenKind) {problem : SyntaxProblem}
    (h : problem ≠ .invalidAssignmentTarget) : P Token (expect kind problem) := by
  refine hP.branch (fun t p hp => ?_) (hP.reject h)
  split at hp
  · cases hp
    exact hP.pure t
  · cases hp

/-- Something that is known, with a token of some kind behind it. -/
private theorem closed {α : Type} (hP : Compositional P) (kind : TokenKind) {problem : SyntaxProblem}
    (h : problem ≠ .invalidAssignmentTarget) (a : α) : P α (Parser.expect kind problem >>= fun _ => Pure.pure a) :=
  hP.bind (hP.expect kind h) fun _ => hP.pure a

/-- All rules of expressions have the property, within any allowance. -/
theorem rule (hP : Compositional P) (r : Rule) (room : Nat) : P Expr (r.parser room) := by
  induction room generalizing r with
  | zero => exact hP.tooDeep
  | succ room ih =>
    cases r with
    | expression => exact ih .assignment
    | assignment =>
      refine hP.bind (ih _) fun target => hP.branch (fun t p hp => ?_) (hP.pure _)
      split at hp
      · cases hp
        refine hP.bind (ih _) fun value => ?_
        split
        · exact hP.pure _
        · exact hP.bind (hP.note t) fun _ => hP.pure _
      · cases hp
    | binary level => exact hP.chain (ih _) level
    | unary =>
      refine hP.branch (fun t p hp => ?_) (ih _)
      split at hp
      · cases hp
        exact hP.bind (ih _) fun e => hP.pure _
      · cases hp
    | primary =>
      refine hP.branch (fun t p hp => ?_) (hP.reject (by decide))
      split at hp
      -- the parentheses are the only case that reads on
      case h_7 =>
        cases hp
        exact hP.bind (ih _) fun e => hP.closed _ (by decide) _
      case h_8 => cases hp
      all_goals
        cases hp
        exact hP.pure _

theorem anyStatement (hP : Compositional P) {value : Parser Expr} {body : Parser (List Stmt)} (hv : P Expr value)
    (hb : P (List Stmt) body) : P Stmt (anyStatement value body) := by
  refine hP.branch (fun t p hp => ?_) (hP.bind hv fun e => hP.closed _ (by decide) _)
  split at hp
  · cases hp
    refine hP.bind (hP.expect _ (by decide)) fun name => hP.bind ?_ fun _ => hP.closed _ (by decide) _
    refine hP.branch (fun u q hq => ?_) (hP.pure _)
    split at hq
    · cases hq
      exact hP.bind hv fun e => hP.pure _
    · cases hq
  · cases hp
    exact hP.bind hv fun e => hP.closed _ (by decide) _
  · cases hp
    exact hP.bind hb fun ss => hP.closed _ (by decide) _
  · cases hp

/-- Statements have the property if it carries over to the lists of them in blocks. -/
theorem statement (hP : Compositional P)
    (hbody : ∀ item : Item, P Stmt item.toParser → P (List Stmt) (statements (some .rightBrace) item)) :
    ∀ room : Nat, P Stmt (statement room).toParser
  | 0 => hP.tooDeep
  | 1 => hP.tooDeep
  | 2 => hP.tooDeep
  | room + 3 => hP.anyStatement (hP.rule _ _) (hbody _ (hP.statement hbody room))

end Compositional

end Parser

end Treewalk
