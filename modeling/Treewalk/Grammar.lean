import Treewalk.Parser

/-!
# Reading expressions

The grammar of expressions has one rule for assignments, four levels of binary operators, one rule for the
operators in front of an operand, and one for the smallest expressions.  Each rule refers to the next tighter one;
parentheses lead back to the first.

* `Rule.parser`: the parser of a rule.  Every rule entered takes one unit of the nesting allowance, so that
  parentheses take eight, and an assignment or an operator in front takes one.
* `Parser.chain`: operands joined by the operators of one level, grouped to the left.
-/

namespace Treewalk

/-- The levels of binary operators, from the loosest to the tightest. -/
inductive Level where
  | equality
  | comparison
  | term
  | factor
deriving DecidableEq

/-- The rules of the grammar of expressions. -/
inductive Rule where
  | expression
  | assignment
  | binary (level : Level)
  | unary
  | primary
deriving DecidableEq

namespace Level

/-- The kinds of the operators of a level. -/
def operators : Level → List TokenKind
  | .equality => [.bangEqual, .equalEqual]
  | .comparison => [.greater, .greaterEqual, .less, .lessEqual]
  | .term => [.minus, .plus]
  | .factor => [.slash, .star]

/-- The rule for the operands of a level. -/
def operand : Level → Rule
  | .equality => .binary .comparison
  | .comparison => .binary .term
  | .term => .binary .factor
  | .factor => .unary

end Level

namespace Parser

/-- After `left`, read operators of a level with an operand behind each. -/
def chainFrom (level : Level) (operand : Parser Expr) (left : Expr) : List Token → Reading Expr
  | [] => ⟨.error .outOfTokens, [], []⟩
  | t :: rest =>
    if t.kind ∈ level.operators then
      let reading := operand.run rest
      match reading.result with
      | .ok right =>
        let more := chainFrom level operand (.binary left t right) reading.rest
        ⟨more.result, reading.errors ++ more.errors, more.rest⟩
      | .error stop => ⟨.error stop, reading.errors, reading.rest⟩
    else ⟨.ok left, [], t :: rest⟩
termination_by ts => ts.length
decreasing_by exact Nat.lt_succ_of_le (operand.length_rest_le rest)

theorem chainFrom_rest_suffix (level : Level) (operand : Parser Expr) (left : Expr) (ts : List Token) :
    (chainFrom level operand left ts).rest <:+ ts := by
  fun_induction chainFrom level operand left ts with
  | case1 => exact List.suffix_rfl
  | case2 left t rest _ reading right _ more ih =>
    exact ih.trans ((operand.rest_suffix rest).trans (List.suffix_cons t rest))
  | case3 left t rest _ reading stop _ => exact (operand.rest_suffix rest).trans (List.suffix_cons t rest)
  | case4 => exact List.suffix_rfl

/-- One operand, and further ones behind operators of a level; the operators group to the left. -/
def chain (level : Level) (operand : Parser Expr) : Parser Expr := do
  let left ← operand
  { run := chainFrom level operand left, rest_suffix := chainFrom_rest_suffix level operand left }

end Parser

namespace Rule

open Treewalk.Parser (branch chain expect note reject stop)

/-- The parser of a rule, within a nesting allowance of `room` rules. -/
def parser : (room : Nat) → Rule → Parser Expr
  | 0, _ => stop .tooDeep
  | room + 1, .expression => parser room .assignment
  | room + 1, .assignment => do
    let target ← parser room (.binary .equality)
    branch
      (fun equals =>
        if equals.kind = .equal then some do
          let value ← parser room .assignment
          match target with
          | .var name => return .assign name value
          | _ =>
            note ⟨equals, .invalidAssignmentTarget⟩
            return target
        else none)
      (pure target)
  | room + 1, .binary level => chain level (parser room level.operand)
  | room + 1, .unary =>
    branch
      (fun operator =>
        if operator.kind = .minus ∨ operator.kind = .bang then some do
          return .unary operator (← parser room .unary)
        else none)
      (parser room .primary)
  | room + 1, .primary =>
    branch
      (fun t =>
        match t.kind with
        | .false_ => some (pure (.literal (.bool false)))
        | .true_ => some (pure (.literal (.bool true)))
        | .nil_ => some (pure (.literal .nil))
        | .number => some (pure (.literal t.literal))
        | .string => some (pure (.literal t.literal))
        | .identifier => some (pure (.var t))
        | .leftParen => some do
          let inner ← parser room .expression
          let _ ← expect .rightParen .expectedParenAfterExpression
          return .grouping inner
        | _ => none)
      (reject .expectedExpression)

end Rule

end Treewalk
