import Treewalk.RuntimeError

/-!
# Operators

What the operators compute from the values of their operands.  An operator is a token, and its kind decides; a token
of another kind computes nothing and gives `nil`.
-/

namespace Treewalk

/-- The result of `f` for two numbers; any other operands are the operator's error. -/
def onNumbers (operator : Token) (f : Float → Float → Value) : Value → Value → Except RuntimeError Value
  | .num x, .num y => .ok (f x y)
  | _, _ => .error (.typeMismatch operator .numbers)

/-- The sum of two numbers, or two strings joined. -/
def plus (operator : Token) : Value → Value → Except RuntimeError Value
  | .num x, .num y => .ok (.num (x + y))
  | .str s, .str t => .ok (.str (s ++ t))
  | _, _ => .error (.typeMismatch operator .numbersOrStrings)

/-- What an operator between two operands computes. -/
def applyBinary (operator : Token) (left right : Value) : Except RuntimeError Value :=
  match operator.kind with
  | .minus => onNumbers operator (fun x y => .num (x - y)) left right
  | .plus => plus operator left right
  | .slash => onNumbers operator (fun x y => .num (x / y)) left right
  | .star => onNumbers operator (fun x y => .num (x * y)) left right
  | .greater => onNumbers operator (fun x y => .bool (decide (x > y))) left right
  | .greaterEqual => onNumbers operator (fun x y => .bool (decide (x ≥ y))) left right
  | .less => onNumbers operator (fun x y => .bool (decide (x < y))) left right
  | .lessEqual => onNumbers operator (fun x y => .bool (decide (x ≤ y))) left right
  | .bangEqual => .ok (.bool (!left.equals right))
  | .equalEqual => .ok (.bool (left.equals right))
  | _ => .ok .nil

/-- What an operator in front of its operand computes. -/
def applyUnary (operator : Token) (operand : Value) : Except RuntimeError Value :=
  match operator.kind with
  | .minus =>
    match operand with
    | .num x => .ok (.num (-x))
    | _ => .error (.typeMismatch operator .number)
  | .bang => .ok (.bool !operand.truthy)
  | _ => .ok .nil

end Treewalk
