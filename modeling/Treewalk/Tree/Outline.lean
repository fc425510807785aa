import Treewalk.Tree

/-!
# Outlines of trees

The outline of a tree shows each node in parentheses, its name or operator first and its parts behind, so that it
needs no rules of precedence.  Each statement of a program has a line of its own.
-/

namespace Treewalk

/-- What an expression, or a statement that holds one, takes of the allowance when it is shown. -/
def outlineCost : Nat := 3

/-- What a block takes of the allowance when it is shown. -/
def blockOutlineCost : Nat := 2

/-- A literal in an outline: a string stands in quotes. -/
def Value.outline : Value → String
  | .str s => "\"" ++ s ++ "\""
  | v => v.text

namespace Expr

/-- The outline of an expression, within an allowance of `room` units. -/
def outline : Expr → (room : Nat) → Except Fault String
  | .literal value, room => do
    let _ ← spend outlineCost room
    return value.outline
  | .var name, room => do
    let _ ← spend outlineCost room
    return name.lexeme
  | .assign name value, room => do
    let room ← spend outlineCost room
    return "(assign " ++ name.lexeme ++ " " ++ (← value.outline room) ++ ")"
  | .unary operator operand, room => do
    let room ← spend outlineCost room
    return "(" ++ operator.lexeme ++ " " ++ (← operand.outline room) ++ ")"
  | .binary left operator right, room => do
    let room ← spend outlineCost room
    let left ← left.outline room
    let right ← right.outline room
    return "(" ++ operator.lexeme ++ " " ++ left ++ " " ++ right ++ ")"
  | .grouping inner, room => do
    let room ← spend outlineCost room
    return "(group " ++ (← inner.outline room) ++ ")"
  | .misplaced found, _ => throw (.misplaced (.inExpression found))

end Expr

namespace Stmt

mutual

/-- The outline of a statement, within an allowance of `room` units. -/
def outline : Stmt → (room : Nat) → Except Fault String
  | .expression e, room => do
    let room ← spend outlineCost room
    return "(expr_stmt " ++ (← e.outline room) ++ ")"
  | .print e, room => do
    let room ← spend outlineCost room
    return "(print " ++ (← e.outline room) ++ ")"
  | .declare name none, _ => return "(var " ++ name.lexeme ++ ")"
  | .declare name (some e), room => do
    let room ← spend outlineCost room
    return "(var " ++ name.lexeme ++ " " ++ (← e.outline room) ++ ")"
  | .block body, room => do
    let room ← spend blockOutlineCost room
    return "(block" ++ (← outlineBody body room) ++ ")"
  | .skipped, _ => return "<error>"
  | .misplaced found, _ => throw (.misplaced (.inStatement found))

/-- The outlines of the statements of a block, each behind a space. -/
def outlineBody : List Stmt → (room : Nat) → Except Fault String
  | [], _ => return ""
  | s :: later, room => do
    let first ← s.outline room
    let others ← outlineBody later room
    return " " ++ first ++ others

end

end Stmt

/-- The allowance for showing a tree. -/
def outlineRoom : Nat := 988

/-- The outline of a program, a line for each statement. -/
def outlineProgram (program : List Stmt) : Except Fault String := do
  return "\n".intercalate (← program.mapM (·.outline outlineRoom))

end Treewalk
