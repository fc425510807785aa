import Treewalk.Token

/-!
# Syntax trees

Expressions and statements, as reading a program builds them or as they are built by hand.  Two kinds of places in
a tree hold no proper node: a statement that could not be read leaves the slot `Stmt.skipped`, which runs to
nothing, and a tree built by hand may have a statement, or nothing, where an expression is expected, or an expression
in the place of a statement.  Such a misplaced node is known by its kind only, for whoever meets it goes no further.
-/

namespace Treewalk

/-- The kinds of expressions. -/
inductive ExprKind where
  | assign | binary | grouping | literal | unary | variable_
deriving DecidableEq

/-- The name of a kind of expression. -/
def ExprKind.name : ExprKind → String
  | .assign => "Assign"
  | .binary => "Binary"
  | .grouping => "Grouping"
  | .literal => "Literal"
  | .unary => "Unary"
  | .variable_ => "Variable"

/-- The kinds of statements. -/
inductive StmtKind where
  | block | expression | print | var_
deriving DecidableEq

/-- The name of a kind of statement. -/
def StmtKind.name : StmtKind → String
  | .block => "Block"
  | .expression => "Expression"
  | .print => "Print"
  | .var_ => "Var"

/-- An expression. -/
inductive Expr where
  | literal (value : Value)
  | var (name : Token)
  | assign (name : Token) (value : Expr)
  | unary (operator : Token) (operand : Expr)
  | binary (left : Expr) (operator : Token) (right : Expr)
  | grouping (inner : Expr)
  /-- A statement in the place of an expression, or nothing at all. -/
  | misplaced (found : Option StmtKind)
deriving DecidableEq

/-- A statement. -/
inductive Stmt where
  | expression (e : Expr)
  | print (e : Expr)
  /-- The initial value may be missing, which is no fault of the tree. -/
  | declare (name : Token) (initializer : Option Expr)
  | block (body : List Stmt)
  /-- The slot of a statement that could not be read. -/
  | skipped
  /-- An expression in the place of a statement. -/
  | misplaced (found : ExprKind)

/-- What stands in a place where it does not belong. -/
inductive Misfit where
  /-- A statement, or nothing at all, where an expression belongs. -/
  | inExpression (found : Option StmtKind)
  /-- An expression where a statement belongs. -/
  | inStatement (found : ExprKind)
deriving DecidableEq

/-- Why a tree cannot be walked to its end. -/
inductive Fault where
  /-- There is a node of the wrong kind in some place. -/
  | misplaced (misfit : Misfit)
  /-- The allowance for nesting is used up. -/
  | tooDeep
deriving DecidableEq

/-- The wording of a misplaced node. -/
def Misfit.message : Misfit → String
  | .inExpression found => "Unknown expression node: " ++ (found.map StmtKind.name).getD "NoneType"
  | .inStatement found => "Unknown statement node: " ++ found.name

/-! ### The nesting allowance

Walking a tree spends an allowance: each level of nesting takes a few units of it, and gives them back when it is
left; so does the search for a name, one unit for each scope it goes through. -/

/-- What is left of an allowance of `room` units when `cost` of them are spent. -/
def spend (cost room : Nat) : Except Fault Nat :=
  if cost ≤ room then .ok (room - cost) else .error .tooDeep

end Treewalk
