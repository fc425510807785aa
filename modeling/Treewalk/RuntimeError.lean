import Treewalk.Report

/-!
# Errors at run time

A program stops at run time if an operator meets operands that it cannot take, or if a name is not bound.  The error
carries the token to blame: the operator or the name.
-/

namespace Treewalk

/-- What an operator asks of its operands. -/
inductive Requirement where
  | number
  | numbers
  | numbersOrStrings
deriving DecidableEq

/-- The wording of an unmet requirement. -/
def Requirement.message : Requirement → String
  | .number => "Operand must be a number."
  | .numbers => "Operands must be numbers."
  | .numbersOrStrings => "Operands must be two numbers or two strings."

/-- An error at run time. -/
inductive RuntimeError where
  | typeMismatch (operator : Token) (requirement : Requirement)
  | undefinedVariable (name : Token)
deriving DecidableEq

namespace RuntimeError

/-- The token to blame. -/
def token : RuntimeError → Token
  | .typeMismatch operator _ => operator
  | .undefinedVariable name => name

/-- The wording of an error. -/
def message : RuntimeError → String
  | .typeMismatch _ requirement => requirement.message
  | .undefinedVariable name => "Undefined variable '" ++ name.lexeme ++ "'."

/-- The report of an error. -/
def report (e : RuntimeError) : Report :=
  .running e.token e.message

end RuntimeError

end Treewalk
