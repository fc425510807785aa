import Treewalk.Operator
import Treewalk.Scope.Chain
import Treewalk.Tree

/-!
# Running programs

Expressions and statements run in a chain of scopes.  Running ends with a value, with an error of the program, or
with a fault of the tree; in each case the scopes as they are then and the lines printed so far are part of the
outcome.

* `Expr.eval`: operands from left to right, then the operator; the value of an assignment before its name.
* `Action.asking`: looking for a name goes from scope to scope, which is a nesting of its own.
* `Stmt.exec`: the initial value before the binding; a block in a scope of its own, which is closed however the
  block ends.
* `runProgram`: the values of the statements up to the first that does not end with one.
-/

namespace Treewalk

/-- Why running ends without a value. -/
inductive Halt where
  | error (e : RuntimeError)
  | fault (f : Fault)
deriving DecidableEq

/-- The outcome of running something. -/
structure Outcome (α : Type) where
  result : Except Halt α
  scopes : Chain
  printed : List String

/-- Something that can be run in a chain of scopes. -/
def Action (α : Type) : Type := Chain → Outcome α

namespace Action

variable {α β : Type}

/-- Do nothing, with a given result. -/
protected def pure (a : α) : Action α := fun scopes => ⟨.ok a, scopes, []⟩

/-- Run one thing, and go on as its result tells. -/
protected def bind (action : Action α) (f : α → Action β) : Action β := fun scopes =>
  let outcome := action scopes
  match outcome.result with
  | .ok a =>
    let next := f a outcome.scopes
    ⟨next.result, next.scopes, outcome.printed ++ next.printed⟩
  | .error halt => ⟨.error halt, outcome.scopes, outcome.printed⟩

instance : Monad Action where
  pure := Action.pure
  bind := Action.bind

theorem bind_of_ok {action : Action α} {scopes : Chain} {a : α} (h : (action scopes).result = .ok a)
    (f : α → Action β) :
    (action >>= f) scopes = ⟨(f a (action scopes).scopes).result, (f a (action scopes).scopes).scopes,
      (action scopes).printed ++ (f a (action scopes).scopes).printed⟩ := by
  show action.bind f scopes = _
  simp only [Action.bind, h]

theorem bind_of_error {action : Action α} {scopes : Chain} {reason : Halt}
    (h : (action scopes).result = .error reason) (f : α → Action β) :
    (action >>= f) scopes = ⟨.error reason, (action scopes).scopes, (action scopes).printed⟩ := by
  show action.bind f scopes = _
  simp only [Action.bind, h]

/-- End without a value. -/
def halt (reason : Halt) : Action α := fun scopes => ⟨.error reason, scopes, []⟩

/-- A result that may be an error of the program. -/
def ofResult (result : Except RuntimeError α) : Action α := fun scopes => ⟨result.mapError .error, scopes, []⟩

/-- Spend some of the nesting allowance. -/
def spending (cost room : Nat) : Action Nat := fun scopes => ⟨(spend cost room).mapError .fault, scopes, []⟩

theorem spending_of_le {cost room : Nat} (h : cost ≤ room) (scopes : Chain) :
    spending cost room scopes = ⟨.ok (room - cost), scopes, []⟩ := by
  rw [spending, spend, if_pos h]
  rfl

theorem spending_of_not_le {cost room : Nat} (h : ¬cost ≤ room) (scopes : Chain) :
    spending cost room scopes = ⟨.error (.fault .tooDeep), scopes, []⟩ := by
  rw [spending, spend, if_neg h]
  rfl

/-- Ask the scopes for a name, one after the other.  This takes a unit of the allowance for each of them. -/
def asking (name : Token) (room : Nat) : Action Nat := fun scopes =>
  spending (scopes.asked name.lexeme) room scopes

theorem asking_bind (name : Token) (room : Nat) (f : Nat → Action β) (scopes : Chain) :
    (asking name room >>= f) scopes = (spending (scopes.asked name.lexeme) room >>= f) scopes := rfl

/-- Print one line. -/
def print (text : String) : Action Unit := fun scopes => ⟨.ok (), scopes, [text]⟩

/-- The value of a name. -/
def lookup (name : Token) : Action Value := fun scopes =>
  match scopes.get? name.lexeme with
  | some value => ⟨.ok value, scopes, []⟩
  | none => ⟨.error (.error (.undefinedVariable name)), scopes, []⟩

/-- Give a bound name a new value. -/
def assign (name : Token) (value : Value) : Action Unit := fun scopes =>
  match scopes.assign? name.lexeme value with
  | some scopes => ⟨.ok (), scopes, []⟩
  | none => ⟨.error (.error (.undefinedVariable name)), scopes, []⟩

/-- Bind a name in the current scope. -/
def define (name : Token) (value : Value) : Action Unit := fun scopes =>
  ⟨.ok (), scopes.define name.lexeme value, []⟩

/-- Run in a scope of its own, which is closed at the end, whatever the end is. -/
def inScope (action : Action α) : Action α := fun scopes =>
  let outcome := action scopes.push
  { outcome with scopes := outcome.scopes.pop }

end Action

/-! ### Expressions -/

/-- What an expression takes of the nesting allowance when it is evaluated, its name aside. -/
def evalCost : Nat := 2

/-- What a block takes of the nesting allowance when it runs. -/
def blockCost : Nat := 3

open Treewalk.Action (spending asking)

/-- Evaluate an expression, within an allowance of `room` units. -/
def Expr.eval : Expr → (room : Nat) → Action Value
  | .literal value, room => do
    let _ ← spending evalCost room
    return value
  | .var name, room => do
    let room ← spending evalCost room
    let _ ← asking name room
    Action.lookup name
  | .assign name value, room => do
    let room ← spending evalCost room
    let value ← value.eval room
    let _ ← asking name room
    Action.assign name value
    return value
  | .unary operator operand, room => do
    let room ← spending evalCost room
    let operand ← operand.eval room
    Action.ofResult (applyUnary operator operand)
  | .binary left operator right, room => do
    let room ← spending evalCost room
    let left ← left.eval room
    let right ← right.eval room
    Action.ofResult (applyBinary operator left right)
  | .grouping inner, room => do
    let room ← spending evalCost room
    inner.eval room
  | .misplaced found, _ => Action.halt (.fault (.misplaced (.inExpression found)))

/-! ### Statements -/

namespace Stmt

mutual

/-- Run a statement, within an allowance of `room` units.  An expression and a `print` statement have the value of
their expression, everything else has the value `nil`. -/
def exec : Stmt → (room : Nat) → Action Value
  | .expression e, room => e.eval room
  | .print e, room => do
    let value ← e.eval room
    Action.print value.text
    return value
  | .declare name none, _ => do
    Action.define name .nil
    return .nil
  | .declare name (some e), room => do
    let value ← e.eval room
    Action.define name value
    return .nil
  | .block body, room => do
    let room ← spending blockCost room
    Action.inScope (execBody body room)
    return .nil
  | .skipped, _ => return .nil
  | .misplaced found, _ => Action.halt (.fault (.misplaced (.inStatement found)))

/-- Run the statements of a block. -/
def execBody : List Stmt → (room : Nat) → Action Unit
  | [], _ => return ()
  | s :: later, room => do
    let _ ← s.exec room
    execBody later room

end

end Stmt

/-! ### Programs -/

/-- The nesting allowance for running. -/
def runningRoom : Nat := 988

/-- The outcome of running a program: the values of the statements that ended with one, what stopped it if anything
did, the scopes and the printed lines. -/
structure Run where
  values : List Value
  halt : Option Halt
  scopes : Chain
  printed : List String

/-- Run the statements of a program in order, up to the first that does not end with a value. -/
def runStatements (room : Nat) : List Stmt → Chain → Run
  | [], scopes => ⟨[], none, scopes, []⟩
  | s :: later, scopes =>
    let outcome := s.exec room scopes
    match outcome.result with
    | .ok value =>
      let run := runStatements room later outcome.scopes
      ⟨value :: run.values, run.halt, run.scopes, outcome.printed ++ run.printed⟩
    | .error halt => ⟨[], some halt, outcome.scopes, outcome.printed⟩

/-- Run a program. -/
def runProgram (program : List Stmt) (scopes : Chain) : Run :=
  runStatements runningRoom program scopes

/-- Evaluate an expression by itself. -/
def evaluate (e : Expr) (scopes : Chain) : Outcome Value :=
  e.eval runningRoom scopes

end Treewalk
