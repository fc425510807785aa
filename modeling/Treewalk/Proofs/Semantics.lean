import Mathlib.Data.Finmap
import Treewalk.RuntimeError
import Treewalk.Proofs.WellFormed

/-!
# What programs mean

The rules of the language as relations between a program and its outcome, independent of any way to run it.  The
bindings are a plain stack of finite maps, the current one first.  There is no limit to nesting.

* `Evaluates`: the operands of an expression from left to right, and only then what the operator asks of them; the
  value of an assignment before its name.
* `Executes`: the initial value before the binding; a block with a map of its own, which is gone at its end.
* `Runs`: statements in order, up to the first that fails.

An error is an outcome like any other: it has the token to blame, and the bindings and printed lines are those up to
the error.  What the text of a printed value has to be is in `Value.shows_text`.
-/

namespace Treewalk

/-- The bindings of one scope, as a finite map. -/
abbrev Frame : Type := Finmap fun _ : String => Value

/-! ### Values and operators -/

/-- The values that count as false. -/
inductive Falsy : Value → Prop where
  | nil : Falsy .nil
  | false_ : Falsy (.bool false)

/-- The values that are equal for the operators `==` and `!=`. -/
inductive Same : Value → Value → Prop where
  | nil : Same .nil .nil
  | bool (b : Bool) : Same (.bool b) (.bool b)
  | num {x y : Float} (h : (x == y) = true) : Same (.num x) (.num y)
  | str (s : String) : Same (.str s) (.str s)

/-- The result of an operator between two operands that it can take. -/
inductive Combines : TokenKind → Value → Value → Value → Prop where
  | subtract (x y : Float) : Combines .minus (.num x) (.num y) (.num (x - y))
  | divide (x y : Float) : Combines .slash (.num x) (.num y) (.num (x / y))
  | multiply (x y : Float) : Combines .star (.num x) (.num y) (.num (x * y))
  | add (x y : Float) : Combines .plus (.num x) (.num y) (.num (x + y))
  | join (s t : String) : Combines .plus (.str s) (.str t) (.str (s ++ t))
  | greater (x y : Float) : Combines .greater (.num x) (.num y) (.bool (decide (x > y)))
  | greaterEqual (x y : Float) : Combines .greaterEqual (.num x) (.num y) (.bool (decide (x ≥ y)))
  | less (x y : Float) : Combines .less (.num x) (.num y) (.bool (decide (x < y)))
  | lessEqual (x y : Float) : Combines .lessEqual (.num x) (.num y) (.bool (decide (x ≤ y)))
  | equal {v w : Value} (h : Same v w) : Combines .equalEqual v w (.bool true)
  | notEqual {v w : Value} (h : ¬Same v w) : Combines .equalEqual v w (.bool false)
  | unequal {v w : Value} (h : ¬Same v w) : Combines .bangEqual v w (.bool true)
  | notUnequal {v w : Value} (h : Same v w) : Combines .bangEqual v w (.bool false)

/-- Both values are numbers. -/
def Numbers (v w : Value) : Prop := ∃ x y, v = .num x ∧ w = .num y

/-- Both values are strings. -/
def Strings (v w : Value) : Prop := ∃ s t, v = .str s ∧ w = .str t

/-- What an operator between two operands asks of them and does not get. -/
inductive Clashes : TokenKind → Value → Value → Requirement → Prop where
  | numbers {kind : TokenKind} {v w : Value}
      (hkind : kind ∈ [.minus, .slash, .star, .greater, .greaterEqual, .less, .lessEqual]) (h : ¬Numbers v w) :
      Clashes kind v w .numbers
  | plus {v w : Value} (hnumbers : ¬Numbers v w) (hstrings : ¬Strings v w) : Clashes .plus v w .numbersOrStrings

/-- The result of an operator in front of an operand that it can take. -/
inductive Transforms : TokenKind → Value → Value → Prop where
  | negate (x : Float) : Transforms .minus (.num x) (.num (-x))
  | not {v : Value} (h : Falsy v) : Transforms .bang v (.bool true)
  | notNot {v : Value} (h : ¬Falsy v) : Transforms .bang v (.bool false)

/-! ### Expressions -/

/-- From the stack of bindings the expression has the outcome, and leaves the second stack.  A name stands for the
innermost map that binds it. -/
inductive Evaluates : List Frame → Expr → Except RuntimeError Value → List Frame → Prop where
  | literal {σ : List Frame} {v : Value} : Evaluates σ (.literal v) (.ok v) σ
  | var {inner outer : List Frame} {frame : Frame} {name : Token} {v : Value}
      (hinner : ∀ f ∈ inner, name.lexeme ∉ f) (hv : frame.lookup name.lexeme = some v) :
      Evaluates (inner ++ frame :: outer) (.var name) (.ok v) (inner ++ frame :: outer)
  | varUnbound {σ : List Frame} {name : Token} (h : ∀ f ∈ σ, name.lexeme ∉ f) :
      Evaluates σ (.var name) (.error (.undefinedVariable name)) σ
  | assign {σ inner outer : List Frame} {frame : Frame} {name : Token} {e : Expr} {v : Value}
      (he : Evaluates σ e (.ok v) (inner ++ frame :: outer)) (hinner : ∀ f ∈ inner, name.lexeme ∉ f)
      (hframe : name.lexeme ∈ frame) :
      Evaluates σ (.assign name e) (.ok v) (inner ++ frame.insert name.lexeme v :: outer)
  | assignUnbound {σ σ' : List Frame} {name : Token} {e : Expr} {v : Value} (he : Evaluates σ e (.ok v) σ')
      (h : ∀ f ∈ σ', name.lexeme ∉ f) : Evaluates σ (.assign name e) (.error (.undefinedVariable name)) σ'
  | assignFails {σ σ' : List Frame} {name : Token} {e : Expr} {error : RuntimeError}
      (he : Evaluates σ e (.error error) σ') : Evaluates σ (.assign name e) (.error error) σ'
  | unary {σ σ' : List Frame} {operator : Token} {e : Expr} {v u : Value} (he : Evaluates σ e (.ok v) σ')
      (h : Transforms operator.kind v u) : Evaluates σ (.unary operator e) (.ok u) σ'
  | unaryClashes {σ σ' : List Frame} {operator : Token} {e : Expr} {v : Value} (he : Evaluates σ e (.ok v) σ')
      (hkind : operator.kind = .minus) (h : ∀ x, v ≠ .num x) :
      Evaluates σ (.unary operator e) (.error (.typeMismatch operator .number)) σ'
  | unaryFails {σ σ' : List Frame} {operator : Token} {e : Expr} {error : RuntimeError}
      (he : Evaluates σ e (.error error) σ') : Evaluates σ (.unary operator e) (.error error) σ'
  | binary {σ σ' σ'' : List Frame} {operator : Token} {left right : Expr} {v w u : Value}
      (hleft : Evaluates σ left (.ok v) σ') (hright : Evaluates σ' right (.ok w) σ'')
      (h : Combines operator.kind v w u) : Evaluates σ (.binary left operator right) (.ok u) σ''
  | binaryClashes {σ σ' σ'' : List Frame} {operator : Token} {left right : Expr} {v w : Value}
      {requirement : Requirement} (hleft : Evaluates σ left (.ok v) σ') (hright : Evaluates σ' right (.ok w) σ'')
      (h : Clashes operator.kind v w requirement) :
      Evaluates σ (.binary left operator right) (.error (.typeMismatch operator requirement)) σ''
  | leftFails {σ σ' : List Frame} {operator : Token} {left right : Expr} {error : RuntimeError}
      (hleft : Evaluates σ left (.error error) σ') : Evaluates σ (.binary left operator right) (.error error) σ'
  | rightFails {σ σ' σ'' : List Frame} {operator : Token} {left right : Expr} {v : Value} {error : RuntimeError}
      (hleft : Evaluates σ left (.ok v) σ') (hright : Evaluates σ' right (.error error) σ'') :
      Evaluates σ (.binary left operator right) (.error error) σ''
  | grouping {σ σ' : List Frame} {e : Expr} {result : Except RuntimeError Value} (h : Evaluates σ e result σ') :
      Evaluates σ (.grouping e) result σ'

/-! ### Statements -/

mutual

/-- From the stack of bindings the statement has the outcome, leaves the second stack and prints the lines. -/
inductive Executes : List Frame → Stmt → Except RuntimeError Value → List Frame → List String → Prop where
  | expression {σ σ' : List Frame} {e : Expr} {result : Except RuntimeError Value} (h : Evaluates σ e result σ') :
      Executes σ (.expression e) result σ' []
  | print {σ σ' : List Frame} {e : Expr} {v : Value} (h : Evaluates σ e (.ok v) σ') :
      Executes σ (.print e) (.ok v) σ' [v.text]
  | printFails {σ σ' : List Frame} {e : Expr} {error : RuntimeError} (h : Evaluates σ e (.error error) σ') :
      Executes σ (.print e) (.error error) σ' []
  | declare {σ : List Frame} {frame : Frame} {name : Token} :
      Executes (frame :: σ) (.declare name none) (.ok .nil) (frame.insert name.lexeme .nil :: σ) []
  | define {σ σ' : List Frame} {frame : Frame} {name : Token} {e : Expr} {v : Value}
      (h : Evaluates σ e (.ok v) (frame :: σ')) :
      Executes σ (.declare name (some e)) (.ok .nil) (frame.insert name.lexeme v :: σ') []
  | defineFails {σ σ' : List Frame} {name : Token} {e : Expr} {error : RuntimeError}
      (h : Evaluates σ e (.error error) σ') : Executes σ (.declare name (some e)) (.error error) σ' []
  | block {σ σ' : List Frame} {frame : Frame} {body : List Stmt} {values : List Value} {printed : List String}
      (h : Runs (∅ :: σ) body values none (frame :: σ') printed) :
      Executes σ (.block body) (.ok .nil) σ' printed
  | blockFails {σ σ' : List Frame} {frame : Frame} {body : List Stmt} {values : List Value} {error : RuntimeError}
      {printed : List String} (h : Runs (∅ :: σ) body values (some error) (frame :: σ') printed) :
      Executes σ (.block body) (.error error) σ' printed
  | skipped {σ : List Frame} : Executes σ .skipped (.ok .nil) σ []

/-- From the stack of bindings the statements have the values, up to the error if there is one, leave the second stack
and print the lines. -/
inductive Runs : List Frame → List Stmt → List Value → Option RuntimeError → List Frame → List String → Prop where
  | nil {σ : List Frame} : Runs σ [] [] none σ []
  | cons {σ σ' σ'' : List Frame} {s : Stmt} {later : List Stmt} {v : Value} {values : List Value}
      {error : Option RuntimeError} {printed printed' : List String} (h : Executes σ s (.ok v) σ' printed)
      (hlater : Runs σ' later values error σ'' printed') :
      Runs σ (s :: later) (v :: values) error σ'' (printed ++ printed')
  | stop {σ σ' : List Frame} {s : Stmt} {later : List Stmt} {error : RuntimeError} {printed : List String}
      (h : Executes σ s (.error error) σ' printed) : Runs σ (s :: later) [] (some error) σ' printed

end

end Treewalk
