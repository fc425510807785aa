import Treewalk.Grammar

/-!
# Well-formed trees

A tree built by hand may have something else in the place of an expression or of a statement, operators that no rule
of the grammar knows, and operands that only parentheses could put where they are.  A tree that has been read has
none of this.  Each of these conditions is one on the nodes of an expression, and is asked of every node.

* `Expr.WellFormed`: every place for an expression holds one.
* `Expr.KnownOperators`: the operators are those of the grammar.
* `Expr.Stratified`: operands hold together as tightly as their place asks for.
* `Stmt.Every`: every place for a statement holds one or an empty slot, and every expression is as demanded.
-/

namespace Treewalk

namespace Expr

/-- Every node of the expression is as demanded. -/
def Every (P : Expr → Prop) : Expr → Prop
  | .literal value => P (.literal value)
  | .var name => P (.var name)
  | .assign name value => P (.assign name value) ∧ value.Every P
  | .unary operator operand => P (.unary operator operand) ∧ operand.Every P
  | .binary left operator right => P (.binary left operator right) ∧ left.Every P ∧ right.Every P
  | .grouping inner => P (.grouping inner) ∧ inner.Every P
  | .misplaced found => P (.misplaced found)

theorem Every.imp {P Q : Expr → Prop} (hPQ : ∀ e, P e → Q e) {e : Expr} (h : e.Every P) : e.Every Q := by
  induction e with
  | literal value => exact hPQ _ h
  | var name => exact hPQ _ h
  | assign name value ih => exact ⟨hPQ _ h.1, ih h.2⟩
  | unary operator operand ih => exact ⟨hPQ _ h.1, ih h.2⟩
  | binary left operator right ihleft ihright => exact ⟨hPQ _ h.1, ihleft h.2.1, ihright h.2.2⟩
  | grouping inner ih => exact ⟨hPQ _ h.1, ih h.2⟩
  | misplaced found => exact hPQ _ h

/-! ### Conditions on a node -/

/-- The node is an expression indeed. -/
def Placed : Expr → Prop
  | .misplaced _ => False
  | _ => True

end Expr

/-- The kinds of the operators between two operands. -/
def binaryOperators : List TokenKind :=
  [.minus, .plus, .slash, .star, .greater, .greaterEqual, .less, .lessEqual, .bangEqual, .equalEqual]

/-- The kinds of the operators in front of an operand. -/
def unaryOperators : List TokenKind := [.minus, .bang]

/-- How tightly an operator between two operands holds them together. -/
def TokenKind.tightness : TokenKind → Nat
  | .slash | .star => 4
  | .minus | .plus => 3
  | .greater | .greaterEqual | .less | .lessEqual => 2
  | _ => 1

namespace Expr

/-- How tightly an expression holds together: an assignment least, the smallest expressions most. -/
def tightness : Expr → Nat
  | .assign _ _ => 0
  | .binary _ operator _ => operator.kind.tightness
  | .unary _ _ => 5
  | _ => 6

/-- If the node has an operator, it is one of the grammar. -/
def OperatorKnown : Expr → Prop
  | .unary operator _ => operator.kind ∈ unaryOperators
  | .binary _ operator _ => operator.kind ∈ binaryOperators
  | _ => True

/-- The left operand of the node holds together as tightly as the node itself or more so, the right one more so, and
the only operand as tightly as an operator in front. -/
def OperandsTight : Expr → Prop
  | .unary _ operand => 5 ≤ operand.tightness
  | .binary left operator right =>
    operator.kind.tightness ≤ left.tightness ∧ operator.kind.tightness < right.tightness
  | _ => True

/-- Every place for an expression holds one. -/
def WellFormed (e : Expr) : Prop := e.Every Placed

/-- All operators are those of the grammar. -/
def KnownOperators (e : Expr) : Prop := e.Every OperatorKnown

/-- All operands hold together as tightly as their places ask for.  In particular there is an assignment only as the
whole of the expression, in parentheses, or as the value of an assignment: everywhere else it is not tight enough. -/
def Stratified (e : Expr) : Prop := e.Every OperandsTight

/-- The number of nodes on the longest way down. -/
def height : Expr → Nat
  | .assign _ value => value.height + 1
  | .unary _ operand => operand.height + 1
  | .binary left _ right => max left.height right.height + 1
  | .grouping inner => inner.height + 1
  | _ => 1

theorem height_pos (e : Expr) : 0 < e.height := by
  cases e <;> exact Nat.succ_pos _

end Expr

/-! ### Statements -/

namespace Stmt

mutual

/-- Every place for a statement holds one or an empty slot, and every expression is as demanded. -/
def Every (P : Expr → Prop) : Stmt → Prop
  | .expression e => P e
  | .print e => P e
  | .declare _ none => True
  | .declare _ (some e) => P e
  | .block body => EveryIn P body
  | .skipped => True
  | .misplaced _ => False

/-- The same for all the statements of a list. -/
def EveryIn (P : Expr → Prop) : List Stmt → Prop
  | [] => True
  | s :: later => s.Every P ∧ EveryIn P later

end

theorem everyIn_iff {P : Expr → Prop} {ss : List Stmt} : EveryIn P ss ↔ ∀ s ∈ ss, s.Every P := by
  induction ss with
  | nil => simp [EveryIn]
  | cons s later ih => simp [EveryIn, ih]

mutual

theorem Every.imp {P Q : Expr → Prop} (hPQ : ∀ e, P e → Q e) : ∀ {s : Stmt}, s.Every P → s.Every Q
  | .expression e, h => hPQ e h
  | .print e, h => hPQ e h
  | .declare _ none, _ => trivial
  | .declare _ (some e), h => hPQ e h
  | .block _, h => EveryIn.imp hPQ h
  | .skipped, _ => trivial
  | .misplaced _, h => h.elim

theorem EveryIn.imp {P Q : Expr → Prop} (hPQ : ∀ e, P e → Q e) : ∀ {ss : List Stmt}, EveryIn P ss → EveryIn Q ss
  | [], _ => trivial
  | _ :: _, h => ⟨Every.imp hPQ h.1, EveryIn.imp hPQ h.2⟩

end

mutual

/-- The number of nodes on the longest way down. -/
def height : Stmt → Nat
  | .expression e => e.height + 1
  | .print e => e.height + 1
  | .declare _ none => 1
  | .declare _ (some e) => e.height + 1
  | .block body => heightOf body + 1
  | .skipped => 1
  | .misplaced _ => 1

/-- The greatest height in a list of statements. -/
def heightOf : List Stmt → Nat
  | [] => 0
  | s :: later => max s.height (heightOf later)

end

end Stmt

end Treewalk
