import Treewalk.Program

/-!
# Sentences of the grammar

The documented grammar as a relation between sequences of tokens and trees, independent of any parser:

    program     → declaration*
    declaration → "var" IDENT ("=" expression)? ";"  |  "print" expression ";"  |  "{" declaration* "}"
                | expression ";"
    expression  → assignment
    assignment  → IDENT "=" assignment  |  equality
    equality    → comparison (("!=" | "==") comparison)*
    comparison  → term ((">" | ">=" | "<" | "<=") term)*
    term        → factor (("-" | "+") factor)*
    factor      → unary (("/" | "*") unary)*
    unary       → ("!" | "-") unary  |  primary
    primary     → NUMBER | STRING | "true" | "false" | "nil" | IDENT | "(" expression ")"

A repetition of operators is given by a left recursive rule, which fixes how its operands are grouped.

* `Phrase`: the sequences of tokens that a symbol stands for, with their trees.
* `Declaration`, `Program`: the same for statements and programs.
-/

namespace Treewalk

/-- The symbols of the grammar of expressions. -/
inductive Symbol where
  | expression
  | assignment
  | equality
  | comparison
  | term
  | factor
  | unary
  | primary
deriving DecidableEq

/-- The tokens `ts` are a phrase for the symbol, and the tree is the tree of the phrase. -/
inductive Phrase : Symbol → List Token → Expr → Prop where
  | expression {ts : List Token} {e : Expr} (h : Phrase .assignment ts e) : Phrase .expression ts e
  | assign {name equals : Token} {ts : List Token} {value : Expr} (hname : name.kind = .identifier)
      (hequals : equals.kind = .equal) (hvalue : Phrase .assignment ts value) :
      Phrase .assignment (name :: equals :: ts) (.assign name value)
  | assignment {ts : List Token} {e : Expr} (h : Phrase .equality ts e) : Phrase .assignment ts e
  | equal {ts us : List Token} {operator : Token} {left right : Expr} (hleft : Phrase .equality ts left)
      (hoperator : operator.kind = .bangEqual ∨ operator.kind = .equalEqual) (hright : Phrase .comparison us right) :
      Phrase .equality (ts ++ operator :: us) (.binary left operator right)
  | equality {ts : List Token} {e : Expr} (h : Phrase .comparison ts e) : Phrase .equality ts e
  | compare {ts us : List Token} {operator : Token} {left right : Expr} (hleft : Phrase .comparison ts left)
      (hoperator : operator.kind = .greater ∨ operator.kind = .greaterEqual ∨ operator.kind = .less ∨
        operator.kind = .lessEqual) (hright : Phrase .term us right) :
      Phrase .comparison (ts ++ operator :: us) (.binary left operator right)
  | comparison {ts : List Token} {e : Expr} (h : Phrase .term ts e) : Phrase .comparison ts e
  | add {ts us : List Token} {operator : Token} {left right : Expr} (hleft : Phrase .term ts left)
      (hoperator : operator.kind = .minus ∨ operator.kind = .plus) (hright : Phrase .factor us right) :
      Phrase .term (ts ++ operator :: us) (.binary left operator right)
  | term {ts : List Token} {e : Expr} (h : Phrase .factor ts e) : Phrase .term ts e
  | multiply {ts us : List Token} {operator : Token} {left right : Expr} (hleft : Phrase .factor ts left)
      (hoperator : operator.kind = .slash ∨ operator.kind = .star) (hright : Phrase .unary us right) :
      Phrase .factor (ts ++ operator :: us) (.binary left operator right)
  | factor {ts : List Token} {e : Expr} (h : Phrase .unary ts e) : Phrase .factor ts e
  | negate {operator : Token} {ts : List Token} {operand : Expr}
      (hoperator : operator.kind = .bang ∨ operator.kind = .minus) (h : Phrase .unary ts operand) :
      Phrase .unary (operator :: ts) (.unary operator operand)
  | unary {ts : List Token} {e : Expr} (h : Phrase .primary ts e) : Phrase .unary ts e
  | number {t : Token} (h : t.kind = .number) : Phrase .primary [t] (.literal t.literal)
  | string {t : Token} (h : t.kind = .string) : Phrase .primary [t] (.literal t.literal)
  | true_ {t : Token} (h : t.kind = .true_) : Phrase .primary [t] (.literal (.bool true))
  | false_ {t : Token} (h : t.kind = .false_) : Phrase .primary [t] (.literal (.bool false))
  | nil_ {t : Token} (h : t.kind = .nil_) : Phrase .primary [t] (.literal .nil)
  | name {t : Token} (h : t.kind = .identifier) : Phrase .primary [t] (.var t)
  | grouping {opening closing : Token} {ts : List Token} {e : Expr} (hopening : opening.kind = .leftParen)
      (h : Phrase .expression ts e) (hclosing : closing.kind = .rightParen) :
      Phrase .primary (opening :: (ts ++ [closing])) (.grouping e)

mutual

/-- The tokens `ts` are a declaration or another statement, with its tree. -/
inductive Declaration : List Token → Stmt → Prop where
  | declare {word name semicolon : Token} (hword : word.kind = .var_) (hname : name.kind = .identifier)
      (hsemicolon : semicolon.kind = .semicolon) : Declaration [word, name, semicolon] (.declare name none)
  | define {word name equals semicolon : Token} {ts : List Token} {e : Expr} (hword : word.kind = .var_)
      (hname : name.kind = .identifier) (hequals : equals.kind = .equal) (h : Phrase .expression ts e)
      (hsemicolon : semicolon.kind = .semicolon) :
      Declaration (word :: name :: equals :: (ts ++ [semicolon])) (.declare name (some e))
  | print {word semicolon : Token} {ts : List Token} {e : Expr} (hword : word.kind = .print_)
      (h : Phrase .expression ts e) (hsemicolon : semicolon.kind = .semicolon) :
      Declaration (word :: (ts ++ [semicolon])) (.print e)
  | block {opening closing : Token} {ts : List Token} {body : List Stmt} (hopening : opening.kind = .leftBrace)
      (h : Program ts body) (hclosing : closing.kind = .rightBrace) :
      Declaration (opening :: (ts ++ [closing])) (.block body)
  | expression {semicolon : Token} {ts : List Token} {e : Expr} (h : Phrase .expression ts e)
      (hsemicolon : semicolon.kind = .semicolon) : Declaration (ts ++ [semicolon]) (.expression e)

/-- The tokens `ts` are a sequence of declarations, with their trees. -/
inductive Program : List Token → List Stmt → Prop where
  | nil : Program [] []
  | cons {ts us : List Token} {s : Stmt} {ss : List Stmt} (h : Declaration ts s) (hs : Program us ss) :
      Program (ts ++ us) (s :: ss)

end

end Treewalk
