import Treewalk.Scope

/-!
# Chains of scopes

While a program runs, names are looked up in the current scope, then in the scope around it, and so on up to the
global scope.  A block opens a scope of its own inside the current one and closes it at its end.
-/

namespace Treewalk

/-- The current scope and the scopes around it. -/
inductive Chain where
  /-- The global scope, around which there is none. -/
  | global (scope : Scope)
  /-- A scope inside others. -/
  | nested (scope : Scope) (outer : Chain)
deriving DecidableEq

namespace Chain

/-- The current scope. -/
def current : Chain → Scope
  | .global scope => scope
  | .nested scope _ => scope

/-- The global scope. -/
def globals : Chain → Scope
  | .global scope => scope
  | .nested _ outer => outer.globals

/-- Whether the current scope is the global one. -/
def isGlobal : Chain → Bool
  | .global _ => true
  | .nested _ _ => false

/-- The value of a name in the nearest scope that binds it. -/
def get? : Chain → String → Option Value
  | .global scope, name => scope.get? name
  | .nested scope outer, name =>
    match scope.get? name with
    | some value => some value
    | none => outer.get? name

/-- How many scopes are asked for a name, from the current one on: up to the nearest one that binds it, or all. -/
def asked : Chain → String → Nat
  | .global _, _ => 1
  | .nested scope outer, name => if scope.binds name then 1 else outer.asked name + 1

/-- Bind a name in the current scope. -/
def define (name : String) (value : Value) : Chain → Chain
  | .global scope => .global (scope.insert name value)
  | .nested scope outer => .nested (scope.insert name value) outer

/-- Give a name a new value in the nearest scope that binds it, if there is one. -/
def assign? (name : String) (value : Value) : Chain → Option Chain
  | .global scope => if scope.binds name then some (.global (scope.insert name value)) else none
  | .nested scope outer =>
    if scope.binds name then some (.nested (scope.insert name value) outer)
    else (assign? name value outer).map (.nested scope)

/-- Open a scope inside the current one. -/
def push (chain : Chain) : Chain := .nested .empty chain

/-- Close the current scope; the global scope stays open. -/
def pop : Chain → Chain
  | .global scope => .global scope
  | .nested _ outer => outer

end Chain

end Treewalk
