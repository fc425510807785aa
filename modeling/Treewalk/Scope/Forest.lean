import Treewalk.Scope
import Treewalk.RuntimeError

/-!
# Shared scopes

Scopes that are used from several places form a forest: each scope is made inside one that exists already, or inside
none, and any of them can be read and written at any time.  Scopes are numbered in the order in which they are made.

* `Forest.owner?`: the nearest scope, from a given one outward, that binds a name.
* `Forest.get` and `Forest.assign` act on the owner, `Forest.define` on the given scope.
-/

namespace Treewalk

/-- A scope of a forest: the numbers of the scopes around it, from the nearest outward, and its bindings. -/
structure SharedScope where
  ancestors : List Nat
  scope : Scope
deriving DecidableEq

/-- Scopes by their numbers. -/
structure Forest where
  scopes : List SharedScope
deriving DecidableEq

namespace Forest

/-- No scopes yet. -/
def empty : Forest := ⟨[]⟩

/-- The scope with a given number and the scopes around it, from the nearest outward. -/
def path (forest : Forest) (id : Nat) : List Nat :=
  match forest.scopes[id]? with
  | some shared => id :: shared.ancestors
  | none => []

/-- Make a scope inside the given one, or inside none. -/
def add (forest : Forest) (parent : Option Nat) : Forest :=
  ⟨forest.scopes ++ [⟨(parent.map forest.path).getD [], .empty⟩]⟩

/-- The value of a name in the bindings of one scope alone. -/
def own? (forest : Forest) (id : Nat) (name : String) : Option Value :=
  forest.scopes[id]?.bind fun shared => shared.scope.get? name

/-- The nearest scope from the given one outward that binds a name. -/
def owner? (forest : Forest) (id : Nat) (name : String) : Option Nat :=
  (forest.path id).find? fun k => (forest.own? k name).isSome

/-- Bind a name in one scope. -/
def define (forest : Forest) (id : Nat) (name : String) (value : Value) : Forest :=
  ⟨forest.scopes.modify id fun shared => { shared with scope := shared.scope.insert name value }⟩

/-- The value of a name as seen from a scope, if some scope binds it. -/
def get? (forest : Forest) (id : Nat) (name : String) : Option Value :=
  (forest.owner? id name).bind fun k => forest.own? k name

/-- Give a name a new value in its owner, if there is one. -/
def assign? (forest : Forest) (id : Nat) (name : String) (value : Value) : Option Forest :=
  (forest.owner? id name).map fun k => forest.define k name value

/-- The value of a name as seen from a scope, or the error that it is not bound. -/
def get (forest : Forest) (id : Nat) (name : Token) : Except RuntimeError Value :=
  match forest.get? id name.lexeme with
  | some value => .ok value
  | none => .error (.undefinedVariable name)

/-- Give a name a new value in its owner, or the error that there is none. -/
def assign (forest : Forest) (id : Nat) (name : Token) (value : Value) : Except RuntimeError Forest :=
  match forest.assign? id name.lexeme value with
  | some forest => .ok forest
  | none => .error (.undefinedVariable name)

end Forest

end Treewalk
