import Treewalk.Value

/-!
# Scopes

A scope binds names to values.  The bindings are kept in ascending order of the names, so that a listing of a scope
does not depend on the order in which the names were bound.
-/

namespace Treewalk

/-- The bindings of a scope. -/
structure Scope where
  bindings : List (String × Value)
deriving DecidableEq

namespace Scope

/-- No name is bound. -/
def empty : Scope := ⟨[]⟩

/-- The value of a name among bindings. -/
def findBinding (name : String) : List (String × Value) → Option Value
  | [] => none
  | (other, bound) :: later => if name = other then some bound else findBinding name later

/-- The value of a name, if it is bound. -/
def get? (scope : Scope) (name : String) : Option Value :=
  findBinding name scope.bindings

/-- Whether a name is bound. -/
def binds (scope : Scope) (name : String) : Bool :=
  (scope.get? name).isSome

/-- Bind a name among bindings in ascending order, in place of an earlier binding. -/
def insertBinding (name : String) (value : Value) : List (String × Value) → List (String × Value)
  | [] => [(name, value)]
  | (other, bound) :: later =>
    if name = other then (name, value) :: later
    else if name < other then (name, value) :: (other, bound) :: later
    else (other, bound) :: insertBinding name value later

/-- Bind a name, in place of an earlier binding. -/
def insert (scope : Scope) (name : String) (value : Value) : Scope :=
  ⟨insertBinding name value scope.bindings⟩

private theorem findBinding_insertBinding (name other : String) (value : Value) (bindings : List (String × Value)) :
    findBinding other (insertBinding name value bindings) =
      if other = name then some value else findBinding other bindings := by
  induction bindings with
  | nil => rfl
  | cons binding later ih =>
    obtain ⟨key, bound⟩ := binding
    unfold insertBinding
    split
    · next hk => subst hk; by_cases h : other = name <;> simp [findBinding, h]
    · next hk =>
      split
      · rfl
      · by_cases h : other = name
        · subst h; simp [findBinding, hk, ih]
        · simp [findBinding, h, ih]

/-- Binding a name changes what is bound to this name, and nothing else. -/
theorem get?_insert (scope : Scope) (name other : String) (value : Value) :
    (scope.insert name value).get? other = if other = name then some value else scope.get? other :=
  findBinding_insertBinding name other value scope.bindings

end Scope

end Treewalk
