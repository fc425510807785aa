import Mathlib.Data.Finset.Basic
import Treewalk.Run

/-!
# The names that scopes bind

However running ends, it leaves as many scopes as there were, and outside of the current scope the names that are bound
are those that were bound before.  An expression can only change values, so that it leaves the names of the current
scope as well; a statement may add names to the current scope; and a block adds them to a scope that is closed again.
Faults are no exception: this is asked of all trees, with any allowance.

* `Expr.eval_names`, `Stmt.exec_names`: an expression, or a statement that is no declaration, leaves the names of all
  scopes.
* `Stmt.exec_outer_names`, `runStatements_outer_names`: statements leave the names of the outer scopes.
-/

namespace Treewalk

/-! ### Names -/

/-- The names that are bound in a scope. -/
def Scope.names (scope : Scope) : Finset String := (scope.bindings.map Prod.fst).toFinset

theorem Scope.mem_names {scope : Scope} {name : String} : name ∈ scope.names ↔ scope.binds name = true := by
  obtain ⟨bindings⟩ := scope
  rw [names, List.mem_toFinset, binds, get?]
  induction bindings with
  | nil => simp [findBinding]
  | cons binding later ih =>
    obtain ⟨other, value⟩ := binding
    by_cases h : name = other
    · simp [findBinding, h]
    · simpa [findBinding, h] using ih

theorem Scope.names_insert (scope : Scope) (name : String) (value : Value) :
    (scope.insert name value).names = {name} ∪ scope.names := by
  ext other
  rw [Finset.mem_union, Finset.mem_singleton, mem_names, mem_names, binds, binds, get?_insert]
  by_cases h : other = name <;> simp [h]

namespace Chain

/-- The names that are bound in each scope, the current one first. -/
def names : Chain → List (Finset String)
  | .global scope => [scope.names]
  | .nested scope outer => scope.names :: outer.names

/-- The names that are bound in each scope but the current one. -/
def outerNames (chain : Chain) : List (Finset String) := chain.names.tail

theorem names_ne_nil (chain : Chain) : chain.names ≠ [] := by
  cases chain <;> simp [names]

theorem isGlobal_iff {chain : Chain} : chain.isGlobal = true ↔ chain.outerNames = [] := by
  cases chain with
  | global scope => simp [isGlobal, outerNames, names]
  | nested scope outer => simp [isGlobal, outerNames, names, outer.names_ne_nil]

/-- How many scopes there are around the current one. -/
def depth : Chain → Nat
  | .global _ => 0
  | .nested _ outer => outer.depth + 1

private theorem length_names (chain : Chain) : chain.names.length = chain.depth + 1 := by
  induction chain with
  | global scope => rfl
  | nested scope outer ih => rw [names, List.length_cons, ih, depth]

theorem depth_eq (chain : Chain) : chain.depth = chain.outerNames.length := by
  rw [outerNames, List.length_tail, length_names, Nat.add_sub_cancel]

theorem depth_of_isGlobal {chain : Chain} (h : chain.isGlobal = true) : chain.depth = 0 := by
  rw [depth_eq, isGlobal_iff.1 h, List.length_nil]

/-- There are no more scopes to be asked for a name than all. -/
theorem asked_le (chain : Chain) (name : String) : chain.asked name ≤ chain.depth + 1 := by
  induction chain with
  | global scope => exact Nat.le_refl 1
  | nested scope outer ih =>
    unfold asked
    split
    · exact Nat.le_add_left 1 _
    · exact Nat.succ_le_succ ih

theorem outerNames_define (chain : Chain) (name : String) (value : Value) :
    (chain.define name value).outerNames = chain.outerNames := by
  cases chain <;> rfl

theorem names_assign? {chain next : Chain} {name : String} {value : Value} (h : chain.assign? name value = some next) :
    next.names = chain.names := by
  -- the name is bound where it gets the value
  have hinsert : ∀ scope : Scope, scope.binds name = true → (scope.insert name value).names = scope.names := by
    intro scope hbound
    rw [Scope.names_insert, Finset.union_eq_right, Finset.singleton_subset_iff]
    exact Scope.mem_names.2 hbound
  induction chain generalizing next with
  | global scope =>
    unfold assign? at h
    split at h
    · next hbound =>
      obtain rfl := Option.some.inj h
      simp only [names, hinsert scope hbound]
    · cases h
  | nested scope outer ih =>
    unfold assign? at h
    split at h
    · next hbound =>
      obtain rfl := Option.some.inj h
      simp only [names, hinsert scope hbound]
    · obtain ⟨outer', houter, rfl⟩ := Option.map_eq_some_iff.1 h
      simp only [names, ih houter]

/-- Closing a scope that was opened before. -/
theorem names_pop {chain inner : Chain} (h : inner.outerNames = chain.push.outerNames) :
    inner.pop.names = chain.names := by
  cases inner with
  | global scope => exact absurd h.symm chain.names_ne_nil
  | nested scope outer => exact h

end Chain

/-! ### Actions -/

namespace Action

variable {α β γ : Type} {f : Chain → γ}

/-- However the action ends, something about the scopes is then as it was before. -/
def Keeps (f : Chain → γ) (action : Action α) : Prop := ∀ scopes, f (action scopes).scopes = f scopes

theorem keeps_pure (a : α) : (pure a : Action α).Keeps f := fun _ => rfl

theorem keeps_halt (reason : Halt) : (halt reason : Action α).Keeps f := fun _ => rfl

theorem keeps_ofResult (result : Except RuntimeError α) : (ofResult result).Keeps f := fun _ => rfl

theorem keeps_spending (cost room : Nat) : (spending cost room).Keeps f := fun _ => rfl

theorem keeps_asking (name : Token) (room : Nat) : (asking name room).Keeps f := fun _ => rfl

theorem keeps_print (text : String) : (print text).Keeps f := fun _ => rfl

theorem keeps_lookup (name : Token) : (lookup name).Keeps f := by
  intro scopes
  unfold lookup
  split <;> rfl

private theorem keeps_assign (name : Token) (value : Value) : (assign name value).Keeps Chain.names := by
  intro scopes
  unfold assign
  split
  · next next hnext => exact Chain.names_assign? hnext
  · rfl

private theorem keeps_define (name : Token) (value : Value) : (define name value).Keeps Chain.outerNames :=
  fun scopes => scopes.outerNames_define name.lexeme value

theorem Keeps.bind {action : Action α} {g : α → Action β} (h : action.Keeps f) (hg : ∀ a, (g a).Keeps f) :
    (action >>= g).Keeps f := by
  intro scopes
  cases hresult : (action scopes).result with
  | ok a =>
    rw [bind_of_ok hresult]
    exact (hg a _).trans (h scopes)
  | error reason =>
    rw [bind_of_error hresult]
    exact h scopes

theorem Keeps.outer {action : Action α} (h : action.Keeps Chain.names) : action.Keeps Chain.outerNames :=
  fun scopes => congrArg List.tail (h scopes)

theorem Keeps.depth {action : Action α} (h : action.Keeps Chain.outerNames) : action.Keeps Chain.depth := by
  intro scopes
  rw [Chain.depth_eq, Chain.depth_eq, h scopes]

theorem Keeps.inScope {action : Action α} (h : action.Keeps Chain.outerNames) :
    (inScope action).Keeps Chain.names :=
  fun scopes => Chain.names_pop (h scopes.push)

end Action

/-! ### Running -/

open Treewalk.Action

theorem Expr.eval_names (e : Expr) (room : Nat) : (e.eval room).Keeps Chain.names := by
  induction e generalizing room with
  | literal value => exact Keeps.bind (keeps_spending _ _) fun _ => keeps_pure value
  | var name =>
    refine Keeps.bind (keeps_spending _ _) fun _ => ?_
    exact Keeps.bind (keeps_asking name _) fun _ => keeps_lookup name
  | assign name value ih =>
    refine Keeps.bind (keeps_spending _ _) fun _ => Keeps.bind (ih _) fun v => ?_
    refine Keeps.bind (keeps_asking name _) fun _ => ?_
    exact Keeps.bind (keeps_assign name v) fun _ => keeps_pure v
  | unary operator operand ih =>
    exact Keeps.bind (keeps_spending _ _) fun _ => Keeps.bind (ih _) fun _ => keeps_ofResult _
  | binary left operator right ihleft ihright =>
    refine Keeps.bind (keeps_spending _ _) fun _ => Keeps.bind (ihleft _) fun _ => ?_
    exact Keeps.bind (ihright _) fun _ => keeps_ofResult _
  | grouping inner ih => exact Keeps.bind (keeps_spending _ _) fun _ => ih _
  | misplaced found => exact keeps_halt _

/-- The name that a statement binds in the current scope, if it is a declaration. -/
def Stmt.declaredName? : Stmt → Option String
  | .declare name _ => some name.lexeme
  | _ => none

namespace Stmt

mutual

/-- Statements other than declarations leave the names of all scopes. -/
theorem exec_names : ∀ {s : Stmt} (room : Nat), s.declaredName? = none → (s.exec room).Keeps Chain.names
  | .expression e, room, _ => by
    rw [exec]
    exact e.eval_names room
  | .print e, room, _ => by
    rw [exec]
    refine Keeps.bind (e.eval_names room) fun v => ?_
    exact Keeps.bind (keeps_print _) fun _ => keeps_pure v
  | .block body, room, _ => by
    rw [exec]
    refine Keeps.bind (keeps_spending _ _) fun left => ?_
    exact Keeps.bind (execBody_outer_names body left).inScope fun _ => keeps_pure _
  | .skipped, room, _ => by
    rw [exec]
    exact keeps_pure _
  | .misplaced found, room, _ => by
    rw [exec]
    exact keeps_halt _

theorem exec_outer_names : ∀ (s : Stmt) (room : Nat), (s.exec room).Keeps Chain.outerNames
  | .declare name none, room => by
    rw [exec]
    exact Keeps.bind (keeps_define name .nil) fun _ => keeps_pure _
  | .declare name (some e), room => by
    rw [exec]
    refine Keeps.bind (e.eval_names room).outer fun v => ?_
    exact Keeps.bind (keeps_define name v) fun _ => keeps_pure _
  | .expression _, room => (exec_names room rfl).outer
  | .print _, room => (exec_names room rfl).outer
  | .block _, room => (exec_names room rfl).outer
  | .skipped, room => (exec_names room rfl).outer
  | .misplaced _, room => (exec_names room rfl).outer

theorem execBody_outer_names : ∀ (ss : List Stmt) (room : Nat), (execBody ss room).Keeps Chain.outerNames
  | [], room => by
    rw [execBody]
    exact keeps_pure ()
  | s :: later, room => by
    rw [execBody]
    exact Keeps.bind (exec_outer_names s room) fun _ => execBody_outer_names later room

end

end Stmt

theorem runStatements_outer_names (room : Nat) (program : List Stmt) (scopes : Chain) :
    (runStatements room program scopes).scopes.outerNames = scopes.outerNames := by
  induction program generalizing scopes with
  | nil => rfl
  | cons s later ih =>
    have hs := s.exec_outer_names room scopes
    rw [runStatements]
    split
    · exact (ih _).trans hs
    · exact hs

end Treewalk
