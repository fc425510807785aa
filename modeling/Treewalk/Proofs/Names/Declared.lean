import Mathlib.Data.Finset.Insert
import Mathlib.Data.Finset.Lattice.Lemmas
import Treewalk.Proofs.Names
import Treewalk.Session

/-!
# The names that a program binds

However a program ends, it leaves the scopes it was started in, with the same one as the current scope.  The outer
scopes bind the names that they bound before.  The current scope binds these names and the names of the declarations of
the program that were completed; a declaration in a block does not count, nor does one whose initial value failed.

That the scopes are the same is seen by any binding that the program does not write to: each scope still has it.

* `Stmt.exec_current_names`, `runStatements_current_names`: what a statement and a program bind in the current scope.
* `runStatements_column`: a name that is not written to keeps its values in all scopes.
* `runStatements_restores_scopes`: the scopes after a program, however it ends.
-/

namespace Treewalk

open Treewalk.Action

/-! ### Names of the current scope -/

namespace Chain

theorem names_eq_cons (chain : Chain) : chain.names = chain.current.names :: chain.outerNames := by
  cases chain <;> rfl

theorem current_names_define (chain : Chain) (name : String) (value : Value) :
    (chain.define name value).current.names = chain.current.names ∪ {name} := by
  rw [Finset.union_comm]
  cases chain <;> exact Scope.names_insert _ _ _

end Chain

private theorem Action.Keeps.current_names {α : Type} {action : Action α} (h : action.Keeps Chain.names)
    (scopes : Chain) : (action scopes).scopes.current.names = scopes.current.names := by
  have hnames := h scopes
  rw [Chain.names_eq_cons, Chain.names_eq_cons] at hnames
  exact (List.cons.inj hnames).1

/-- The names of the declarations that stand directly in a list of statements. -/
def declaredNames (ss : List Stmt) : Finset String := (ss.filterMap Stmt.declaredName?).toFinset

theorem declaredNames_cons (s : Stmt) (later : List Stmt) :
    declaredNames (s :: later) = declaredNames [s] ∪ declaredNames later := by
  cases hs : s.declaredName? with
  | none => simp [declaredNames, hs]
  | some name => simp [declaredNames, hs]

/-- A statement that ends with a value has bound the name that it declares; otherwise it has bound nothing. -/
theorem Stmt.exec_current_names (s : Stmt) (room : Nat) (scopes : Chain) :
    (s.exec room scopes).scopes.current.names =
      match (s.exec room scopes).result with
      | .ok _ => scopes.current.names ∪ declaredNames [s]
      | .error _ => scopes.current.names := by
  cases hname : s.declaredName? with
  | none =>
    have hkeeps := (exec_names room hname).current_names scopes
    have hnone : declaredNames [s] = ∅ := by simp [declaredNames, hname]
    split
    · rw [hkeeps, hnone, Finset.union_empty]
    · exact hkeeps
  | some declared =>
    match s, hname with
    | .declare name none, _ =>
      rw [exec]
      exact Chain.current_names_define scopes name.lexeme .nil
    | .declare name (some e), _ =>
      have hvalue := (e.eval_names room).current_names scopes
      rw [exec]
      cases hresult : (e.eval room scopes).result with
      | ok value =>
        rw [bind_of_ok hresult]
        show ((e.eval room scopes).scopes.define name.lexeme value).current.names = _
        rw [Chain.current_names_define, hvalue]
        rfl
      | error reason =>
        rw [bind_of_error hresult]
        exact hvalue

/-- The statements that have been completed are as many as there are values, and their declarations have been bound. -/
theorem runStatements_current_names (room : Nat) (program : List Stmt) (scopes : Chain) :
    (runStatements room program scopes).scopes.current.names =
      scopes.current.names ∪ declaredNames (program.take (runStatements room program scopes).values.length) := by
  induction program generalizing scopes with
  | nil => exact (Finset.union_empty _).symm
  | cons s later ih =>
    have hs := s.exec_current_names room scopes
    rw [runStatements]
    cases hresult : (s.exec room scopes).result with
    | ok value =>
      simp only [hresult] at hs
      simp only [List.length_cons, List.take_succ_cons]
      rw [ih, hs, declaredNames_cons s (later.take _), Finset.union_assoc]
    | error reason =>
      simp only [hresult] at hs
      exact hs.trans (Finset.union_empty _).symm

theorem runStatements_length_values (room : Nat) (program : List Stmt) (scopes : Chain) :
    (runStatements room program scopes).values.length ≤ program.length := by
  induction program generalizing scopes with
  | nil => exact Nat.le_refl 0
  | cons s later ih =>
    rw [runStatements]
    split
    · exact Nat.succ_le_succ (ih _)
    · exact Nat.zero_le _

/-- A program that is not stopped has completed all of its statements. -/
theorem runStatements_halt_iff (room : Nat) (program : List Stmt) (scopes : Chain) :
    (runStatements room program scopes).halt = none ↔
      (runStatements room program scopes).values.length = program.length := by
  induction program generalizing scopes with
  | nil => exact iff_of_true rfl rfl
  | cons s later ih =>
    rw [runStatements]
    cases (s.exec room scopes).result with
    | ok value => exact (ih _).trans Nat.succ_inj.symm
    | error reason => exact iff_of_false (by simp) (by simp)

/-! ### Bindings that are not written to -/

namespace Chain

/-- What each scope binds to a name, the current scope first. -/
def column (name : String) : Chain → List (Option Value)
  | .global scope => [scope.get? name]
  | .nested scope outer => scope.get? name :: outer.column name

theorem column_ne_nil (name : String) (chain : Chain) : chain.column name ≠ [] := by
  cases chain <;> simp [column]

private theorem column_define {name other : String} (h : name ≠ other) (value : Value) (chain : Chain) :
    (chain.define other value).column name = chain.column name := by
  cases chain <;> simp [define, column, Scope.get?_insert, h]

theorem column_assign? {name other : String} (h : name ≠ other) {value : Value} {chain next : Chain}
    (hnext : chain.assign? other value = some next) : next.column name = chain.column name := by
  induction chain generalizing next with
  | global scope =>
    unfold assign? at hnext
    split at hnext
    · obtain rfl := Option.some.inj hnext
      simp [column, Scope.get?_insert, h]
    · cases hnext
  | nested scope outer ih =>
    unfold assign? at hnext
    split at hnext
    · obtain rfl := Option.some.inj hnext
      simp [column, Scope.get?_insert, h]
    · obtain ⟨outer', houter, rfl⟩ := Option.map_eq_some_iff.1 hnext
      simp only [column, ih houter]

/-- Closing a scope that was opened before. -/
private theorem column_pop {name : String} {chain inner : Chain} (h : inner.column name = chain.push.column name) :
    inner.pop.column name = chain.column name := by
  cases inner with
  | global scope =>
    have htail : [] = chain.column name := (List.cons.inj h).2
    exact absurd htail.symm (chain.column_ne_nil name)
  | nested scope outer => exact (List.cons.inj h).2

end Chain

/-- The names that an expression assigns to. -/
def Expr.written : Expr → List String
  | .assign name value => name.lexeme :: value.written
  | .unary _ operand => operand.written
  | .binary left _ right => left.written ++ right.written
  | .grouping inner => inner.written
  | _ => []

namespace Stmt

mutual

/-- The names that a statement assigns to or declares, in blocks as well. -/
def written : Stmt → List String
  | .expression e => e.written
  | .print e => e.written
  | .declare name none => [name.lexeme]
  | .declare name (some e) => name.lexeme :: e.written
  | .block body => writtenIn body
  | .skipped => []
  | .misplaced _ => []

/-- The names that some statement of a list assigns to or declares. -/
def writtenIn : List Stmt → List String
  | [] => []
  | s :: later => s.written ++ writtenIn later

end

end Stmt

namespace Action

variable {name : String}

private theorem keeps_column_assign {target : Token} (h : name ≠ target.lexeme) (value : Value) :
    (assign target value).Keeps (Chain.column name) := by
  intro scopes
  unfold assign
  split
  · next next hnext => exact Chain.column_assign? h hnext
  · rfl

private theorem keeps_column_define {target : Token} (h : name ≠ target.lexeme) (value : Value) :
    (define target value).Keeps (Chain.column name) :=
  fun scopes => Chain.column_define h value scopes

private theorem Keeps.column_inScope {α : Type} {action : Action α} (h : action.Keeps (Chain.column name)) :
    (Action.inScope action).Keeps (Chain.column name) :=
  fun scopes => Chain.column_pop (h scopes.push)

end Action

theorem Expr.eval_column {name : String} {e : Expr} (h : name ∉ e.written) (room : Nat) :
    (e.eval room).Keeps (Chain.column name) := by
  induction e generalizing room with
  | literal value => exact Keeps.bind (keeps_spending _ _) fun _ => keeps_pure value
  | var other =>
    refine Keeps.bind (keeps_spending _ _) fun _ => ?_
    exact Keeps.bind (keeps_asking other _) fun _ => keeps_lookup other
  | assign target value ih =>
    obtain ⟨htarget, hvalue⟩ := not_or.1 (mt List.mem_cons.2 h)
    refine Keeps.bind (keeps_spending _ _) fun _ => Keeps.bind (ih hvalue _) fun v => ?_
    refine Keeps.bind (keeps_asking target _) fun _ => ?_
    exact Keeps.bind (keeps_column_assign htarget v) fun _ => keeps_pure v
  | unary operator operand ih =>
    exact Keeps.bind (keeps_spending _ _) fun _ => Keeps.bind (ih h _) fun _ => keeps_ofResult _
  | binary left operator right ihleft ihright =>
    obtain ⟨hleft, hright⟩ := not_or.1 (mt List.mem_append.2 h)
    refine Keeps.bind (keeps_spending _ _) fun _ => Keeps.bind (ihleft hleft _) fun _ => ?_
    exact Keeps.bind (ihright hright _) fun _ => keeps_ofResult _
  | grouping inner ih => exact Keeps.bind (keeps_spending _ _) fun _ => ih h _
  | misplaced found => exact keeps_halt _

namespace Stmt

variable {name : String}

mutual

private theorem exec_column : ∀ {s : Stmt} (room : Nat), name ∉ s.written → (s.exec room).Keeps (Chain.column name)
  | .expression e, room, h => by
    rw [exec]
    exact Expr.eval_column h room
  | .print e, room, h => by
    rw [exec]
    refine Keeps.bind (Expr.eval_column h room) fun v => ?_
    exact Keeps.bind (keeps_print _) fun _ => keeps_pure v
  | .declare target none, room, h => by
    rw [exec]
    exact Keeps.bind (keeps_column_define (not_or.1 (mt List.mem_cons.2 h)).1 .nil) fun _ => keeps_pure _
  | .declare target (some e), room, h => by
    obtain ⟨htarget, hvalue⟩ := not_or.1 (mt List.mem_cons.2 h)
    rw [exec]
    refine Keeps.bind (Expr.eval_column hvalue room) fun v => ?_
    exact Keeps.bind (keeps_column_define htarget v) fun _ => keeps_pure _
  | .block body, room, h => by
    rw [exec]
    refine Keeps.bind (keeps_spending _ _) fun left => ?_
    exact Keeps.bind (execBody_column left h).column_inScope fun _ => keeps_pure _
  | .skipped, room, _ => by
    rw [exec]
    exact keeps_pure _
  | .misplaced found, room, _ => by
    rw [exec]
    exact keeps_halt _

private theorem execBody_column : ∀ {ss : List Stmt} (room : Nat), name ∉ writtenIn ss →
    (execBody ss room).Keeps (Chain.column name)
  | [], room, _ => by
    rw [execBody]
    exact keeps_pure ()
  | s :: later, room, h => by
    obtain ⟨hs, hlater⟩ := not_or.1 (mt List.mem_append.2 h)
    rw [execBody]
    exact Keeps.bind (exec_column room hs) fun _ => execBody_column room hlater

end

end Stmt

/-- A name that a program does not write to has the same values in all scopes as before. -/
theorem runStatements_column {name : String} {program : List Stmt} (h : name ∉ Stmt.writtenIn program) (room : Nat)
    (scopes : Chain) : (runStatements room program scopes).scopes.column name = scopes.column name := by
  induction program generalizing scopes with
  | nil => rfl
  | cons s later ih =>
    obtain ⟨hs, hlater⟩ := not_or.1 (mt List.mem_append.2 h)
    have hstep := Stmt.exec_column room hs scopes
    rw [runStatements]
    split
    · exact (ih hlater _).trans hstep
    · exact hstep

/-! ### All outcomes -/

theorem Session.interpret_scopes (session : Session) (program : List Stmt) :
    (session.interpret program).1.scopes = (runProgram program session.scopes).scopes := by
  simp only [interpret]
  split <;> rfl

/-- However a program ends, at its end, at an error, at a misplaced node or for want of allowance, the scopes are those
in which it was started: the current scope is the same one, and so are the scopes around it, in which every name that
the program does not write to is bound to what it was.  Each scope but the current one binds the names that it bound
before.  The current scope binds these names and those of the declarations directly in the program that were
completed. -/
theorem runStatements_restores_scopes (room : Nat) (program : List Stmt) (scopes : Chain) :
    let run := runStatements room program scopes
    run.scopes.outerNames = scopes.outerNames ∧
      run.scopes.current.names = scopes.current.names ∪ declaredNames (program.take run.values.length) ∧
      (∀ name, name ∉ Stmt.writtenIn program → run.scopes.column name = scopes.column name) ∧
      (run.halt = none ↔ run.values.length = program.length) ∧
      ∀ flags, (Session.interpret ⟨flags, scopes⟩ program).1.scopes =
        (runStatements runningRoom program scopes).scopes :=
  ⟨runStatements_outer_names room program scopes, runStatements_current_names room program scopes,
    fun _ h => runStatements_column h room scopes, runStatements_halt_iff room program scopes,
    fun flags => Session.interpret_scopes ⟨flags, scopes⟩ program⟩

/-- The program `var b = true; { var c; a = -b; } var d;` in a scope inside the global one.  It fails in the block,
after one statement: `b` has been declared, but neither `c` nor `d`, and the two scopes are told apart by `here`. -/
theorem runStatements_restores_scopes_failing :
    let name (lexeme : String) : Token := ⟨.identifier, lexeme, .nil, 1⟩
    let minus : Token := ⟨.minus, "-", .nil, 1⟩
    let program : List Stmt := [.declare (name "b") (some (.literal (.bool true))),
      .block [.declare (name "c") none, .expression (.assign (name "a") (.unary minus (.var (name "b"))))],
      .declare (name "d") none]
    let scopes : Chain := .nested ⟨[("a", .nil), ("here", .str "inner")]⟩ (.global ⟨[("here", .str "outer")]⟩)
    let run := runStatements runningRoom program scopes
    run.halt = some (.error (.typeMismatch minus .number)) ∧ run.scopes.outerNames = [{"here"}] ∧
      run.scopes.current.names = {"a", "here"} ∪ {"b"} ∧ "here" ∉ Stmt.writtenIn program ∧
      run.scopes.column "here" = [some (.str "inner"), some (.str "outer")] := by
  intro name minus program scopes run
  obtain ⟨houter, hcurrent, hcolumn, -, -⟩ := runStatements_restores_scopes runningRoom program scopes
  have hcompleted : run.values.length = 1 := by decide +kernel
  have hfree : "here" ∉ Stmt.writtenIn program := by decide
  rw [hcompleted] at hcurrent
  exact ⟨by decide +kernel, houter, hcurrent, hfree, hcolumn "here" hfree⟩

end Treewalk
