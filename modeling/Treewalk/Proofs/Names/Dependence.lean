import Treewalk.Proofs.Names.Free

/-!
# What a program depends on

A program depends only on the global variables whose names stand free in it.  Two runs of it, from global scopes that
agree on these names, print the same lines and end in the same way; and then the global scopes agree on these names
still, and on the names that the program has declared.

The two runs have the same scopes all the time, except for the global one.  A name has the same meaning in both if one
of these scopes binds it, or if the global scopes agree on it.  The first may come to an end with a block, but the
second cannot: all values that are assigned are the same.

* `Chain.Alike`: two chains of scopes in which some names have the same meaning.
* `Action.Coincides`: what has the same outcome in both.
* `Stmt.exec_coincides`: a statement, if its free names have the same meaning.
* `Session.interpret_depends_on_free_names`: a program, from two global scopes.
-/

namespace Treewalk

open Treewalk.Action

/-- The names that an expression reads or assigns to. -/
def Expr.used : Expr → List String
  | .var name => [name.lexeme]
  | .assign name value => name.lexeme :: value.used
  | .unary _ operand => operand.used
  | .binary left _ right => left.used ++ right.used
  | .grouping inner => inner.used
  | _ => []

/-! ### Two chains of scopes -/

namespace Chain

/-- The scopes of both chains are the same, except for the global ones. -/
inductive Parallel : Chain → Chain → Prop where
  | global (scope scope' : Scope) : Parallel (.global scope) (.global scope')
  | nested (scope : Scope) {outer outer' : Chain} (h : Parallel outer outer') :
      Parallel (.nested scope outer) (.nested scope outer')

/-- The global scopes agree on whether the name is bound, and on its value. -/
def AgreesAt (name : String) (first second : Chain) : Prop := first.globals.get? name = second.globals.get? name

/-- The name is bound by a scope that is not the global one, or the global scopes agree on it. -/
def SharesAt (name : String) (first second : Chain) : Prop :=
  first.Shadows name first.depth ∨ first.AgreesAt name second

/-- Only the global scopes of the two chains may differ, and the known names have the same meaning in both. -/
structure Alike (known : Finset String) (first second : Chain) : Prop where
  parallel : first.Parallel second
  shares : ∀ name ∈ known, first.SharesAt name second

variable {name target : String} {known : Finset String} {first second next next' : Chain}

private theorem sharesAt_global_iff {scope scope' : Scope} :
    (global scope).SharesAt name (global scope') ↔ scope.get? name = scope'.get? name := by
  refine ⟨fun h => h.resolve_left ?_, .inr⟩
  rintro ⟨names, hmem, -⟩
  exact List.not_mem_nil hmem

/-- A name that is not bound in the current scope means what it means outside of it. -/
private theorem SharesAt.of_nested {scope scope' : Scope} {outer outer' : Chain}
    (h : (nested scope outer).SharesAt name (nested scope' outer')) (hfree : ¬scope.binds name = true) :
    outer.SharesAt name outer' := by
  rcases h with h | h
  · obtain ⟨names, hmem, hname⟩ := h
    rcases List.mem_cons.1 hmem with rfl | hmem
    · exact absurd (Scope.mem_names.1 hname) hfree
    · exact .inl ⟨names, hmem, hname⟩
  · exact .inr h

/-- Chains from which names are not taken away, nor the agreement of the global scopes. -/
private theorem SharesAt.grows (h : first.SharesAt name second) (hgrows : first.Grows next)
    (hagrees : first.AgreesAt name second → next.AgreesAt name next') : next.SharesAt name next' := by
  rcases h with h | h
  · have hdepth : next.depth = first.depth := by rw [depth_eq, depth_eq, hgrows.outer]
    rw [SharesAt, hdepth]
    exact .inl (h.grows hgrows)
  · exact .inr (hagrees h)

private theorem get?_eq_of_sharesAt (hchains : first.Parallel second) (h : first.SharesAt name second) :
    first.get? name = second.get? name := by
  induction hchains with
  | global scope scope' => exact sharesAt_global_iff.1 h
  | nested scope _ ih =>
    cases hvalue : scope.get? name with
    | some value => simp only [get?, hvalue]
    | none =>
      have hfree : ¬scope.binds name = true := by simp [Scope.binds, hvalue]
      simp only [get?, hvalue]
      exact ih (h.of_nested hfree)

private theorem get?_insert_eq {scope scope' : Scope} (h : scope.get? name = scope'.get? name) (target : String)
    (value : Value) : (scope.insert target value).get? name = (scope'.insert target value).get? name := by
  rw [Scope.get?_insert, Scope.get?_insert, h]

/-- An assignment either fails in both chains, or has the same effect in both. -/
private theorem assign?_of_sharesAt (value : Value) (hchains : first.Parallel second)
    (h : first.SharesAt target second) : (first.assign? target value = none ∧ second.assign? target value = none) ∨
      ∃ next next', first.assign? target value = some next ∧ second.assign? target value = some next' ∧
        next.Parallel next' ∧ ∀ name, first.AgreesAt name second → next.AgreesAt name next' := by
  induction hchains with
  | global scope scope' =>
    have hbinds : scope'.binds target = scope.binds target :=
      (congrArg Option.isSome (sharesAt_global_iff.1 h)).symm
    unfold assign?
    rw [hbinds]
    split
    · exact .inr ⟨_, _, rfl, rfl, .global _ _, fun _ hagrees => get?_insert_eq hagrees target value⟩
    · exact .inl ⟨rfl, rfl⟩
  | nested scope houter ih =>
    unfold assign?
    split
    · exact .inr ⟨_, _, rfl, rfl, .nested _ houter, fun _ hagrees => hagrees⟩
    · next hfree =>
      rcases ih (h.of_nested hfree) with ⟨hnone, hnone'⟩ | ⟨next, next', hnext, hnext', hchains, hagrees⟩
      · rw [hnone, hnone']
        exact .inl ⟨rfl, rfl⟩
      · rw [hnext, hnext']
        exact .inr ⟨_, _, rfl, rfl, .nested scope hchains, hagrees⟩

/-- A declaration is made in the current scope of both chains. -/
private theorem Parallel.define (h : first.Parallel second) (target : String) (value : Value) :
    (first.define target value).Parallel (second.define target value) ∧
      (∀ name, first.AgreesAt name second → (first.define target value).AgreesAt name (second.define target value)) ∧
      (first.define target value).SharesAt target (second.define target value) := by
  cases h with
  | global scope scope' =>
    refine ⟨.global _ _, fun _ hagrees => get?_insert_eq hagrees target value, sharesAt_global_iff.2 ?_⟩
    rw [Scope.get?_insert, Scope.get?_insert, if_pos rfl, if_pos rfl]
  | @nested scope outer outer' houter =>
    refine ⟨.nested _ houter, fun _ hagrees => hagrees, .inl ?_⟩
    apply shadows_succ_of_mem
    rw [current_names_define]
    exact Finset.mem_union_right _ (Finset.mem_singleton_self target)

/-- As many scopes are asked for a name in both chains. -/
private theorem Parallel.asked_eq (h : first.Parallel second) (name : String) :
    first.asked name = second.asked name := by
  induction h with
  | global scope scope' => rfl
  | nested scope _ ih => simp only [asked, ih]

private theorem Parallel.pop (h : first.Parallel second) : first.pop.Parallel second.pop := by
  cases h with
  | global scope scope' => exact .global scope scope'
  | nested scope houter => exact houter

private theorem globals_pop (chain : Chain) : chain.pop.globals = chain.globals := by
  cases chain <;> rfl

private theorem Alike.mono {known' : Finset String} (h : first.Alike known second) (hknown : known' ⊆ known) :
    first.Alike known' second :=
  ⟨h.parallel, fun name hname => h.shares name (hknown hname)⟩

private theorem Alike.push (h : first.Alike known second) : first.push.Alike known second.push := by
  refine ⟨.nested .empty h.parallel, fun name hname => ?_⟩
  rcases h.shares name hname with hshadows | hagrees
  · exact .inl hshadows.push
  · exact .inr hagrees

private theorem Alike.globals_eq (h : first.Alike known second) (hglobal : first.outerNames = []) :
    ∃ scope scope', first = .global scope ∧ second = .global scope' ∧
      ∀ name ∈ known, scope.get? name = scope'.get? name := by
  obtain ⟨hparallel, hshares⟩ := h
  cases hparallel with
  | global scope scope' =>
    exact ⟨scope, scope', rfl, rfl, fun name hname => sharesAt_global_iff.1 (hshares name hname)⟩
  | @nested scope outer outer' houter => exact absurd hglobal outer.names_ne_nil

end Chain

/-! ### Two outcomes -/

/-- Two outcomes, from two chains of scopes, which have the same result and print the same.  The global scopes agree on
all names on which they agreed before; and if the result is a value, the fresh names have the same meaning in both. -/
structure Outcome.Matches {α : Type} (fresh : Finset String) (first second : Chain) (outcome outcome' : Outcome α) :
    Prop where
  result : outcome.result = outcome'.result
  printed : outcome.printed = outcome'.printed
  parallel : outcome.scopes.Parallel outcome'.scopes
  agrees : ∀ name, first.AgreesAt name second → outcome.scopes.AgreesAt name outcome'.scopes
  shares : ∀ a, outcome.result = .ok a → ∀ name ∈ fresh, outcome.scopes.SharesAt name outcome'.scopes

/-- Where the known names have the same meaning, the action has the same outcome, and gives a meaning to the fresh
names. -/
structure Action.Coincides {α : Type} (known fresh : Finset String) (action : Action α) : Prop where
  grows : action.Moves Chain.Grows
  outcomes : ∀ {first second : Chain}, first.Alike known second →
    (action first).Matches fresh first second (action second)

namespace Action

variable {α β : Type} {known fresh fresh' : Finset String}

private theorem Coincides.alike {action : Action α} (h : action.Coincides known fresh) {first second : Chain}
    (hchains : first.Alike known second) : (action first).scopes.Alike known (action second).scopes := by
  have houtcomes := h.outcomes hchains
  refine ⟨houtcomes.parallel, fun name hname => ?_⟩
  exact (hchains.shares name hname).grows (h.grows first) (houtcomes.agrees name)

private theorem Coincides.alike_fresh {action : Action α} (h : action.Coincides known fresh) {first second : Chain}
    {a : α} (hchains : first.Alike known second) (hresult : (action first).result = .ok a) :
    (action first).scopes.Alike (known ∪ fresh) (action second).scopes := by
  refine ⟨(h.alike hchains).parallel, fun name hname => ?_⟩
  rcases Finset.mem_union.1 hname with hname | hname
  · exact (h.alike hchains).shares name hname
  · exact (h.outcomes hchains).shares a hresult name hname

/-- Actions for which the scopes do not matter. -/
private theorem coincides_still (result : Except Halt α) (printed : List String) (h : fresh ⊆ known) :
    Coincides known fresh (fun scopes => ⟨result, scopes, printed⟩ : Action α) where
  grows := Chain.Grows.refl
  outcomes hchains :=
    ⟨rfl, rfl, hchains.parallel, fun _ hagrees => hagrees, fun _ _ name hname => hchains.shares name (h hname)⟩

private theorem coincides_asking (name : Token) (room : Nat) : (asking name room).Coincides known ∅ where
  grows := respected_grows.still (n := 0) (keeps_asking name room)
  outcomes {first second} hchains := by
    unfold asking
    rw [hchains.parallel.asked_eq]
    exact ⟨rfl, rfl, hchains.parallel, fun _ hagrees => hagrees, by simp⟩

private theorem coincides_lookup {name : Token} (hname : name.lexeme ∈ known) : (lookup name).Coincides known ∅ where
  grows := respected_grows.still (n := 0) (keeps_lookup name)
  outcomes {first second} hchains := by
    unfold lookup
    rw [Chain.get?_eq_of_sharesAt hchains.parallel (hchains.shares _ hname)]
    split
    · exact ⟨rfl, rfl, hchains.parallel, fun _ hagrees => hagrees, by simp⟩
    · exact ⟨rfl, rfl, hchains.parallel, fun _ hagrees => hagrees, by simp⟩

private theorem coincides_assign {name : Token} (hname : name.lexeme ∈ known) (value : Value) :
    (assign name value).Coincides known ∅ where
  grows := respected_grows.assigning (n := 0) name value
  outcomes {first second} hchains := by
    unfold assign
    rcases Chain.assign?_of_sharesAt value hchains.parallel (hchains.shares _ hname) with
      ⟨hnone, hnone'⟩ | ⟨next, next', hnext, hnext', hparallel, hagrees⟩
    · rw [hnone, hnone']
      exact ⟨rfl, rfl, hchains.parallel, fun _ hagrees => hagrees, by simp⟩
    · rw [hnext, hnext']
      exact ⟨rfl, rfl, hparallel, hagrees, by simp⟩

private theorem coincides_define (name : Token) (value : Value) :
    (define name value).Coincides known {name.lexeme} where
  grows := respected_grows.defining (n := 0) name value
  outcomes {first second} hchains := by
    obtain ⟨hparallel, hagrees, hshares⟩ := hchains.parallel.define name.lexeme value
    refine ⟨rfl, rfl, hparallel, hagrees, fun _ _ other hother => ?_⟩
    rw [Finset.mem_singleton.1 hother]
    exact hshares

private theorem Coincides.bind {between : Finset String} {action : Action α} {f : α → Action β}
    (h : action.Coincides known fresh) (hbetween : between ⊆ known ∪ fresh)
    (hf : ∀ a, (f a).Coincides between fresh') : (action >>= f).Coincides known fresh' where
  grows := respected_grows.bind (n := 0) h.grows fun a => (hf a).grows
  outcomes {first second} hchains := by
    have houtcomes := h.outcomes hchains
    cases hresult : (action first).result with
    | ok a =>
      have hnext := (hf a).outcomes ((h.alike_fresh hchains hresult).mono hbetween)
      rw [bind_of_ok hresult, bind_of_ok (houtcomes.result ▸ hresult)]
      refine ⟨hnext.result, ?_, hnext.parallel, fun name hagrees => ?_, hnext.shares⟩
      · show _ ++ _ = _ ++ _
        rw [houtcomes.printed, hnext.printed]
      · exact hnext.agrees name (houtcomes.agrees name hagrees)
    | error reason =>
      rw [bind_of_error hresult, bind_of_error (houtcomes.result ▸ hresult)]
      exact ⟨rfl, houtcomes.printed, houtcomes.parallel, houtcomes.agrees, by simp⟩

private theorem Coincides.andThen {action : Action α} {f : α → Action β} (h : action.Coincides known fresh)
    (hf : ∀ a, (f a).Coincides known fresh') : (action >>= f).Coincides known fresh' :=
  h.bind Finset.subset_union_left hf

/-- What a scope of its own binds is gone when it is closed. -/
private theorem Coincides.inScope {action : Action α} (h : action.Coincides known fresh) :
    (inScope action).Coincides known ∅ where
  grows := respected_grows.inScope (n := 0) h.grows
  outcomes {first second} hchains := by
    have houtcomes := h.outcomes hchains.push
    refine ⟨houtcomes.result, houtcomes.printed, houtcomes.parallel.pop, fun name hagrees => ?_, by simp⟩
    have hinner := houtcomes.agrees name hagrees
    rw [Chain.AgreesAt] at hinner ⊢
    simpa only [Action.inScope, Chain.globals_pop] using hinner

end Action

/-! ### Running -/

section

variable {known declared : Finset String}

private theorem Expr.eval_coincides {e : Expr} (h : e.used.toFinset ⊆ known) (room : Nat) :
    (e.eval room).Coincides known ∅ := by
  have hempty : ∅ ⊆ known := Finset.empty_subset known
  induction e generalizing room with
  | literal value => exact (coincides_still _ [] hempty).andThen fun _ => coincides_still _ [] hempty
  | var name =>
    have hname : name.lexeme ∈ known := h (by simp [used])
    refine (coincides_still _ [] hempty).andThen fun _ => ?_
    exact (coincides_asking name _).andThen fun _ => coincides_lookup hname
  | assign name value ih =>
    simp only [used, List.toFinset_cons, Finset.insert_subset_iff] at h
    refine (coincides_still _ [] hempty).andThen fun _ => (ih h.2 _).andThen fun v => ?_
    refine (coincides_asking name _).andThen fun _ => ?_
    exact (coincides_assign h.1 v).andThen fun _ => coincides_still _ [] hempty
  | unary operator operand ih =>
    exact (coincides_still _ [] hempty).andThen fun _ => (ih h _).andThen fun _ => coincides_still _ [] hempty
  | binary left operator right ihleft ihright =>
    simp only [used, List.toFinset_append, Finset.union_subset_iff] at h
    refine (coincides_still _ [] hempty).andThen fun _ => (ihleft h.1 _).andThen fun _ => ?_
    exact (ihright h.2 _).andThen fun _ => coincides_still _ [] hempty
  | grouping inner ih => exact (coincides_still _ [] hempty).andThen fun _ => ih h _
  | misplaced found => exact coincides_still _ [] hempty

/-- The names of an expression are known if those that stand free in it are. -/
private theorem Expr.used_subset {e : Expr} (hdeclared : declared ⊆ known) (h : e.used.toFinset \ declared ⊆ known) :
    e.used.toFinset ⊆ known := by
  intro name hname
  by_cases hin : name ∈ declared
  · exact hdeclared hin
  · exact h (Finset.mem_sdiff.2 ⟨hname, hin⟩)

end

namespace Stmt

mutual

theorem exec_coincides : ∀ (s : Stmt) (room : Nat) {known declared : Finset String}, declared ⊆ known →
    s.free Expr.used declared ⊆ known → (s.exec room).Coincides known (declaredNames [s])
  | .expression e, room, known, declared, hdeclared, h => by
    rw [free] at h
    rw [exec]
    exact Expr.eval_coincides (Expr.used_subset hdeclared h) room
  | .print e, room, known, declared, hdeclared, h => by
    rw [free] at h
    rw [exec]
    refine (Expr.eval_coincides (Expr.used_subset hdeclared h) room).andThen fun v => ?_
    refine Coincides.andThen (coincides_still _ _ (Finset.empty_subset known)) fun _ => ?_
    exact coincides_still _ [] (Finset.empty_subset known)
  | .declare name none, room, known, declared, hdeclared, h => by
    rw [exec]
    exact (coincides_define name .nil).bind subset_rfl fun _ => coincides_still _ [] Finset.subset_union_right
  | .declare name (some e), room, known, declared, hdeclared, h => by
    rw [free] at h
    rw [exec]
    refine (Expr.eval_coincides (Expr.used_subset hdeclared h) room).andThen fun v => ?_
    exact (coincides_define name v).bind subset_rfl fun _ => coincides_still _ [] Finset.subset_union_right
  | .block body, room, known, declared, hdeclared, h => by
    rw [free] at h
    rw [exec]
    refine Coincides.andThen (coincides_still _ [] (Finset.empty_subset known)) fun left => ?_
    refine (execBody_coincides body left hdeclared h).inScope.andThen fun _ => ?_
    exact coincides_still _ [] (Finset.empty_subset known)
  | .skipped, room, known, declared, hdeclared, h => by
    rw [exec]
    exact coincides_still _ [] (Finset.empty_subset known)
  | .misplaced found, room, known, declared, hdeclared, h => by
    rw [exec]
    exact coincides_still _ [] (Finset.empty_subset known)

private theorem execBody_coincides : ∀ (ss : List Stmt) (room : Nat) {known declared : Finset String},
    declared ⊆ known → freeIn Expr.used declared ss ⊆ known → (execBody ss room).Coincides known ∅
  | [], room, known, declared, hdeclared, h => by
    rw [execBody]
    exact coincides_still _ [] (Finset.empty_subset known)
  | s :: later, room, known, declared, hdeclared, h => by
    rw [freeIn, Finset.union_subset_iff] at h
    rw [execBody]
    refine (exec_coincides s room hdeclared h.1).bind subset_rfl fun _ => ?_
    exact execBody_coincides later room (Finset.union_subset_union_left hdeclared)
      (h.2.trans Finset.subset_union_left)

end

end Stmt

/-- Two runs of a program.  The names that it has declared at the end are those of the statements that were
completed. -/
private theorem runStatements_coincide (room : Nat) (program : List Stmt) {known declared : Finset String}
    (hdeclared : declared ⊆ known) (h : Stmt.freeIn Expr.used declared program ⊆ known) {first second : Chain}
    (hchains : first.Alike known second) :
    let run := runStatements room program first
    let run' := runStatements room program second
    run.values = run'.values ∧ run.halt = run'.halt ∧ run.printed = run'.printed ∧
      run.scopes.Alike (known ∪ declaredNames (program.take run.values.length)) run'.scopes := by
  induction program generalizing known declared first second with
  | nil => exact ⟨rfl, rfl, rfl, hchains.mono (Finset.union_subset subset_rfl (Finset.empty_subset known))⟩
  | cons s later ih =>
    rw [Stmt.freeIn, Finset.union_subset_iff] at h
    have hstep := s.exec_coincides room hdeclared h.1
    have houtcomes := hstep.outcomes hchains
    rw [runStatements, runStatements, ← houtcomes.result, ← houtcomes.printed]
    cases hresult : (s.exec room first).result with
    | ok value =>
      obtain ⟨hvalues, hhalt, hprinted, hlater⟩ := ih (Finset.union_subset_union_left hdeclared)
        (h.2.trans Finset.subset_union_left) (hstep.alike_fresh hchains hresult)
      refine ⟨congrArg (value :: ·) hvalues, hhalt, congrArg (_ ++ ·) hprinted, ?_⟩
      simp only [List.length_cons, List.take_succ_cons]
      rw [declaredNames_cons s (later.take _), ← Finset.union_assoc]
      exact hlater
    | error reason =>
      refine ⟨rfl, rfl, rfl, (hstep.alike hchains).mono ?_⟩
      exact Finset.union_subset subset_rfl (Finset.empty_subset known)

/-- Two sessions at global scope, whose global scopes agree on the names that stand free in a program: the program has
the same results in both, prints the same lines and reports the same error or none.  Afterwards both are at global scope
again, and agree on these names and on those of the declarations that were completed. -/
theorem Session.interpret_depends_on_free_names (program : List Stmt) (flags flags' : Flags) (globals globals' : Scope)
    (h : ∀ name ∈ Stmt.freeIn Expr.used ∅ program, globals.get? name = globals'.get? name) :
    let next := Session.interpret ⟨flags, .global globals⟩ program
    let next' := Session.interpret ⟨flags', .global globals'⟩ program
    let completed := program.take (runProgram program (.global globals)).values.length
    next.2 = next'.2 ∧ ∃ after after', next.1.scopes = .global after ∧ next'.1.scopes = .global after' ∧
      ∀ name ∈ Stmt.freeIn Expr.used ∅ program ∪ declaredNames completed, after.get? name = after'.get? name := by
  intro next next' completed
  have hchains : (Chain.global globals).Alike (Stmt.freeIn Expr.used ∅ program) (.global globals') :=
    ⟨.global _ _, fun name hname => Chain.sharesAt_global_iff.2 (h name hname)⟩
  obtain ⟨hvalues, hhalt, hprinted, halike⟩ :=
    runStatements_coincide runningRoom program (Finset.empty_subset _) subset_rfl hchains
  refine ⟨?_, ?_⟩
  · simp only [next, next', Session.interpret, runProgram]
    rw [hvalues, hhalt, hprinted]
    split <;> rfl
  · have hscopes : next.1.scopes = (runProgram program (.global globals)).scopes := Session.interpret_scopes _ _
    have hscopes' : next'.1.scopes = (runProgram program (.global globals')).scopes := Session.interpret_scopes _ _
    rw [hscopes, hscopes']
    exact halike.globals_eq (runStatements_outer_names runningRoom program (.global globals))

/-- The program `var a = b; { var c = a; print c; b = c; } print d;`, which fails at its last statement, in two sessions
that agree on `b` and `d`, of which `d` is unbound in both. -/
theorem Session.interpret_depends_on_free_names_failing :
    let name (lexeme : String) : Token := ⟨.identifier, lexeme, .nil, 1⟩
    let program : List Stmt := [.declare (name "a") (some (.var (name "b"))),
      .block [.declare (name "c") (some (.var (name "a"))), .print (.var (name "c")),
        .expression (.assign (name "b") (.var (name "c")))],
      .print (.var (name "d"))]
    let globals : Scope := ⟨[("b", .str "x"), ("c", .bool true)]⟩
    let globals' : Scope := ⟨[("a", .nil), ("b", .str "x")]⟩
    let next := Session.interpret ⟨.clear, .global globals⟩ program
    let next' := Session.interpret ⟨.clear, .global globals'⟩ program
    Stmt.freeIn Expr.used ∅ program = {"b", "d"} ∧ next.2.printed = ["x"] ∧ next.2 = next'.2 ∧
      next.1.scopes.globals.get? "a" = next'.1.scopes.globals.get? "a" := by
  intro name program globals globals' next next'
  have hfree : Stmt.freeIn Expr.used ∅ program = {"b", "d"} := by decide
  have hagree : ∀ name ∈ Stmt.freeIn Expr.used ∅ program, globals.get? name = globals'.get? name := by
    rw [hfree]
    decide
  obtain ⟨hreply, after, after', hafter, hafter', hnames⟩ :=
    Session.interpret_depends_on_free_names program .clear .clear globals globals' hagree
  have hcompleted : (runProgram program (.global globals)).values.length = 2 := by decide +kernel
  refine ⟨hfree, by decide +kernel, hreply, ?_⟩
  rw [hafter, hafter']
  apply hnames
  rw [hcompleted]
  decide

end Treewalk
