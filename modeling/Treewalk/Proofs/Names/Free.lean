import Treewalk.Proofs.Names.Declared

/-!
# Free names and what a block writes to

A name is free where it stands if no declaration in front of it, in a scope that is still open, has bound it.  Which
names are free can be told without running.  A block writes only to outer variables that it assigns to where their names
are free, and of these only to the nearest one.

The argument follows one name.  As long as the block has not declared it, it does not assign to it; once it has declared
it, all assignments end in a scope of the block.

* `Stmt.free`, `Stmt.freeIn`: the free names of a statement and of a list of statements.
* `Respected`: a relation between chains of scopes that every primitive of running respects.
* `Stmt.exec_respects`: running statements respects it then.
* `Stmt.exec_spares`: the name is not assigned to before it is declared.
* `block_writes_free_names`: the scopes after a block, however it ends.
-/

namespace Treewalk

open Treewalk.Action

/-! ### Free names -/

namespace Stmt

mutual

/-- The names that stand free in a statement, among the names that `names` collects from its expressions.  The names in
`declared` have been declared in scopes that are open. -/
def free (names : Expr → List String) (declared : Finset String) : Stmt → Finset String
  | .expression e => (names e).toFinset \ declared
  | .print e => (names e).toFinset \ declared
  | .declare _ none => ∅
  | .declare _ (some e) => (names e).toFinset \ declared
  | .block body => freeIn names declared body
  | .skipped => ∅
  | .misplaced _ => ∅

/-- The names that stand free in a list of statements: what one of them declares is declared for those behind it. -/
def freeIn (names : Expr → List String) (declared : Finset String) : List Stmt → Finset String
  | [] => ∅
  | s :: later => s.free names declared ∪ freeIn names (declared ∪ declaredNames [s]) later

end

end Stmt

/-! ### What everything respects -/

/-- However the action ends, the scopes before and after it are related. -/
def Action.Moves {α : Type} (R : Chain → Chain → Prop) (action : Action α) : Prop :=
  ∀ scopes, R scopes (action scopes).scopes

/-- A relation between chains of scopes that every primitive of running respects.  It may depend on how many of the
innermost scopes have been opened since some point; a declaration is made in one of these. -/
structure Respected (R : Nat → Chain → Chain → Prop) : Prop where
  refl : ∀ depth scopes, R depth scopes scopes
  trans : ∀ {depth first second third}, R depth first second → R depth second third → R depth first third
  assign : ∀ {depth scopes next name value}, scopes.assign? name value = some next → R depth scopes next
  define : ∀ depth scopes name value, R (depth + 1) scopes (scopes.define name value)
  pop : ∀ {depth scopes inner}, R (depth + 1) scopes.push inner → R depth scopes inner.pop

namespace Respected

variable {α β : Type} {R : Nat → Chain → Chain → Prop} {n : Nat}

/-- Actions that leave the scopes alone. -/
theorem still (hR : Respected R) {action : Action α} (h : action.Keeps id) : action.Moves (R n) := by
  intro scopes
  have hscopes : (action scopes).scopes = scopes := h scopes
  rw [hscopes]
  exact hR.refl n scopes

theorem bind (hR : Respected R) {action : Action α} {f : α → Action β} (h : action.Moves (R n))
    (hf : ∀ a, (f a).Moves (R n)) : (action >>= f).Moves (R n) := by
  intro scopes
  cases hresult : (action scopes).result with
  | ok a =>
    rw [bind_of_ok hresult]
    exact hR.trans (h scopes) (hf a _)
  | error reason =>
    rw [bind_of_error hresult]
    exact h scopes

theorem assigning (hR : Respected R) (name : Token) (value : Value) :
    (Action.assign name value).Moves (R n) := by
  intro scopes
  unfold Action.assign
  split
  · next next hnext => exact hR.assign hnext
  · exact hR.refl n scopes

theorem defining (hR : Respected R) (name : Token) (value : Value) :
    (Action.define name value).Moves (R (n + 1)) :=
  fun scopes => hR.define n scopes name.lexeme value

theorem inScope (hR : Respected R) {action : Action α} (h : action.Moves (R (n + 1))) :
    (Action.inScope action).Moves (R n) :=
  fun scopes => hR.pop (h scopes.push)

end Respected

section

variable {R : Nat → Chain → Chain → Prop}

private theorem Expr.eval_respects (hR : Respected R) (depth : Nat) (e : Expr) (room : Nat) :
    (e.eval room).Moves (R depth) := by
  induction e generalizing room with
  | literal value => exact hR.bind (hR.still (keeps_spending _ _)) fun _ => hR.still (keeps_pure value)
  | var name =>
    refine hR.bind (hR.still (keeps_spending _ _)) fun _ => ?_
    exact hR.bind (hR.still (keeps_asking name _)) fun _ => hR.still (keeps_lookup name)
  | assign name value ih =>
    refine hR.bind (hR.still (keeps_spending _ _)) fun _ => hR.bind (ih _) fun v => ?_
    refine hR.bind (hR.still (keeps_asking name _)) fun _ => ?_
    exact hR.bind (hR.assigning name v) fun _ => hR.still (keeps_pure v)
  | unary operator operand ih =>
    refine hR.bind (hR.still (keeps_spending _ _)) fun _ => hR.bind (ih _) fun _ => ?_
    exact hR.still (keeps_ofResult _)
  | binary left operator right ihleft ihright =>
    refine hR.bind (hR.still (keeps_spending _ _)) fun _ => hR.bind (ihleft _) fun _ => ?_
    exact hR.bind (ihright _) fun _ => hR.still (keeps_ofResult _)
  | grouping inner ih => exact hR.bind (hR.still (keeps_spending _ _)) fun _ => ih _
  | misplaced found => exact hR.still (keeps_halt _)

namespace Stmt

mutual

theorem exec_respects (hR : Respected R) : ∀ (depth : Nat) (s : Stmt) (room : Nat),
    (s.exec room).Moves (R (depth + 1))
  | depth, .expression e, room => by
    rw [exec]
    exact e.eval_respects hR (depth + 1) room
  | depth, .print e, room => by
    rw [exec]
    refine hR.bind (e.eval_respects hR (depth + 1) room) fun v => ?_
    exact hR.bind (hR.still (keeps_print _)) fun _ => hR.still (keeps_pure v)
  | depth, .declare name none, room => by
    rw [exec]
    exact hR.bind (hR.defining name .nil) fun _ => hR.still (keeps_pure _)
  | depth, .declare name (some e), room => by
    rw [exec]
    refine hR.bind (e.eval_respects hR (depth + 1) room) fun v => ?_
    exact hR.bind (hR.defining name v) fun _ => hR.still (keeps_pure _)
  | depth, .block body, room => exec_block_respects hR (depth + 1) body room
  | depth, .skipped, room => by
    rw [exec]
    exact hR.still (keeps_pure _)
  | depth, .misplaced found, room => by
    rw [exec]
    exact hR.still (keeps_halt _)

/-- A block makes its declarations in a scope of its own, so that there need not be any other that has been opened. -/
private theorem exec_block_respects (hR : Respected R) : ∀ (depth : Nat) (body : List Stmt) (room : Nat),
    ((Stmt.block body).exec room).Moves (R depth)
  | depth, body, room => by
    rw [exec]
    refine hR.bind (hR.still (keeps_spending _ _)) fun left => ?_
    exact hR.bind (hR.inScope (execBody_respects hR depth body left)) fun _ => hR.still (keeps_pure _)

private theorem execBody_respects (hR : Respected R) : ∀ (depth : Nat) (ss : List Stmt) (room : Nat),
    (execBody ss room).Moves (R (depth + 1))
  | _, [], room => by
    rw [execBody]
    exact hR.still (keeps_pure ())
  | depth, s :: later, room => by
    rw [execBody]
    exact hR.bind (exec_respects hR depth s room) fun _ => execBody_respects hR depth later room

end

end Stmt

end

/-! ### The nearest scope -/

/-- Two columns of values, of which the second is the first one with another value in the first place that has any. -/
inductive NearestChanged : List (Option Value) → List (Option Value) → Prop where
  | refl (column : List (Option Value)) : NearestChanged column column
  | here (v w : Value) (outer : List (Option Value)) : NearestChanged (some v :: outer) (some w :: outer)
  | inside {column column' : List (Option Value)} (h : NearestChanged column column') :
      NearestChanged (none :: column) (none :: column')

namespace NearestChanged

variable {first second third : List (Option Value)}

private theorem trans (h : NearestChanged first second) (h' : NearestChanged second third) :
    NearestChanged first third := by
  induction h generalizing third with
  | refl => exact h'
  | here v w outer =>
    cases h' with
    | refl => exact .here v w outer
    | here _ w' _ => exact .here v w' outer
  | @inside column column' h ih =>
    cases h' with
    | refl => exact .inside h
    | inside h' => exact .inside (ih h')

private theorem drop (h : NearestChanged first second) (n : Nat) : NearestChanged (first.drop n) (second.drop n) := by
  induction h generalizing n with
  | refl => exact .refl _
  | here v w outer =>
    cases n with
    | zero => exact .here v w outer
    | succ n => exact .refl _
  | inside h ih =>
    cases n with
    | zero => exact .inside h
    | succ n => exact ih n

private theorem length_eq (h : NearestChanged first second) : second.length = first.length := by
  induction h with
  | refl | here => rfl
  | inside _ ih => simp only [List.length_cons, ih]

end NearestChanged

namespace Chain

variable {name : String}

private theorem nearestChanged_assign? {chain next : Chain} {target : String} {value : Value}
    (h : chain.assign? target value = some next) : NearestChanged (chain.column name) (next.column name) := by
  by_cases hname : name = target
  · subst hname
    have hhere : ∀ (scope : Scope) (outer : List (Option Value)), scope.binds name = true →
        NearestChanged (scope.get? name :: outer) ((scope.insert name value).get? name :: outer) := by
      intro scope outer hbound
      obtain ⟨v, hv⟩ := Option.isSome_iff_exists.1 hbound
      rw [hv, Scope.get?_insert, if_pos rfl]
      exact .here v value outer
    induction chain generalizing next with
    | global scope =>
      unfold assign? at h
      split at h
      · next hbound =>
        obtain rfl := Option.some.inj h
        exact hhere scope [] hbound
      · cases h
    | nested scope outer ih =>
      unfold assign? at h
      split at h
      · next hbound =>
        obtain rfl := Option.some.inj h
        exact hhere scope (outer.column name) hbound
      · next hfree =>
        obtain ⟨outer', houter, rfl⟩ := Option.map_eq_some_iff.1 h
        have hnone : scope.get? name = none := by simpa [Scope.binds] using hfree
        rw [column, column, hnone]
        exact .inside (ih houter)
  · rw [column_assign? hname h]
    exact .refl _

/-- What the scopes bind to a name, without the `depth` innermost ones. -/
def outside (name : String) (depth : Nat) (chain : Chain) : List (Option Value) :=
  (chain.column name).drop depth

private theorem outside_define (chain : Chain) (target : String) (value : Value) (depth : Nat) :
    (chain.define target value).outside name (depth + 1) = chain.outside name (depth + 1) := by
  cases chain <;> rfl

/-- Closing a scope that was opened before: one scope less is among the innermost ones. -/
private theorem outside_pop {chain inner : Chain} {depth : Nat}
    (h : (inner.outside name (depth + 1)).length = (chain.push.outside name (depth + 1)).length) :
    inner.pop.outside name depth = inner.outside name (depth + 1) := by
  cases inner with
  | nested scope outer => rfl
  | global scope =>
    -- no scope has been closed too many
    have hpos := List.length_pos_iff.2 (chain.column_ne_nil name)
    simp only [outside, column, push, List.drop_succ_cons, List.drop_nil, List.length_nil, List.length_drop] at h
    cases depth with
    | zero => omega
    | succ depth => simp [outside, pop, column]

end Chain

private theorem respected_nearestChanged (name : String) : Respected fun depth first second =>
    NearestChanged (first.outside name depth) (second.outside name depth) where
  refl _ _ := .refl _
  trans := NearestChanged.trans
  assign h := (Chain.nearestChanged_assign? h).drop _
  define depth scopes target value := by
    rw [Chain.outside_define]
    exact .refl _
  pop h := by
    rw [Chain.outside_pop h.length_eq]
    exact h

/-! ### Names that are bound -/

/-- The outer scopes bind the same names in both chains; the current one may bind more in the second. -/
structure Chain.Grows (first second : Chain) : Prop where
  outer : second.outerNames = first.outerNames
  current : first.current.names ⊆ second.current.names

namespace Chain

variable {chain next : Chain}

theorem Grows.refl (chain : Chain) : chain.Grows chain := ⟨rfl, Finset.Subset.refl _⟩

private theorem Grows.trans {first second third : Chain} (h : first.Grows second) (h' : second.Grows third) :
    first.Grows third :=
  ⟨h'.outer.trans h.outer, h.current.trans h'.current⟩

private theorem Grows.of_names_eq (h : next.names = chain.names) : chain.Grows next := by
  rw [names_eq_cons, names_eq_cons] at h
  obtain ⟨hcurrent, houter⟩ := List.cons.inj h
  exact ⟨houter, hcurrent.ge⟩

private theorem grows_define (chain : Chain) (target : String) (value : Value) :
    chain.Grows (chain.define target value) := by
  refine ⟨chain.outerNames_define target value, ?_⟩
  rw [current_names_define]
  exact Finset.subset_union_left

end Chain

theorem respected_grows : Respected fun _ => Chain.Grows where
  refl _ scopes := .refl scopes
  trans := .trans
  assign h := .of_names_eq (Chain.names_assign? h)
  define _ scopes target value := scopes.grows_define target value
  pop h := .of_names_eq (Chain.names_pop h.outer)

/-! ### Shadowed names -/

/-- One of the `depth` innermost scopes binds the name. -/
def Chain.Shadows (name : String) (depth : Nat) (chain : Chain) : Prop :=
  ∃ names ∈ chain.names.take depth, name ∈ names

namespace Chain

variable {name : String} {depth : Nat} {chain next : Chain}

theorem shadows_succ_of_mem (h : name ∈ chain.current.names) : chain.Shadows name (depth + 1) := by
  refine ⟨chain.current.names, ?_, h⟩
  rw [names_eq_cons, List.take_succ_cons]
  exact List.mem_cons_self

theorem Shadows.push (h : chain.Shadows name depth) : chain.push.Shadows name (depth + 1) := by
  obtain ⟨names, hmem, hname⟩ := h
  exact ⟨names, List.mem_cons_of_mem _ hmem, hname⟩

theorem Shadows.grows (h : chain.Shadows name depth) (hnext : chain.Grows next) : next.Shadows name depth := by
  obtain ⟨names, hmem, hname⟩ := h
  cases depth with
  | zero => simp at hmem
  | succ depth =>
    rw [names_eq_cons, List.take_succ_cons] at hmem
    rcases List.mem_cons.1 hmem with rfl | hmem
    · exact shadows_succ_of_mem (hnext.current hname)
    · refine ⟨names, ?_, hname⟩
      rw [names_eq_cons, List.take_succ_cons, hnext.outer]
      exact List.mem_cons_of_mem _ hmem

/-- An assignment to a shadowed name ends in one of the innermost scopes. -/
private theorem Shadows.outside_assign? (h : chain.Shadows name depth) {target : String} {value : Value}
    (hnext : chain.assign? target value = some next) :
    next.outside name depth = chain.outside name depth := by
  by_cases hname : name = target
  · subst hname
    induction chain generalizing depth next with
    | global scope =>
      cases depth with
      | zero => simp [Shadows] at h
      | succ depth =>
        unfold assign? at hnext
        split at hnext
        · obtain rfl := Option.some.inj hnext
          simp [outside, column]
        · cases hnext
    | nested scope outer ih =>
      cases depth with
      | zero => simp [Shadows] at h
      | succ depth =>
        unfold assign? at hnext
        split at hnext
        · obtain rfl := Option.some.inj hnext
          rfl
        · next hfree =>
          obtain ⟨outer', houter, rfl⟩ := Option.map_eq_some_iff.1 hnext
          obtain ⟨names, hmem, hbound⟩ := h
          rcases List.mem_cons.1 hmem with rfl | hmem
          · exact absurd (Scope.mem_names.1 hbound) hfree
          · exact ih ⟨names, hmem, hbound⟩ houter
  · rw [outside, outside, column_assign? hname hnext]

end Chain

/-- A shadowed name keeps the values that it has further out, and stays shadowed. -/
private theorem respected_shadowed (name : String) : Respected fun depth first second =>
    first.Grows second ∧ (first.Shadows name depth → second.outside name depth = first.outside name depth) where
  refl _ scopes := ⟨.refl scopes, fun _ => rfl⟩
  trans := by
    rintro depth first second third ⟨hgrows, houtside⟩ ⟨hgrows', houtside'⟩
    refine ⟨hgrows.trans hgrows', fun h => ?_⟩
    rw [houtside' (h.grows hgrows), houtside h]
  assign h := ⟨.of_names_eq (Chain.names_assign? h), fun hshadows => hshadows.outside_assign? h⟩
  define depth scopes target value :=
    ⟨scopes.grows_define target value, fun _ => scopes.outside_define target value depth⟩
  pop h := by
    refine ⟨.of_names_eq (Chain.names_pop h.1.outer), fun hshadows => ?_⟩
    have hinner := h.2 hshadows.push
    exact (Chain.outside_pop (congrArg List.length hinner)).trans hinner

/-! ### Names that are not assigned to -/

namespace Action

variable {α : Type} {name : String} {depth : Nat}

private theorem keeps_outside_define (target : Token) (value : Value) :
    (define target value).Keeps (Chain.outside name (depth + 1)) :=
  fun scopes => scopes.outside_define target.lexeme value depth

private theorem Keeps.outside {action : Action α} (h : action.Keeps (Chain.column name)) :
    action.Keeps (Chain.outside name depth) :=
  fun scopes => congrArg (List.drop depth) (h scopes)

private theorem Keeps.outside_inScope {action : Action α} (h : action.Keeps (Chain.outside name (depth + 1))) :
    (Action.inScope action).Keeps (Chain.outside name depth) := by
  intro scopes
  have hpush := h scopes.push
  exact (Chain.outside_pop (congrArg List.length hpush)).trans hpush

end Action

namespace Stmt

variable {name : String}

/-- A name that has been declared is shadowed. -/
private theorem shadows_of_declared {s : Stmt} {room : Nat} {scopes : Chain} {v : Value} (depth : Nat)
    (h : name ∈ declaredNames [s]) (hresult : (s.exec room scopes).result = .ok v) :
    (s.exec room scopes).scopes.Shadows name (depth + 1) := by
  have hnames := s.exec_current_names room scopes
  rw [hresult] at hnames
  apply Chain.shadows_succ_of_mem
  rw [hnames]
  exact Finset.mem_union_right _ h

private theorem execBody_shadowed {depth : Nat} (ss : List Stmt) (room : Nat) {scopes : Chain}
    (h : scopes.Shadows name (depth + 1)) :
    (execBody ss room scopes).scopes.outside name (depth + 1) = scopes.outside name (depth + 1) :=
  (execBody_respects (respected_shadowed name) depth ss room scopes).2 h

mutual

/-- A name that does not stand free as the name of an assignment has the same values, outside of the scopes that have
been opened. -/
theorem exec_spares : ∀ (depth : Nat) (s : Stmt) (room : Nat) {declared : Finset String}, name ∉ declared →
    name ∉ s.free Expr.written declared → (s.exec room).Keeps (Chain.outside name (depth + 1))
  | depth, .expression e, room, declared, hname, h => by
    have hwritten : name ∉ e.written := by simpa [free, hname] using h
    rw [exec]
    exact (Expr.eval_column hwritten room).outside
  | depth, .print e, room, declared, hname, h => by
    have hwritten : name ∉ e.written := by simpa [free, hname] using h
    rw [exec]
    refine Keeps.bind (Expr.eval_column hwritten room).outside fun v => ?_
    exact Keeps.bind (keeps_print _) fun _ => keeps_pure v
  | depth, .declare target none, room, declared, hname, h => by
    rw [exec]
    exact Keeps.bind (keeps_outside_define target .nil) fun _ => keeps_pure _
  | depth, .declare target (some e), room, declared, hname, h => by
    have hwritten : name ∉ e.written := by simpa [free, hname] using h
    rw [exec]
    refine Keeps.bind (Expr.eval_column hwritten room).outside fun v => ?_
    exact Keeps.bind (keeps_outside_define target v) fun _ => keeps_pure _
  | depth, .block body, room, declared, hname, h => exec_block_spares (depth + 1) body room hname h
  | depth, .skipped, room, declared, hname, h => by
    rw [exec]
    exact keeps_pure _
  | depth, .misplaced found, room, declared, hname, h => by
    rw [exec]
    exact keeps_halt _

private theorem exec_block_spares : ∀ (depth : Nat) (body : List Stmt) (room : Nat) {declared : Finset String},
    name ∉ declared → name ∉ (Stmt.block body).free Expr.written declared →
    ((Stmt.block body).exec room).Keeps (Chain.outside name depth)
  | depth, body, room, declared, hname, h => by
    rw [free] at h
    rw [exec]
    refine Keeps.bind (keeps_spending _ _) fun left => ?_
    exact Keeps.bind (execBody_spares depth body left hname h).outside_inScope fun _ => keeps_pure _

private theorem execBody_spares : ∀ (depth : Nat) (ss : List Stmt) (room : Nat) {declared : Finset String},
    name ∉ declared → name ∉ freeIn Expr.written declared ss →
    (execBody ss room).Keeps (Chain.outside name (depth + 1))
  | depth, [], room, declared, hname, h => by
    rw [execBody]
    exact keeps_pure ()
  | depth, s :: later, room, declared, hname, h => by
    rw [freeIn, Finset.mem_union, not_or] at h
    obtain ⟨hs, hlater⟩ := h
    have hstep := exec_spares depth s room hname hs
    rw [execBody]
    by_cases hdeclared : name ∈ declaredNames [s]
    · -- from here on the name is shadowed, and it does not matter what is assigned to it
      intro scopes
      cases hresult : (s.exec room scopes).result with
      | ok v =>
        rw [bind_of_ok hresult]
        exact (execBody_shadowed later room (shadows_of_declared depth hdeclared hresult)).trans (hstep scopes)
      | error reason =>
        rw [bind_of_error hresult]
        exact hstep scopes
    · have hunion : name ∉ declared ∪ declaredNames [s] := by simp [hname, hdeclared]
      exact Keeps.bind hstep fun _ => execBody_spares depth later room hunion hlater

end

end Stmt

/-! ### Declared names -/

namespace Stmt

variable {name : String}

/-- What stands in a block behind the declaration of a name does not write to the name outside of the block. -/
private theorem execBody_append_outside (depth : Nat) (later : List Stmt) (room : Nat) {ss : List Stmt}
    (h : name ∈ declaredNames ss) (scopes : Chain) :
    (execBody (ss ++ later) room scopes).scopes.outside name (depth + 1) =
      (execBody ss room scopes).scopes.outside name (depth + 1) := by
  induction ss generalizing scopes with
  | nil => simp [declaredNames] at h
  | cons s ss ih =>
    rw [List.cons_append, execBody, execBody]
    cases hresult : (s.exec room scopes).result with
    | error reason => rw [bind_of_error hresult, bind_of_error hresult]
    | ok v =>
      rw [bind_of_ok hresult, bind_of_ok hresult]
      rw [declaredNames_cons, Finset.mem_union] at h
      rcases h with hs | hss
      · have hshadows := shadows_of_declared depth hs hresult
        rw [execBody_shadowed (ss ++ later) room hshadows, execBody_shadowed ss room hshadows]
      · exact ih hss _

private theorem exec_block_scopes (body : List Stmt) (room : Nat) (scopes : Chain) :
    ((Stmt.block body).exec room scopes).scopes =
      if blockCost ≤ room then (execBody body (room - blockCost) scopes.push).scopes.pop else scopes := by
  rw [exec]
  split
  · next hroom =>
    have hspent : (spending blockCost room scopes).result = .ok (room - blockCost) := by rw [spending_of_le hroom]
    rw [bind_of_ok hspent]
    cases hbody : (inScope (execBody body (room - blockCost)) scopes).result with
    | ok u => rw [spending_of_le hroom, bind_of_ok hbody]; rfl
    | error reason => rw [spending_of_le hroom, bind_of_error hbody]; rfl
  · next hroom =>
    have hspent : (spending blockCost room scopes).result = .error (.fault .tooDeep) := by
      rw [spending_of_not_le hroom]
    rw [bind_of_error hspent, spending_of_not_le hroom]

private theorem exec_block_append_column (later : List Stmt) (room : Nat) {ss : List Stmt} (h : name ∈ declaredNames ss)
    (scopes : Chain) :
    ((Stmt.block (ss ++ later)).exec room scopes).scopes.column name =
      ((Stmt.block ss).exec room scopes).scopes.column name := by
  rw [exec_block_scopes, exec_block_scopes]
  split
  · have hpop : ∀ body left, (execBody body left scopes.push).scopes.pop.column name =
        (execBody body left scopes.push).scopes.outside name 1 := fun body left =>
      Chain.outside_pop (execBody_respects (respected_nearestChanged name) 0 body left scopes.push).length_eq
    rw [hpop, hpop]
    exact execBody_append_outside 0 later _ h scopes.push
  · rfl

end Stmt

/-! ### Blocks -/

/-- However a block ends, a name that it does not assign to, except where one of its own declarations is in force, has
the same values in all scopes as before.  Of a name that it does assign to, only the nearest value may have changed.  In
particular a declaration in the block protects the name: what stands behind it could as well be left out. -/
theorem block_writes_free_names (body : List Stmt) (room : Nat) (scopes : Chain) (name : String) :
    let after := ((Stmt.block body).exec room scopes).scopes
    (name ∉ (Stmt.block body).free Expr.written ∅ → after.column name = scopes.column name) ∧
      NearestChanged (scopes.column name) (after.column name) ∧
      ∀ before later, body = before ++ later → name ∈ declaredNames before →
        after.column name = ((Stmt.block before).exec room scopes).scopes.column name := by
  intro after
  refine ⟨fun h => Stmt.exec_block_spares 0 body room (Finset.notMem_empty name) h scopes,
    Stmt.exec_block_respects (respected_nearestChanged name) 0 body room scopes, ?_⟩
  rintro before later rfl hdeclared
  exact Stmt.exec_block_append_column later room hdeclared scopes

/-- The block `{ b = true; var a; { a = b; var b; b = nil; } -a; }`, in a scope inside the global one.  It fails at its
last statement, after it has assigned to the global variable `b` and to two variables of its own. -/
theorem block_writes_free_names_shadowing :
    let name (lexeme : String) : Token := ⟨.identifier, lexeme, .nil, 1⟩
    let minus : Token := ⟨.minus, "-", .nil, 1⟩
    let body : List Stmt := [.expression (.assign (name "b") (.literal (.bool true))), .declare (name "a") none,
      .block [.expression (.assign (name "a") (.var (name "b"))), .declare (name "b") none,
        .expression (.assign (name "b") (.literal .nil))],
      .expression (.unary minus (.var (name "a")))]
    let scopes : Chain := .nested ⟨[("a", .str "inner")]⟩ (.global ⟨[("a", .str "outer"), ("b", .nil)]⟩)
    let outcome := (Stmt.block body).exec runningRoom scopes
    outcome.result = .error (.error (.typeMismatch minus .number)) ∧ (Stmt.block body).free Expr.written ∅ = {"b"} ∧
      outcome.scopes.column "a" = [some (.str "inner"), some (.str "outer")] ∧
      NearestChanged [none, some .nil] (outcome.scopes.column "b") ∧
      outcome.scopes.column "b" = [none, some (.bool true)] := by
  intro name minus body scopes outcome
  have hfree : (Stmt.block body).free Expr.written ∅ = {"b"} := by decide
  have ha : "a" ∉ (Stmt.block body).free Expr.written ∅ := by
    rw [hfree]
    decide
  refine ⟨by decide +kernel, hfree, (block_writes_free_names body runningRoom scopes "a").1 ha, ?_, by decide +kernel⟩
  exact (block_writes_free_names body runningRoom scopes "b").2.1

end Treewalk
