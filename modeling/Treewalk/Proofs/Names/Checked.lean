import Treewalk.Proofs.Gate
import Treewalk.Proofs.Semantics.Exact

/-!
# Undefined names are predicted

Which names are bound at a point of a program can be told without running it: by the declarations that evaluation comes
to before this point, in the scopes that are still open there.  So a check of the program tells at which name running
it must stop, unless an operator stops it before.

* `Stmt.eventsIn`: what evaluation comes to, in its order.
* `scopeCheck`: go through the events with a set of names for each open scope, up to a name that is in none of them.
* `Action.Follows`: running goes through the events, with the sets of names of its scopes, up to where it ends.  All
  that is known about running is derived from this.
* `scope_check_predicts`: the check and the run of a program.
-/

namespace Treewalk

/-! ### The order of evaluation -/

/-- What evaluation comes to. -/
inductive Event where
  /-- A name is read, or given a new value. -/
  | use (name : Token)
  | apply (operator : Token)
  | bind (name : Token)
  | enter
  | leave
deriving DecidableEq

/-- What the evaluation of an expression comes to, in this order. -/
def Expr.events : Expr → List Event
  | .literal _ => []
  | .var name => [.use name]
  | .assign name value => value.events ++ [.use name]
  | .unary operator operand => operand.events ++ [.apply operator]
  | .binary left operator right => left.events ++ (right.events ++ [.apply operator])
  | .grouping inner => inner.events
  | .misplaced _ => []

namespace Stmt

mutual

/-- What running a statement comes to, in this order. -/
def events : Stmt → List Event
  | .expression e => e.events
  | .print e => e.events
  | .declare name none => [.bind name]
  | .declare name (some e) => e.events ++ [.bind name]
  | .block body => .enter :: (eventsIn body ++ [.leave])
  | .skipped => []
  | .misplaced _ => []

/-- What running some statements comes to, in this order. -/
def eventsIn : List Stmt → List Event
  | [] => []
  | s :: later => s.events ++ eventsIn later

end

end Stmt

/-! ### The check -/

/-- The sets of names after an event, the innermost first.  It fails at the use of a name that is in none of them. -/
def Event.check (stack : List (Finset String)) : Event → Except Token (List (Finset String))
  | .use name => if ∃ names ∈ stack, name.lexeme ∈ names then .ok stack else .error name
  | .apply _ => .ok stack
  | .bind name => .ok (stack.modifyHead ({name.lexeme} ∪ ·))
  | .enter => .ok (∅ :: stack)
  | .leave => .ok stack.tail

/-- The sets of names after some events, or the name at which the check fails. -/
def scopeCheck : List (Finset String) → List Event → Except Token (List (Finset String))
  | stack, [] => .ok stack
  | stack, event :: later =>
    match event.check stack with
    | .ok next => scopeCheck next later
    | .error name => .error name

private theorem scopeCheck_append {stack next : List (Finset String)} {before : List Event}
    (h : scopeCheck stack before = .ok next) (after : List Event) :
    scopeCheck stack (before ++ after) = scopeCheck next after := by
  induction before generalizing stack with
  | nil =>
    obtain rfl : stack = next := Except.ok.inj h
    rfl
  | cons event later ih =>
    rw [List.cons_append, scopeCheck]
    rw [scopeCheck] at h
    cases hevent : event.check stack with
    | ok mid =>
      simp only [hevent] at h ⊢
      exact ih h
    | error name => simp [hevent] at h

private theorem Event.check_use {stack : List (Finset String)} {name : Token}
    (h : ∀ names ∈ stack, name.lexeme ∉ names) : (Event.use name).check stack = .error name := by
  rw [check, if_neg]
  rintro ⟨names, hmem, hname⟩
  exact h names hmem hname

private theorem scopeCheck_use {stack : List (Finset String)} {name : Token}
    (h : ¬∀ names ∈ stack, name.lexeme ∉ names) : scopeCheck stack [.use name] = .ok stack := by
  have hbound : ∃ names ∈ stack, name.lexeme ∈ names := by
    push Not at h
    exact h
  simp only [scopeCheck, Event.check, if_pos hbound]

/-- Where the check fails there is the use of the name, and the check does not fail before. -/
private theorem scopeCheck_error {stack : List (Finset String)} {events : List Event} {name : Token}
    (h : scopeCheck stack events = .error name) :
    ∃ before after, events = before ++ .use name :: after ∧ ∃ next, scopeCheck stack before = .ok next := by
  induction events generalizing stack with
  | nil => cases h
  | cons event later ih =>
    rw [scopeCheck] at h
    cases hevent : event.check stack with
    | ok mid =>
      simp only [hevent] at h
      obtain ⟨before, after, rfl, next, hnext⟩ := ih h
      exact ⟨event :: before, after, rfl, next, by simp only [scopeCheck, hevent, hnext]⟩
    | error found =>
      simp only [hevent] at h
      obtain rfl := Except.error.inj h
      -- only the use of a name can fail
      cases event with
      | use used =>
        rw [Event.check] at hevent
        split at hevent <;> cases hevent
        exact ⟨[], later, rfl, stack, rfl⟩
      | apply _ | bind _ | enter | leave => cases hevent

/-! ### Names in scopes -/

namespace Chain

private theorem get?_eq_none_iff {chain : Chain} {name : String} :
    chain.get? name = none ↔ ∀ names ∈ chain.names, name ∉ names := by
  induction chain with
  | global scope => simp [get?, names, Scope.mem_names, Scope.binds]
  | nested scope outer ih =>
    rw [names, List.forall_mem_cons, ← ih, Scope.mem_names, Scope.binds, get?]
    cases scope.get? name <;> simp

private theorem assign?_eq_none_iff {chain : Chain} {name : String} {value : Value} :
    chain.assign? name value = none ↔ ∀ names ∈ chain.names, name ∉ names := by
  induction chain with
  | global scope =>
    rw [assign?, names]
    by_cases h : scope.binds name = true <;> simp [h, Scope.mem_names]
  | nested scope outer ih =>
    rw [assign?, names, List.forall_mem_cons, Scope.mem_names]
    by_cases h : scope.binds name = true <;> simp [h, ih]

private theorem names_define (chain : Chain) (name : String) (value : Value) :
    (chain.define name value).names = chain.names.modifyHead ({name} ∪ ·) := by
  cases chain <;> simp [define, names, Scope.names_insert]

end Chain

/-! ### Running follows the events -/

/-- What running can end with in front of these events, when the sets of names are as given. -/
def Halt.StopsAt (stack : List (Finset String)) (events : List Event) : Halt → Prop
  | .error (.undefinedVariable name) => (∀ names ∈ stack, name.lexeme ∉ names) ∧ ∃ later, events = .use name :: later
  | .error (.typeMismatch operator _) => ∃ later, events = .apply operator :: later
  | .fault _ => True

/-- After the first of the events, with which the check does not fail, running ends in front of the others. -/
def Halt.EndsIn (stack : List (Finset String)) (events : List Event) (halt : Halt) : Prop :=
  ∃ before after next, events = before ++ after ∧ scopeCheck stack before = .ok next ∧ halt.StopsAt next after

private theorem Halt.EndsIn.append {stack : List (Finset String)} {events : List Event} {halt : Halt}
    (h : halt.EndsIn stack events) (more : List Event) : halt.EndsIn stack (events ++ more) := by
  obtain ⟨before, after, next, rfl, hnext, hstop⟩ := h
  refine ⟨before, after ++ more, next, List.append_assoc _ _ _, hnext, ?_⟩
  match halt, hstop with
  | .error (.undefinedVariable name), ⟨hname, later, hlater⟩ => exact ⟨hname, later ++ more, by rw [hlater]; rfl⟩
  | .error (.typeMismatch operator _), ⟨later, hlater⟩ => exact ⟨later ++ more, by rw [hlater]; rfl⟩
  | .fault _, _ => trivial

private theorem Halt.EndsIn.after {stack next : List (Finset String)} {events : List Event} {halt : Halt}
    (h : halt.EndsIn next events) {earlier : List Event} (hearlier : scopeCheck stack earlier = .ok next) :
    halt.EndsIn stack (earlier ++ events) := by
  obtain ⟨before, after, last, rfl, hlast, hstop⟩ := h
  refine ⟨earlier ++ before, after, last, (List.append_assoc _ _ _).symm, ?_, hstop⟩
  rw [scopeCheck_append hearlier, hlast]

namespace Action

variable {α β : Type}

/-- Running goes through the events, with the names of its scopes: through all of them if it has a result. -/
def Follows (events : List Event) (action : Action α) : Prop :=
  ∀ scopes, match (action scopes).result with
    | .ok _ => scopeCheck scopes.names events = .ok (action scopes).scopes.names
    | .error halt => halt.EndsIn scopes.names events

private theorem follows_pure (a : α) : (pure a : Action α).Follows [] := fun _ => rfl

private theorem follows_print (text : String) : (print text).Follows [] := fun _ => rfl

private theorem follows_fault (fault : Fault) (events : List Event) : (halt (.fault fault) : Action α).Follows events :=
  fun scopes => ⟨[], events, scopes.names, rfl, rfl, trivial⟩

private theorem follows_lookup (name : Token) : (lookup name).Follows [.use name] := by
  intro scopes
  unfold lookup
  cases hvalue : scopes.get? name.lexeme with
  | none => exact ⟨[], _, scopes.names, rfl, rfl, Chain.get?_eq_none_iff.1 hvalue, [], rfl⟩
  | some value =>
    refine scopeCheck_use fun hnone => ?_
    rw [Chain.get?_eq_none_iff.2 hnone] at hvalue
    cases hvalue

private theorem follows_assign (name : Token) (value : Value) : (assign name value).Follows [.use name] := by
  intro scopes
  unfold assign
  cases hnext : scopes.assign? name.lexeme value with
  | none => exact ⟨[], _, scopes.names, rfl, rfl, Chain.assign?_eq_none_iff.1 hnext, [], rfl⟩
  | some next =>
    have hbound : ¬∀ names ∈ scopes.names, name.lexeme ∉ names := by
      intro hnone
      rw [Chain.assign?_eq_none_iff.2 hnone] at hnext
      cases hnext
    show scopeCheck scopes.names [.use name] = .ok next.names
    rw [scopeCheck_use hbound, Chain.names_assign? hnext]

private theorem follows_define (name : Token) (value : Value) : (define name value).Follows [.bind name] := by
  intro scopes
  show scopeCheck scopes.names [.bind name] = .ok (scopes.define name.lexeme value).names
  rw [Chain.names_define]
  rfl

/-- An operator can only fail because of its operands. -/
private theorem follows_ofResult {operator : Token} {result : Except RuntimeError α}
    (h : ∀ e, result = .error e → ∃ requirement, e = .typeMismatch operator requirement) :
    (ofResult result).Follows [.apply operator] := by
  intro scopes
  cases result with
  | ok a => rfl
  | error e =>
    obtain ⟨requirement, rfl⟩ := h e rfl
    exact ⟨[], _, scopes.names, rfl, rfl, [], rfl⟩

private theorem Follows.bind {action : Action α} {f : α → Action β} {before after : List Event}
    (h : action.Follows before) (hf : ∀ a, (f a).Follows after) : (action >>= f).Follows (before ++ after) := by
  intro scopes
  have hfirst := h scopes
  cases hresult : (action scopes).result with
  | error halt =>
    rw [hresult] at hfirst
    rw [bind_of_error hresult]
    exact hfirst.append after
  | ok a =>
    rw [hresult] at hfirst
    rw [bind_of_ok hresult]
    have hsecond := hf a (action scopes).scopes
    cases hlast : (f a (action scopes).scopes).result with
    | error halt =>
      rw [hlast] at hsecond
      exact hsecond.after hfirst
    | ok b =>
      rw [hlast] at hsecond
      exact (scopeCheck_append hfirst after).trans hsecond

private theorem follows_spending {cost room : Nat} {f : Nat → Action β} {events : List Event}
    (hf : ∀ left, (f left).Follows events) : (spending cost room >>= f).Follows events := by
  intro scopes
  by_cases hcost : cost ≤ room
  · have hspent := spending_of_le hcost scopes
    rw [bind_of_ok (congrArg Outcome.result hspent), hspent]
    exact hf (room - cost) scopes
  · have hspent := spending_of_not_le hcost scopes
    rw [bind_of_error (congrArg Outcome.result hspent)]
    exact ⟨[], events, scopes.names, rfl, rfl, trivial⟩

private theorem follows_asking {name : Token} {room : Nat} {f : Nat → Action β} {events : List Event}
    (hf : ∀ left, (f left).Follows events) : (asking name room >>= f).Follows events := by
  intro scopes
  rw [asking_bind]
  exact follows_spending hf scopes

/-- A scope that is opened and closed: the names bound in it are gone. -/
private theorem Follows.inScope {action : Action α} {events : List Event} (h : action.Follows events)
    (hkeeps : action.Keeps Chain.outerNames) : (inScope action).Follows (.enter :: (events ++ [.leave])) := by
  intro scopes
  have henter : scopeCheck scopes.names [.enter] = .ok scopes.push.names := rfl
  have hinner := h scopes.push
  show match (action scopes.push).result with
    | .ok _ => scopeCheck scopes.names ([.enter] ++ (events ++ [.leave])) = .ok (action scopes.push).scopes.pop.names
    | .error halt => halt.EndsIn scopes.names ([.enter] ++ (events ++ [.leave]))
  cases hresult : (action scopes.push).result with
  | error halt =>
    rw [hresult] at hinner
    exact (hinner.append [.leave]).after henter
  | ok a =>
    rw [hresult] at hinner
    have hnames : (action scopes.push).scopes.names.tail = (action scopes.push).scopes.pop.names := by
      rw [Chain.names_pop (hkeeps scopes.push)]
      exact hkeeps scopes.push
    show scopeCheck scopes.names ([.enter] ++ (events ++ [.leave])) = _
    rw [scopeCheck_append henter, scopeCheck_append hinner, ← hnames]
    rfl

end Action

open Treewalk.Action

private theorem Expr.eval_follows (e : Expr) (room : Nat) : (e.eval room).Follows e.events := by
  induction e generalizing room with
  | literal value => exact follows_spending fun _ => follows_pure value
  | var name => exact follows_spending fun _ => follows_asking fun _ => follows_lookup name
  | assign name value ih =>
    refine follows_spending fun left => (ih left).bind fun v => follows_asking fun _ => ?_
    exact (follows_assign name v).bind fun _ => follows_pure v
  | unary operator operand ih =>
    exact follows_spending fun left => (ih left).bind fun v => follows_ofResult fun _ => applyUnary_error
  | binary left operator right ihleft ihright =>
    refine follows_spending fun room => (ihleft room).bind fun v => (ihright room).bind fun w => ?_
    exact follows_ofResult fun _ => applyBinary_error
  | grouping inner ih => exact follows_spending fun left => ih left
  | misplaced found => exact follows_fault _ _

namespace Stmt

mutual

private theorem exec_follows : ∀ (s : Stmt) (room : Nat), (s.exec room).Follows s.events
  | .expression e, room => by
    rw [exec, events]
    exact e.eval_follows room
  | .print e, room => by
    rw [exec, events, ← List.append_nil e.events]
    exact (e.eval_follows room).bind fun v => (follows_print _).bind fun _ => follows_pure v
  | .declare name none, room => by
    rw [exec, events]
    exact (follows_define name .nil).bind fun _ => follows_pure _
  | .declare name (some e), room => by
    rw [exec, events]
    exact (e.eval_follows room).bind fun v => (follows_define name v).bind fun _ => follows_pure _
  | .block body, room => by
    rw [exec, events]
    refine follows_spending fun left => ?_
    have hbody := (execBody_follows body left).inScope (execBody_outer_names body left)
    rw [← List.append_nil (Event.enter :: _)]
    exact hbody.bind fun _ => follows_pure _
  | .skipped, room => by
    rw [exec, events]
    exact follows_pure _
  | .misplaced found, room => by
    rw [exec]
    exact follows_fault _ _

private theorem execBody_follows : ∀ (ss : List Stmt) (room : Nat), (execBody ss room).Follows (eventsIn ss)
  | [], room => by
    rw [execBody, eventsIn]
    exact follows_pure ()
  | s :: later, room => by
    rw [execBody, eventsIn]
    exact (exec_follows s room).bind fun _ => execBody_follows later room

end

end Stmt

/-- A program goes through its events, up to where it is stopped. -/
private theorem runStatements_follows (room : Nat) (program : List Stmt) (scopes : Chain) :
    match (runStatements room program scopes).halt with
    | none => scopeCheck scopes.names (Stmt.eventsIn program) = .ok (runStatements room program scopes).scopes.names
    | some halt => halt.EndsIn scopes.names (Stmt.eventsIn program) := by
  induction program generalizing scopes with
  | nil => rfl
  | cons s later ih =>
    have hs := s.exec_follows room scopes
    rw [runStatements, Stmt.eventsIn]
    cases hresult : (s.exec room scopes).result with
    | error halt =>
      rw [hresult] at hs
      exact hs.append _
    | ok value =>
      rw [hresult] at hs
      have hlater := ih (s.exec room scopes).scopes
      dsimp only
      cases hhalt : (runStatements room later (s.exec room scopes).scopes).halt with
      | none =>
        rw [hhalt] at hlater
        exact (scopeCheck_append hs _).trans hlater
      | some halt =>
        rw [hhalt] at hlater
        exact hlater.after hs

/-! ### The check predicts the run -/

/-- The name is used at some point, up to which the check does not fail, and the error is that this name is not bound,
or an operator that evaluation comes to before this point cannot take its operands. -/
def RuntimeError.ExpectedAt (stack : List (Finset String)) (events : List Event) (name : Token) (e : RuntimeError) :
    Prop :=
  ∃ earlier later, events = earlier ++ .use name :: later ∧ (∃ next, scopeCheck stack earlier = .ok next) ∧
    (e = .undefinedVariable name ∨
      ∃ operator requirement, .apply operator ∈ earlier ∧ e = .typeMismatch operator requirement)

/-- After a check that does not fail, running does not end at a name. -/
private theorem Halt.EndsIn.ne_undefined {stack next : List (Finset String)} {events : List Event} {halt : Halt}
    (h : halt.EndsIn stack events) (hcheck : scopeCheck stack events = .ok next) (name : Token) :
    halt ≠ .error (.undefinedVariable name) := by
  rintro rfl
  obtain ⟨before, after, mid, rfl, hmid, hname, later, rfl⟩ := h
  rw [scopeCheck_append hmid, scopeCheck, Event.check_use hname] at hcheck
  cases hcheck

/-- After a check that fails, running ends there or before. -/
private theorem Halt.EndsIn.expected {stack : List (Finset String)} {events : List Event} {halt : Halt} {name : Token}
    (h : halt.EndsIn stack events) (hcheck : scopeCheck stack events = .error name)
    (hfault : ∀ fault, halt ≠ .fault fault) : ∃ e, halt = .error e ∧ e.ExpectedAt stack events name := by
  obtain ⟨before, after, mid, rfl, hmid, hstop⟩ := h
  rw [scopeCheck_append hmid] at hcheck
  match halt, hstop with
  | .error (.undefinedVariable other), ⟨hother, later, hlater⟩ =>
    subst hlater
    rw [scopeCheck, Event.check_use hother] at hcheck
    obtain rfl := Except.error.inj hcheck
    exact ⟨_, rfl, before, later, rfl, ⟨mid, hmid⟩, .inl rfl⟩
  | .error (.typeMismatch operator requirement), ⟨later, hlater⟩ =>
    subst hlater
    -- the check goes on behind the operator, and fails there
    obtain ⟨between, rest, rfl, next, hnext⟩ := scopeCheck_error (show scopeCheck mid later = .error name from hcheck)
    refine ⟨_, rfl, before ++ .apply operator :: between, rest, by simp, ⟨next, ?_⟩, .inr ⟨operator, requirement, ?_⟩⟩
    · rw [scopeCheck_append hmid]
      exact hnext
    · simp
  | .fault f, _ => exact absurd rfl (hfault f)

private theorem runStatements_ne_undefined {room : Nat} {program : List Stmt} {scopes : Chain}
    {next : List (Finset String)} (hcheck : scopeCheck scopes.names (Stmt.eventsIn program) = .ok next) (name : Token) :
    (runStatements room program scopes).halt ≠ some (.error (.undefinedVariable name)) := by
  intro hhalt
  have hends := runStatements_follows room program scopes
  rw [hhalt] at hends
  exact Halt.EndsIn.ne_undefined hends hcheck name rfl

private theorem runStatements_expected {room : Nat} {program : List Stmt} {scopes : Chain} {name : Token}
    (hcheck : scopeCheck scopes.names (Stmt.eventsIn program) = .error name)
    (hfault : ∀ fault, (runStatements room program scopes).halt ≠ some (.fault fault)) :
    ∃ e, (runStatements room program scopes).halt = some (.error e) ∧
      e.ExpectedAt scopes.names (Stmt.eventsIn program) name := by
  have hends := runStatements_follows room program scopes
  cases hhalt : (runStatements room program scopes).halt with
  | none =>
    -- a program that is not stopped has gone through all its events
    rw [hhalt] at hends
    exact absurd (hends.symm.trans hcheck) (by simp)
  | some halt =>
    rw [hhalt] at hends hfault
    obtain ⟨e, rfl, he⟩ := Halt.EndsIn.expected hends hcheck fun fault h => hfault fault (by rw [h])
    exact ⟨e, rfl, he⟩

/-- A well-formed program has no fault but the one about nesting. -/
private theorem runStatements_ne_fault {room : Nat} {program : List Stmt}
    (hformed : Stmt.EveryIn Expr.WellFormed program) {scopes : Chain}
    (hdeep : (runStatements room program scopes).halt ≠ some (.fault .tooDeep)) (fault : Fault) :
    (runStatements room program scopes).halt ≠ some (.fault fault) := by
  intro hhalt
  cases fault with
  | misplaced misfit => exact runStatements_fault hhalt hformed
  | tooDeep => exact hdeep hhalt

namespace Session

private theorem report_not_mem_interpret {session : Session} {program : List Stmt} {next : List (Finset String)}
    (hcheck : scopeCheck session.scopes.names (Stmt.eventsIn program) = .ok next) (name : Token) :
    (RuntimeError.undefinedVariable name).report ∉ (session.interpret program).2.reports := by
  intro hmem
  have hne : (runProgram program session.scopes).halt ≠ some (.error (.undefinedVariable name)) :=
    runStatements_ne_undefined hcheck name
  rcases session.interpret_cases program with ⟨-, h⟩ | ⟨e, hhalt, h⟩ | ⟨f, -, h⟩
  · rw [h] at hmem
    cases hmem
  · rw [h] at hmem
    obtain rfl := RuntimeError.report_injective (List.mem_singleton.1 hmem)
    exact hne hhalt
  · rw [h] at hmem
    cases hmem

private theorem interpret_expected {session : Session} {program : List Stmt}
    (hformed : Stmt.EveryIn Expr.WellFormed program) {name : Token}
    (hcheck : scopeCheck session.scopes.names (Stmt.eventsIn program) = .error name)
    (hdeep : (session.interpret program).2.results ≠ .error (.fault .tooDeep)) :
    ∃ (values : List Value) (e : RuntimeError), (session.interpret program).2.results = .ok values ∧
      values.length < program.length ∧ (session.interpret program).2.reports = [e.report] ∧
      e.ExpectedAt session.scopes.names (Stmt.eventsIn program) name := by
  have hdeep' : (runProgram program session.scopes).halt ≠ some (.fault .tooDeep) := by
    intro hhalt
    exact hdeep (by simp only [interpret, hhalt])
  obtain ⟨e, hhalt, he⟩ := runStatements_expected hcheck (runStatements_ne_fault hformed hdeep')
  have hhalt : (runProgram program session.scopes).halt = some (.error e) := hhalt
  -- a program that is stopped has not completed all its statements
  have hdone := runStatements_halt_iff runningRoom program session.scopes
  have hle := runStatements_length_values runningRoom program session.scopes
  have hne : (runProgram program session.scopes).values.length ≠ program.length := by
    intro hlength
    have hnone := hdone.2 hlength
    rw [← runProgram, hhalt] at hnone
    cases hnone
  exact ⟨(runProgram program session.scopes).values, e, by simp only [interpret, hhalt], lt_of_le_of_ne hle hne,
    by simp only [interpret, hhalt], he⟩

end Session

/-- The check of a program tells at which name running it must stop, from every global scope that binds the given names
and no others.  If the check does not fail, no name is ever undefined.  If it fails at a name, running the program is
stopped by an error and the statements behind it are not run: the error is that this name is undefined, unless an
operator cannot take its operands before.  Nesting is set aside, either because the allowance was not used up or because
there is enough of it for the height of the program. -/
theorem scope_check_predicts {program : List Stmt} (hprogram : ∀ s ∈ program, s.Every Expr.WellFormed)
    (bound : Finset String) (globals : Scope) (hglobals : globals.names = bound) :
    (∀ next, scopeCheck [bound] (Stmt.eventsIn program) = .ok next →
      (∀ flags name, (RuntimeError.undefinedVariable name).report ∉
        (Session.interpret ⟨flags, .global globals⟩ program).2.reports) ∧
      ∀ room name, (runStatements room program (.global globals)).halt ≠ some (.error (.undefinedVariable name))) ∧
    ∀ u, scopeCheck [bound] (Stmt.eventsIn program) = .error u →
      (∀ flags, (Session.interpret ⟨flags, .global globals⟩ program).2.results ≠ .error (.fault .tooDeep) →
        ∃ (values : List Value) (e : RuntimeError),
          (Session.interpret ⟨flags, .global globals⟩ program).2.results = .ok values ∧
          values.length < program.length ∧
          (Session.interpret ⟨flags, .global globals⟩ program).2.reports = [e.report] ∧
          e.ExpectedAt [bound] (Stmt.eventsIn program) u) ∧
      ∀ room, 4 * Stmt.heightOf program ≤ room →
        ∃ e, (runStatements room program (.global globals)).halt = some (.error e) ∧
          e.ExpectedAt [bound] (Stmt.eventsIn program) u := by
  have hformed := Stmt.everyIn_iff.2 hprogram
  have hnames : (Chain.global globals).names = [bound] := by rw [Chain.names, hglobals]
  rw [← hnames]
  refine ⟨fun next hcheck => ⟨fun flags => ?_, fun room => runStatements_ne_undefined hcheck⟩, fun u hcheck =>
    ⟨fun flags => Session.interpret_expected hformed hcheck, fun room hroom => runStatements_expected hcheck ?_⟩⟩
  · exact Session.report_not_mem_interpret hcheck
  · refine runStatements_ne_fault hformed fun hhalt => ?_
    have hlt : room < 4 * Stmt.heightOf program := runStatements_fault hhalt
    omega

/-- The program `var a = "p"; { var b = a; print b; } b = a;`.  What is declared in the block is gone behind it, so the
check fails at the last `b`, and so does the run. -/
theorem scope_check_predicts_closed_scope :
    let a : Token := ⟨.identifier, "a", .nil, 1⟩
    let b : Token := ⟨.identifier, "b", .nil, 2⟩
    let last : Token := ⟨.identifier, "b", .nil, 3⟩
    let program : List Stmt := [.declare a (some (.literal (.str "p"))),
      .block [.declare b (some (.var a)), .print (.var b)], .expression (.assign last (.var a))]
    let reply := (Session.interpret ⟨.clear, .global .empty⟩ program).2
    (∀ s ∈ program, s.Every Expr.WellFormed) ∧ Scope.empty.names = ∅ ∧
      scopeCheck [∅] (Stmt.eventsIn program) = .error last ∧
      (∃ e : RuntimeError, reply.reports = [e.report] ∧ e.ExpectedAt [∅] (Stmt.eventsIn program) last) ∧
      reply.reports = [.running last "Undefined variable 'b'."] := by
  intro a b last program reply
  have hprogram : ∀ s ∈ program, s.Every Expr.WellFormed := by
    simp [program, Stmt.Every, Stmt.EveryIn, Expr.WellFormed, Expr.Every, Expr.Placed]
  have hcheck : scopeCheck [∅] (Stmt.eventsIn program) = .error last := by decide
  have hreports : reply.reports = [.running last "Undefined variable 'b'."] := by decide +kernel
  have hdeep : reply.results ≠ .error (.fault .tooDeep) := by decide +kernel
  obtain ⟨-, hfails⟩ := scope_check_predicts hprogram ∅ .empty rfl
  obtain ⟨values, e, -, -, hreport, he⟩ := (hfails last hcheck).1 .clear hdeep
  exact ⟨hprogram, rfl, hcheck, ⟨e, hreport, he⟩, hreports⟩

end Treewalk
