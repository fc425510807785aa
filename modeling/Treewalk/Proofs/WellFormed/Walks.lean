import Treewalk.Proofs.Names
import Treewalk.Proofs.WellFormed
import Treewalk.Session
import Treewalk.Tree.Outline

/-!
# Walks over trees

Showing a tree and running it are both walks that may end at a fault.  A fault is never made up: a misplaced node is
reported of a tree that is not well formed, and the allowance is used up by a tree that is too high for it, where the
scopes that may be asked for a name add to the height.  Showing a tree visits every node, so that it also finds every
misplaced one; running it may stop early.

* `Fault.Warranted`: what a fault says about the tree and the allowance.
* `outlineWithin_fault`, `wellFormed_of_outlineWithin`: the two ways in which showing a program can end.
* `runStatements_fault`: the faults of running a program.
-/

namespace Treewalk

/-- What a fault says: some node is misplaced, or the allowance `room` falls short of the `need`. -/
def Fault.Warranted (wellFormed : Prop) (need room : Nat) : Fault → Prop
  | .misplaced _ => ¬wellFormed
  | .tooDeep => room < need

namespace Fault.Warranted

variable {W W' : Prop} {need need' room cost : Nat} {fault : Fault}

private theorem mono (h : fault.Warranted W need room) (hW : W' → W) (hneed : need ≤ need') :
    fault.Warranted W' need' room := by
  cases fault with
  | misplaced misfit => exact fun hw => h (hW hw)
  | tooDeep => exact Nat.lt_of_lt_of_le h hneed

/-- A fault within the allowance that is left when a part of it has been spent. -/
private theorem of_spent (h : fault.Warranted W need (room - cost)) : fault.Warranted W (need + cost) room := by
  cases fault with
  | misplaced misfit => exact h
  | tooDeep =>
    have hlt : room - cost < need := h
    show room < need + cost
    omega

end Fault.Warranted

/-! ### Showing trees -/

section

variable {α β : Type}

theorem ok_of_bind {x : Except Fault α} {f : α → Except Fault β} {b : β} (h : (x >>= f) = .ok b) :
    ∃ a, x = .ok a ∧ f a = .ok b := by
  cases x with
  | ok a => exact ⟨a, rfl, h⟩
  | error fault => cases h

private theorem error_of_bind {x : Except Fault α} {f : α → Except Fault β} {fault : Fault}
    (h : (x >>= f) = .error fault) : x = .error fault ∨ ∃ a, x = .ok a ∧ f a = .error fault := by
  cases x with
  | ok a => exact .inr ⟨a, rfl, h⟩
  | error fault' =>
    obtain rfl : fault' = fault := Except.error.inj h
    exact .inl rfl

theorem ok_of_spend {cost room : Nat} {f : Nat → Except Fault β} {b : β}
    (h : (spend cost room >>= f) = .ok b) : f (room - cost) = .ok b := by
  unfold spend at h
  split at h
  · exact h
  · cases h

private theorem warranted_of_spend {cost room need : Nat} {W : Prop} {f : Nat → Except Fault β} {fault : Fault}
    (h : (spend cost room >>= f) = .error fault)
    (hf : f (room - cost) = .error fault → fault.Warranted W need (room - cost)) :
    fault.Warranted W (need + cost) room := by
  unfold spend at h
  split at h
  · exact (hf h).of_spent
  · next hcost =>
    obtain rfl : Fault.tooDeep = fault := Except.error.inj h
    show room < need + cost
    omega

private theorem warranted_of_leaf {cost room : Nat} {W : Prop} {b : β} {fault : Fault}
    (h : (spend cost room >>= fun _ => pure b) = .error fault) : fault.Warranted W cost room := by
  have hzero : fault.Warranted W (0 + cost) room := warranted_of_spend h fun h => by cases h
  exact hzero.mono id (by omega)

/-- A walk that spends something, and goes on with one part whose text is put into a larger one. -/
private theorem warranted_of_part {cost room need : Nat} {W : Prop} {part : Nat → Except Fault α} {g : α → β}
    {fault : Fault} (h : (spend cost room >>= fun left => part left >>= fun a => pure (g a)) = .error fault)
    (hpart : part (room - cost) = .error fault → fault.Warranted W need (room - cost)) :
    fault.Warranted W (need + cost) room := by
  refine warranted_of_spend h fun h => ?_
  rcases error_of_bind h with h | ⟨_, -, h⟩
  · exact hpart h
  · cases h

end

private theorem Expr.wellFormed_of_outline {e : Expr} {room : Nat} {text : String} (h : e.outline room = .ok text) :
    e.WellFormed := by
  induction e generalizing room text with
  | literal value => exact trivial
  | var name => exact trivial
  | assign name value ih =>
    obtain ⟨_, hvalue, -⟩ := ok_of_bind (ok_of_spend h)
    exact ⟨trivial, ih hvalue⟩
  | unary operator operand ih =>
    obtain ⟨_, hoperand, -⟩ := ok_of_bind (ok_of_spend h)
    exact ⟨trivial, ih hoperand⟩
  | binary left operator right ihleft ihright =>
    obtain ⟨_, hleft, h⟩ := ok_of_bind (ok_of_spend h)
    obtain ⟨_, hright, -⟩ := ok_of_bind h
    exact ⟨trivial, ihleft hleft, ihright hright⟩
  | grouping inner ih =>
    obtain ⟨_, hinner, -⟩ := ok_of_bind (ok_of_spend h)
    exact ⟨trivial, ih hinner⟩
  | misplaced found => cases h

private theorem Expr.outline_fault {e : Expr} {room : Nat} {fault : Fault} (h : e.outline room = .error fault) :
    fault.Warranted e.WellFormed (3 * e.height) room := by
  induction e generalizing room with
  | literal value => exact warranted_of_leaf h
  | var name => exact warranted_of_leaf h
  | assign name value ih => exact (warranted_of_part h ih).mono And.right (Nat.le_refl _)
  | unary operator operand ih => exact (warranted_of_part h ih).mono And.right (Nat.le_refl _)
  | binary left operator right ihleft ihright =>
    have hneed : 3 * max left.height right.height + outlineCost = 3 * (Expr.binary left operator right).height := rfl
    rw [← hneed]
    refine warranted_of_spend h fun h => ?_
    rcases error_of_bind h with h | ⟨_, -, h⟩
    · exact (ihleft h).mono (fun hw => hw.2.1) (by omega)
    · rcases error_of_bind h with h | ⟨_, -, h⟩
      · exact (ihright h).mono (fun hw => hw.2.2) (by omega)
      · cases h
  | grouping inner ih => exact (warranted_of_part h ih).mono And.right (Nat.le_refl _)
  | misplaced found =>
    obtain rfl := Except.error.inj h
    exact id

namespace Stmt

mutual

private theorem wellFormed_of_outline : ∀ {s : Stmt} {room : Nat} {text : String}, s.outline room = .ok text →
    s.Every Expr.WellFormed
  | .expression e, _, _, h => by
    simp only [outline] at h
    obtain ⟨_, he, -⟩ := ok_of_bind (ok_of_spend h)
    exact Expr.wellFormed_of_outline he
  | .print e, _, _, h => by
    simp only [outline] at h
    obtain ⟨_, he, -⟩ := ok_of_bind (ok_of_spend h)
    exact Expr.wellFormed_of_outline he
  | .declare _ none, _, _, _ => trivial
  | .declare _ (some e), _, _, h => by
    simp only [outline] at h
    obtain ⟨_, he, -⟩ := ok_of_bind (ok_of_spend h)
    exact Expr.wellFormed_of_outline he
  | .block body, _, _, h => by
    simp only [outline] at h
    obtain ⟨_, hbody, -⟩ := ok_of_bind (ok_of_spend h)
    exact wellFormed_of_outlineBody hbody
  | .skipped, _, _, _ => trivial
  | .misplaced _, _, _, h => by simp only [outline] at h; cases h

private theorem wellFormed_of_outlineBody : ∀ {ss : List Stmt} {room : Nat} {text : String},
    outlineBody ss room = .ok text → EveryIn Expr.WellFormed ss
  | [], _, _, _ => trivial
  | s :: later, _, _, h => by
    rw [outlineBody] at h
    obtain ⟨_, hs, h⟩ := ok_of_bind h
    obtain ⟨_, hlater, -⟩ := ok_of_bind h
    exact ⟨wellFormed_of_outline hs, wellFormed_of_outlineBody hlater⟩

end

mutual

private theorem outline_fault : ∀ {s : Stmt} {room : Nat} {fault : Fault}, s.outline room = .error fault →
    fault.Warranted (s.Every Expr.WellFormed) (3 * s.height) room
  | .expression e, _, _, h => by
    simp only [outline] at h
    exact warranted_of_part h Expr.outline_fault
  | .print e, _, _, h => by
    simp only [outline] at h
    exact warranted_of_part h Expr.outline_fault
  | .declare _ none, _, _, h => by simp only [outline] at h; cases h
  | .declare _ (some e), _, _, h => by
    simp only [outline] at h
    exact warranted_of_part h Expr.outline_fault
  | .block body, _, _, h => by
    simp only [outline] at h
    have hbody := warranted_of_part h outlineBody_fault
    exact hbody.mono id (by rw [height, blockOutlineCost]; omega)
  | .skipped, _, _, h => by simp only [outline] at h; cases h
  | .misplaced found, _, _, h => by
    simp only [outline] at h
    obtain rfl := Except.error.inj h
    exact id

private theorem outlineBody_fault : ∀ {ss : List Stmt} {room : Nat} {fault : Fault},
    outlineBody ss room = .error fault → fault.Warranted (EveryIn Expr.WellFormed ss) (3 * heightOf ss) room
  | [], _, _, h => by simp only [outlineBody] at h; cases h
  | s :: later, _, _, h => by
    rw [outlineBody] at h
    rw [heightOf]
    rcases error_of_bind h with h | ⟨_, -, h⟩
    · exact (outline_fault h).mono And.left (by omega)
    · rcases error_of_bind h with h | ⟨_, -, h⟩
      · exact (outlineBody_fault h).mono And.right (by omega)
      · cases h

end

end Stmt

/-- The outline of a program within a given allowance. -/
def outlineWithin (room : Nat) (program : List Stmt) : Except Fault String := do
  return "\n".intercalate (← program.mapM (·.outline room))

theorem wellFormed_of_outlineWithin {room : Nat} {program : List Stmt} {text : String}
    (h : outlineWithin room program = .ok text) : Stmt.EveryIn Expr.WellFormed program := by
  obtain ⟨lines, hlines, -⟩ := ok_of_bind h
  clear h
  induction program generalizing lines with
  | nil => trivial
  | cons s later ih =>
    rw [List.mapM_cons] at hlines
    obtain ⟨_, hs, hlines⟩ := ok_of_bind hlines
    obtain ⟨_, hlater, -⟩ := ok_of_bind hlines
    exact ⟨Stmt.wellFormed_of_outline hs, ih _ hlater⟩

theorem outlineWithin_fault {room : Nat} {program : List Stmt} {fault : Fault}
    (h : outlineWithin room program = .error fault) :
    fault.Warranted (Stmt.EveryIn Expr.WellFormed program) (3 * Stmt.heightOf program) room := by
  have hlines : program.mapM (·.outline room) = .error fault := by
    rcases error_of_bind h with h | ⟨_, -, h⟩
    · exact h
    · cases h
  clear h
  induction program with
  | nil => cases hlines
  | cons s later ih =>
    rw [List.mapM_cons] at hlines
    rw [Stmt.heightOf]
    rcases error_of_bind hlines with h | ⟨_, -, h⟩
    · exact (Stmt.outline_fault h).mono And.left (by omega)
    · rcases error_of_bind h with h | ⟨_, -, h⟩
      · exact (ih h).mono And.right (by omega)
      · cases h

/-! ### Running trees -/

namespace Action

variable {α β : Type} {W W' : Prop} {need need' room : Nat}

/-- Whatever fault the action ends with is warranted.  All the scopes may have to be asked for a name, so that the need
is the greater the more of them there are. -/
def Warranted (W : Prop) (need room : Nat) (action : Action α) : Prop :=
  ∀ scopes fault, (action scopes).result = .error (.fault fault) → fault.Warranted W (need + scopes.depth) room

/-- The action may fail for reasons of the program, but it has no faults. -/
def Faultless (action : Action α) : Prop :=
  ∀ scopes fault, (action scopes).result ≠ .error (.fault fault)

private theorem faultless_pure (a : α) : (pure a : Action α).Faultless := fun _ _ h => by cases h

private theorem faultless_print (text : String) : (print text).Faultless := fun _ _ h => by cases h

private theorem faultless_define (name : Token) (value : Value) :
    (define name value).Faultless := fun _ _ h => by cases h

private theorem faultless_ofResult (result : Except RuntimeError α) : (ofResult result).Faultless := by
  intro scopes fault h
  cases result <;> cases h

private theorem faultless_lookup (name : Token) : (lookup name).Faultless := by
  intro scopes fault h
  unfold lookup at h
  split at h <;> cases h

private theorem faultless_assign (name : Token) (value : Value) : (assign name value).Faultless := by
  intro scopes fault h
  unfold assign at h
  split at h <;> cases h

private theorem Faultless.bind {action : Action α} {f : α → Action β} (h : action.Faultless)
    (hf : ∀ a, (f a).Faultless) : (action >>= f).Faultless := by
  intro scopes fault hfault
  cases hresult : (action scopes).result with
  | ok a =>
    rw [bind_of_ok hresult] at hfault
    exact hf a _ fault hfault
  | error reason =>
    rw [bind_of_error hresult] at hfault
    obtain rfl : reason = .fault fault := Except.error.inj hfault
    exact h scopes fault hresult

private theorem Faultless.warranted {action : Action α} (h : action.Faultless) : action.Warranted W need room :=
  fun scopes fault hf => absurd hf (h scopes fault)

private theorem Warranted.mono {action : Action α} (h : action.Warranted W need room) (hW : W' → W)
    (hneed : need ≤ need') : action.Warranted W' need' room :=
  fun scopes fault hf => (h scopes fault hf).mono hW (Nat.add_le_add_right hneed _)

private theorem Warranted.bind {action : Action α} {f : α → Action β} (h : action.Warranted W need room)
    (hkeeps : action.Keeps Chain.depth) (hf : ∀ a, (f a).Warranted W need room) :
    (action >>= f).Warranted W need room := by
  intro scopes fault hfault
  cases hresult : (action scopes).result with
  | ok a =>
    rw [bind_of_ok hresult] at hfault
    rw [← hkeeps scopes]
    exact hf a _ fault hfault
  | error reason =>
    rw [bind_of_error hresult] at hfault
    obtain rfl : reason = .fault fault := Except.error.inj hfault
    exact h scopes fault hresult

/-- A fault behind some spending: the allowance did not suffice for it, or it is a fault of what follows. -/
private theorem fault_of_spending {cost : Nat} {f : Nat → Action β} {scopes : Chain} {fault : Fault}
    (h : ((spending cost room >>= f) scopes).result = .error (.fault fault)) :
    (fault = .tooDeep ∧ room < cost) ∨ (f (room - cost) scopes).result = .error (.fault fault) := by
  by_cases hcost : cost ≤ room
  · have hspent := spending_of_le hcost scopes
    rw [bind_of_ok (congrArg Outcome.result hspent), hspent] at h
    exact .inr h
  · have hspent := spending_of_not_le hcost scopes
    rw [bind_of_error (congrArg Outcome.result hspent)] at h
    exact .inl ⟨(Halt.fault.inj (Except.error.inj h)).symm, Nat.lt_of_not_le hcost⟩

private theorem warranted_spending {cost : Nat} {f : Nat → Action β}
    (hf : (f (room - cost)).Warranted W need (room - cost)) :
    (spending cost room >>= f).Warranted W (need + cost) room := by
  intro scopes fault hfault
  rcases fault_of_spending hfault with ⟨rfl, hlt⟩ | hfault
  · show room < need + cost + scopes.depth
    omega
  · rw [Nat.add_right_comm]
    exact (hf scopes fault hfault).of_spent

/-- Asking for a name takes a unit for each scope around the current one, and one for the current scope. -/
private theorem warranted_asking {name : Token} {f : Nat → Action β} (hf : ∀ left, (f left).Faultless)
    (hneed : 0 < need) : (asking name room >>= f).Warranted W need room := by
  intro scopes fault hfault
  rw [asking_bind] at hfault
  rcases fault_of_spending hfault with ⟨rfl, hlt⟩ | hfault
  · have hasked := scopes.asked_le name.lexeme
    show room < need + scopes.depth
    omega
  · exact absurd hfault (hf _ scopes fault)

/-- There is one scope more inside. -/
private theorem Warranted.inScope {action : Action α} (h : action.Warranted W need room) :
    (inScope action).Warranted W (need + 1) room := by
  intro scopes fault hf
  rw [Nat.add_right_comm, Nat.add_assoc]
  exact h scopes.push fault hf

end Action

open Treewalk.Action in
private theorem Expr.eval_warranted (e : Expr) (room : Nat) :
    (e.eval room).Warranted e.WellFormed (3 * e.height) room := by
  have hcost : ∀ n, 3 * n + evalCost ≤ 3 * (n + 1) := fun n => by rw [evalCost]; omega
  induction e generalizing room with
  | literal value => exact (warranted_spending (faultless_pure value).warranted).mono id (hcost 0)
  | var name =>
    have hlookup : ∀ room, (asking name room >>= fun _ => lookup name).Warranted (Expr.var name).WellFormed 1 room :=
      fun room => warranted_asking (fun _ => faultless_lookup name) Nat.one_pos
    exact (warranted_spending (hlookup _)).mono id (Nat.le_refl 3)
  | assign name value ih =>
    have hpos := value.height_pos
    refine (warranted_spending (Warranted.bind (ih _) (value.eval_names _).outer.depth fun v => ?_)).mono And.right
      (hcost _)
    exact warranted_asking (fun _ => (faultless_assign name v).bind fun _ => faultless_pure v) (by omega)
  | unary operator operand ih =>
    refine (warranted_spending (Warranted.bind (ih _) (operand.eval_names _).outer.depth fun v => ?_)).mono And.right
      (hcost _)
    exact (faultless_ofResult _).warranted
  | binary left operator right ihleft ihright =>
    have hleft : ∀ room, (left.eval room).Warranted (left.WellFormed ∧ right.WellFormed)
        (3 * max left.height right.height) room := fun room => (ihleft room).mono And.left (by omega)
    have hright : ∀ room, (right.eval room).Warranted (left.WellFormed ∧ right.WellFormed)
        (3 * max left.height right.height) room := fun room => (ihright room).mono And.right (by omega)
    refine (warranted_spending (Warranted.bind (hleft _) (left.eval_names _).outer.depth fun v => ?_)).mono And.right
      (hcost _)
    exact Warranted.bind (hright _) (right.eval_names _).outer.depth fun w => (faultless_ofResult _).warranted
  | grouping inner ih => exact (warranted_spending (ih _)).mono And.right (hcost _)
  | misplaced found =>
    intro scopes fault h
    obtain rfl : Fault.misplaced (.inExpression found) = fault := by simpa [Expr.eval, halt] using h
    exact id

namespace Stmt

open Treewalk.Action

mutual

private theorem exec_warranted : ∀ (s : Stmt) (room : Nat),
    (s.exec room).Warranted (s.Every Expr.WellFormed) (4 * s.height) room
  | .expression e, room => by
    rw [exec]
    exact (e.eval_warranted room).mono id (by rw [height]; omega)
  | .print e, room => by
    rw [exec]
    have hneed : 3 * e.height ≤ 4 * (e.height + 1) := by omega
    refine Warranted.bind ((e.eval_warranted room).mono id hneed) (e.eval_names room).outer.depth fun v => ?_
    exact ((faultless_print _).bind fun _ => faultless_pure v).warranted
  | .declare name none, room => by
    rw [exec]
    exact ((faultless_define name .nil).bind fun _ => faultless_pure _).warranted
  | .declare name (some e), room => by
    rw [exec]
    have hneed : 3 * e.height ≤ 4 * (e.height + 1) := by omega
    refine Warranted.bind ((e.eval_warranted room).mono id hneed) (e.eval_names room).outer.depth fun v => ?_
    exact ((faultless_define name v).bind fun _ => faultless_pure _).warranted
  | .block body, room => by
    rw [exec]
    have hbody : ∀ room, (inScope (execBody body room)).Warranted (EveryIn Expr.WellFormed body)
        (4 * heightOf body + 1) room := fun room => (execBody_warranted body room).inScope
    have hkeeps : ∀ room, (inScope (execBody body room)).Keeps Chain.depth := fun room =>
      (execBody_outer_names body room).inScope.outer.depth
    exact warranted_spending (Warranted.bind (hbody _) (hkeeps _) fun _ => (faultless_pure _).warranted)
  | .skipped, room => by
    rw [exec]
    exact (faultless_pure _).warranted
  | .misplaced found, room => by
    intro scopes fault h
    obtain rfl : Fault.misplaced (.inStatement found) = fault := by simpa [exec, halt] using h
    exact id

private theorem execBody_warranted : ∀ (ss : List Stmt) (room : Nat),
    (execBody ss room).Warranted (EveryIn Expr.WellFormed ss) (4 * heightOf ss) room
  | [], room => by
    rw [execBody]
    exact (faultless_pure ()).warranted
  | s :: later, room => by
    rw [execBody, heightOf]
    refine Warranted.bind ((exec_warranted s room).mono And.left (by omega)) (exec_outer_names s room).depth fun _ => ?_
    exact (execBody_warranted later room).mono And.right (by omega)

end

end Stmt

/-- A program halts at a fault only if it is not well formed, or too high for the allowance. -/
theorem runStatements_fault {room : Nat} {program : List Stmt} {scopes : Chain} {fault : Fault}
    (h : (runStatements room program scopes).halt = some (.fault fault)) :
    fault.Warranted (Stmt.EveryIn Expr.WellFormed program) (4 * Stmt.heightOf program + scopes.depth) room := by
  induction program generalizing scopes with
  | nil => cases h
  | cons s later ih =>
    rw [runStatements] at h
    rw [Stmt.heightOf]
    cases hs : (s.exec room scopes).result with
    | ok value =>
      simp only [hs] at h
      have hdepth := (s.exec_outer_names room).depth scopes
      exact (ih h).mono And.right (by omega)
    | error halt =>
      simp only [hs] at h
      obtain rfl := Option.some.inj h
      exact (Stmt.exec_warranted s room scopes fault hs).mono And.left (by omega)

/-- Nothing but a fault of the tree gets out of running a program. -/
theorem Session.fault_of_interpret {session : Session} {program : List Stmt} {escape : Escape}
    (h : (session.interpret program).2.results = .error escape) :
    ∃ fault, escape = .fault fault ∧ (runProgram program session.scopes).halt = some (.fault fault) := by
  simp only [Session.interpret] at h
  cases hhalt : (runProgram program session.scopes).halt with
  | none => simp [hhalt] at h
  | some halt =>
    cases halt with
    | error e => simp [hhalt] at h
    | fault fault => exact ⟨fault, by simpa [hhalt] using h.symm, rfl⟩

/-- Running a well-formed program in a session meets no misplaced node. -/
theorem Session.interpret_of_wellFormed {program : List Stmt} (h : Stmt.EveryIn Expr.WellFormed program)
    (session : Session) (misfit : Misfit) :
    (session.interpret program).2.results ≠ .error (.fault (.misplaced misfit)) := by
  intro hresults
  obtain ⟨fault, hfault, hhalt⟩ := Session.fault_of_interpret hresults
  obtain rfl := Escape.fault.inj hfault
  exact runStatements_fault hhalt h

end Treewalk
