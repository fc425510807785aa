import Treewalk.Proofs.Lexeme.Exact
import Treewalk.Proofs.Pieces
import Treewalk.Proofs.WellFormed

/-!
# What errors at run time are about

An error at run time comes from some node of the program: an operator that cannot take its operands, or a name that is
not bound.  In a program that has been read from a source text, the names are the names of the text.  They hold no line
ends, so that an error at run time is reported in one line.

* `Expr.Raises`: the errors that a node can raise are as demanded.
* `runStatements_raises`: a program ends with no other error than its nodes can raise.
* `isLine_of_readSource`: an error of a program from a source text is reported in one line.
-/

namespace Treewalk

/-! ### The errors that nodes raise -/

/-- The errors that the node itself can raise are as demanded. -/
def Expr.Raises (P : RuntimeError → Prop) : Expr → Prop
  | .var name => P (.undefinedVariable name)
  | .assign name _ => P (.undefinedVariable name)
  | .unary operator _ => ∀ requirement, P (.typeMismatch operator requirement)
  | .binary _ operator _ => ∀ requirement, P (.typeMismatch operator requirement)
  | _ => True

theorem applyUnary_error {operator : Token} {v : Value} {e : RuntimeError} (h : applyUnary operator v = .error e) :
    ∃ requirement, e = .typeMismatch operator requirement := by
  unfold applyUnary at h
  split at h
  · split at h <;> cases h
    exact ⟨_, rfl⟩
  · cases h
  · cases h

theorem applyBinary_error {operator : Token} {v w : Value} {e : RuntimeError}
    (h : applyBinary operator v w = .error e) : ∃ requirement, e = .typeMismatch operator requirement := by
  have hnumbers : ∀ f, onNumbers operator f v w = .error e → ∃ requirement, e = .typeMismatch operator requirement := by
    intro f hf
    unfold onNumbers at hf
    split at hf <;> cases hf
    exact ⟨_, rfl⟩
  unfold applyBinary at h
  split at h
  case h_2 =>
    unfold plus at h
    split at h <;> cases h
    exact ⟨_, rfl⟩
  case h_9 => cases h
  case h_10 => cases h
  case h_11 => cases h
  all_goals exact hnumbers _ h

namespace Action

variable {α β : Type} {P : RuntimeError → Prop}

/-- Whatever error the action ends with is as demanded. -/
def Raises (P : RuntimeError → Prop) (action : Action α) : Prop :=
  ∀ scopes e, (action scopes).result = .error (.error e) → P e

private theorem raises_pure (a : α) : (pure a : Action α).Raises P := fun _ _ h => by cases h

private theorem raises_fault (fault : Fault) : (halt (.fault fault) : Action α).Raises P := fun _ _ h => by cases h

private theorem raises_print (text : String) : (print text).Raises P := fun _ _ h => by cases h

private theorem raises_define (name : Token) (value : Value) : (define name value).Raises P := fun _ _ h => by cases h

private theorem raises_spending (cost room : Nat) : (spending cost room).Raises P := by
  intro scopes e h
  by_cases hcost : cost ≤ room
  · rw [spending_of_le hcost] at h
    cases h
  · rw [spending_of_not_le hcost] at h
    cases h

private theorem raises_asking (name : Token) (room : Nat) : (asking name room).Raises P :=
  fun scopes => raises_spending (scopes.asked name.lexeme) room scopes

private theorem raises_ofResult {result : Except RuntimeError α} (hP : ∀ e, result = .error e → P e) :
    (ofResult result).Raises P := by
  intro scopes e h
  cases result with
  | ok a => cases h
  | error e' =>
    obtain rfl : e' = e := Halt.error.inj (Except.error.inj h)
    exact hP e' rfl

private theorem raises_lookup {name : Token} (hP : P (.undefinedVariable name)) : (lookup name).Raises P := by
  intro scopes e h
  unfold lookup at h
  split at h <;> cases h
  exact hP

private theorem raises_assign {name : Token} (hP : P (.undefinedVariable name)) (value : Value) :
    (assign name value).Raises P := by
  intro scopes e h
  unfold assign at h
  split at h <;> cases h
  exact hP

private theorem Raises.bind {action : Action α} {f : α → Action β} (h : action.Raises P) (hf : ∀ a, (f a).Raises P) :
    (action >>= f).Raises P := by
  intro scopes e he
  cases hresult : (action scopes).result with
  | ok a =>
    rw [bind_of_ok hresult] at he
    exact hf a _ e he
  | error reason =>
    rw [bind_of_error hresult] at he
    obtain rfl : reason = .error e := Except.error.inj he
    exact h scopes e hresult

private theorem Raises.inScope {action : Action α} (h : action.Raises P) : (inScope action).Raises P :=
  fun scopes e he => h scopes.push e he

end Action

section

open Treewalk.Action

variable {P : RuntimeError → Prop}

private theorem Expr.eval_raises {e : Expr} (h : e.Every (Expr.Raises P)) (room : Nat) : (e.eval room).Raises P := by
  induction e generalizing room with
  | literal value => exact Raises.bind (raises_spending _ _) fun _ => raises_pure value
  | var name =>
    refine Raises.bind (raises_spending _ _) fun _ => ?_
    exact Raises.bind (raises_asking name _) fun _ => raises_lookup h
  | assign name value ih =>
    refine Raises.bind (raises_spending _ _) fun _ => Raises.bind (ih h.2 _) fun v => ?_
    refine Raises.bind (raises_asking name _) fun _ => ?_
    exact Raises.bind (raises_assign h.1 v) fun _ => raises_pure v
  | unary operator operand ih =>
    refine Raises.bind (raises_spending _ _) fun _ => Raises.bind (ih h.2 _) fun v => raises_ofResult fun e he => ?_
    obtain ⟨requirement, rfl⟩ := applyUnary_error he
    exact h.1 requirement
  | binary left operator right ihleft ihright =>
    refine Raises.bind (raises_spending _ _) fun _ => Raises.bind (ihleft h.2.1 _) fun v => ?_
    refine Raises.bind (ihright h.2.2 _) fun w => raises_ofResult fun e he => ?_
    obtain ⟨requirement, rfl⟩ := applyBinary_error he
    exact h.1 requirement
  | grouping inner ih => exact Raises.bind (raises_spending _ _) fun _ => ih h.2 _
  | misplaced found => exact raises_fault _

namespace Stmt

mutual

private theorem exec_raises : ∀ {s : Stmt} (room : Nat), s.Every (Expr.Every (Expr.Raises P)) → (s.exec room).Raises P
  | .expression e, room, h => by
    rw [exec]
    exact Expr.eval_raises h room
  | .print e, room, h => by
    rw [exec]
    refine Raises.bind (Expr.eval_raises h room) fun v => ?_
    exact Raises.bind (raises_print _) fun _ => raises_pure v
  | .declare name none, room, _ => by
    rw [exec]
    exact Raises.bind (raises_define name .nil) fun _ => raises_pure _
  | .declare name (some e), room, h => by
    rw [exec]
    refine Raises.bind (Expr.eval_raises h room) fun v => ?_
    exact Raises.bind (raises_define name v) fun _ => raises_pure _
  | .block body, room, h => by
    rw [exec]
    refine Raises.bind (raises_spending _ _) fun left => ?_
    exact Raises.bind (execBody_raises left h).inScope fun _ => raises_pure _
  | .skipped, room, _ => by
    rw [exec]
    exact raises_pure _
  | .misplaced found, room, h => h.elim

private theorem execBody_raises : ∀ {ss : List Stmt} (room : Nat), EveryIn (Expr.Every (Expr.Raises P)) ss →
    (execBody ss room).Raises P
  | [], room, _ => by
    rw [execBody]
    exact raises_pure ()
  | s :: later, room, h => by
    rw [execBody]
    exact Raises.bind (exec_raises room h.1) fun _ => execBody_raises room h.2

end

end Stmt

/-- A program ends with no other error than its nodes can raise. -/
theorem runStatements_raises {room : Nat} {program : List Stmt} (h : Stmt.EveryIn (Expr.Every (Expr.Raises P)) program)
    {scopes : Chain} {e : RuntimeError} (he : (runStatements room program scopes).halt = some (.error e)) : P e := by
  induction program generalizing scopes with
  | nil => cases he
  | cons s later ih =>
    rw [runStatements] at he
    cases hs : (s.exec room scopes).result with
    | ok value =>
      simp only [hs] at he
      exact ih h.2 he
    | error reason =>
      simp only [hs] at he
      obtain rfl := Option.some.inj he
      exact Stmt.exec_raises room h.1 scopes e hs

end

/-! ### The tokens of what has been read -/

/-- The errors that a token can raise, as a name or as an operator, are as demanded. -/
def Token.Raises (P : RuntimeError → Prop) (t : Token) : Prop :=
  (t.kind = .identifier → P (.undefinedVariable t)) ∧ ∀ requirement, P (.typeMismatch t requirement)

section

variable {P : RuntimeError → Prop}

/-- The names and operators of an expression are among the tokens it has been read from. -/
private theorem ReadsAs.raises {room : Nat} {r : Rule} {ts : List Token} {e : Expr} {notes : List SyntaxError}
    (h : ReadsAs room r ts e notes) (hts : ∀ t ∈ ts, t.Raises P) : e.Every (Expr.Raises P) := by
  induction h with
  | expression _ ih | assignment _ ih | operand _ ih | unary _ ih => exact ih hts
  | assign _ _ _ ihname ihvalue =>
    obtain ⟨hname, hvalue⟩ := List.forall_mem_append.1 hts
    exact ⟨ihname hname, ihvalue (List.forall_mem_cons.1 hvalue).2⟩
  | misassign _ _ _ _ ihtarget => exact ihtarget (List.forall_mem_append.1 hts).1
  | join _ _ _ ihleft ihright =>
    obtain ⟨hleft, hright⟩ := List.forall_mem_append.1 hts
    obtain ⟨hoperator, hright⟩ := List.forall_mem_cons.1 hright
    exact ⟨hoperator.2, ihleft hleft, ihright hright⟩
  | negate _ _ ih =>
    obtain ⟨hoperator, hoperand⟩ := List.forall_mem_cons.1 hts
    exact ⟨hoperator.2, ih hoperand⟩
  | false_ | true_ | nil_ | number | string => exact trivial
  | name hkind => exact (hts _ List.mem_cons_self).1 hkind
  | grouping _ _ _ ih =>
    obtain ⟨hinner, -⟩ := List.forall_mem_append.1 (List.forall_mem_cons.1 hts).2
    exact ⟨trivial, ih hinner⟩

mutual

private theorem StatementReadsAs.raises {room : Nat} {ts : List Token} {s : Stmt} {notes : List SyntaxError}
    (h : StatementReadsAs room ts s notes) (hts : ∀ t ∈ ts, t.Raises P) : s.Every (Expr.Every (Expr.Raises P)) := by
  cases h with
  | declare => exact trivial
  | define _ _ _ h => exact h.raises fun t ht => hts t (by simp [ht])
  | print _ h => exact h.raises fun t ht => hts t (by simp [ht])
  | block _ h => exact h.raises fun t ht => hts t (by simp [ht])
  | expression h => exact h.raises fun t ht => hts t (by simp [ht])

private theorem StatementsReadAs.raises {room : Nat} {ts : List Token} {ss : List Stmt} {notes : List SyntaxError}
    (h : StatementsReadAs room ts ss notes) (hts : ∀ t ∈ ts, t.Raises P) :
    Stmt.EveryIn (Expr.Every (Expr.Raises P)) ss := by
  cases h with
  | nil => exact trivial
  | cons h hs =>
    obtain ⟨hfirst, hlater⟩ := List.forall_mem_append.1 hts
    exact ⟨h.raises hfirst, hs.raises hlater⟩

end

end

/-! ### Lines of text -/

/-- The text is one line: it holds no line end but the one behind it. -/
def IsLine (text : String) : Prop := ∃ line : String, '\n' ∉ line.toList ∧ text = line ++ "\n"

theorem IsLine.ne_empty {text : String} (h : IsLine text) : text ≠ "" := by
  obtain ⟨line, -, rfl⟩ := h
  simp [String.append_eq_empty_iff]

private theorem newline_not_mem_nat (n : Nat) : '\n' ∉ (toString n).toList := by
  intro h
  have hmem : '\n' ∈ Nat.toDigits 10 n := by simpa using h
  have hdigit : ('\n').isDigit = true := Nat.isDigit_of_mem_toDigits (by decide) (Nat.le_refl 10) hmem
  exact absurd hdigit (by decide)

private theorem newline_not_mem_int (n : Int) : '\n' ∉ (toString n).toList := by
  cases n with
  | ofNat m => exact newline_not_mem_nat m
  | negSucc m =>
    show '\n' ∉ ("-" ++ toString (m + 1)).toList
    rw [String.toList_append, List.mem_append]
    rintro (hsign | hdigits)
    · exact absurd hsign (by decide)
    · exact newline_not_mem_nat (m + 1) hdigits

/-- An error at run time is reported in one line if its message is on one line. -/
private theorem RuntimeError.isLine_text {e : RuntimeError} (h : '\n' ∉ e.message.toList) : IsLine e.report.text := by
  refine ⟨"[line " ++ toString e.token.line ++ "] Error: " ++ e.message, ?_, rfl⟩
  simp only [String.toList_append, List.mem_append, not_or]
  exact ⟨⟨⟨by decide, newline_not_mem_int _⟩, by decide⟩, h⟩

/-- A name of a source text is on one line. -/
private theorem newline_not_mem_name {source : String} {t : Token} (ht : t ∈ (scan source).tokens)
    (hkind : t.kind = .identifier) : '\n' ∉ t.lexeme.toList := by
  have hlexeme : Lexeme t.lexeme.toList t.kind t.literal := by
    refine (segmentation_split source.toList).lexeme ?_
    have hmem := List.mem_map_of_mem (f := fun t : Token => (t.kind, t.lexeme, t.literal)) ht
    rw [scan, Scanned.ofSegments_tokens_map] at hmem
    simpa [hkind] using hmem
  rw [hkind] at hlexeme
  generalize t.lexeme.toList = text, t.literal = literal at hlexeme
  -- only names are of that kind
  cases hlexeme with
  | operator h =>
    have hfree : ∀ entry ∈ operatorLexemes, entry.2 ≠ .identifier := by decide
    exact absurd rfl (hfree _ h)
  | reserved h =>
    have hfree : ∀ entry ∈ TokenKind.reservedWords, entry.2 ≠ .identifier := by decide
    exact absurd rfl (hfree _ h)
  | name hc h =>
    rintro (_ | ⟨_, hmem⟩)
    · exact absurd hc (by decide)
    · exact absurd (h _ hmem) (by decide)

/-- The tokens of a source text raise errors that are reported in one line. -/
private theorem Token.raises_isLine {source : String} {t : Token} (ht : t ∈ (scan source).tokens) :
    t.Raises fun e => IsLine e.report.text := by
  refine ⟨fun hkind => RuntimeError.isLine_text ?_, fun requirement => RuntimeError.isLine_text ?_⟩
  · show '\n' ∉ ("Undefined variable '" ++ t.lexeme ++ "'.").toList
    simp only [String.toList_append, List.mem_append, not_or]
    exact ⟨⟨by decide, newline_not_mem_name ht hkind⟩, by decide⟩
  · show '\n' ∉ requirement.message.toList
    cases requirement <;> decide

/-- An error of a program from a source text is reported in one line. -/
theorem isLine_of_readSource {source : String} {program : List Stmt} (h : readSource source = ⟨.ok program, []⟩)
    {room : Nat} {scopes : Chain} {e : RuntimeError} (he : (runStatements room program scopes).halt = some (.error e)) :
    IsLine e.report.text := by
  obtain ⟨ts, program', -, -, htokens, hread, hsource⟩ := readSource_of_no_reports (by rw [h])
  obtain rfl : program = program' := by simpa [h] using hsource
  have hmem : ∀ t ∈ ts, t ∈ (scan source).tokens := fun t ht => htokens ▸ List.mem_append_left _ ht
  exact runStatements_raises (hread.raises fun t ht => Token.raises_isLine (hmem t ht)) he

end Treewalk
