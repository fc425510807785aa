import Treewalk.Proofs.Sentence.Loose
import Treewalk.Proofs.Slots

/-!
# Failed readings

`p.Fails ts reason notes rest` is the counterpart of `Yields`: the parser stops at the first token of `rest`, for a
reason other than the end of the tokens.  A rule, and any statement but a block, stops as soon as it can: what it has
taken by then is the beginning of something that it would have read.

* `Stop.Explains`: a rejection is the last error noted, at the token at which reading stopped, and the only grave one.
* `Rule.begins_of_fails`, `Parser.begins_of_fails`: where a rule or a statement fails, it has taken the beginning of a
  phrase or a declaration of the relaxed grammar.
* `Parser.Yields.mild`: without a failure there are no grave errors.
-/

namespace Treewalk

/-- The tokens with some others behind them are in the language. -/
def Begins (language : List Token → Prop) (ts : List Token) : Prop :=
  ∃ more, more ≠ [] ∧ language (ts ++ more)

/-- The beginning of a part is, with what stands before the part, the beginning of the whole. -/
private theorem Begins.within {part whole : List Token → Prop} {ts : List Token} (h : Begins part ts)
    (before after : List Token) (hwhole : ∀ us, part us → whole (before ++ (us ++ after))) :
    Begins whole (before ++ ts) := by
  obtain ⟨more, hne, hpart⟩ := h
  refine ⟨more ++ after, by simp [hne], ?_⟩
  have := hwhole _ hpart
  simpa using this

private theorem Begins.mono {part whole : List Token → Prop} {ts : List Token} (h : Begins part ts)
    (hwhole : ∀ us, part us → whole us) : Begins whole ts :=
  h.within [] [] fun us hus => by simpa using hwhole us hus

/-- What the errors noted and the tokens left have to do with the reason for stopping. -/
def Stop.Explains (notes : List SyntaxError) (rest : List Token) : Stop → Prop
  | .rejected error => (∃ earlier, notes = earlier ++ [error] ∧ Mild earlier) ∧ (∃ later, rest = error.token :: later) ∧
      error.problem ≠ .invalidAssignmentTarget
  | .tooDeep => Mild notes
  | .outOfTokens => True

theorem Mild.append {n₁ n₂ : List SyntaxError} (h₁ : Mild n₁) (h₂ : Mild n₂) : Mild (n₁ ++ n₂) :=
  List.forall_mem_append.2 ⟨h₁, h₂⟩

private theorem Stop.Explains.after {reason : Stop} {notes n : List SyntaxError} {rest : List Token}
    (h : reason.Explains notes rest) (hn : Mild n) : reason.Explains (n ++ notes) rest := by
  cases reason with
  | rejected error =>
    obtain ⟨⟨earlier, rfl, hearlier⟩, h⟩ := h
    exact ⟨⟨n ++ earlier, by simp, hn.append hearlier⟩, h⟩
  | tooDeep => exact hn.append h
  | outOfTokens => trivial

private theorem Stop.explains_rejected {problem : SyntaxProblem} (h : problem ≠ .invalidAssignmentTarget) (t : Token)
    (later : List Token) : (Stop.rejected ⟨t, problem⟩).Explains [⟨t, problem⟩] (t :: later) :=
  ⟨⟨[], rfl, mild_nil⟩, ⟨later, rfl⟩, h⟩

namespace Parser

variable {α β : Type}

/-- The parser stops at the first token of `rest`, with the errors `notes`, before the tokens run out. -/
def Fails (p : Parser α) (ts : List Token) (reason : Stop) (notes : List SyntaxError) (rest : List Token) : Prop :=
  p.run ts = ⟨.error reason, notes, rest⟩ ∧ reason ≠ .outOfTokens

variable {ts rest : List Token} {reason : Stop} {notes : List SyntaxError}

/-! ### Parsers put together -/

private theorem not_fails_pure {a : α} : ¬(pure a : Parser α).Fails ts reason notes rest := by
  rintro ⟨h, -⟩
  cases h

private theorem not_fails_note {error : SyntaxError} : ¬(note error).Fails ts reason notes rest := by
  rintro ⟨h, -⟩
  cases h

private theorem Fails.of_stop {reason' : Stop} (h : (stop reason' : Parser α).Fails ts reason notes rest) :
    reason = reason' ∧ notes = [] ∧ rest = ts := by
  obtain ⟨h, -⟩ := h
  cases h
  exact ⟨rfl, rfl, rfl⟩

private theorem Fails.of_reject {problem : SyntaxProblem} (h : (reject problem : Parser α).Fails ts reason notes rest) :
    ∃ t later, ts = t :: later ∧ rest = ts ∧ reason = .rejected ⟨t, problem⟩ ∧ notes = [⟨t, problem⟩] := by
  obtain ⟨h, hreason⟩ := h
  cases ts with
  | nil =>
    cases h
    exact absurd rfl hreason
  | cons t later =>
    cases h
    exact ⟨t, later, rfl, rfl, rfl, rfl⟩

/-- A sequence fails in its first part or in its second. -/
private theorem Fails.bind_cases {p : Parser α} {f : α → Parser β} (h : (p >>= f).Fails ts reason notes rest) :
    p.Fails ts reason notes rest ∨
      ∃ a n₁ mid n₂, p.Yields ts a n₁ mid ∧ (f a).Fails mid reason n₂ rest ∧ notes = n₁ ++ n₂ := by
  obtain ⟨h, hreason⟩ := h
  simp only [bind_def, Parser.bind] at h
  rcases hrun : p.run ts with ⟨result, n₁, mid⟩
  rw [hrun] at h
  cases result with
  | error reason' =>
    cases h
    exact .inl ⟨hrun, hreason⟩
  | ok a =>
    simp only [Reading.mk.injEq] at h
    obtain ⟨hresult, rfl, rfl⟩ := h
    exact .inr ⟨a, n₁, mid, _, hrun, ⟨by rw [← hresult], hreason⟩, rfl⟩

/-- A choice fails in one of two ways. -/
private theorem Fails.branch_cases {select : Token → Option (Parser α)} {otherwise : Parser α}
    (h : (branch select otherwise).Fails ts reason notes rest) :
    (∃ t later p, ts = t :: later ∧ select t = some p ∧ p.Fails later reason notes rest) ∨
      otherwise.Fails ts reason notes rest ∧ ∀ t later, ts = t :: later → t.kind ≠ .eof → select t = none := by
  obtain ⟨h, hreason⟩ := h
  cases ts with
  | nil =>
    cases h
    exact absurd rfl hreason
  | cons t later =>
    simp only [branch] at h
    split at h
    · next ht =>
      refine .inr ⟨⟨h, hreason⟩, ?_⟩
      rintro u later' hu hk
      cases hu
      exact absurd ht hk
    · next ht =>
      split at h
      · next p hp => exact .inl ⟨t, later, p, rfl, hp, h, hreason⟩
      · next hp =>
        refine .inr ⟨⟨h, hreason⟩, ?_⟩
        rintro u later' hu -
        cases hu
        exact hp

private theorem Fails.of_expect {kind : TokenKind} (hk : kind ≠ .eof) {problem : SyntaxProblem}
    (h : (expect kind problem).Fails ts reason notes rest) :
    ∃ t later, ts = t :: later ∧ rest = ts ∧ t.kind ≠ kind ∧ reason = .rejected ⟨t, problem⟩ ∧
      notes = [⟨t, problem⟩] := by
  rcases h.branch_cases with ⟨t, later, p, rfl, hs, hp⟩ | ⟨hreject, hnone⟩
  · split at hs
    · cases hs
      exact absurd hp not_fails_pure
    · cases hs
  · obtain ⟨t, later, rfl, hrest, hreason, hnotes⟩ := hreject.of_reject
    refine ⟨t, later, rfl, hrest, fun ht => ?_, hreason, hnotes⟩
    have := hnone t later rfl (ht ▸ hk)
    rw [if_pos ht] at this
    cases this

/-- Something with a token of a given kind behind it: the token may be missing. -/
private theorem Fails.closed_cases {p : Parser α} {kind : TokenKind} (hk : kind ≠ .eof) {problem : SyntaxProblem}
    {f : α → β} (h : (p >>= fun a => expect kind problem >>= fun _ => pure (f a)).Fails ts reason notes rest) :
    p.Fails ts reason notes rest ∨
      ∃ a n t later, p.Yields ts a n rest ∧ rest = t :: later ∧ t.kind ≠ kind ∧ reason = .rejected ⟨t, problem⟩ ∧
        notes = n ++ [⟨t, problem⟩] := by
  rcases h.bind_cases with hfirst | ⟨a, n₁, mid, n₂, ha, hmore, rfl⟩
  · exact .inl hfirst
  · rcases hmore.bind_cases with hend | ⟨_, _, _, _, -, hpure, -⟩
    · obtain ⟨t, later, rfl, rfl, ht, hreason, rfl⟩ := hend.of_expect hk
      exact .inr ⟨a, n₁, t, later, ha, rfl, ht, hreason, rfl⟩
    · exact absurd hpure not_fails_pure

/-- After an operator of the level, its operand fails or what follows. -/
private theorem chainFrom_eq_error_of_mem {level : Level} {operand : Parser Expr} {left : Expr} {t : Token}
    (ht : t.kind ∈ level.operators) (h : chainFrom level operand left (t :: ts) = ⟨.error reason, notes, rest⟩) :
    operand.run ts = ⟨.error reason, notes, rest⟩ ∨
      ∃ right n₁ mid n₂, operand.Yields ts right n₁ mid ∧
        chainFrom level operand (.binary left t right) mid = ⟨.error reason, n₂, rest⟩ ∧ notes = n₁ ++ n₂ := by
  rw [chainFrom, if_pos ht] at h
  dsimp only at h
  rcases hrun : operand.run ts with ⟨result, n₁, mid⟩
  rw [hrun] at h
  cases result with
  | error reason' =>
    cases h
    exact .inl rfl
  | ok right =>
    simp only [Reading.mk.injEq] at h
    obtain ⟨hresult, rfl, rfl⟩ := h
    exact .inr ⟨right, n₁, mid, _, hrun, by rw [← hresult], rfl⟩

end Parser

/-! ### Rules -/

/-- Nothing is the beginning of a phrase for any symbol. -/
private theorem begins_loosePhrase_nil (s : Symbol) : Begins (LoosePhrase s) [] := by
  have hprimary : LoosePhrase .primary [⟨.nil_, "nil", .nil, 1⟩] := .single (by decide)
  have hfactor : LoosePhrase .factor _ := .factor (.unary hprimary)
  have hequality : LoosePhrase .equality _ := .equality (.comparison (.term hfactor))
  refine ⟨[⟨.nil_, "nil", .nil, 1⟩], by simp, ?_⟩
  cases s with
  | expression => exact .expression (.assignment hequality)
  | assignment => exact .assignment hequality
  | equality => exact hequality
  | comparison => exact .comparison (.term hfactor)
  | term => exact .term hfactor
  | factor => exact hfactor
  | unary => exact .unary hprimary
  | primary => exact hprimary

/-- Whatever a rule yields, it has taken a phrase and noted mild errors. -/
private theorem Rule.loosePhrase_of_yields (r : Rule) {room : Nat} {ts rest : List Token} {e : Expr}
    {notes : List SyntaxError} (h : (r.parser room).Yields ts e notes rest) :
    ∃ taken, ts = taken ++ rest ∧ LoosePhrase r.symbol taken ∧ Mild notes := by
  obtain ⟨taken, hts, hread⟩ := r.readsAs_of_yields h
  exact ⟨taken, hts, hread.loosePhrase, hread.mild⟩

namespace Parser

variable {ts rest : List Token} {reason : Stop} {notes : List SyntaxError}

/-- Where the parser fails, it has taken the beginning of something in the language. -/
def FailsWithin {α : Type} (p : Parser α) (language : List Token → Prop) : Prop :=
  ∀ ⦃ts reason notes rest⦄, p.Fails ts reason notes rest →
    ∃ taken, ts = taken ++ rest ∧ Begins language taken ∧ reason.Explains notes rest

/-- An expression with a token of a given kind behind it, as a part of something else. -/
private theorem FailsWithin.closed {α : Type} {room : Nat}
    (hvalue : (Rule.expression.parser room).FailsWithin (LoosePhrase .expression)) {kind : TokenKind} (hk : kind ≠ .eof)
    {problem : SyntaxProblem} (hproblem : problem ≠ .invalidAssignmentTarget)
    {f : Expr → α} {whole : List Token → Prop} {before : List Token} {closing : Token}
    (hwhole : ∀ us, LoosePhrase .expression us → whole (before ++ (us ++ [closing])))
    (h : (Rule.expression.parser room >>= fun e => expect kind problem >>= fun _ => pure (f e)).Fails
      ts reason notes rest) :
    ∃ taken, ts = taken ++ rest ∧ Begins whole (before ++ taken) ∧ reason.Explains notes rest := by
  rcases h.closed_cases hk with hfails | ⟨e, n, t, later, he, rfl, -, rfl, rfl⟩
  · obtain ⟨us, rfl, hbegins, hexplains⟩ := hvalue hfails
    exact ⟨us, rfl, hbegins.within before [closing] hwhole, hexplains⟩
  · obtain ⟨us, rfl, hus, hmild⟩ := Rule.loosePhrase_of_yields .expression he
    have hbegins : Begins whole (before ++ us) := ⟨[closing], by simp, by simpa using hwhole us hus⟩
    exact ⟨us, rfl, hbegins, (Stop.explains_rejected hproblem t later).after hmild⟩

private theorem begins_of_chainFrom {room : Nat} {level : Level}
    (hoperand : (level.operand.parser room).FailsWithin (LoosePhrase level.operand.symbol)) {left : Expr}
    {before : List Token} (hleft : LoosePhrase (Rule.binary level).symbol before)
    (h : chainFrom level (level.operand.parser room) left ts = ⟨.error reason, notes, rest⟩)
    (hreason : reason ≠ .outOfTokens) :
    ∃ taken, ts = taken ++ rest ∧ Begins (LoosePhrase (Rule.binary level).symbol) (before ++ taken) ∧
      reason.Explains notes rest := by
  -- on the number of tokens left: each operator takes the chain further
  induction hn : ts.length using Nat.strongRecOn generalizing left before ts notes with
  | _ n ih =>
    subst hn
    cases ts with
    | nil =>
      rw [chainFrom] at h
      cases h
      exact absurd rfl hreason
    | cons t ts =>
      by_cases ht : t.kind ∈ level.operators
      · rcases chainFrom_eq_error_of_mem ht h with h | ⟨right, n₁, mid, n₂, hright, hmore, rfl⟩
        · obtain ⟨us, rfl, hus, hexplains⟩ := hoperand ⟨h, hreason⟩
          have hbegins : Begins (LoosePhrase (Rule.binary level).symbol) (before ++ [t] ++ us) :=
            hus.within _ [] fun vs hvs => by simpa using hleft.join ht hvs
          exact ⟨t :: us, rfl, by simpa using hbegins, hexplains⟩
        · obtain ⟨us, rfl, hus, hmild⟩ := level.operand.loosePhrase_of_yields hright
          have hlt : mid.length < (t :: (us ++ mid)).length := by
            rw [List.length_cons, List.length_append]
            omega
          obtain ⟨taken, rfl, hbegins, hexplains⟩ := ih mid.length hlt (hleft.join ht hus) hmore rfl
          exact ⟨t :: (us ++ taken), by simp, by simpa using hbegins, hexplains.after hmild⟩
      · rw [chainFrom_of_not_mem ht] at h
        cases h

end Parser

open Treewalk.Parser in
/-- Where a rule fails, it has taken the beginning of a phrase. -/
theorem Rule.begins_of_fails (r : Rule) (room : Nat) : (r.parser room).FailsWithin (LoosePhrase r.symbol) := by
  induction room generalizing r with
  | zero =>
    intro ts reason notes rest h
    obtain ⟨rfl, rfl, rfl⟩ := Fails.of_stop h
    exact ⟨[], rfl, begins_loosePhrase_nil _, mild_nil⟩
  | succ room ih =>
    intro ts reason notes rest h
    cases r with
    | expression =>
      obtain ⟨taken, rfl, hbegins, hexplains⟩ := ih .assignment h
      exact ⟨taken, rfl, hbegins.mono fun _ => .expression, hexplains⟩
    | assignment =>
      rcases h.bind_cases with h | ⟨target, n₁, mid, n₂, htarget, hbranch, rfl⟩
      · obtain ⟨taken, rfl, hbegins, hexplains⟩ := ih _ h
        exact ⟨taken, rfl, hbegins.mono fun _ => .assignment, hexplains⟩
      obtain ⟨us, rfl, hus, hmild⟩ := Rule.loosePhrase_of_yields _ htarget
      rcases hbranch.branch_cases with ⟨t, later, p, rfl, hs, hp⟩ | ⟨hpure, -⟩
      · split at hs
        · next hequals =>
          cases hs
          rcases hp.bind_cases with h | ⟨value, n₃, mid, n₄, -, hend, -⟩
          · obtain ⟨vs, rfl, hbegins, hexplains⟩ := ih .assignment h
            have hbegins : Begins (LoosePhrase .assignment) (us ++ [t] ++ vs) :=
              hbegins.within _ [] fun ws hws => by simpa using LoosePhrase.assign hus hequals hws
            rw [List.append_assoc] at hbegins
            exact ⟨us ++ t :: vs, by simp, hbegins, hexplains.after hmild⟩
          · -- what comes after the value takes no tokens
            split at hend
            · exact absurd hend not_fails_pure
            · rcases hend.bind_cases with h | ⟨_, _, _, _, -, h, -⟩
              · exact absurd h not_fails_note
              · exact absurd h not_fails_pure
        · cases hs
      · exact absurd hpure not_fails_pure
    | binary level =>
      rcases h.bind_cases with h | ⟨left, n₁, mid, n₂, hleft, ⟨hchain, hreason⟩, rfl⟩
      · obtain ⟨taken, rfl, hbegins, hexplains⟩ := ih _ h
        exact ⟨taken, rfl, hbegins.mono fun _ => LoosePhrase.operand, hexplains⟩
      · obtain ⟨us, rfl, hus, hmild⟩ := Rule.loosePhrase_of_yields _ hleft
        obtain ⟨taken, rfl, hbegins, hexplains⟩ := begins_of_chainFrom (ih level.operand) hus.operand hchain hreason
        exact ⟨us ++ taken, by simp, hbegins, hexplains.after hmild⟩
    | unary =>
      rcases Fails.branch_cases h with ⟨t, later, p, rfl, hs, hp⟩ | ⟨hprimary, -⟩
      · split at hs
        · next ht =>
          cases hs
          rcases hp.bind_cases with h | ⟨_, _, _, _, -, h, -⟩
          · obtain ⟨us, rfl, hbegins, hexplains⟩ := ih .unary h
            have hbegins : Begins (LoosePhrase .unary) ([t] ++ us) :=
              hbegins.within _ [] fun vs hvs => by simpa using LoosePhrase.negate (by simpa [or_comm] using ht) hvs
            exact ⟨t :: us, rfl, hbegins, hexplains⟩
          · exact absurd h not_fails_pure
        · cases hs
      · obtain ⟨us, rfl, hbegins, hexplains⟩ := ih .primary hprimary
        exact ⟨us, rfl, hbegins.mono fun _ => .unary, hexplains⟩
    | primary =>
      rcases Fails.branch_cases h with ⟨t, later, p, rfl, hs, hp⟩ | ⟨hreject, -⟩
      · split at hs
        -- the parentheses are the only case that reads on
        case h_7 ht =>
          cases hs
          let closing : Token := ⟨.rightParen, ")", .nil, 1⟩
          have hwhole : ∀ us, LoosePhrase .expression us → LoosePhrase .primary ([t] ++ (us ++ [closing])) :=
            fun us hus => .grouping ht hus rfl
          obtain ⟨us, rfl, hbegins, hexplains⟩ := (ih .expression).closed (by decide) (by decide) hwhole hp
          exact ⟨t :: us, rfl, hbegins, hexplains⟩
        case h_8 => cases hs
        all_goals
          cases hs
          exact absurd hp not_fails_pure
      · obtain ⟨t, later, rfl, rfl, rfl, rfl⟩ := hreject.of_reject
        exact ⟨[], rfl, begins_loosePhrase_nil _, Stop.explains_rejected (by decide) t later⟩

namespace Parser

/-! ### Statements -/

/-- A statement other than a block is yielded with mild errors. -/
theorem Yields.mild : ∀ {room : Nat} {ts rest : List Token} {s : Stmt} {notes : List SyntaxError},
    (statement room).toParser.Yields ts s notes rest → (∀ t ∈ ts.head?, t.kind ≠ .leftBrace) → Mild notes
  | 0, _, _, _, _, h, _ | 1, _, _, _, _, h, _ | 2, _, _, _, _, h, _ => absurd h not_yields_stop
  | room + 3, ts, rest, s, notes, h, hts => by
    have hvalue : ∀ {us e later}, (Rule.expression.parser room).Yields us e notes later → Mild notes := by
      intro us e later he
      obtain ⟨-, -, -, hmild⟩ := Rule.loosePhrase_of_yields .expression he
      exact hmild
    rcases Yields.anyStatement_cases h with ⟨_, _, _, -, -, -, -, -, rfl⟩ | ⟨_, _, _, _, e, _, -, -, -, he, -⟩ |
      ⟨_, _, e, _, -, he, -⟩ | ⟨opening, _, _, _, hopening, -, -, rfl, -⟩ | ⟨e, _, he, -⟩
    · exact mild_nil
    · exact hvalue he
    · exact hvalue he
    · exact absurd hopening (hts opening rfl)
    · exact hvalue he

/-- A semicolon, to complete what has been begun. -/
private def finalSemicolon : Token := ⟨.semicolon, ";", .nil, 1⟩

/-- What follows the word `var`. -/
private theorem begins_of_declaration {room : Nat} {word : Token} (hword : word.kind = .var_)
    (h : (declaration (Rule.expression.parser room)).Fails ts reason notes rest) :
    ∃ taken, ts = taken ++ rest ∧ Begins LooseDeclaration (word :: taken) ∧ reason.Explains notes rest := by
  rcases h.bind_cases with hmissing | ⟨name, n₁, mid, n₂, hyields, hmore, rfl⟩
  · -- there is no name
    obtain ⟨t, later, rfl, rfl, -, rfl, rfl⟩ := hmissing.of_expect (by decide)
    have hwhole : LooseDeclaration [word, ⟨.identifier, "a", .nil, 1⟩, finalSemicolon] := .declare hword rfl rfl
    exact ⟨[], rfl, ⟨_, by simp, hwhole⟩, Stop.explains_rejected (by decide) t later⟩
  obtain ⟨hname, rfl, rfl⟩ := (yields_expect (by decide)).1 hyields
  have hwhole : ∀ {equals : Token}, equals.kind = .equal → ∀ us, LoosePhrase .expression us →
      LooseDeclaration ([word, name, equals] ++ (us ++ [finalSemicolon])) :=
    fun hequals us hus => .define hword hname hequals hus rfl
  rcases hmore.closed_cases (by decide) with hinit | ⟨initializer, n, t, later, hinit, rfl, -, rfl, rfl⟩
  · -- the initial value cannot be read
    rcases hinit.branch_cases with ⟨equals, later, p, rfl, hs, hp⟩ | ⟨hpure, -⟩
    · split at hs
      · next hequals =>
        cases hs
        rcases hp.bind_cases with hvalue | ⟨_, _, _, _, -, hpure, -⟩
        · obtain ⟨us, rfl, hbegins, hexplains⟩ := Rule.begins_of_fails .expression room hvalue
          exact ⟨name :: equals :: us, rfl, hbegins.within _ _ (hwhole hequals), hexplains⟩
        · exact absurd hpure not_fails_pure
      · cases hs
    · exact absurd hpure not_fails_pure
  · -- there is no semicolon
    have hexplains : (Stop.rejected ⟨t, .expectedSemicolonAfterDeclaration⟩).Explains [_] (t :: later) :=
      Stop.explains_rejected (by decide) t later
    rcases hinit.branch_cases with ⟨equals, us, p, rfl, -, hs, hp⟩ | hnone
    · split at hs
      · next hequals =>
        cases hs
        obtain ⟨e, n₃, mid, n₄, he, hsome, rfl⟩ := yields_bind.1 hp
        obtain ⟨rfl, rfl, rfl⟩ := yields_pure.1 hsome
        obtain ⟨us, rfl, hus, hmild⟩ := Rule.loosePhrase_of_yields .expression he
        refine ⟨name :: equals :: us, rfl, ⟨[finalSemicolon], by simp, ?_⟩, ?_⟩
        · simpa using hwhole hequals us hus
        · simpa using hexplains.after hmild
      · cases hs
    · obtain ⟨rfl, rfl, rfl⟩ := yields_pure.1 hnone
      exact ⟨[name], rfl, ⟨[finalSemicolon], by simp, .declare hword hname rfl⟩, hexplains⟩

/-- Where a statement other than a block fails, it has taken the beginning of a declaration. -/
theorem begins_of_fails : ∀ {room : Nat} {ts rest : List Token} {reason : Stop} {notes : List SyntaxError},
    (∀ t ∈ ts.head?, t.kind ≠ .leftBrace) → (statement room).toParser.Fails ts reason notes rest →
      ∃ taken, ts = taken ++ rest ∧ Begins LooseDeclaration taken ∧ reason.Explains notes rest
  | 0, _, _, _, _, _, h | 1, _, _, _, _, _, h | 2, _, _, _, _, _, h => by
    obtain ⟨rfl, rfl, rfl⟩ := Fails.of_stop h
    have hbegins : Begins LooseDeclaration [] :=
      (begins_loosePhrase_nil .expression).within [] [finalSemicolon] fun us hus => .expression hus rfl
    exact ⟨[], rfl, hbegins, mild_nil⟩
  | room + 3, ts, rest, reason, notes, hts, h => by
    have hvalue := Rule.begins_of_fails .expression room
    rcases Fails.branch_cases h with ⟨t, later, p, rfl, hs, hp⟩ | ⟨heffect, -⟩
    · split at hs
      · next hword =>
        cases hs
        obtain ⟨taken, rfl, hbegins, hexplains⟩ := begins_of_declaration hword hp
        exact ⟨t :: taken, rfl, hbegins, hexplains⟩
      · next hword =>
        cases hs
        have hwhole : ∀ us, LoosePhrase .expression us → LooseDeclaration ([t] ++ (us ++ [finalSemicolon])) :=
          fun us hus => .print hword hus rfl
        obtain ⟨taken, rfl, hbegins, hexplains⟩ := hvalue.closed (by decide) (by decide) hwhole hp
        exact ⟨t :: taken, rfl, hbegins, hexplains⟩
      · next hopening => exact absurd hopening (hts t rfl)
      · cases hs
    · have hwhole : ∀ us, LoosePhrase .expression us → LooseDeclaration ([] ++ (us ++ [finalSemicolon])) :=
        fun us hus => .expression hus rfl
      exact hvalue.closed (by decide) (by decide) hwhole heffect

end Parser

end Treewalk
