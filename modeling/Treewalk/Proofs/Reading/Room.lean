import Treewalk.Proofs.Reading.Orderly

/-!
# The nesting allowance

The allowance only ever cuts a reading short.  A reading within some allowance either shows that it was cut short, or
it is the reading within every larger allowance as well.

* `Parser.Below`: one parser agrees with another wherever it was not cut short.
* `Rule.parser_below`, `Parser.statement_below`: a smaller allowance is below a larger one.
-/

namespace Treewalk

/-- The reading ran into the nesting limit, or there is nothing left in which to say so. -/
def Reading.Truncated {α : Type} (reading : Reading α) : Prop :=
  reading.result = .error .tooDeep ∨ (∃ e ∈ reading.errors, e.problem = .nestedTooDeep) ∨ reading.rest = []

namespace Reading

variable {α β : Type}

private theorem Truncated.of_left {reading : Reading α} {a : α} {result : Except Stop β} {later : List SyntaxError}
    {rest : List Token} (h : reading.Truncated) (ha : reading.result = .ok a) (hs : rest <:+ reading.rest) :
    (⟨result, reading.errors ++ later, rest⟩ : Reading β).Truncated := by
  rcases h with h | ⟨n, hn, hp⟩ | h
  · simp [ha] at h
  · exact .inr (.inl ⟨n, List.mem_append_left _ hn, hp⟩)
  · rw [h] at hs
    exact .inr (.inr (List.suffix_nil.1 hs))

private theorem Truncated.of_right {reading : Reading α} {result : Except Stop β} {earlier : List SyntaxError}
    (h : reading.Truncated) (hr : reading.result = .error .tooDeep → result = .error .tooDeep) :
    (⟨result, earlier ++ reading.errors, reading.rest⟩ : Reading β).Truncated := by
  rcases h with h | ⟨n, hn, hp⟩ | h
  · exact .inl (hr h)
  · exact .inr (.inl ⟨n, List.mem_append_right _ hn, hp⟩)
  · exact .inr (.inr h)

private theorem Truncated.of_error {reading : Reading α} {reason : Stop} (h : reading.Truncated)
    (hr : reading.result = .error reason) :
    (⟨.error reason, reading.errors, reading.rest⟩ : Reading β).Truncated := by
  rcases h with h | h
  · rw [hr] at h
    obtain rfl := Except.error.inj h
    exact .inl rfl
  · exact .inr h

end Reading

namespace Parser

variable {α β : Type}

/-- Wherever the first parser is not cut short, the second one reads the same. -/
def Below (p q : Parser α) : Prop :=
  ∀ ts, (p.run ts).Truncated ∨ p.run ts = q.run ts

private theorem below_refl (p : Parser α) : p.Below p := fun _ => .inr rfl

private theorem below_of_tooDeep (q : Parser α) : (stop .tooDeep : Parser α).Below q := fun _ => .inl (.inl rfl)

/-! ### Parsers put together -/

private theorem Below.bind {p q : Parser α} {f g : α → Parser β} (hpq : p.Below q) (hfg : ∀ a, (f a).Below (g a)) :
    (p >>= f).Below (q >>= g) := by
  intro ts
  simp only [bind_def, Parser.bind]
  rcases hpq ts with hcut | heq
  -- either the first part was cut short, or both go on from the same tokens
  · left
    split
    · next a ha => exact hcut.of_left ha ((f a).rest_suffix _)
    · next reason hr => exact hcut.of_error hr
  · rw [← heq]
    split
    · next a _ =>
      rcases hfg a (p.run ts).rest with hcut | hrun
      · exact .inl (hcut.of_right id)
      · right; rw [hrun]
    · exact .inr rfl

private theorem Below.branch {select select' : Token → Option (Parser α)} {p q : Parser α}
    (hs : ∀ t, Option.Rel Below (select t) (select' t)) (hpq : p.Below q) :
    (branch select p).Below (branch select' q) := by
  intro ts
  cases ts with
  | nil => exact .inr rfl
  | cons t ts =>
    simp only [Parser.branch]
    split
    · exact hpq (t :: ts)
    · have ht := hs t
      revert ht
      generalize select t = choice, select' t = choice'
      rintro (h | _)
      · exact h ts
      · exact hpq (t :: ts)

private theorem Below.chainFrom {p q : Parser Expr} (hpq : p.Below q) (level : Level) (left : Expr) (ts : List Token) :
    (chainFrom level p left ts).Truncated ∨ chainFrom level p left ts = chainFrom level q left ts := by
  fun_induction Parser.chainFrom level p left ts with
  | case1 left => right; rw [Parser.chainFrom]
  | case2 left t ts ht reading right hr more ih =>
    conv => rhs; rhs; rw [Parser.chainFrom, if_pos ht]
    rcases hpq ts with hcut | heq
    · exact .inl (hcut.of_left hr (chainFrom_rest_suffix level p (.binary left t right) reading.rest))
    · dsimp only
      rw [← heq, show (p.run ts).result = .ok right from hr]
      rcases ih with hcut | hmore
      · exact .inl (hcut.of_right id)
      · right
        show (⟨more.result, _, more.rest⟩ : Reading Expr) = _
        rw [show more = _ from hmore]
  | case3 left t ts ht reading reason hr =>
    conv => rhs; rhs; rw [Parser.chainFrom, if_pos ht]
    rcases hpq ts with hcut | heq
    · exact .inl (hcut.of_error hr)
    · dsimp only
      rw [← heq, show (p.run ts).result = .error reason from hr]
      exact .inr rfl
  | case4 left t ts ht => right; rw [Parser.chainFrom, if_neg ht]

private theorem Below.chain {p q : Parser Expr} (hpq : p.Below q) (level : Level) :
    (chain level p).Below (chain level q) :=
  Below.bind hpq fun left ts => hpq.chainFrom level left ts

end Parser

open Treewalk.Parser in
theorem Rule.parser_below (r : Rule) {room room' : Nat} (h : room ≤ room') :
    (r.parser room).Below (r.parser room') := by
  induction room generalizing r room' with
  | zero => exact below_of_tooDeep _
  | succ room ih =>
    obtain ⟨room', rfl⟩ : ∃ k, room' = k + 1 := ⟨room' - 1, by omega⟩
    have ih := fun r => ih r (Nat.le_of_succ_le_succ h)
    cases r with
    | expression => exact ih .assignment
    | assignment =>
      refine Below.bind (ih _) fun target => Below.branch (fun t => ?_) (below_refl _)
      split
      · exact .some (Below.bind (ih _) fun value => below_refl _)
      · exact .none
    | binary level => exact (ih _).chain level
    | unary =>
      refine Below.branch (fun t => ?_) (ih _)
      split
      · exact .some (Below.bind (ih _) fun e => below_refl _)
      · exact .none
    | primary =>
      refine Below.branch (fun t => ?_) (below_refl _)
      cases t.kind with
      | leftParen => exact .some (Below.bind (ih _) fun e => below_refl _)
      | _ => first | exact .none | exact .some (below_refl _)

namespace Parser

/-! ### Statements -/

/-- Recovery says when a statement was cut short. -/
private theorem truncated_recover {reading : Reading Stmt} (h : reading.Truncated) : (recover reading).Truncated := by
  obtain ⟨result, errors, rest⟩ := reading
  rcases h with h | ⟨n, hn, hp⟩ | h
  · obtain rfl : result = .error .tooDeep := h
    cases rest with
    | nil => exact .inr (.inr rfl)
    | cons t rest =>
      refine .inr (.inl ⟨⟨t, .nestedTooDeep⟩, ?_, rfl⟩)
      show _ ∈ (giveUp _ _).errors
      rw [errors_giveUp]
      simp
  · refine .inr (.inl ⟨n, ?_, hp⟩)
    unfold recover
    split
    · rw [errors_giveUp]; exact hn
    · rw [errors_giveUp]; exact List.mem_append_left _ hn
    · exact hn
    · exact hn
  · obtain rfl : rest = [] := h
    have hs := recover_rest_suffix ⟨result, errors, []⟩
    exact .inr (.inr (List.suffix_nil.1 hs))

private theorem Below.recovering {p q : Parser Stmt} (hpq : p.Below q) : (recovering p).Below (recovering q) := by
  intro ts
  rcases hpq ts with ht | heq
  · exact .inl (truncated_recover ht)
  · right
    show recover (p.run ts) = recover (q.run ts)
    rw [heq]

private theorem Below.statements {p q : Item} (hpq : p.toParser.Below q.toParser) (closing : Option TokenKind) :
    (statements closing p).Below (statements closing q) := by
  intro ts
  show (statementsFrom closing p ts).Truncated ∨ statementsFrom closing p ts = statementsFrom closing q ts
  fun_induction statementsFrom closing p ts with
  | case1 => right; rw [statementsFrom]
  | case2 t ts ht => right; rw [statementsFrom, dif_pos ht]
  | case3 t ts ht reading s hs more ih =>
    rcases hpq.recovering (t :: ts) with hcut | heq
    · exact .inl (hcut.of_left hs (statementsFrom_rest_suffix closing p reading.rest))
    · rcases ih with hcut | hmore
      · refine .inl (hcut.of_right fun hm => ?_)
        rw [show more.result = _ from hm]
        rfl
      · right
        have hq : (Parser.recovering q.toParser).run (t :: ts) = ⟨.ok s, reading.errors, reading.rest⟩ := by
          rw [← heq, ← hs]
        rw [statementsFrom_of_ok ht hq]
        show (⟨more.result.map _, reading.errors ++ more.errors, more.rest⟩ : Reading _) = _
        rw [show more = _ from hmore]
  | case4 t ts ht reading reason hr =>
    rcases hpq.recovering (t :: ts) with hcut | heq
    · exact .inl (hcut.of_error hr)
    · right
      rw [statementsFrom_of_error ht (by rw [← heq, ← hr])]

private theorem Below.anyStatement {value value' : Parser Expr} {body body' : Parser (List Stmt)}
    (hv : value.Below value') (hb : body.Below body') :
    (anyStatement value body).Below (anyStatement value' body') := by
  refine Below.branch (fun t => ?_) (Below.bind hv fun e => below_refl _)
  cases t.kind with
  | var_ =>
    refine .some (Below.bind (below_refl _) fun name => Below.bind ?_ fun initializer => below_refl _)
    refine Below.branch (fun t => ?_) (below_refl _)
    split
    · exact .some (Below.bind hv fun e => below_refl _)
    · exact .none
  | print_ => exact .some (Below.bind hv fun e => below_refl _)
  | leftBrace => exact .some (Below.bind hb fun ss => below_refl _)
  | _ => exact .none

theorem statement_below : ∀ {room room' : Nat}, room ≤ room' →
    (statement room).toParser.Below (statement room').toParser
  | 0, _, _ => below_of_tooDeep _
  | 1, _, _ => below_of_tooDeep _
  | 2, _, _ => below_of_tooDeep _
  | room + 3, room' + 3, h =>
    Below.anyStatement (Rule.parser_below _ (by omega)) (Below.statements (statement_below (by omega)) _)

/-- Programs within a smaller and a larger allowance. -/
theorem program_below {room room' : Nat} (h : room ≤ room') : (program room).Below (program room') :=
  Below.statements (statement_below h) none

end Parser

end Treewalk
