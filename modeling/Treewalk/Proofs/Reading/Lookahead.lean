import Treewalk.Proofs.Reading.Compositional
import Treewalk.Proofs.Reading.Success

/-!
# One token ahead

A parser of the grammar looks at one token beyond those that it takes, and no further.  So what it does up to some token
is the same whatever stands behind that token.

* `Parser.Local`: the tokens behind the first one that is left do not matter.
* `Parser.local_compositional`: the rules of expressions are of this kind.
* `Parser.statement_local`: so is a statement that is no block.
-/

namespace Treewalk

namespace Parser

variable {α β : Type}

/-- The tokens behind the first one that is left do not matter. -/
def Local (p : Parser α) : Prop :=
  ∀ ⦃us t later result errors⦄, p.run (us ++ t :: later) = ⟨result, errors, t :: later⟩ →
    ∀ later', p.run (us ++ t :: later') = ⟨result, errors, t :: later'⟩

/-! ### Parsers put together -/

/-- A parser that takes nothing and looks at the first token at most. -/
private theorem local_of_takes_nothing {p : Parser α} (hrest : ∀ ts, (p.run ts).rest = ts)
    (hhead : ∀ t later later', (p.run (t :: later)).result = (p.run (t :: later')).result ∧
      (p.run (t :: later)).errors = (p.run (t :: later')).errors) : p.Local := by
  intro us t later result errors h later'
  have hus : us ++ t :: later = t :: later := by rw [← hrest (us ++ t :: later), h]
  obtain rfl : us = [] := List.append_left_eq_self.1 hus
  obtain ⟨hresult, herrors⟩ := hhead t later later'
  rw [List.nil_append] at h ⊢
  rw [h] at hresult herrors
  have hrest' := hrest (t :: later')
  rcases hrun : p.run (t :: later') with ⟨result', errors', rest'⟩
  rw [hrun] at hresult herrors hrest'
  obtain rfl : result = result' := hresult
  obtain rfl : errors = errors' := herrors
  obtain rfl : rest' = t :: later' := hrest'
  rfl

private theorem local_pure (a : α) : (pure a : Parser α).Local :=
  local_of_takes_nothing (fun _ => rfl) fun _ _ _ => ⟨rfl, rfl⟩

private theorem local_stop (reason : Stop) : (stop reason : Parser α).Local :=
  local_of_takes_nothing (fun _ => rfl) fun _ _ _ => ⟨rfl, rfl⟩

private theorem local_note (error : SyntaxError) : (note error).Local :=
  local_of_takes_nothing (fun _ => rfl) fun _ _ _ => ⟨rfl, rfl⟩

private theorem local_reject (problem : SyntaxProblem) : (reject problem : Parser α).Local := by
  refine local_of_takes_nothing (fun ts => ?_) fun _ _ _ => ⟨rfl, rfl⟩
  cases ts <;> rfl

/-- What is left may begin with some of the tokens that stay the same. -/
private theorem Local.run_append {p : Parser α} (hp : p.Local) {us vs later : List Token} {t : Token}
    {result : Except Stop α} {errors : List SyntaxError}
    (h : p.run (us ++ t :: later) = ⟨result, errors, vs ++ t :: later⟩) (later' : List Token) :
    p.run (us ++ t :: later') = ⟨result, errors, vs ++ t :: later'⟩ := by
  obtain ⟨taken, htaken⟩ : vs ++ t :: later <:+ us ++ t :: later := by
    have := p.rest_suffix (us ++ t :: later)
    rwa [h] at this
  rw [← List.append_assoc] at htaken
  obtain rfl := List.append_cancel_right htaken
  cases vs with
  | nil =>
    rw [List.append_nil] at h ⊢
    exact hp h later'
  | cons v vs =>
    simp only [List.append_assoc, List.cons_append] at h ⊢
    exact hp h (vs ++ t :: later')

/-- A sequence, if its second part is of this kind on what the first part may leave. -/
private theorem Local.run_bind {p : Parser α} {f : α → Parser β} (hp : p.Local) {us later later' : List Token}
    {t : Token} {result : Except Stop β} {errors : List SyntaxError}
    (hf : ∀ a vs n, vs.length ≤ us.length → (f a).run (vs ++ t :: later) = ⟨result, n, t :: later⟩ →
      (f a).run (vs ++ t :: later') = ⟨result, n, t :: later'⟩)
    (h : (p >>= f).run (us ++ t :: later) = ⟨result, errors, t :: later⟩) :
    (p >>= f).run (us ++ t :: later') = ⟨result, errors, t :: later'⟩ := by
  simp only [bind_def, Parser.bind] at h ⊢
  rcases hrun : p.run (us ++ t :: later) with ⟨first, n₁, mid⟩
  rw [hrun] at h
  cases first with
  | error reason =>
    simp only [Reading.mk.injEq] at h
    obtain ⟨rfl, rfl, rfl⟩ := h
    rw [hp hrun later']
  | ok a =>
    rcases hnext : (f a).run mid with ⟨second, n₂, rest⟩
    simp only [hnext, Reading.mk.injEq] at h
    obtain ⟨rfl, rfl, rfl⟩ := h
    -- what the second part leaves is still there when it begins
    obtain ⟨vs, rfl⟩ : t :: later <:+ mid := by
      have hsuffix := (f a).rest_suffix mid
      rwa [hnext] at hsuffix
    have hle : vs.length ≤ us.length := by
      have hlength := p.length_rest_le (us ++ t :: later)
      rw [hrun, List.length_append, List.length_append] at hlength
      omega
    rw [hp.run_append hrun later']
    dsimp only
    rw [hf a vs n₂ hle hnext]

private theorem Local.bind {p : Parser α} {f : α → Parser β} (hp : p.Local) (hf : ∀ a, (f a).Local) : (p >>= f).Local :=
  fun _ _ _ _ _ h later' => hp.run_bind (fun a _ _ _ hnext => hf a hnext later') h

/-- The first token decides about a choice. -/
private theorem branch_run_cases (select : Token → Option (Parser α)) (otherwise : Parser α) (t : Token) :
    (∃ p ∈ select t, ∀ later, (branch select otherwise).run (t :: later) = p.run later) ∨
      ∀ later, (branch select otherwise).run (t :: later) = otherwise.run (t :: later) := by
  by_cases ht : t.kind = .eof
  · exact .inr fun later => by simp only [branch, if_pos ht]
  · cases hs : select t with
    | none => exact .inr fun later => by simp only [branch, if_neg ht, hs]
    | some p => exact .inl ⟨p, rfl, fun later => by simp only [branch, if_neg ht, hs]⟩

private theorem Local.branch {select : Token → Option (Parser α)} {otherwise : Parser α}
    (hs : ∀ t, ∀ p ∈ select t, p.Local) (ho : otherwise.Local) : (branch select otherwise).Local := by
  intro us t later result errors h later'
  cases us with
  | nil =>
    rw [List.nil_append] at h ⊢
    rcases branch_run_cases select otherwise t with ⟨p, -, hrun⟩ | hrun
    · -- a branch that has been taken does not leave its token
      rw [hrun] at h
      have hle := p.length_rest_le later
      rw [h, List.length_cons] at hle
      omega
    · rw [hrun] at h ⊢
      rw [← List.nil_append (t :: later)] at h
      exact ho h later'
  | cons u us =>
    rw [List.cons_append] at h ⊢
    rcases branch_run_cases select otherwise u with ⟨p, hp, hrun⟩ | hrun
    · rw [hrun] at h ⊢
      exact hs u p hp h later'
    · rw [hrun] at h ⊢
      rw [← List.cons_append] at h ⊢
      exact ho h later'

/-- What comes after an operand, as a parser. -/
private def afterOperand (level : Level) (operand : Parser Expr) (left : Expr) : Parser Expr where
  run := chainFrom level operand left
  rest_suffix := chainFrom_rest_suffix level operand left

/-- After an operator of the level comes a sequence: its operand and what follows. -/
private theorem afterOperand_run_of_mem {level : Level} {operand : Parser Expr} {left : Expr} {t : Token}
    {ts : List Token} (ht : t.kind ∈ level.operators) :
    (afterOperand level operand left).run (t :: ts) =
      (operand >>= fun right => afterOperand level operand (.binary left t right)).run ts := by
  show chainFrom level operand left (t :: ts) = _
  simp only [chainFrom, if_pos ht, bind_def, Parser.bind]
  rcases operand.run ts with ⟨result, errors, rest⟩
  cases result <;> rfl

private theorem Local.afterOperand {operand : Parser Expr} (h : operand.Local) (level : Level) (left : Expr) :
    (afterOperand level operand left).Local := by
  intro us t later result errors hrun later'
  -- on the number of tokens taken: each operator takes the chain further
  induction hn : us.length using Nat.strongRecOn generalizing us left errors with
  | _ n ih =>
    subst hn
    cases us with
    | nil =>
      rw [List.nil_append] at hrun ⊢
      by_cases ht : t.kind ∈ level.operators
      · -- an operator that has been taken is not left
        rw [afterOperand_run_of_mem ht] at hrun
        have hle := length_rest_le (operand >>= fun right => Parser.afterOperand level operand (.binary left t right))
          later
        rw [hrun, List.length_cons] at hle
        omega
      · rw [show (Parser.afterOperand level operand left).run (t :: later) = _ from chainFrom_of_not_mem ht] at hrun
        cases hrun
        exact chainFrom_of_not_mem ht
    | cons u us =>
      rw [List.cons_append] at hrun ⊢
      by_cases hu : u.kind ∈ level.operators
      · rw [afterOperand_run_of_mem hu] at hrun ⊢
        refine h.run_bind (fun right vs n hle hnext => ?_) hrun
        exact ih vs.length (by rw [List.length_cons]; omega) _ hnext rfl
      · rw [show (Parser.afterOperand level operand left).run _ = _ from chainFrom_of_not_mem hu] at hrun
        simp only [Reading.mk.injEq] at hrun
        obtain ⟨-, -, hrest⟩ := hrun
        have hlength := congrArg List.length hrest
        simp only [List.length_cons, List.length_append] at hlength
        omega

theorem local_compositional : Compositional fun _ => Local where
  pure := local_pure
  tooDeep := @fun _ => local_stop .tooDeep
  note _ := local_note _
  reject _ := local_reject _
  bind := Local.bind
  branch := Local.branch
  chain h level := Local.bind h fun left => h.afterOperand level left

/-! ### Statements -/

/-- How the statements of a block are read matters for blocks only. -/
private theorem anyStatement_run_eq {value : Parser Expr} {body body' : Parser (List Stmt)} {ts : List Token}
    (hts : ∀ t ∈ ts.head?, t.kind ≠ .leftBrace) :
    (anyStatement value body).run ts = (anyStatement value body').run ts := by
  cases ts with
  | nil => rfl
  | cons t ts =>
    have ht : t.kind ≠ .leftBrace := hts t rfl
    simp only [anyStatement, branch]
    split
    · rfl
    · cases hk : t.kind with
      | leftBrace => exact absurd hk ht
      | _ => rfl

theorem head?_append_cons (us later : List Token) (t : Token) : (us ++ t :: later).head? = (us ++ [t]).head? := by
  cases us <;> rfl

/-- Up to some token, a statement other than a block is read in the same way whatever stands behind the token. -/
theorem statement_local : ∀ {room : Nat} {us later : List Token} {t : Token} {result : Except Stop Stmt}
    {errors : List SyntaxError}, (∀ u ∈ (us ++ [t]).head?, u.kind ≠ .leftBrace) →
    (statement room).run (us ++ t :: later) = ⟨result, errors, t :: later⟩ →
      ∀ later', (statement room).run (us ++ t :: later') = ⟨result, errors, t :: later'⟩
  | 0, _, _, _, _, _, _, h | 1, _, _, _, _, _, _, h | 2, _, _, _, _, _, _, h => local_stop _ h
  | room + 3, us, later, t, _, _, hopen, h => fun later' => by
    have hlocal : (anyStatement (Rule.expression.parser room) (stop .tooDeep)).Local :=
      local_compositional.anyStatement (local_compositional.rule _ _) (local_stop _)
    have hhead : ∀ later, ∀ u ∈ (us ++ t :: later).head?, u.kind ≠ .leftBrace := by
      intro later
      rwa [head?_append_cons]
    show (anyStatement _ _).run _ = _
    have h : (anyStatement _ _).run _ = _ := h
    rw [anyStatement_run_eq (hhead _)] at h ⊢
    exact hlocal h later'

end Parser

end Treewalk
