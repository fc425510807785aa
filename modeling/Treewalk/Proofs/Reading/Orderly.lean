import Treewalk.Proofs.Reading.Compositional
import Treewalk.Proofs.Reading.Success

/-!
# Orderly parsers

A few things hold of every parser of the grammar.  It never takes the end mark, so that an end mark among the tokens
is still there afterwards; with an end mark ahead it never runs out of tokens; and if it rejects the tokens, it has
noted the error, which is something else than an invalid assignment target.

* `Parser.orderly_compositional`, `Parser.statement_orderly`: the parsers of the grammar are orderly.
* `Parser.program_result`: with an end mark ahead, a program is always read to some result.
-/

namespace Treewalk

/-- There is an end mark among the tokens. -/
def HasEnd (ts : List Token) : Prop := ∃ t ∈ ts, t.kind = .eof

theorem HasEnd.ne_nil {ts : List Token} (h : HasEnd ts) : ts ≠ [] := by
  obtain ⟨t, ht, -⟩ := h
  exact List.ne_nil_of_mem ht

theorem HasEnd.tail {t : Token} {ts : List Token} (h : HasEnd (t :: ts)) (ht : t.kind ≠ .eof) : HasEnd ts := by
  obtain ⟨u, hu, he⟩ := h
  rcases List.mem_cons.1 hu with rfl | hu
  · exact absurd he ht
  · exact ⟨u, hu, he⟩

theorem HasEnd.append {us : List Token} (h : HasEnd us) (ts : List Token) : HasEnd (ts ++ us) := by
  obtain ⟨t, ht, he⟩ := h
  exact ⟨t, List.mem_append_right _ ht, he⟩

theorem Level.ne_eof (level : Level) {kind : TokenKind} (h : kind ∈ level.operators) : kind ≠ .eof := by
  rintro rfl
  cases level <;> simp [operators] at h

namespace Parser

variable {α β : Type}

/-- The parser leaves end marks, does not run out of tokens before one, and notes what it rejects.  An invalid
assignment target is no reason to reject anything. -/
structure Orderly (p : Parser α) : Prop where
  keeps_end : ∀ {ts}, HasEnd ts → HasEnd (p.run ts).rest
  not_out : ∀ {ts}, HasEnd ts → (p.run ts).result ≠ .error .outOfTokens
  notes : ∀ {ts error}, (p.run ts).result = .error (.rejected error) →
    error ∈ (p.run ts).errors ∧ error.problem ≠ .invalidAssignmentTarget

/-! ### Parsers put together -/

theorem orderly_pure (a : α) : (pure a : Parser α).Orderly where
  keeps_end h := h
  not_out _ h := by cases h
  notes h := by cases h

theorem orderly_tooDeep : (stop .tooDeep : Parser α).Orderly where
  keeps_end h := h
  not_out _ h := by cases h
  notes h := by cases h

theorem orderly_note (error : SyntaxError) : (note error).Orderly where
  keeps_end h := h
  not_out _ h := by cases h
  notes h := by cases h

theorem orderly_reject {problem : SyntaxProblem} (hp : problem ≠ .invalidAssignmentTarget) :
    (reject problem : Parser α).Orderly where
  keeps_end {ts} h := by cases ts <;> exact h
  not_out {ts} h hr := by
    cases ts with
    | nil => exact h.ne_nil rfl
    | cons t ts => cases hr
  notes {ts error} h := by
    cases ts with
    | nil => cases h
    | cons t ts => cases h; exact ⟨List.mem_singleton_self _, hp⟩

theorem Orderly.bind {p : Parser α} {f : α → Parser β} (hp : p.Orderly) (hf : ∀ a, (f a).Orderly) :
    (p >>= f).Orderly where
  keeps_end {ts} h := by
    simp only [bind_def, Parser.bind]
    split
    · next a _ => exact (hf a).keeps_end (hp.keeps_end h)
    · exact hp.keeps_end h
  not_out {ts} h hr := by
    simp only [bind_def, Parser.bind] at hr
    split at hr
    · next a _ => exact (hf a).not_out (hp.keeps_end h) hr
    · next reason he =>
      obtain rfl := Except.error.inj hr
      exact hp.not_out h he
  notes {ts error} hr := by
    simp only [bind_def, Parser.bind] at hr ⊢
    split at hr
    · next a _ => exact ⟨List.mem_append_right _ ((hf a).notes hr).1, ((hf a).notes hr).2⟩
    · next reason he =>
      obtain rfl := Except.error.inj hr
      exact hp.notes he

theorem Orderly.branch {select : Token → Option (Parser α)} {otherwise : Parser α}
    (hs : ∀ t, ∀ p ∈ select t, p.Orderly) (ho : otherwise.Orderly) : (branch select otherwise).Orderly where
  keeps_end {ts} h := by
    cases ts with
    | nil => exact h
    | cons t ts =>
      simp only [Parser.branch]
      split
      · exact ho.keeps_end h
      · next ht =>
        split
        · next p hp => exact (hs t p hp).keeps_end (h.tail ht)
        · exact ho.keeps_end h
  not_out {ts} h hr := by
    cases ts with
    | nil => exact h.ne_nil rfl
    | cons t ts =>
      simp only [Parser.branch] at hr
      split at hr
      · exact ho.not_out h hr
      · next ht =>
        split at hr
        · next p hp => exact (hs t p hp).not_out (h.tail ht) hr
        · exact ho.not_out h hr
  notes {ts error} hr := by
    cases ts with
    | nil => cases hr
    | cons t ts =>
      simp only [Parser.branch] at hr ⊢
      split at hr
      · next ht => simpa only [ht, if_true] using ho.notes hr
      · next ht =>
        simp only [ht, if_false]
        split at hr
        · next p hp => exact (hs t p hp).notes hr
        · exact ho.notes hr

private theorem Orderly.chainFrom {operand : Parser Expr} (h : operand.Orderly) (level : Level) (left : Expr) :
    (⟨chainFrom level operand left, chainFrom_rest_suffix level operand left⟩ : Parser Expr).Orderly where
  keeps_end {ts} he := by
    show HasEnd (Parser.chainFrom level operand left ts).rest
    fun_induction Parser.chainFrom level operand left ts with
    | case1 => exact he
    | case2 left t ts ht reading right _ more ih => exact ih (h.keeps_end (he.tail (level.ne_eof ht)))
    | case3 left t ts ht reading reason _ => exact h.keeps_end (he.tail (level.ne_eof ht))
    | case4 => exact he
  not_out {ts} he hr := by
    have hr : (Parser.chainFrom level operand left ts).result = .error .outOfTokens := hr
    fun_induction Parser.chainFrom level operand left ts with
    | case1 => exact he.ne_nil rfl
    | case2 left t ts ht reading right _ more ih =>
      exact ih (h.keeps_end (he.tail (level.ne_eof ht))) hr hr
    | case3 left t ts ht reading reason hs =>
      obtain rfl := Except.error.inj hr
      exact h.not_out (he.tail (level.ne_eof ht)) hs
    | case4 => cases hr
  notes {ts error} hr := by
    have hr : (Parser.chainFrom level operand left ts).result = .error (.rejected error) := hr
    show error ∈ (Parser.chainFrom level operand left ts).errors ∧ _
    fun_induction Parser.chainFrom level operand left ts with
    | case1 => cases hr
    | case2 left t ts _ reading right _ more ih =>
      exact ⟨List.mem_append_right _ (ih hr hr).1, (ih hr hr).2⟩
    | case3 left t ts _ reading reason hs =>
      obtain rfl := Except.error.inj hr
      exact h.notes hs
    | case4 => cases hr

theorem orderly_compositional : Compositional fun _ => Orderly where
  pure := orderly_pure
  tooDeep := orderly_tooDeep
  note _ := orderly_note _
  reject := orderly_reject
  bind := Orderly.bind
  branch := Orderly.branch
  chain h level := Orderly.bind h fun left => h.chainFrom level left

/-! ### Statements -/

private theorem boundary?_hasEnd {last : TokenKind} {ts : List Token} (h : HasEnd ts) :
    ∃ rest, boundary? last ts = some rest ∧ HasEnd rest := by
  induction ts generalizing last with
  | nil => exact absurd rfl h.ne_nil
  | cons t ts ih =>
    rw [boundary?]
    split
    · exact ⟨_, rfl, h⟩
    · next hs => exact ih (h.tail fun hk => hs (.inl hk))

/-- With an end mark ahead there is a place at which to resume. -/
theorem resume?_hasEnd {ts : List Token} (h : HasEnd ts) : ∃ rest, resume? ts = some rest ∧ HasEnd rest := by
  cases ts with
  | nil => exact absurd rfl h.ne_nil
  | cons t ts =>
    rw [resume?]
    split
    · exact ⟨_, rfl, h⟩
    · next ht => exact boundary?_hasEnd (h.tail ht)

/-- Giving up on a statement with an end mark ahead leaves an empty slot. -/
private theorem giveUp_hasEnd {ts : List Token} (h : HasEnd ts) (errors : List SyntaxError) :
    ∃ rest, giveUp errors ts = ⟨.ok .skipped, errors, rest⟩ ∧ HasEnd rest := by
  obtain ⟨rest, hr, he⟩ := resume?_hasEnd h
  exact ⟨rest, by rw [giveUp, hr], he⟩

theorem errors_giveUp (errors : List SyntaxError) (ts : List Token) :
    (giveUp errors ts).errors = errors := by
  unfold giveUp
  split <;> rfl

theorem recover_rejected (error : SyntaxError) (errors : List SyntaxError) (rest : List Token) :
    recover ⟨.error (.rejected error), errors, rest⟩ = giveUp errors rest := rfl

theorem recover_tooDeep (errors : List SyntaxError) (t : Token) (rest : List Token) :
    recover ⟨.error .tooDeep, errors, t :: rest⟩ = giveUp (errors ++ [⟨t, .nestedTooDeep⟩]) (t :: rest) := rfl

/-- With an end mark ahead a statement is read or passed over. -/
theorem Orderly.recovering_result {item : Parser Stmt} (h : item.Orderly) {ts : List Token} (hts : HasEnd ts) :
    ∃ s, ((recovering item).run ts).result = .ok s ∧ HasEnd ((recovering item).run ts).rest := by
  show ∃ s, (recover (item.run ts)).result = .ok s ∧ HasEnd (recover (item.run ts)).rest
  have hend := h.keeps_end hts
  have hout := h.not_out hts
  rcases hrun : item.run ts with ⟨result, errors, rest⟩
  rw [hrun] at hend hout
  dsimp only at hend hout
  -- recovery asks for the reason, and for the token at which the limit was met
  match result, rest with
  | .ok s, rest => exact ⟨s, rfl, hend⟩
  | .error (.rejected error), rest =>
    obtain ⟨later, hg, he⟩ := giveUp_hasEnd hend errors
    rw [recover_rejected, hg]
    exact ⟨.skipped, rfl, he⟩
  | .error .tooDeep, [] => exact absurd rfl hend.ne_nil
  | .error .tooDeep, t :: rest =>
    obtain ⟨later, hg, he⟩ := giveUp_hasEnd hend (errors ++ [⟨t, .nestedTooDeep⟩])
    rw [recover_tooDeep, hg]
    exact ⟨.skipped, rfl, he⟩
  | .error .outOfTokens, _ => exact absurd rfl hout

/-- With an end mark ahead a list of statements is read to some result. -/
theorem Orderly.statements_result {item : Item} (h : item.toParser.Orderly) (closing : Option TokenKind)
    {ts : List Token} (hts : HasEnd ts) :
    ∃ ss, ((statements closing item).run ts).result = .ok ss ∧ HasEnd ((statements closing item).run ts).rest := by
  show ∃ ss, (statementsFrom closing item ts).result = .ok ss ∧ HasEnd (statementsFrom closing item ts).rest
  fun_induction statementsFrom closing item ts with
  | case1 => exact absurd rfl hts.ne_nil
  | case2 t ts _ => exact ⟨[], rfl, hts⟩
  | case3 t ts _ reading s hs more ih =>
    obtain ⟨-, -, hend⟩ := h.recovering_result hts
    obtain ⟨ss, hss, he⟩ := ih hend
    exact ⟨s :: ss, by rw [show more.result = _ from hss]; rfl, he⟩
  | case4 t ts _ reading reason hr =>
    obtain ⟨s, hs, -⟩ := h.recovering_result hts
    exact absurd (hr.symm.trans hs) (by simp)

/-- A statement that is passed over leaves an empty slot. -/
theorem recover_ok {reading : Reading Stmt} {s : Stmt} (h : (recover reading).result = .ok s) :
    reading.result = .ok s ∨ s = .skipped := by
  have hgive : ∀ errors ts, (giveUp errors ts).result = .ok s → s = .skipped := by
    intro errors ts hg
    unfold giveUp at hg
    split at hg
    · exact (Except.ok.inj hg).symm
    · cases hg
  obtain ⟨result, errors, rest⟩ := reading
  match result, rest with
  | .ok _, _ => exact .inl h
  | .error (.rejected _), rest => exact .inr (hgive errors rest h)
  | .error .tooDeep, [] => cases h
  | .error .tooDeep, t :: rest => exact .inr (hgive _ (t :: rest) h)
  | .error .outOfTokens, _ => cases h

/-- Recovery deals with everything but the end of the tokens. -/
private theorem recover_error {reading : Reading Stmt} {reason : Stop} (h : (recover reading).result = .error reason) :
    reason = .outOfTokens := by
  obtain ⟨result, errors, rest⟩ := reading
  match result, rest with
  | .ok s, _ => cases h
  | .error (.rejected error), rest =>
    rw [recover_rejected, giveUp] at h
    split at h <;> cases h
    rfl
  | .error .tooDeep, [] => cases h; rfl
  | .error .tooDeep, t :: rest =>
    rw [recover_tooDeep, giveUp] at h
    split at h <;> cases h
    rfl
  | .error .outOfTokens, _ => cases h; rfl

theorem statements_error {closing : Option TokenKind} {item : Item} {ts : List Token} {reason : Stop}
    (h : ((statements closing item).run ts).result = .error reason) : reason = .outOfTokens := by
  have h : (statementsFrom closing item ts).result = .error reason := h
  fun_induction statementsFrom closing item ts with
  | case1 => cases h; rfl
  | case2 => cases h
  | case3 t ts _ reading s hs more ih =>
    cases hm : more.result with
    | ok ss => rw [hm] at h; cases h
    | error reason' =>
      rw [hm] at h
      obtain rfl := Except.error.inj h
      exact ih hm hm
  | case4 t ts _ reading reason' hr =>
    obtain rfl := Except.error.inj h
    exact recover_error hr

theorem Orderly.statements {item : Item} (h : item.toParser.Orderly) (closing : Option TokenKind) :
    (statements closing item).Orderly where
  keeps_end hts := (h.statements_result closing hts).choose_spec.2
  not_out hts hr := by
    obtain ⟨ss, hs, -⟩ := h.statements_result closing hts
    exact absurd (hs.symm.trans hr) (by simp)
  notes hr := by cases statements_error hr

theorem statement_orderly (room : Nat) : (statement room).toParser.Orderly :=
  orderly_compositional.statement (fun _ h => h.statements _) room

/-- With an end mark ahead a program is read to some result. -/
theorem program_result (room : Nat) {ts : List Token} (hts : HasEnd ts) :
    ∃ ss, ((program room).run ts).result = .ok ss ∧ HasEnd ((program room).run ts).rest :=
  (statement_orderly room).statements_result none hts

end Parser

end Treewalk
