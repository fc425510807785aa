import Treewalk.Proofs.Reading.Failure
import Treewalk.Proofs.Reading.Lookahead
import Treewalk.Proofs.Reading.Room

/-!
# The place of the first error

The first grave error is noted at the first token with which the tokens before it cannot go on: these are the beginning
of a sentence of the relaxed grammar, but there is no sentence that begins with that token in addition.

There is such a sentence since reading stops as soon as it can.  There is no longer one since, up to the token, reading
does not depend on what follows nor on the allowance, so that the error would be noted in the sentence as well; but a
sentence is read without grave errors, within some allowance.

* `Parser.FirstBad`: such a token, in terms of reading.
* `Parser.Blames`: the first grave error is at such a token.
* `Parser.slot_blames`, `Parser.Blames.slots`: one statement, and from it lists of them.
* `first_error_at_first_bad_token`: whole programs.
-/

namespace Treewalk

/-! ### Grave errors -/

private theorem find?_isGrave_eq_none {errors : List SyntaxError} :
    errors.find? SyntaxError.isGrave = none ↔ Mild errors := by
  rw [← countP_isGrave_eq_zero, List.find?_eq_none, List.countP_eq_zero]

/-- The first grave error is in the first part, if that has any. -/
private theorem find?_isGrave_append {n₁ n₂ : List SyntaxError} {error : SyntaxError}
    (h : (n₁ ++ n₂).find? SyntaxError.isGrave = some error) :
    n₁.find? SyntaxError.isGrave = some error ∨ Mild n₁ ∧ n₂.find? SyntaxError.isGrave = some error := by
  rw [List.find?_append] at h
  cases hfirst : n₁.find? SyntaxError.isGrave with
  | none =>
    rw [hfirst] at h
    exact .inr ⟨find?_isGrave_eq_none.1 hfirst, h⟩
  | some error' =>
    rw [hfirst] at h
    exact .inl h

private theorem Mild.of_isPrefix {n₁ n₂ : List SyntaxError} (h : Mild n₂) (hp : n₁ <+: n₂) : Mild n₁ :=
  fun n hn => h n (hp.subset hn)

private theorem Mild.find?_concat {earlier : List SyntaxError} (h : Mild earlier) {error : SyntaxError}
    (hgrave : error.problem ≠ .invalidAssignmentTarget) :
    (earlier ++ [error]).find? SyntaxError.isGrave = some error := by
  rw [List.find?_append, find?_isGrave_eq_none.2 h, List.find?_singleton, if_pos (error.isGrave_iff.2 hgrave)]
  rfl

private theorem not_mild_concat {earlier : List SyntaxError} {error : SyntaxError}
    (hgrave : error.problem ≠ .invalidAssignmentTarget) : ¬Mild (earlier ++ [error]) :=
  fun h => hgrave (h error (by simp))

mutual

private theorem StatementReadsAs.mild {room : Nat} {ts : List Token} {s : Stmt} {notes : List SyntaxError}
    (h : StatementReadsAs room ts s notes) : Mild notes := by
  cases h with
  | declare => exact mild_nil
  | define _ _ _ h => exact h.mild
  | print _ h => exact h.mild
  | block _ h => exact h.mild
  | expression h => exact h.mild

private theorem StatementsReadAs.mild {room : Nat} {ts : List Token} {ss : List Stmt} {notes : List SyntaxError}
    (h : StatementsReadAs room ts ss notes) : Mild notes := by
  cases h with
  | nil => exact mild_nil
  | cons h hs => exact h.mild.append hs.mild

end

namespace Parser

/-! ### Errors that stay -/

private theorem recover_of_ok (s : Stmt) (errors : List SyntaxError) (rest : List Token) :
    recover ⟨.ok s, errors, rest⟩ = ⟨.ok s, errors, rest⟩ := rfl

/-- Recovery keeps the errors noted so far. -/
private theorem errors_isPrefix_recover (reading : Reading Stmt) : reading.errors <+: (recover reading).errors := by
  obtain ⟨result, errors, rest⟩ := reading
  match result, rest with
  | .ok s, rest => exact List.prefix_rfl
  | .error (.rejected error), rest =>
    rw [recover_rejected, errors_giveUp]
  | .error .tooDeep, [] => exact List.prefix_rfl
  | .error .tooDeep, t :: rest =>
    rw [recover_tooDeep, errors_giveUp]
    exact List.prefix_append _ _
  | .error .outOfTokens, _ => exact List.prefix_rfl

/-- A block keeps the errors in its statements. -/
private theorem errors_isPrefix_block (body : Parser (List Stmt)) (ts : List Token) :
    (body.run ts).errors <+: ((block body).run ts).errors := by
  simp only [block, bind_def, Parser.bind]
  split
  · exact List.prefix_append _ _
  · exact List.prefix_rfl

/-- A list of statements keeps the errors in the first of them. -/
private theorem errors_isPrefix_statements {closing : Option TokenKind} {item : Item} {t : Token} {ts : List Token}
    (ht : ¬(t.kind = .eof ∨ some t.kind = closing)) :
    ((recovering item.toParser).run (t :: ts)).errors <+: ((statements closing item).run (t :: ts)).errors := by
  show _ <+: (statementsFrom closing item (t :: ts)).errors
  rcases hs : (recovering item.toParser).run (t :: ts) with ⟨result, errors, rest⟩
  cases result with
  | ok s =>
    rw [statementsFrom_of_ok ht hs]
    exact List.prefix_append _ _
  | error reason =>
    rw [statementsFrom_of_error ht hs]

/-- A block whose list of statements ends at another token than the closing brace. -/
private theorem block_run_of_yields {body : Parser (List Stmt)} {ts later : List Token} {ss : List Stmt}
    {notes : List SyntaxError} {t : Token} (h : body.Yields ts ss notes (t :: later)) (ht : t.kind ≠ .rightBrace) :
    (block body).run ts = ⟨.error (.rejected ⟨t, .expectedBraceAfterBlock⟩),
      notes ++ [⟨t, .expectedBraceAfterBlock⟩], t :: later⟩ := by
  have hexpect : (expect .rightBrace .expectedBraceAfterBlock).run (t :: later) =
      ⟨.error (.rejected ⟨t, .expectedBraceAfterBlock⟩), [⟨t, .expectedBraceAfterBlock⟩], t :: later⟩ := by
    simp only [expect, branch, if_neg ht]
    split <;> rfl
  rw [Yields] at h
  simp only [block, bind_def, Parser.bind, h, hexpect]

/-- A statement that begins with an opening brace is a block. -/
private theorem statement_run_of_leftBrace {room : Nat} {t : Token} (ht : t.kind = .leftBrace) (ts : List Token) :
    (statement (room + 3)).run (t :: ts) = (block (statements (some .rightBrace) (statement room))).run ts := by
  show (anyStatement _ _).run _ = _
  simp only [anyStatement, branch, ht]
  rfl

/-! ### Blame -/

variable {α : Type}

/-- One statement within an allowance, or what is passed over for it. -/
def slot (room : Nat) : Parser Stmt := recovering (statement room).toParser

/-- A list of statements within an allowance. -/
def slots (closing : Option TokenKind) (room : Nat) : Parser (List Stmt) := statements closing (statement room)

/-- Within the allowance and all larger ones, and whatever follows the tokens, a grave error is noted. -/
def Dooms (p : Nat → Parser α) (room : Nat) (ts : List Token) : Prop :=
  ∀ room', room ≤ room' → ∀ rest, ¬Mild ((p room').run (ts ++ rest)).errors

/-- With this token the tokens before it cannot go on: they begin something in the language, but with the token in
addition they are doomed. -/
def FirstBad (p : Nat → Parser α) (language : List Token → Prop) (room : Nat) (ts : List Token) (t : Token) : Prop :=
  ∃ us rest, ts = us ++ t :: rest ∧ (∃ more, language (us ++ more)) ∧ Dooms p room (us ++ [t])

/-- The first grave error, if it is not about the allowance, is at the first bad token. -/
def Blames (p : Nat → Parser α) (language : List Token → Prop) (room : Nat) : Prop :=
  ∀ ⦃ts error⦄, HasEnd ts → ((p room).run ts).errors.find? SyntaxError.isGrave = some error →
    error.problem ≠ .nestedTooDeep → FirstBad p language room ts error.token

/-- A statement other than a block that is rejected is rejected at the same token whatever follows, and no larger
allowance changes that. -/
private theorem dooms_of_rejected {room : Nat} {us later : List Token} {error : SyntaxError}
    {earlier : List SyntaxError} (hopen : ∀ u ∈ (us ++ [error.token]).head?, u.kind ≠ .leftBrace)
    (hearlier : Mild earlier) (hgrave : error.problem ≠ .invalidAssignmentTarget)
    (hdeep : error.problem ≠ .nestedTooDeep)
    (hrun : (statement room).run (us ++ error.token :: later) =
      ⟨.error (.rejected error), earlier ++ [error], error.token :: later⟩) :
    Dooms slot room (us ++ [error.token]) := by
  intro room' hroom rest hmild
  rcases statement_below hroom (us ++ error.token :: later) with hcut | hsame
  · -- nothing was cut short
    rw [hrun] at hcut
    rcases hcut with hresult | ⟨n, hn, hproblem⟩ | hrest
    · cases hresult
    · rcases List.mem_append.1 hn with hn | hn
      · rw [hearlier n hn] at hproblem
        cases hproblem
      · obtain rfl := List.mem_singleton.1 hn
        exact hdeep hproblem
    · cases hrest
  · have hrun' := statement_local hopen (hsame.symm.trans hrun) rest
    have hmild : Mild (recover ((statement room').run (us ++ [error.token] ++ rest))).errors := hmild
    rw [List.append_assoc, List.singleton_append, hrun', recover_rejected, errors_giveUp] at hmild
    exact not_mild_concat hgrave hmild

/-- A statement that is no block. -/
private theorem firstBad_of_not_block {room : Nat} {ts : List Token} {error : SyntaxError} (hts : HasEnd ts)
    (hopen : ∀ t ∈ ts.head?, t.kind ≠ .leftBrace)
    (hfind : ((slot room).run ts).errors.find? SyntaxError.isGrave = some error)
    (hdeep : error.problem ≠ .nestedTooDeep) : FirstBad slot LooseDeclaration room ts error.token := by
  replace hfind : (recover ((statement room).run ts)).errors.find? SyntaxError.isGrave = some error := hfind
  have hend := (statement_orderly room).keeps_end hts
  have hout := (statement_orderly room).not_out hts
  rcases hrun : (statement room).run ts with ⟨result, notes, left⟩
  rw [hrun] at hfind hend hout
  cases result with
  | ok s =>
    have hmild : Mild notes := Yields.mild hrun hopen
    rw [recover_of_ok, find?_isGrave_eq_none.2 hmild] at hfind
    cases hfind
  | error reason =>
    have hreason : reason ≠ .outOfTokens := by
      rintro rfl
      exact hout rfl
    obtain ⟨us, rfl, ⟨more, -, hmore⟩, hexplains⟩ := begins_of_fails hopen ⟨hrun, hreason⟩
    cases reason with
    | rejected error' =>
      obtain ⟨⟨earlier, rfl, hearlier⟩, ⟨later, rfl⟩, hgrave⟩ := hexplains
      rw [recover_rejected, errors_giveUp, hearlier.find?_concat hgrave] at hfind
      obtain rfl := Option.some.inj hfind
      rw [head?_append_cons] at hopen
      exact ⟨us, later, rfl, ⟨more, hmore⟩, dooms_of_rejected hopen hearlier hgrave hdeep hrun⟩
    | tooDeep =>
      obtain ⟨t, later, rfl⟩ := List.exists_cons_of_ne_nil hend.ne_nil
      have hmild : Mild notes := hexplains
      rw [recover_tooDeep, errors_giveUp, hmild.find?_concat (by simp)] at hfind
      obtain rfl := Option.some.inj hfind
      exact absurd rfl hdeep
    | outOfTokens => exact absurd rfl hreason

/-- A list is doomed with its first statement. -/
private theorem Dooms.slots {room : Nat} {t : Token} {ts : List Token}
    (h : Dooms slot room (t :: ts)) {closing : Option TokenKind} (ht : ¬(t.kind = .eof ∨ some t.kind = closing)) :
    Dooms (Parser.slots closing) room (t :: ts) :=
  fun room' hroom rest hmild => h room' hroom rest (hmild.of_isPrefix (errors_isPrefix_statements ht))

/-- A list is doomed with what follows a statement that is read. -/
private theorem Dooms.after {room : Nat} {t : Token} {ts us : List Token} {s : Stmt} {notes : List SyntaxError}
    {closing : Option TokenKind} (h : Dooms (Parser.slots closing) room us)
    (hread : StatementReadsAs room (t :: ts) s notes) (ht : ¬(t.kind = .eof ∨ some t.kind = closing)) :
    Dooms (Parser.slots closing) room (t :: (ts ++ us)) := by
  intro room' hroom rest hmild
  have hyields := ((hread.mono hroom).yields (us ++ rest)).recovering
  have hmild : Mild (statementsFrom closing (statement room') (t :: (ts ++ us ++ rest))).errors := hmild
  rw [List.cons_append] at hyields
  rw [List.append_assoc, statementsFrom_of_ok ht hyields] at hmild
  exact h room' hroom rest hmild.right

/-- Lists of statements, given one. -/
theorem Blames.slots {room : Nat} (hslot : Blames slot LooseDeclaration room) (closing : Option TokenKind) :
    Blames (Parser.slots closing) LooseProgram room := by
  intro ts error hts hfind hdeep
  replace hfind : (statementsFrom closing (statement room) ts).errors.find? SyntaxError.isGrave = some error := hfind
  -- on the number of tokens left, since a statement may take any number of them
  induction hn : ts.length using Nat.strongRecOn generalizing ts with
  | _ n ih =>
    subst hn
    obtain ⟨t, later, rfl⟩ := List.exists_cons_of_ne_nil hts.ne_nil
    by_cases ht : t.kind = .eof ∨ some t.kind = closing
    · rw [statementsFrom, dif_pos ht] at hfind
      cases hfind
    obtain ⟨s, hs, hmid⟩ := (statement_orderly room).recovering_result hts
    rcases hrun : (recovering (statement room).toParser).run (t :: later) with ⟨result, n₁, mid⟩
    rw [hrun] at hs hmid
    obtain rfl : result = .ok s := hs
    rw [statementsFrom_of_ok ht hrun] at hfind
    rcases find?_isGrave_append hfind with hfirst | ⟨hmild, hmore⟩
    · -- the error is in the first statement
      have hfirst : ((slot room).run (t :: later)).errors.find? SyntaxError.isGrave = some error := by rwa [slot, hrun]
      obtain ⟨us, rest, hts', ⟨more, hwhole⟩, hdooms⟩ := hslot hts hfirst hdeep
      refine ⟨us, rest, hts', ⟨more, by simpa using LooseProgram.cons hwhole .nil⟩, ?_⟩
      -- what is doomed begins with the first token of the statement
      cases us with
      | nil =>
        obtain ⟨rfl, rfl⟩ := List.cons.inj hts'
        exact hdooms.slots ht
      | cons u us =>
        obtain ⟨rfl, rfl⟩ := List.cons.inj hts'
        exact hdooms.slots ht
    · -- the first statement is read, and the error is in the others
      have hyields := yields_of_recovering (statement_orderly room) hrun hmild
      obtain ⟨taken, htaken, hread⟩ := statementReadsAs_of_yields hyields hmild
      obtain ⟨u, vs, rfl, -⟩ := hread.start
      obtain ⟨rfl, rfl⟩ := List.cons.inj htaken
      have hlt : mid.length < (t :: (vs ++ mid)).length := by
        rw [List.length_cons, List.length_append]
        omega
      obtain ⟨us, rest, rfl, ⟨more, hwhole⟩, hdooms⟩ := ih mid.length hlt hmid hmore rfl
      refine ⟨t :: (vs ++ us), rest, by simp, ⟨more, ?_⟩, ?_⟩
      · have hprogram := LooseProgram.cons hread.looseDeclaration hwhole
        simpa using hprogram
      · have hdooms := hdooms.after hread ht
        simpa using hdooms

/-- A block whose statements have a bad token. -/
private theorem FirstBad.block {room : Nat} {t u : Token} {ts : List Token}
    (h : FirstBad (Parser.slots (some .rightBrace)) LooseProgram room ts u) (ht : t.kind = .leftBrace) :
    FirstBad slot LooseDeclaration (room + 3) (t :: ts) u := by
  obtain ⟨us, rest, rfl, ⟨more, hmore⟩, hdooms⟩ := h
  have hwhole : LooseDeclaration (t :: us ++ (more ++ [⟨.rightBrace, "\x7d", .nil, 1⟩])) := by
    rw [List.cons_append, ← List.append_assoc]
    exact .block ht hmore rfl
  refine ⟨t :: us, rest, rfl, ⟨_, hwhole⟩, fun room' hroom rest' hmild => ?_⟩
  obtain ⟨below, rfl⟩ : ∃ k, room' = k + 3 := ⟨room' - 3, by omega⟩
  have hitem : Mild ((statement (below + 3)).run (t :: (us ++ [u] ++ rest'))).errors :=
    hmild.of_isPrefix (errors_isPrefix_recover _)
  rw [statement_run_of_leftBrace ht] at hitem
  exact hdooms below (by omega) rest' (hitem.of_isPrefix (errors_isPrefix_block _ _))

/-- A block that is not closed before the end mark. -/
private theorem firstBad_of_open_block {room : Nat} {t u : Token} {ts : List Token} {ss : List Stmt}
    {notes : List SyntaxError} (ht : t.kind = .leftBrace) (hu : u.kind = .eof)
    (hread : StatementsReadAs room ts ss notes) (later : List Token) :
    FirstBad slot LooseDeclaration (room + 3) (t :: (ts ++ u :: later)) u := by
  have hwhole : LooseDeclaration (t :: ts ++ [⟨.rightBrace, "\x7d", .nil, 1⟩]) := .block ht hread.looseProgram rfl
  refine ⟨t :: ts, later, rfl, ⟨_, hwhole⟩, fun room' hroom rest hmild => ?_⟩
  obtain ⟨below, rfl⟩ : ∃ k, room' = k + 3 := ⟨room' - 3, by omega⟩
  have hitem : Mild ((statement (below + 3)).run (t :: (ts ++ [u] ++ rest))).errors :=
    hmild.of_isPrefix (errors_isPrefix_recover _)
  have hbody : (statements (some .rightBrace) (statement below)).Yields (ts ++ u :: rest) ss notes (u :: rest) :=
    (hread.mono (by omega)).yields (.inr rfl) (.inl hu) rest
  rw [statement_run_of_leftBrace ht, List.append_assoc, List.singleton_append,
    block_run_of_yields hbody (by rw [hu]; decide)] at hitem
  exact not_mild_concat (by simp) hitem

/-- The bad token of a block is in its statements, or stands in the place of its closing brace. -/
private theorem firstBad_of_block {room : Nat} {t : Token} {ts : List Token} {error : SyntaxError}
    (hbody : Blames (slots (some .rightBrace)) LooseProgram room) (ht : t.kind = .leftBrace) (hts : HasEnd ts)
    (hfind : ((slot (room + 3)).run (t :: ts)).errors.find? SyntaxError.isGrave = some error)
    (hdeep : error.problem ≠ .nestedTooDeep) : FirstBad slot LooseDeclaration (room + 3) (t :: ts) error.token := by
  let body := statements (some .rightBrace) (statement room)
  replace hfind : (recover ((statement (room + 3)).run (t :: ts))).errors.find? SyntaxError.isGrave = some error :=
    hfind
  rw [statement_run_of_leftBrace ht] at hfind
  obtain ⟨ss, hss, -⟩ := (statement_orderly room).statements_result (some .rightBrace) hts
  have hyields : body.Yields ts ss (body.run ts).errors (body.run ts).rest := by rw [Yields, ← hss]
  obtain ⟨n₂, hn₂⟩ := (errors_isPrefix_block body ts).trans (errors_isPrefix_recover _)
  rw [← hn₂] at hfind
  rcases find?_isGrave_append hfind with hinside | ⟨hmild, -⟩
  · exact (hbody hts hinside hdeep).block ht
  obtain ⟨taken, htaken, hread, u, later, hrest, hu⟩ := statementsReadAs_of_yields hyields hmild
  rw [hrest] at hyields htaken
  by_cases hclosing : u.kind = .rightBrace
  · -- there would be no error at all
    have hblock : (block body).Yields ts (.block ss) (body.run ts).errors later :=
      (yields_closed (by decide)).2 ⟨ss, u, hyields, hclosing, rfl⟩
    rw [hn₂, hblock, recover_of_ok, find?_isGrave_eq_none.2 hmild] at hfind
    cases hfind
  · rw [hn₂, block_run_of_yields hyields hclosing, recover_rejected, errors_giveUp,
      hmild.find?_concat (by simp)] at hfind
    obtain rfl := Option.some.inj hfind
    have hend : u.kind = .eof := hu.resolve_right fun h => hclosing (Option.some.inj h)
    rw [htaken]
    exact firstBad_of_open_block ht hend hread later

/-- Without an allowance the first grave error is about the allowance. -/
private theorem blames_of_tooDeep {room : Nat} (hstop : (statement room).toParser = stop .tooDeep) :
    Blames slot LooseDeclaration room := by
  intro ts error hts hfind hdeep
  obtain ⟨t, later, rfl⟩ := List.exists_cons_of_ne_nil hts.ne_nil
  replace hfind : (recover ((statement room).toParser.run (t :: later))).errors.find? SyntaxError.isGrave =
    some error := hfind
  rw [hstop, stop, recover_tooDeep, errors_giveUp, mild_nil.find?_concat (by simp)] at hfind
  obtain rfl := Option.some.inj hfind
  exact absurd rfl hdeep

/-- The first grave error in a statement is at the first token that cannot continue any. -/
theorem slot_blames : ∀ room : Nat, Blames slot LooseDeclaration room
  | 0 => blames_of_tooDeep rfl
  | 1 => blames_of_tooDeep rfl
  | 2 => blames_of_tooDeep rfl
  | room + 3 => by
    intro ts error hts hfind hdeep
    by_cases hopen : ∀ t ∈ ts.head?, t.kind ≠ .leftBrace
    · exact firstBad_of_not_block hts hopen hfind hdeep
    · obtain ⟨t, later, rfl⟩ := List.exists_cons_of_ne_nil hts.ne_nil
      have ht : t.kind = .leftBrace := by simpa using hopen
      have hlater : HasEnd later := hts.tail (by rw [ht]; decide)
      exact firstBad_of_block ((slot_blames room).slots _) ht hlater hfind hdeep

end Parser

/-! ### Programs -/

/-- A sentence in front of an end mark is read without grave errors, within a sufficient allowance. -/
private theorem LooseProgram.not_dooms {ts : List Token} (h : LooseProgram ts) {e : Token} (he : e.kind = .eof)
    (room : Nat) : ∃ room', room ≤ room' ∧ Mild ((Parser.program room').run (ts ++ [e])).errors := by
  obtain ⟨least, ss, notes, hread⟩ := looseProgram_iff_readAs.1 h
  refine ⟨max room least, Nat.le_max_left _ _, ?_⟩
  have hyields : (Parser.program (max room least)).Yields (ts ++ [e]) ss notes [e] :=
    (hread.mono (Nat.le_max_right _ _)).yields (.inl rfl) (.inl he) []
  rw [hyields]
  exact hread.mild

/-- The first grave error, if it is not about the allowance, is at the first token that cannot continue any program: the
tokens before it begin a sentence of the relaxed grammar, and no sentence begins with the token in addition.  If the
token is the end mark, the tokens are no sentence. -/
theorem first_error_at_first_bad_token (ts : List Token) (e : Token) (he : e.kind = .eof) (error : SyntaxError)
    (hfind : (parse (ts ++ [e])).errors.find? SyntaxError.isGrave = some error)
    (hdeep : error.problem ≠ .nestedTooDeep) :
    ∃ k, (ts ++ [e])[k]? = some error.token ∧ (∃ more, LooseProgram (ts.take k ++ more)) ∧
      (k < ts.length → ∀ more, ¬LooseProgram (ts.take (k + 1) ++ more)) ∧ (k = ts.length → ¬LooseProgram ts) := by
  have hend : HasEnd (ts ++ [e]) := ⟨e, by simp, he⟩
  have hblames := (Parser.slot_blames readingRoom).slots none
  obtain ⟨us, rest, hsplit, hviable, hdooms⟩ := hblames hend hfind hdeep
  have hlength := congrArg List.length hsplit
  simp only [List.length_append, List.length_cons, List.length_nil] at hlength
  have htake : ts.take us.length = us := by
    rw [← List.take_append_of_le_length (by omega), hsplit, List.take_left]
  refine ⟨us.length, ?_, by rwa [htake], fun hlt more hprogram => ?_, fun heq hprogram => ?_⟩
  · rw [hsplit, List.getElem?_append_right (Nat.le_refl _), Nat.sub_self, List.getElem?_cons_zero]
  · have htoken : ts.take (us.length + 1) = us ++ [error.token] := by
      rw [← List.take_append_of_le_length (by omega), hsplit, List.take_length_add_append]
      rfl
    obtain ⟨room, hroom, hmild⟩ := hprogram.not_dooms he readingRoom
    rw [htoken, List.append_assoc] at hmild
    exact hdooms room hroom (more ++ [e]) hmild
  · -- nothing stands behind the end mark
    obtain rfl : rest = [] := List.eq_nil_of_length_eq_zero (by omega)
    obtain ⟨room, hroom, hmild⟩ := hprogram.not_dooms he readingRoom
    rw [hsplit, ← List.append_nil (us ++ [error.token])] at hmild
    exact hdooms room hroom [] hmild

/-- In `\x7b nil = a; print (a b); \x7d` the assignment is noted first, but the first grave error is at the name `b`. -/
theorem first_error_at_first_bad_token_missing_paren :
    let b : Token := ⟨.identifier, "b", .nil, 1⟩
    let ts : List Token := [⟨.leftBrace, "\x7b", .nil, 1⟩, ⟨.nil_, "nil", .nil, 1⟩, ⟨.equal, "=", .nil, 1⟩,
      ⟨.identifier, "a", .nil, 1⟩, ⟨.semicolon, ";", .nil, 1⟩, ⟨.print_, "print", .nil, 1⟩, ⟨.leftParen, "(", .nil, 1⟩,
      ⟨.identifier, "a", .nil, 1⟩, b, ⟨.rightParen, ")", .nil, 1⟩, ⟨.semicolon, ";", .nil, 1⟩,
      ⟨.rightBrace, "\x7d", .nil, 1⟩]
    (Token.endMark 1).kind = .eof ∧
      (parse (ts ++ [.endMark 1])).errors.map (·.problem) =
        [.invalidAssignmentTarget, .expectedParenAfterExpression] ∧
      (parse (ts ++ [.endMark 1])).errors.find? SyntaxError.isGrave = some ⟨b, .expectedParenAfterExpression⟩ ∧
      (∃ more, LooseProgram (ts.take 8 ++ more)) ∧ ∀ more, ¬LooseProgram (ts.take 9 ++ more) := by
  intro b ts
  have hfind : (parse (ts ++ [.endMark 1])).errors.find? SyntaxError.isGrave =
      some ⟨b, .expectedParenAfterExpression⟩ := by decide +kernel
  obtain ⟨k, hk, hviable, hbad, -⟩ := first_error_at_first_bad_token ts (.endMark 1) rfl _ hfind (by simp)
  -- the name stands at one place only
  have hk8 : k = 8 := by
    have hlt : k < 13 := (List.getElem?_eq_some_iff.1 hk).1
    have honly : ∀ k < 13, (ts ++ [.endMark 1])[k]? = some b → k = 8 := by decide
    exact honly k hlt hk
  subst hk8
  exact ⟨rfl, by decide +kernel, hfind, hviable, hbad (by decide)⟩

end Treewalk
