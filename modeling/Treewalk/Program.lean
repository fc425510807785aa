import Treewalk.Grammar
import Treewalk.Report

/-!
# Reading programs

A program is a list of statements up to the end mark.  A statement that cannot be read costs itself only: its error
is noted, the tokens up to the next boundary are passed over, and its slot in the program stays empty.

* `Parser.recovering`: read a statement, or pass over it.
* `recovering_advances`: either way at least one token is taken, unless there was only the end mark.
* `parse`: the program in a list of tokens.
-/

namespace Treewalk

namespace Parser

/-! ### Statements -/

/-- What follows the word `var`: a name, possibly an initial value, and a semicolon. -/
def declaration (value : Parser Expr) : Parser Stmt := do
  let name ← expect .identifier .expectedVariableName
  let initializer ← branch (fun t => if t.kind = .equal then some (some <$> value) else none) (pure none)
  let _ ← expect .semicolon .expectedSemicolonAfterDeclaration
  return .declare name initializer

/-- What follows the word `print`. -/
def printing (value : Parser Expr) : Parser Stmt := do
  let e ← value
  let _ ← expect .semicolon .expectedSemicolonAfterValue
  return .print e

/-- What follows an opening brace. -/
def block (statements : Parser (List Stmt)) : Parser Stmt := do
  let body ← statements
  let _ ← expect .rightBrace .expectedBraceAfterBlock
  return .block body

/-- An expression for its effect. -/
def effect (value : Parser Expr) : Parser Stmt := do
  let e ← value
  let _ ← expect .semicolon .expectedSemicolonAfterExpression
  return .expression e

/-- Any statement, given how to read its expression or the statements in its block. -/
def anyStatement (value : Parser Expr) (body : Parser (List Stmt)) : Parser Stmt :=
  branch
    (fun t =>
      match t.kind with
      | .var_ => some (declaration value)
      | .print_ => some (printing value)
      | .leftBrace => some (block body)
      | _ => none)
    (effect value)

private theorem advances_effect (value : Parser Expr) : (effect value).Advances :=
  Advances.bind_right value fun _ => (advances_expect _ _).bind_left _

private theorem advances_anyStatement (value : Parser Expr) (body : Parser (List Stmt)) :
    (anyStatement value body).Advances :=
  advances_branch _ (advances_effect value)

/-! ### Recovery -/

/-- The words before which reading can be resumed. -/
def resumeWords : List TokenKind :=
  [.class_, .fun_, .var_, .for_, .if_, .while_, .print_, .return_]

/-- Pass over tokens until the last one was a semicolon, or the next one is a resuming word or the end mark.
There may be no such place. -/
def boundary? (last : TokenKind) : List Token → Option (List Token)
  | [] => none
  | t :: rest =>
    if t.kind = .eof ∨ last = .semicolon ∨ t.kind ∈ resumeWords then some (t :: rest) else boundary? t.kind rest

/-- The tokens at which reading resumes after an error at the current token.  That token is passed over in any
case, unless it is the end mark. -/
def resume? : List Token → Option (List Token)
  | [] => none
  | t :: rest => if t.kind = .eof then some (t :: rest) else boundary? t.kind rest

private theorem boundary?_suffix {last : TokenKind} {ts rest : List Token} (h : boundary? last ts = some rest) :
    rest <:+ ts := by
  induction ts generalizing last with
  | nil => simp [boundary?] at h
  | cons t ts ih =>
    rw [boundary?] at h
    split at h
    · cases h; exact List.suffix_rfl
    · exact (ih h).trans (List.suffix_cons t ts)

private theorem resume?_suffix {ts rest : List Token} (h : resume? ts = some rest) : rest <:+ ts := by
  cases ts with
  | nil => simp [resume?] at h
  | cons t ts =>
    rw [resume?] at h
    split at h
    · cases h; exact List.suffix_rfl
    · exact (boundary?_suffix h).trans (List.suffix_cons t ts)

/-- Give up a statement: leave an empty slot and resume at the next boundary. -/
def giveUp (errors : List SyntaxError) (ts : List Token) : Reading Stmt :=
  match resume? ts with
  | some rest => ⟨.ok .skipped, errors, rest⟩
  | none => ⟨.error .outOfTokens, errors, []⟩

/-- What becomes of the reading of a statement: one that was rejected is passed over, and so is one that was nested
too deep, which is noted at the current token. -/
def recover (reading : Reading Stmt) : Reading Stmt :=
  match reading.result, reading.rest with
  | .error (.rejected _), rest => giveUp reading.errors rest
  | .error .tooDeep, t :: rest => giveUp (reading.errors ++ [⟨t, .nestedTooDeep⟩]) (t :: rest)
  | .error .tooDeep, [] => ⟨.error .outOfTokens, reading.errors, []⟩
  | _, _ => reading

private theorem giveUp_rest_suffix (errors : List SyntaxError) (ts : List Token) : (giveUp errors ts).rest <:+ ts := by
  unfold giveUp
  split
  · next h => exact resume?_suffix h
  · exact List.nil_suffix

theorem recover_rest_suffix (reading : Reading Stmt) : (recover reading).rest <:+ reading.rest := by
  unfold recover
  split
  · exact giveUp_rest_suffix _ _
  · next h => rw [h]; exact giveUp_rest_suffix _ _
  · exact List.nil_suffix
  · exact List.suffix_rfl

/-- Read a statement; if it is rejected or nested too deep, note that and pass over it. -/
def recovering (item : Parser Stmt) : Parser Stmt where
  run ts := recover (item.run ts)
  rest_suffix ts := (recover_rest_suffix _).trans (item.rest_suffix ts)

/-- Resuming passes over the current token, or leaves an end mark. -/
private theorem length_resume?_lt {t : Token} {ts rest : List Token} (ht : t.kind ≠ .eof)
    (h : resume? (t :: ts) = some rest) : rest.length < (t :: ts).length := by
  rw [resume?, if_neg ht] at h
  exact Nat.lt_succ_of_le (boundary?_suffix h).length_le

/-- Giving up on a statement that started with `t` leaves fewer tokens than there were. -/
private theorem length_giveUp_lt {errors : List SyntaxError} {t : Token} {ts rest : List Token} {s : Stmt}
    (ht : t.kind ≠ .eof) (hrest : rest <:+ t :: ts) (h : (giveUp errors rest).result = .ok s) :
    (giveUp errors rest).rest.length < (t :: ts).length := by
  unfold giveUp at h ⊢
  cases rest with
  | nil => simp [resume?] at h
  | cons u rest =>
    by_cases hu : u.kind = .eof
    · -- an end mark is not the token `t`, so something has been read
      have hne : u :: rest ≠ t :: ts := by
        rintro ⟨⟩
        exact ht hu
      have hlt : (u :: rest).length < (t :: ts).length :=
        Nat.lt_of_le_of_ne hrest.length_le fun hlen => hne (hrest.eq_of_length hlen)
      simpa [resume?, hu] using hlt
    · cases hr : resume? (u :: rest) with
      | none => simp [hr] at h
      | some later => exact Nat.lt_of_lt_of_le (length_resume?_lt hu hr) hrest.length_le

/-- A statement read or passed over takes at least one token, unless it starts at the end mark. -/
theorem recovering_advances {item : Parser Stmt} (hitem : item.Advances) {t : Token} {ts : List Token} {s : Stmt}
    (ht : t.kind ≠ .eof) (h : ((recovering item).run (t :: ts)).result = .ok s) :
    ((recovering item).run (t :: ts)).rest.length < (t :: ts).length := by
  have hrest := item.rest_suffix (t :: ts)
  simp only [recovering] at h ⊢
  unfold recover at h ⊢
  split at h
  · exact length_giveUp_lt ht hrest h
  · next htoks =>
    rw [htoks] at hrest
    exact length_giveUp_lt ht hrest h
  · simp at h
  · exact hitem _ s h

/-! ### Lists of statements -/

/-- A parser of statements that takes at least one token for each. -/
structure Item extends Parser Stmt where
  advances : toParser.Advances

/-- Read statements up to the end mark, or up to a token of the closing kind if there is one. -/
def statementsFrom (closing : Option TokenKind) (item : Item) : List Token → Reading (List Stmt)
  | [] => ⟨.error .outOfTokens, [], []⟩
  | t :: later =>
    if _ht : t.kind = .eof ∨ some t.kind = closing then ⟨.ok [], [], t :: later⟩
    else
      let reading := (recovering item.toParser).run (t :: later)
      match _hs : reading.result with
      | .ok s =>
        let more := statementsFrom closing item reading.rest
        ⟨more.result.map (s :: ·), reading.errors ++ more.errors, more.rest⟩
      | .error stop => ⟨.error stop, reading.errors, reading.rest⟩
termination_by ts => ts.length
decreasing_by exact recovering_advances item.advances (fun he => _ht (.inl he)) _hs

theorem statementsFrom_rest_suffix (closing : Option TokenKind) (item : Item) (ts : List Token) :
    (statementsFrom closing item ts).rest <:+ ts := by
  fun_induction statementsFrom closing item ts with
  | case1 => exact List.suffix_rfl
  | case2 => exact List.suffix_rfl
  | case3 t later _ reading s _ more ih => exact ih.trans ((recovering item.toParser).rest_suffix (t :: later))
  | case4 t later _ reading stop _ => exact (recovering item.toParser).rest_suffix (t :: later)

/-- The parser of a list of statements. -/
def statements (closing : Option TokenKind) (item : Item) : Parser (List Stmt) where
  run := statementsFrom closing item
  rest_suffix := statementsFrom_rest_suffix closing item

/-- The parser of one statement, within a nesting allowance of `room` units.  A statement takes three of them, and
what it contains shares the others.  A declaration with `var` is one level less deep than the others and would get
by with two; it is rounded up. -/
def statement : (room : Nat) → Item
  | room + 3 =>
    { toParser := anyStatement (Rule.expression.parser room) (statements (some .rightBrace) (statement room))
      advances := advances_anyStatement _ _ }
  | _ =>
    { toParser := stop .tooDeep
      advances := advances_stop .tooDeep }

/-- The parser of a program, within a nesting allowance. -/
def program (room : Nat) : Parser (List Stmt) :=
  statements none (statement room)

end Parser

/-- The report of a syntax error. -/
def SyntaxError.report (e : SyntaxError) : Report :=
  .atToken e.token e.problem.message

/-- The nesting allowance for reading. -/
def readingRoom : Nat := 988

/-- Read the program in a list of tokens. -/
def parse (tokens : List Token) : Reading (List Stmt) :=
  (Parser.program readingRoom).run tokens

/-- Read one expression from the front of a list of tokens. -/
def parseExpression (tokens : List Token) : Reading Expr :=
  (Rule.expression.parser readingRoom).run tokens

end Treewalk
