import Treewalk.Tree

/-!
# Parsers

A parser reads some tokens from the front of a list and leaves the rest.  It ends with a result or stops for a
reason, and on the way it may note errors without stopping.

* `Parser`: a reading function with the proof that what it leaves is a tail of what it was given.
* `Parser.branch`: look at the current token, and take it if it decides how to go on.
* `Parser.Advances`: success takes at least one token.
-/

namespace Treewalk

/-- What can be wrong with a sequence of tokens. -/
inductive SyntaxProblem where
  | expectedExpression
  | expectedVariableName
  | expectedParenAfterExpression
  | expectedSemicolonAfterDeclaration
  | expectedSemicolonAfterValue
  | expectedSemicolonAfterExpression
  | expectedBraceAfterBlock
  | invalidAssignmentTarget
  | nestedTooDeep
deriving DecidableEq

/-- The wording of a syntax problem. -/
def SyntaxProblem.message : SyntaxProblem → String
  | .expectedExpression => "Expect expression."
  | .expectedVariableName => "Expect variable name."
  | .expectedParenAfterExpression => "Expect ')' after expression."
  | .expectedSemicolonAfterDeclaration => "Expect ';' after variable declaration."
  | .expectedSemicolonAfterValue => "Expect ';' after value."
  | .expectedSemicolonAfterExpression => "Expect ';' after expression."
  | .expectedBraceAfterBlock => "Expect '\x7d' after block."
  | .invalidAssignmentTarget => "Invalid assignment target."
  | .nestedTooDeep => "Expression nesting too deep."

/-- A syntax problem and the token at which it was noticed. -/
structure SyntaxError where
  token : Token
  problem : SyntaxProblem
deriving DecidableEq

/-- Why a parser stops without a result. -/
inductive Stop where
  /-- The tokens are not of the required form; the error has been noted. -/
  | rejected (error : SyntaxError)
  /-- The nesting allowance is used up. -/
  | tooDeep
  /-- The list of tokens ended without an end mark. -/
  | outOfTokens
deriving DecidableEq

/-- The outcome of reading: a result or the reason for stopping, the errors noted, and the tokens left. -/
structure Reading (α : Type) where
  result : Except Stop α
  errors : List SyntaxError
  rest : List Token

/-- A reading function that takes its tokens from the front. -/
structure Parser (α : Type) where
  run : List Token → Reading α
  rest_suffix : ∀ ts, (run ts).rest <:+ ts

namespace Parser

variable {α β : Type}

/-! ### Basic parsers -/

/-- Read nothing, with a given result. -/
protected def pure (a : α) : Parser α where
  run ts := ⟨.ok a, [], ts⟩
  rest_suffix _ := List.suffix_rfl

/-- Read with `p`, and go on as its result tells. -/
protected def bind (p : Parser α) (f : α → Parser β) : Parser β where
  run ts :=
    let reading := p.run ts
    match reading.result with
    | .ok a =>
      let next := (f a).run reading.rest
      ⟨next.result, reading.errors ++ next.errors, next.rest⟩
    | .error stop => ⟨.error stop, reading.errors, reading.rest⟩
  rest_suffix ts := by
    dsimp only
    split
    · next a _ => exact ((f a).rest_suffix _).trans (p.rest_suffix ts)
    · exact p.rest_suffix ts

instance : Monad Parser where
  pure := Parser.pure
  bind := Parser.bind

/-- Stop at once. -/
def stop (reason : Stop) : Parser α where
  run ts := ⟨.error reason, [], ts⟩
  rest_suffix _ := List.suffix_rfl

/-- Note an error and go on. -/
def note (error : SyntaxError) : Parser Unit where
  run ts := ⟨.ok (), [error], ts⟩
  rest_suffix _ := List.suffix_rfl

/-- Note a problem with the current token, and stop. -/
def reject (problem : SyntaxProblem) : Parser α where
  run
    | [] => ⟨.error .outOfTokens, [], []⟩
    | t :: rest => ⟨.error (.rejected ⟨t, problem⟩), [⟨t, problem⟩], t :: rest⟩
  rest_suffix ts := by cases ts <;> exact List.suffix_rfl

/-- Look at the current token.  If `select` knows how to go on after it, take it and do so; the end mark is never
taken. -/
def branch (select : Token → Option (Parser α)) (otherwise : Parser α) : Parser α where
  run
    | [] => ⟨.error .outOfTokens, [], []⟩
    | t :: rest =>
      if t.kind = .eof then otherwise.run (t :: rest)
      else
        match select t with
        | some p => p.run rest
        | none => otherwise.run (t :: rest)
  rest_suffix ts := by
    cases ts with
    | nil => exact List.suffix_rfl
    | cons t rest =>
      dsimp only
      split
      · exact otherwise.rest_suffix _
      · split
        · next p _ => exact (p.rest_suffix rest).trans (List.suffix_cons t rest)
        · exact otherwise.rest_suffix _

/-- Take a token of the given kind, or note the problem. -/
def expect (kind : TokenKind) (problem : SyntaxProblem) : Parser Token :=
  branch (fun t => if t.kind = kind then some (pure t) else none) (reject problem)

theorem bind_def (p : Parser α) (f : α → Parser β) : p >>= f = p.bind f := rfl

theorem length_rest_le (p : Parser α) (ts : List Token) : (p.run ts).rest.length ≤ ts.length :=
  (p.rest_suffix ts).length_le

/-! ### Progress -/

/-- Success takes at least one token. -/
def Advances (p : Parser α) : Prop :=
  ∀ ts a, (p.run ts).result = .ok a → (p.run ts).rest.length < ts.length

theorem advances_stop (reason : Stop) : (stop reason : Parser α).Advances := by
  intro ts a h
  simp [stop] at h

private theorem advances_reject (problem : SyntaxProblem) : (reject problem : Parser α).Advances := by
  intro ts a h
  cases ts <;> simp [reject] at h

theorem Advances.bind_left {p : Parser α} (hp : p.Advances) (f : α → Parser β) : (p >>= f).Advances := by
  intro ts b h
  simp only [bind_def, Parser.bind] at h ⊢
  split at h
  · next a ha => exact Nat.lt_of_le_of_lt ((f a).length_rest_le _) (hp ts a ha)
  · simp at h

theorem Advances.bind_right (p : Parser α) {f : α → Parser β} (hf : ∀ a, (f a).Advances) :
    (p >>= f).Advances := by
  intro ts b h
  simp only [bind_def, Parser.bind] at h ⊢
  split at h
  · next a ha => exact Nat.lt_of_lt_of_le (hf a _ b h) (p.length_rest_le ts)
  · simp at h

/-- A branch advances if the alternative does: the other ways start by taking a token. -/
theorem advances_branch (select : Token → Option (Parser α)) {otherwise : Parser α} (h : otherwise.Advances) :
    (branch select otherwise).Advances := by
  intro ts a ha
  cases ts with
  | nil => simp [branch] at ha
  | cons t rest =>
    simp only [branch] at ha ⊢
    split at ha
    · next he => simpa [he] using h _ a ha
    · next he =>
      simp only [he, if_false]
      split at ha
      · next p _ => exact Nat.lt_succ_of_le (p.length_rest_le rest)
      · exact h _ a ha

theorem advances_expect (kind : TokenKind) (problem : SyntaxProblem) : (expect kind problem).Advances :=
  advances_branch _ (advances_reject problem)

end Parser

end Treewalk
