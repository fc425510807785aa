import Treewalk.Proofs.Semantics

/-!
# Every program has an outcome

The rules of the language leave no well-formed program with known operators without an outcome: there is a rule for
every operator and every pair of operands, for bound and unbound names, and for an error in every part.

* `Evaluates.total`, `Runs.total`: from every stack of bindings there is an outcome.
* `Evaluates.length_eq`, `Runs.length_eq`: the stack stays as high as it was.
-/

namespace Treewalk

/-- Every operator between two operands either takes them or asks for others. -/
private theorem combines_or_clashes {kind : TokenKind} (hkind : kind ∈ binaryOperators) (v w : Value) :
    (∃ u, Combines kind v w u) ∨ ∃ requirement, Clashes kind v w requirement := by
  have hnumbers : ∀ {kind : TokenKind}, (∀ x y, ∃ u, Combines kind (.num x) (.num y) u) →
      kind ∈ [.minus, .slash, .star, .greater, .greaterEqual, .less, .lessEqual] →
      (∃ u, Combines kind v w u) ∨ ∃ requirement, Clashes kind v w requirement := by
    intro kind hresult hkind
    by_cases h : Numbers v w
    · obtain ⟨x, y, rfl, rfl⟩ := h
      exact .inl (hresult x y)
    · exact .inr ⟨_, .numbers hkind h⟩
  simp only [binaryOperators, List.mem_cons, List.not_mem_nil, or_false] at hkind
  rcases hkind with rfl | rfl | rfl | rfl | rfl | rfl | rfl | rfl | rfl | rfl
  · exact hnumbers (fun x y => ⟨_, .subtract x y⟩) (by decide)
  · by_cases h : Numbers v w
    · obtain ⟨x, y, rfl, rfl⟩ := h
      exact .inl ⟨_, .add x y⟩
    · by_cases h' : Strings v w
      · obtain ⟨s, t, rfl, rfl⟩ := h'
        exact .inl ⟨_, .join s t⟩
      · exact .inr ⟨_, .plus h h'⟩
  · exact hnumbers (fun x y => ⟨_, .divide x y⟩) (by decide)
  · exact hnumbers (fun x y => ⟨_, .multiply x y⟩) (by decide)
  · exact hnumbers (fun x y => ⟨_, .greater x y⟩) (by decide)
  · exact hnumbers (fun x y => ⟨_, .greaterEqual x y⟩) (by decide)
  · exact hnumbers (fun x y => ⟨_, .less x y⟩) (by decide)
  · exact hnumbers (fun x y => ⟨_, .lessEqual x y⟩) (by decide)
  · by_cases h : Same v w
    · exact .inl ⟨_, .notUnequal h⟩
    · exact .inl ⟨_, .unequal h⟩
  · by_cases h : Same v w
    · exact .inl ⟨_, .equal h⟩
    · exact .inl ⟨_, .notEqual h⟩

/-- A name is bound in some innermost map, or in none. -/
private theorem nearest_or_unbound (σ : List Frame) (name : String) :
    (∃ inner frame outer, σ = inner ++ frame :: outer ∧ (∀ f ∈ inner, name ∉ f) ∧ name ∈ frame) ∨
      ∀ f ∈ σ, name ∉ f := by
  induction σ with
  | nil => exact .inr (by simp)
  | cons frame σ ih =>
    by_cases h : name ∈ frame
    · exact .inl ⟨[], frame, σ, rfl, by simp, h⟩
    · rcases ih with ⟨inner, found, outer, rfl, hinner, hfound⟩ | hnone
      · exact .inl ⟨frame :: inner, found, outer, rfl, List.forall_mem_cons.2 ⟨h, hinner⟩, hfound⟩
      · exact .inr (List.forall_mem_cons.2 ⟨h, hnone⟩)

theorem Evaluates.total {e : Expr} (hformed : e.WellFormed) (hknown : e.KnownOperators) (σ : List Frame) :
    ∃ result σ', Evaluates σ e result σ' := by
  induction e generalizing σ with
  | literal v => exact ⟨_, _, .literal⟩
  | var name =>
    rcases nearest_or_unbound σ name.lexeme with ⟨inner, frame, outer, rfl, hinner, hframe⟩ | hnone
    · obtain ⟨v, hv⟩ := Finmap.mem_iff.1 hframe
      exact ⟨_, _, .var hinner hv⟩
    · exact ⟨_, _, .varUnbound hnone⟩
  | assign name value ih =>
    obtain ⟨result, σ', he⟩ := ih hformed.2 hknown.2 σ
    cases result with
    | error error => exact ⟨_, _, .assignFails he⟩
    | ok v =>
      rcases nearest_or_unbound σ' name.lexeme with ⟨inner, frame, outer, rfl, hinner, hframe⟩ | hnone
      · exact ⟨_, _, .assign he hinner hframe⟩
      · exact ⟨_, _, .assignUnbound he hnone⟩
  | unary operator operand ih =>
    obtain ⟨result, σ', he⟩ := ih hformed.2 hknown.2 σ
    cases result with
    | error error => exact ⟨_, _, .unaryFails he⟩
    | ok v =>
      have hkind : operator.kind = .minus ∨ operator.kind = .bang := by
        simpa [Expr.OperatorKnown, unaryOperators] using hknown.1
      rcases hkind with hkind | hkind
      · by_cases hnumber : ∃ x, v = .num x
        · obtain ⟨x, rfl⟩ := hnumber
          exact ⟨_, _, .unary he (by rw [hkind]; exact .negate x)⟩
        · exact ⟨_, _, .unaryClashes he hkind (not_exists.1 hnumber)⟩
      · by_cases hfalsy : Falsy v
        · exact ⟨_, _, .unary he (by rw [hkind]; exact .not hfalsy)⟩
        · exact ⟨_, _, .unary he (by rw [hkind]; exact .notNot hfalsy)⟩
  | binary left operator right ihleft ihright =>
    obtain ⟨result, σ', hleft⟩ := ihleft hformed.2.1 hknown.2.1 σ
    cases result with
    | error error => exact ⟨_, _, .leftFails hleft⟩
    | ok v =>
      obtain ⟨result, σ'', hright⟩ := ihright hformed.2.2 hknown.2.2 σ'
      cases result with
      | error error => exact ⟨_, _, .rightFails hleft hright⟩
      | ok w =>
        rcases combines_or_clashes hknown.1 v w with ⟨u, hu⟩ | ⟨requirement, hclash⟩
        · exact ⟨_, _, .binary hleft hright hu⟩
        · exact ⟨_, _, .binaryClashes hleft hright hclash⟩
  | grouping inner ih =>
    obtain ⟨result, σ', he⟩ := ih hformed.2 hknown.2 σ
    exact ⟨_, _, .grouping he⟩
  | misplaced found => exact hformed.elim

theorem Evaluates.length_eq {σ σ' : List Frame} {e : Expr} {result : Except RuntimeError Value}
    (h : Evaluates σ e result σ') : σ'.length = σ.length := by
  induction h with
  | literal | var | varUnbound => rfl
  | assign _ _ _ ih => simpa using ih
  | assignUnbound _ _ ih | assignFails _ ih | unary _ _ ih | unaryClashes _ _ _ ih | unaryFails _ ih
  | leftFails _ ih | grouping _ ih => exact ih
  | binary _ _ _ ihleft ihright | binaryClashes _ _ _ ihleft ihright | rightFails _ _ ihleft ihright =>
    exact ihright.trans ihleft

mutual

private theorem Executes.length_eq {σ σ' : List Frame} {s : Stmt} {result : Except RuntimeError Value}
    {printed : List String} (h : Executes σ s result σ' printed) : σ'.length = σ.length := by
  cases h with
  | expression h | print h | printFails h | defineFails h => exact h.length_eq
  | declare | skipped => rfl
  | define h => simpa using h.length_eq
  | block h | blockFails h => simpa using h.length_eq

theorem Runs.length_eq {σ σ' : List Frame} {ss : List Stmt} {values : List Value} {error : Option RuntimeError}
    {printed : List String} (h : Runs σ ss values error σ' printed) : σ'.length = σ.length := by
  cases h with
  | nil => rfl
  | cons h hlater => exact hlater.length_eq.trans h.length_eq
  | stop h => exact h.length_eq

end

/-- A stack as high as one that is not empty has a current map. -/
private theorem exists_cons {σ σ' : List Frame} (h : σ'.length = σ.length) (hσ : σ ≠ []) :
    ∃ frame later, σ' = frame :: later := by
  apply List.exists_cons_of_ne_nil
  rintro rfl
  exact hσ (List.length_eq_zero_iff.1 h.symm)

/-- An expression that the rules give an outcome: it is well formed and has known operators. -/
def Expr.Meaningful (e : Expr) : Prop := e.WellFormed ∧ e.KnownOperators

mutual

private theorem Executes.total : ∀ {s : Stmt}, s.Every Expr.Meaningful → ∀ {σ : List Frame}, σ ≠ [] →
    ∃ result σ' printed, Executes σ s result σ' printed
  | .expression e, h, σ, _ => by
    obtain ⟨result, σ', he⟩ := Evaluates.total h.1 h.2 σ
    exact ⟨_, _, _, .expression he⟩
  | .print e, h, σ, _ => by
    obtain ⟨result, σ', he⟩ := Evaluates.total h.1 h.2 σ
    cases result with
    | ok v => exact ⟨_, _, _, .print he⟩
    | error error => exact ⟨_, _, _, .printFails he⟩
  | .declare name none, _, σ, hσ => by
    obtain ⟨frame, later, rfl⟩ := List.exists_cons_of_ne_nil hσ
    exact ⟨_, _, _, .declare⟩
  | .declare name (some e), h, σ, hσ => by
    obtain ⟨result, σ', he⟩ := Evaluates.total h.1 h.2 σ
    cases result with
    | ok v =>
      obtain ⟨frame, later, rfl⟩ := exists_cons he.length_eq hσ
      exact ⟨_, _, _, .define he⟩
    | error error => exact ⟨_, _, _, .defineFails he⟩
  | .block body, h, σ, _ => by
    obtain ⟨values, error, σ', printed, hbody⟩ := Runs.total h (List.cons_ne_nil ∅ σ)
    obtain ⟨frame, later, rfl⟩ := exists_cons hbody.length_eq (List.cons_ne_nil ∅ σ)
    cases error with
    | none => exact ⟨_, _, _, .block hbody⟩
    | some error => exact ⟨_, _, _, .blockFails hbody⟩
  | .skipped, _, _, _ => ⟨_, _, _, .skipped⟩
  | .misplaced _, h, _, _ => h.elim

theorem Runs.total : ∀ {ss : List Stmt}, Stmt.EveryIn Expr.Meaningful ss → ∀ {σ : List Frame}, σ ≠ [] →
    ∃ values error σ' printed, Runs σ ss values error σ' printed
  | [], _, _, _ => ⟨_, _, _, _, .nil⟩
  | s :: later, h, σ, hσ => by
    obtain ⟨result, σ', printed, hs⟩ := Executes.total h.1 hσ
    cases result with
    | error error => exact ⟨_, _, _, _, .stop hs⟩
    | ok v =>
      have hσ' : σ' ≠ [] := by
        obtain ⟨frame, rest, rfl⟩ := exists_cons hs.length_eq hσ
        exact List.cons_ne_nil _ _
      obtain ⟨values, error, σ'', printed', hlater⟩ := Runs.total h.2 hσ'
      exact ⟨_, _, _, _, .cons hs hlater⟩

end

end Treewalk
