import Mathlib.Data.List.Forall2
import Treewalk.Proofs.Reading.Orderly

/-!
# Relabelled tokens

A relabelling changes tokens and keeps their kinds.  Reading decides by kinds alone: it takes, rejects and passes over
the relabelled tokens where it does so with the tokens themselves, and notes the same problems.  In the trees the
tokens are relabelled as well, and so are the values that are literals of tokens; nothing else in them changes.

* `Expr.Relabelled`, `Stmt.Relabelled`: what relabelling the tokens may do to a tree.
* `Parser.Follows`: one parser reads from relabelled tokens what another reads from the tokens themselves.
* `Parser.program_follows`: the parser of programs follows itself.
* `parse_decides_by_kinds`: the result of reading relabelled tokens up to an end mark.
-/

namespace Treewalk

/-! ### Relabelling trees and readings -/

/-- An expression with its tokens relabelled. -/
def Expr.relabel (f : Token → Token) : Expr → Expr
  | .literal value => .literal value
  | .var name => .var (f name)
  | .assign name value => .assign (f name) (value.relabel f)
  | .unary operator operand => .unary (f operator) (operand.relabel f)
  | .binary left operator right => .binary (left.relabel f) (f operator) (right.relabel f)
  | .grouping inner => .grouping (inner.relabel f)
  | .misplaced found => .misplaced found

/-- A statement with its tokens relabelled. -/
def Stmt.relabel (f : Token → Token) : Stmt → Stmt
  | .expression e => .expression (e.relabel f)
  | .print e => .print (e.relabel f)
  | .declare name initializer => .declare (f name) (initializer.map (Expr.relabel f))
  | .block body => .block (body.map (Stmt.relabel f))
  | .skipped => .skipped
  | .misplaced found => .misplaced found

/-- A syntax error at the relabelled token. -/
def SyntaxError.relabel (f : Token → Token) (e : SyntaxError) : SyntaxError := { e with token := f e.token }

/-- A stop with its token relabelled, if it has one. -/
def Stop.relabel (f : Token → Token) : Stop → Stop
  | .rejected error => .rejected (error.relabel f)
  | .tooDeep => .tooDeep
  | .outOfTokens => .outOfTokens

/-- The second expression is the first one after a relabelling that may change literals, so that the value of a number
or a string becomes that of the relabelled token. -/
inductive Expr.Relabelled (f : Token → Token) : Expr → Expr → Prop where
  | nil : Relabelled f (.literal .nil) (.literal .nil)
  | bool (b : Bool) : Relabelled f (.literal (.bool b)) (.literal (.bool b))
  | literal {t : Token} (ht : t.kind = .number ∨ t.kind = .string) :
      Relabelled f (.literal t.literal) (.literal (f t).literal)
  | var (name : Token) : Relabelled f (.var name) (.var (f name))
  | assign (name : Token) {value value' : Expr} (hvalue : Relabelled f value value') :
      Relabelled f (.assign name value) (.assign (f name) value')
  | unary (operator : Token) {operand operand' : Expr} (hoperand : Relabelled f operand operand') :
      Relabelled f (.unary operator operand) (.unary (f operator) operand')
  | binary (operator : Token) {left left' right right' : Expr} (hleft : Relabelled f left left')
      (hright : Relabelled f right right') :
      Relabelled f (.binary left operator right) (.binary left' (f operator) right')
  | grouping {inner inner' : Expr} (hinner : Relabelled f inner inner') :
      Relabelled f (.grouping inner) (.grouping inner')

/-- The second statement is the first one after a relabelling that may change literals. -/
inductive Stmt.Relabelled (f : Token → Token) : Stmt → Stmt → Prop where
  | expression {e e' : Expr} (h : e.Relabelled f e') : Relabelled f (.expression e) (.expression e')
  | print {e e' : Expr} (h : e.Relabelled f e') : Relabelled f (.print e) (.print e')
  | declare (name : Token) {initializer initializer' : Option Expr}
      (h : Option.Rel (Expr.Relabelled f) initializer initializer') :
      Relabelled f (.declare name initializer) (.declare (f name) initializer')
  | block {body body' : List Stmt} (h : List.Forall₂ (Relabelled f) body body') :
      Relabelled f (.block body) (.block body')
  | skipped : Relabelled f .skipped .skipped

/-- The second reading went as the first one did, from relabelled tokens; `r` says what becomes of the result. -/
inductive Reading.Relabelled {α β : Type} (f : Token → Token) (r : α → β → Prop) : Reading α → Reading β → Prop where
  | ok {a : α} {b : β} (h : r a b) (errors : List SyntaxError) (rest : List Token) :
      Relabelled f r ⟨.ok a, errors, rest⟩ ⟨.ok b, errors.map (SyntaxError.relabel f), rest.map f⟩
  | error (stop : Stop) (errors : List SyntaxError) (rest : List Token) :
      Relabelled f r ⟨.error stop, errors, rest⟩
        ⟨.error (stop.relabel f), errors.map (SyntaxError.relabel f), rest.map f⟩

section

variable {α β γ δ : Type} {f : Token → Token} {r : α → β → Prop} {r' : γ → δ → Prop}

namespace Reading.Relabelled

variable {x : Reading α} {y : Reading β}

private theorem of_ok (h : x.Relabelled f r y) {a : α} (ha : x.result = .ok a) :
    ∃ b, r a b ∧ y = ⟨.ok b, x.errors.map (SyntaxError.relabel f), x.rest.map f⟩ := by
  cases h with
  | ok hab errors rest =>
    cases ha
    exact ⟨_, hab, rfl⟩
  | error stop errors rest => cases ha

private theorem of_error (h : x.Relabelled f r y) {stop : Stop} (hstop : x.result = .error stop) :
    y = ⟨.error (stop.relabel f), x.errors.map (SyntaxError.relabel f), x.rest.map f⟩ := by
  cases h with
  | ok hab errors rest => cases hstop
  | error stop errors rest =>
    cases hstop
    rfl

/-- The same with errors noted before. -/
private theorem behind (h : x.Relabelled f r y) (notes : List SyntaxError) :
    Relabelled f r ⟨x.result, notes ++ x.errors, x.rest⟩
      ⟨y.result, notes.map (SyntaxError.relabel f) ++ y.errors, y.rest⟩ := by
  cases h with
  | ok hab errors rest => simpa only [List.map_append] using Relabelled.ok hab (notes ++ errors) rest
  | error stop errors rest => simpa only [List.map_append] using Relabelled.error stop (notes ++ errors) rest

private theorem map (h : x.Relabelled f r y) {g : α → γ} {g' : β → δ} (hg : ∀ a b, r a b → r' (g a) (g' b)) :
    Relabelled f r' ⟨x.result.map g, x.errors, x.rest⟩ ⟨y.result.map g', y.errors, y.rest⟩ := by
  cases h with
  | ok hab errors rest => exact .ok (hg _ _ hab) errors rest
  | error stop errors rest => exact .error stop errors rest

end Reading.Relabelled

namespace Parser

/-- From relabelled tokens, `q` reads what `p` reads from the tokens themselves. -/
def Follows (f : Token → Token) (r : α → β → Prop) (p : Parser α) (q : Parser β) : Prop :=
  ∀ ts, (p.run ts).Relabelled f r (q.run (ts.map f))

/-! ### Parsers put together -/

private theorem follows_pure {a : α} {b : β} (h : r a b) : Follows f r (pure a) (pure b) := fun ts => .ok h [] ts

private theorem follows_tooDeep : Follows f r (stop .tooDeep) (stop .tooDeep) := fun ts => .error .tooDeep [] ts

private theorem follows_note (error : SyntaxError) : Follows f Eq (note error) (note (error.relabel f)) :=
  fun ts => .ok rfl [error] ts

private theorem follows_reject (problem : SyntaxProblem) : Follows f r (reject problem) (reject problem) := by
  intro ts
  cases ts with
  | nil => exact .error .outOfTokens [] []
  | cons t ts => exact .error (.rejected ⟨t, problem⟩) [⟨t, problem⟩] (t :: ts)

private theorem Follows.bind {p : Parser α} {q : Parser β} {k : α → Parser γ} {l : β → Parser δ} (hp : Follows f r p q)
    (hk : ∀ a b, r a b → Follows f r' (k a) (l b)) : Follows f r' (p >>= k) (q >>= l) := by
  intro ts
  have hfirst := hp ts
  simp only [bind_def, Parser.bind]
  generalize p.run ts = x, q.run (ts.map f) = y at hfirst ⊢
  cases hfirst with
  | ok hab errors rest => exact (hk _ _ hab rest).behind errors
  | error stop errors rest => exact .error stop errors rest

private theorem Follows.branch (hkind : ∀ t, (f t).kind = t.kind) {select : Token → Option (Parser α)}
    {select' : Token → Option (Parser β)} {otherwise : Parser α} {otherwise' : Parser β}
    (hs : ∀ t, Option.Rel (Follows f r) (select t) (select' (f t))) (ho : Follows f r otherwise otherwise') :
    Follows f r (branch select otherwise) (branch select' otherwise') := by
  intro ts
  cases ts with
  | nil => exact .error .outOfTokens [] []
  | cons t ts =>
    have hother := ho (t :: ts)
    have hchoice := hs t
    rw [List.map_cons] at hother ⊢
    simp only [Parser.branch, hkind]
    split
    · exact hother
    · generalize select t = choice, select' (f t) = choice' at hchoice ⊢
      cases hchoice with
      | some h => exact h ts
      | none => exact hother

private theorem follows_expect (hkind : ∀ t, (f t).kind = t.kind) (kind : TokenKind) (problem : SyntaxProblem) :
    Follows f (fun t t' => t' = f t) (expect kind problem) (expect kind problem) := by
  refine Follows.branch hkind (fun t => ?_) (follows_reject problem)
  rw [hkind]
  split
  · exact .some (follows_pure rfl)
  · exact .none

private theorem Follows.chainFrom (hkind : ∀ t, (f t).kind = t.kind) {operand : Parser Expr}
    (ho : Follows f (Expr.Relabelled f) operand operand) (level : Level) (left : Expr) (ts : List Token) :
    ∀ left', left.Relabelled f left' → (chainFrom level operand left ts).Relabelled f (Expr.Relabelled f)
      (chainFrom level operand left' (ts.map f)) := by
  -- along the chain the left operand grows, so its counterpart has to be any
  fun_induction Parser.chainFrom level operand left ts with
  | case1 left =>
    intro left' _
    rw [List.map_nil, Parser.chainFrom]
    exact .error .outOfTokens [] []
  | case2 left t rest ht reading right hright more ih =>
    intro left' hleft
    obtain ⟨right', hr, hrun⟩ := (ho rest).of_ok hright
    rw [List.map_cons, Parser.chainFrom, if_pos (by rwa [hkind])]
    simp only [hrun]
    exact (ih _ (.binary t hleft hr)).behind reading.errors
  | case3 left t rest ht reading stop hstop =>
    intro left' _
    have hrun := (ho rest).of_error hstop
    rw [List.map_cons, Parser.chainFrom, if_pos (by rwa [hkind])]
    simp only [hrun]
    exact .error stop reading.errors reading.rest
  | case4 left t rest ht =>
    intro left' hleft
    rw [List.map_cons, Parser.chainFrom, if_neg (by rwa [hkind])]
    exact .ok hleft [] (t :: rest)

private theorem Follows.chain (hkind : ∀ t, (f t).kind = t.kind) {operand : Parser Expr}
    (ho : Follows f (Expr.Relabelled f) operand operand) (level : Level) :
    Follows f (Expr.Relabelled f) (chain level operand) (chain level operand) :=
  Follows.bind ho fun left left' hleft ts => ho.chainFrom hkind level left ts left' hleft

end Parser

open Treewalk.Parser in
/-- Every rule decides by kinds alone. -/
private theorem Rule.parser_follows (hkind : ∀ t, (f t).kind = t.kind) (rule : Rule) (room : Nat) :
    Follows f (Expr.Relabelled f) (rule.parser room) (rule.parser room) := by
  induction room generalizing rule with
  | zero => exact follows_tooDeep
  | succ room ih =>
    cases rule with
    | expression => exact ih .assignment
    | assignment =>
      refine Follows.bind (ih _) fun target target' htarget => Follows.branch hkind (fun t => ?_) (follows_pure htarget)
      rw [hkind]
      split
      · refine .some (Follows.bind (ih _) fun value value' hvalue => ?_)
        -- whether the target is a name does not depend on the labels
        have hkept := htarget
        cases htarget with
        | var name => exact follows_pure (.assign name hvalue)
        | _ => exact Follows.bind (follows_note ⟨t, .invalidAssignmentTarget⟩) fun _ _ _ => follows_pure hkept
      · exact .none
    | binary level => exact (ih _).chain hkind level
    | unary =>
      refine Follows.branch hkind (fun t => ?_) (ih _)
      rw [hkind]
      split
      · exact .some (Follows.bind (ih _) fun _ _ he => follows_pure (.unary t he))
      · exact .none
    | primary =>
      refine Follows.branch hkind (fun t => ?_) (follows_reject _)
      rw [hkind]
      cases hk : t.kind with
      | false_ | true_ => exact .some (follows_pure (.bool _))
      | nil_ => exact .some (follows_pure .nil)
      | number => exact .some (follows_pure (.literal (.inl hk)))
      | string => exact .some (follows_pure (.literal (.inr hk)))
      | identifier => exact .some (follows_pure (.var t))
      | leftParen =>
        refine .some (Follows.bind (ih _) fun _ _ he => ?_)
        exact Follows.bind (follows_expect hkind _ _) fun _ _ _ => follows_pure (.grouping he)
      | _ => exact .none

namespace Parser

/-! ### Statements -/

private theorem boundary?_map (hkind : ∀ t, (f t).kind = t.kind) (last : TokenKind) (ts : List Token) :
    boundary? last (ts.map f) = (boundary? last ts).map (List.map f) := by
  induction ts generalizing last with
  | nil => rfl
  | cons t ts ih =>
    simp only [List.map_cons, boundary?, hkind, ih]
    split <;> rfl

private theorem resume?_map (hkind : ∀ t, (f t).kind = t.kind) (ts : List Token) :
    resume? (ts.map f) = (resume? ts).map (List.map f) := by
  cases ts with
  | nil => rfl
  | cons t ts =>
    simp only [List.map_cons, resume?, hkind, boundary?_map hkind]
    split <;> rfl

private theorem giveUp_relabelled (hkind : ∀ t, (f t).kind = t.kind) (errors : List SyntaxError) (ts : List Token) :
    (giveUp errors ts).Relabelled f (Stmt.Relabelled f) (giveUp (errors.map (SyntaxError.relabel f)) (ts.map f)) := by
  unfold giveUp
  rw [resume?_map hkind]
  cases resume? ts with
  | none => exact .error .outOfTokens errors []
  | some rest => exact .ok .skipped errors rest

private theorem recover_relabelled (hkind : ∀ t, (f t).kind = t.kind) {x y : Reading Stmt}
    (h : x.Relabelled f (Stmt.Relabelled f) y) : (recover x).Relabelled f (Stmt.Relabelled f) (recover y) := by
  cases h with
  | ok hs errors rest => exact .ok hs errors rest
  | error stop errors rest =>
    cases stop with
    | rejected error => exact giveUp_relabelled hkind errors rest
    | tooDeep =>
      cases rest with
      | nil => exact .error .outOfTokens errors []
      | cons t rest =>
        have hgive := giveUp_relabelled hkind (errors ++ [⟨t, .nestedTooDeep⟩]) (t :: rest)
        rwa [List.map_append] at hgive
    | outOfTokens => exact .error .outOfTokens errors rest

private theorem Follows.recovering (hkind : ∀ t, (f t).kind = t.kind) {item : Parser Stmt}
    (hi : Follows f (Stmt.Relabelled f) item item) :
    Follows f (Stmt.Relabelled f) (recovering item) (recovering item) :=
  fun ts => recover_relabelled hkind (hi ts)

private theorem Follows.statements (hkind : ∀ t, (f t).kind = t.kind) {item : Item}
    (hi : Follows f (Stmt.Relabelled f) item.toParser item.toParser) (closing : Option TokenKind) :
    Follows f (List.Forall₂ (Stmt.Relabelled f)) (statements closing item) (statements closing item) := by
  intro ts
  show (statementsFrom closing item ts).Relabelled f _ (statementsFrom closing item (ts.map f))
  fun_induction statementsFrom closing item ts with
  | case1 =>
    rw [List.map_nil, statementsFrom]
    exact .error .outOfTokens [] []
  | case2 t ts ht =>
    rw [List.map_cons, statementsFrom, dif_pos (by rwa [hkind])]
    exact .ok .nil [] (t :: ts)
  | case3 t ts ht reading s hs more ih =>
    obtain ⟨s', hss', hrun⟩ := (hi.recovering hkind (t :: ts)).of_ok hs
    rw [List.map_cons, statementsFrom_of_ok (by rwa [hkind]) hrun]
    exact (ih.map fun _ _ => .cons hss').behind reading.errors
  | case4 t ts ht reading stop hstop =>
    have hrun := (hi.recovering hkind (t :: ts)).of_error hstop
    rw [List.map_cons, statementsFrom_of_error (by rwa [hkind]) hrun]
    exact .error stop reading.errors reading.rest

private theorem Follows.anyStatement (hkind : ∀ t, (f t).kind = t.kind) {value : Parser Expr}
    {body : Parser (List Stmt)} (hv : Follows f (Expr.Relabelled f) value value)
    (hb : Follows f (List.Forall₂ (Stmt.Relabelled f)) body body) :
    Follows f (Stmt.Relabelled f) (anyStatement value body) (anyStatement value body) := by
  have hend : ∀ kind problem {s s' : Stmt}, s.Relabelled f s' →
      Follows f (Stmt.Relabelled f) (expect kind problem >>= fun _ => pure s)
        (expect kind problem >>= fun _ => pure s') :=
    fun kind problem _ _ h => Follows.bind (follows_expect hkind kind problem) fun _ _ _ => follows_pure h
  refine Follows.branch hkind (fun t => ?_) (Follows.bind hv fun _ _ he => hend .semicolon _ (.expression he))
  rw [hkind]
  cases t.kind with
  | var_ =>
    refine .some (Follows.bind (follows_expect hkind _ _) fun name name' hname => ?_)
    refine Follows.bind (r := Option.Rel (Expr.Relabelled f)) ?_ fun _ _ hinit => ?_
    · refine Follows.branch hkind (fun t => ?_) (follows_pure .none)
      rw [hkind]
      split
      · exact .some (Follows.bind hv fun _ _ he => follows_pure (.some he))
      · exact .none
    · rw [hname]
      exact hend .semicolon _ (.declare name hinit)
  | print_ => exact .some (Follows.bind hv fun _ _ he => hend .semicolon _ (.print he))
  | leftBrace => exact .some (Follows.bind hb fun _ _ hbody => hend .rightBrace _ (.block hbody))
  | _ => exact .none

private theorem statement_follows (hkind : ∀ t, (f t).kind = t.kind) :
    ∀ room : Nat, Follows f (Stmt.Relabelled f) (statement room).toParser (statement room).toParser
  | 0 => follows_tooDeep
  | 1 => follows_tooDeep
  | 2 => follows_tooDeep
  | room + 3 => Follows.anyStatement hkind (Rule.parser_follows hkind _ _)
      (Follows.statements hkind (statement_follows hkind room) _)

/-- The reading of programs decides by kinds alone. -/
theorem program_follows (hkind : ∀ t, (f t).kind = t.kind) (room : Nat) :
    Follows f (List.Forall₂ (Stmt.Relabelled f)) (program room) (program room) :=
  Follows.statements hkind (statement_follows hkind room) none

end Parser

/-! ### Literals kept -/

private theorem Expr.Relabelled.eq_relabel (hliteral : ∀ t, (f t).literal = t.literal) {e e' : Expr}
    (h : e.Relabelled f e') : e' = e.relabel f := by
  induction h with
  | nil | bool b | var name => rfl
  | literal _ => rw [hliteral, relabel]
  | assign name _ ih => rw [ih, relabel]
  | unary operator _ ih => rw [ih, relabel]
  | binary operator _ _ ihleft ihright => rw [ihleft, ihright, relabel]
  | grouping _ ih => rw [ih, relabel]

mutual

private theorem Stmt.Relabelled.eq_relabel (hliteral : ∀ t, (f t).literal = t.literal) (s : Stmt) {s' : Stmt}
    (h : s.Relabelled f s') : s' = s.relabel f := by
  cases s with
  | expression e =>
    cases h with
    | expression he => rw [he.eq_relabel hliteral, relabel]
  | print e =>
    cases h with
    | print he => rw [he.eq_relabel hliteral, relabel]
  | declare name initializer =>
    cases h with
    | declare _ hinit =>
      cases hinit with
      | none => rw [relabel, Option.map_none]
      | some he => rw [he.eq_relabel hliteral, relabel, Option.map_some]
  | block body =>
    cases h with
    | block hbody => rw [eq_map_relabel hliteral body hbody, relabel]
  | skipped =>
    cases h
    rw [relabel]
  | misplaced found => cases h

private theorem Stmt.Relabelled.eq_map_relabel (hliteral : ∀ t, (f t).literal = t.literal) (ss : List Stmt)
    {ss' : List Stmt} (h : List.Forall₂ (Stmt.Relabelled f) ss ss') : ss' = ss.map (Stmt.relabel f) := by
  cases h with
  | nil => rfl
  | cons hs hss => rw [eq_relabel hliteral _ hs, eq_map_relabel hliteral _ hss, List.map_cons]

end

/-- If literals are kept, a program is read from relabelled tokens with its tokens relabelled and no other change. -/
theorem Parser.Yields.program_relabel (hkind : ∀ t, (f t).kind = t.kind) (hliteral : ∀ t, (f t).literal = t.literal)
    {room : Nat} {ts rest : List Token} {ss : List Stmt} {notes : List SyntaxError}
    (h : (program room).Yields ts ss notes rest) :
    (program room).Yields (ts.map f) (ss.map (Stmt.relabel f)) (notes.map (SyntaxError.relabel f)) (rest.map f) := by
  obtain ⟨ss', hss, hrun⟩ := (program_follows hkind room ts).of_ok (congrArg Reading.result h)
  obtain rfl := Stmt.Relabelled.eq_map_relabel hliteral ss hss
  rw [Yields, hrun, h]

end

/-- Reading decides by the kinds of tokens alone.  If `f` keeps the kinds and there is an end mark, then both the tokens
and the relabelled tokens have a result, with the same problems at corresponding tokens and with corresponding tokens
left.  The trees have the same shape and corresponding tokens in them, so that only the values of numbers and strings
can differ; they do not if `f` keeps the literals, too. -/
theorem parse_decides_by_kinds {f : Token → Token} (hkind : ∀ t, (f t).kind = t.kind) {ts : List Token}
    (hend : HasEnd ts) :
    ∃ program program' errors rest,
      parse ts = ⟨.ok program, errors, rest⟩ ∧
      parse (ts.map f) = ⟨.ok program', errors.map (SyntaxError.relabel f), rest.map f⟩ ∧
      (parse (ts.map f)).errors.map SyntaxError.report =
        errors.map (fun e => Report.atToken (f e.token) e.problem.message) ∧
      List.Forall₂ (Stmt.Relabelled f) program program' ∧
      ((∀ t, (f t).literal = t.literal) → program' = program.map (Stmt.relabel f)) := by
  obtain ⟨program, hprogram, -⟩ := Parser.program_result readingRoom hend
  obtain ⟨program', hprograms, hrun⟩ := (Parser.program_follows hkind readingRoom ts).of_ok hprogram
  refine ⟨program, program', (parse ts).errors, (parse ts).rest, ?_, hrun, ?_, hprograms, fun hliteral => ?_⟩
  · rw [← hprogram]
    rfl
  · have herrors : (parse (ts.map f)).errors = (parse ts).errors.map (SyntaxError.relabel f) :=
      congrArg Reading.errors hrun
    rw [herrors, List.map_map]
    rfl
  · exact Stmt.Relabelled.eq_map_relabel hliteral program hprograms

/-- The tokens of `"x" = nil; (;` with other lexemes and on another line: the target is invalid, and the second
statement is passed over. -/
theorem parse_decides_by_kinds_moved :
    let f : Token → Token := fun t => { t with lexeme := "?", line := 7 }
    let equals : Token := ⟨.equal, "=", .nil, 1⟩
    let semicolon : Token := ⟨.semicolon, ";", .nil, 1⟩
    let ts := [⟨.string, "\"x\"", .str "x", 1⟩, equals, ⟨.nil_, "nil", .nil, 1⟩, semicolon,
      ⟨.leftParen, "(", .nil, 1⟩, semicolon, .endMark 1]
    (∀ t, (f t).kind = t.kind) ∧ HasEnd ts ∧ (∀ t, (f t).literal = t.literal) ∧
      (∃ program errors rest, parse ts = ⟨.ok program, errors, rest⟩ ∧
        parse (ts.map f) = ⟨.ok (program.map (Stmt.relabel f)), errors.map (SyntaxError.relabel f), rest.map f⟩) ∧
      (parse (ts.map f)).errors.map SyntaxError.report =
        [.atToken (f equals) "Invalid assignment target.", .atToken (f semicolon) "Expect expression."] := by
  intro f equals semicolon ts
  have hkind : ∀ t, (f t).kind = t.kind := fun _ => rfl
  have hliteral : ∀ t, (f t).literal = t.literal := fun _ => rfl
  have hend : HasEnd ts := ⟨.endMark 1, by simp [ts], rfl⟩
  have herrors : (parse ts).errors = [⟨equals, .invalidAssignmentTarget⟩, ⟨semicolon, .expectedExpression⟩] := by
    decide +kernel
  obtain ⟨program, program', errors, rest, hparse, hrun, hreports, -, hkept⟩ := parse_decides_by_kinds hkind hend
  obtain rfl := hkept hliteral
  obtain rfl : errors = _ := (congrArg Reading.errors hparse).symm.trans herrors
  exact ⟨hkind, hend, hliteral, ⟨program, _, rest, hparse, hrun⟩, hreports⟩

end Treewalk
