import Treewalk.Proofs.Reading.Orderly

/-!
# What the rules of expressions read

`ReadsAs room r ts e notes` says by which steps a rule reads all of `ts` as the tree `e`, within an allowance of `room`
rules.  Unlike a phrase of the grammar, what is read may have an assignment to something that is no name; the error is
then among `notes`, behind those of both sides, and the tree is that of the left side alone.

* `Rule.readsAs_of_yields`: whatever a rule yields, it reads in this sense.
* `ReadsAs.yields`: a rule yields whatever it reads, in front of any token that does not extend it.

So what a rule makes of the tokens that it takes does not depend on the tokens behind them.
-/

namespace Treewalk

/-- Within the allowance, a rule reads all the tokens as the tree, and notes the errors. -/
inductive ReadsAs : Nat → Rule → List Token → Expr → List SyntaxError → Prop where
  | expression {room : Nat} {ts : List Token} {e : Expr} {notes : List SyntaxError}
      (h : ReadsAs room .assignment ts e notes) : ReadsAs (room + 1) .expression ts e notes
  | assign {room : Nat} {ts us : List Token} {name equals : Token} {value : Expr} {n₁ n₂ : List SyntaxError}
      (hname : ReadsAs room (.binary .equality) ts (.var name) n₁) (hequals : equals.kind = .equal)
      (hvalue : ReadsAs room .assignment us value n₂) :
      ReadsAs (room + 1) .assignment (ts ++ equals :: us) (.assign name value) (n₁ ++ n₂)
  | misassign {room : Nat} {ts us : List Token} {equals : Token} {target value : Expr} {n₁ n₂ : List SyntaxError}
      (htarget : ReadsAs room (.binary .equality) ts target n₁) (hno : ∀ name, target ≠ .var name)
      (hequals : equals.kind = .equal) (hvalue : ReadsAs room .assignment us value n₂) :
      ReadsAs (room + 1) .assignment (ts ++ equals :: us) target
        (n₁ ++ (n₂ ++ [⟨equals, .invalidAssignmentTarget⟩]))
  | assignment {room : Nat} {ts : List Token} {e : Expr} {notes : List SyntaxError}
      (h : ReadsAs room (.binary .equality) ts e notes) : ReadsAs (room + 1) .assignment ts e notes
  | join {room : Nat} {level : Level} {ts us : List Token} {operator : Token} {left right : Expr}
      {n₁ n₂ : List SyntaxError} (hleft : ReadsAs (room + 1) (.binary level) ts left n₁)
      (hoperator : operator.kind ∈ level.operators) (hright : ReadsAs room level.operand us right n₂) :
      ReadsAs (room + 1) (.binary level) (ts ++ operator :: us) (.binary left operator right) (n₁ ++ n₂)
  | operand {room : Nat} {level : Level} {ts : List Token} {e : Expr} {notes : List SyntaxError}
      (h : ReadsAs room level.operand ts e notes) : ReadsAs (room + 1) (.binary level) ts e notes
  | negate {room : Nat} {operator : Token} {ts : List Token} {operand : Expr} {notes : List SyntaxError}
      (hoperator : operator.kind = .minus ∨ operator.kind = .bang) (h : ReadsAs room .unary ts operand notes) :
      ReadsAs (room + 1) .unary (operator :: ts) (.unary operator operand) notes
  | unary {room : Nat} {ts : List Token} {e : Expr} {notes : List SyntaxError} (h : ReadsAs room .primary ts e notes) :
      ReadsAs (room + 1) .unary ts e notes
  | false_ {room : Nat} {t : Token} (h : t.kind = .false_) :
      ReadsAs (room + 1) .primary [t] (.literal (.bool false)) []
  | true_ {room : Nat} {t : Token} (h : t.kind = .true_) : ReadsAs (room + 1) .primary [t] (.literal (.bool true)) []
  | nil_ {room : Nat} {t : Token} (h : t.kind = .nil_) : ReadsAs (room + 1) .primary [t] (.literal .nil) []
  | number {room : Nat} {t : Token} (h : t.kind = .number) : ReadsAs (room + 1) .primary [t] (.literal t.literal) []
  | string {room : Nat} {t : Token} (h : t.kind = .string) : ReadsAs (room + 1) .primary [t] (.literal t.literal) []
  | name {room : Nat} {t : Token} (h : t.kind = .identifier) : ReadsAs (room + 1) .primary [t] (.var t) []
  | grouping {room : Nat} {opening closing : Token} {ts : List Token} {e : Expr} {notes : List SyntaxError}
      (hopening : opening.kind = .leftParen) (h : ReadsAs room .expression ts e notes)
      (hclosing : closing.kind = .rightParen) :
      ReadsAs (room + 1) .primary (opening :: (ts ++ [closing])) (.grouping e) notes

private theorem ReadsAs.succ {room : Nat} {r : Rule} {ts : List Token} {e : Expr} {notes : List SyntaxError}
    (h : ReadsAs room r ts e notes) : ReadsAs (room + 1) r ts e notes := by
  induction h with
  | expression _ ih => exact .expression ih
  | assign _ hequals _ ihname ihvalue => exact .assign ihname hequals ihvalue
  | misassign _ hno hequals _ ihtarget ihvalue => exact .misassign ihtarget hno hequals ihvalue
  | assignment _ ih => exact .assignment ih
  | join _ hoperator _ ihleft ihright => exact .join ihleft hoperator ihright
  | operand _ ih => exact .operand ih
  | negate hoperator _ ih => exact .negate hoperator ih
  | unary _ ih => exact .unary ih
  | false_ h => exact .false_ h
  | true_ h => exact .true_ h
  | nil_ h => exact .nil_ h
  | number h => exact .number h
  | string h => exact .string h
  | name h => exact .name h
  | grouping hopening _ hclosing ih => exact .grouping hopening ih hclosing

/-- A larger allowance serves as well. -/
theorem ReadsAs.mono {room room' : Nat} {r : Rule} {ts : List Token} {e : Expr} {notes : List SyntaxError}
    (h : ReadsAs room r ts e notes) (hroom : room ≤ room') : ReadsAs room' r ts e notes := by
  induction hroom with
  | refl => exact h
  | step _ ih => exact ih.succ

/-- What is read as an operand of the tightest operators is read by the looser levels as well. -/
theorem ReadsAs.equality_of_unary {room : Nat} {ts : List Token} {e : Expr} {notes : List SyntaxError}
    (h : ReadsAs room .unary ts e notes) : ReadsAs (room + 4) (.binary .equality) ts e notes := by
  have hfactor : ReadsAs (room + 1) (.binary .factor) ts e notes := .operand h
  have hterm : ReadsAs (room + 2) (.binary .term) ts e notes := .operand hfactor
  have hcomparison : ReadsAs (room + 3) (.binary .comparison) ts e notes := .operand hterm
  exact .operand hcomparison

/-! ### Whatever is yielded is read -/

namespace Parser

/-- A chain that goes on after a phrase makes a longer phrase. -/
private theorem readsAs_of_chainFrom {room : Nat} {level : Level} {operand : Parser Expr}
    (hoperand : ∀ {ts e notes rest}, operand.Yields ts e notes rest →
      ∃ taken, ts = taken ++ rest ∧ ReadsAs room level.operand taken e notes)
    {left : Expr} {before ts : List Token} {n₀ : List SyntaxError}
    (hleft : ReadsAs (room + 1) (.binary level) before left n₀) {e : Expr} {notes : List SyntaxError}
    {rest : List Token} (h : chainFrom level operand left ts = ⟨.ok e, notes, rest⟩) :
    ∃ taken, ts = taken ++ rest ∧ ReadsAs (room + 1) (.binary level) (before ++ taken) e (n₀ ++ notes) := by
  -- on the number of tokens left: each operator takes the chain further
  induction hn : ts.length using Nat.strongRecOn generalizing left before ts n₀ notes with
  | _ n ih =>
    subst hn
    cases ts with
    | nil => rw [chainFrom] at h; simp at h
    | cons t ts =>
      by_cases ht : t.kind ∈ level.operators
      · obtain ⟨right, n₁, mid, n₂, hright, hmore, rfl⟩ := (chainFrom_eq_ok_of_mem ht).1 h
        obtain ⟨us, rfl, hus⟩ := hoperand hright
        have hlt : mid.length < (t :: (us ++ mid)).length := by
          rw [List.length_cons, List.length_append]
          omega
        obtain ⟨taken, rfl, hread⟩ := ih mid.length hlt (.join hleft ht hus) hmore rfl
        refine ⟨t :: (us ++ taken), by simp, ?_⟩
        simpa using hread
      · rw [chainFrom_of_not_mem ht] at h
        simp only [Reading.mk.injEq, Except.ok.injEq] at h
        obtain ⟨rfl, rfl, rfl⟩ := h
        exact ⟨[], rfl, by simpa using hleft⟩

end Parser

open Treewalk.Parser in
/-- Whatever a rule yields, it reads from the tokens that it takes. -/
theorem Rule.readsAs_of_yields (r : Rule) {room : Nat} {ts rest : List Token} {e : Expr} {notes : List SyntaxError}
    (h : (r.parser room).Yields ts e notes rest) : ∃ taken, ts = taken ++ rest ∧ ReadsAs room r taken e notes := by
  induction room generalizing r ts rest e notes with
  | zero => exact absurd h not_yields_stop
  | succ room ih =>
    cases r with
    | expression =>
      obtain ⟨taken, rfl, hread⟩ := ih .assignment h
      exact ⟨taken, rfl, .expression hread⟩
    | assignment =>
      obtain ⟨target, n₁, mid, n₂, htarget, hbranch, rfl⟩ := yields_bind.1 h
      obtain ⟨us, rfl, hus⟩ := ih _ htarget
      rcases hbranch.branch_cases with ⟨t, later, p, rfl, -, hs, hp⟩ | hpure
      · split at hs
        · next hequals =>
          cases hs
          obtain ⟨value, n₃, mid, n₄, hvalue, hend, rfl⟩ := yields_bind.1 hp
          obtain ⟨vs, rfl, hvs⟩ := ih _ hvalue
          split at hend
          · next name =>
            obtain ⟨rfl, rfl, rfl⟩ := yields_pure.1 hend
            exact ⟨us ++ t :: vs, by simp, by simpa using ReadsAs.assign hus hequals hvs⟩
          · next hno =>
            obtain ⟨_, n₅, mid, n₆, hnote, hpure, rfl⟩ := yields_bind.1 hend
            obtain ⟨rfl, rfl⟩ := yields_note.1 hnote
            obtain ⟨rfl, rfl, rfl⟩ := yields_pure.1 hpure
            refine ⟨us ++ t :: vs, by simp, ?_⟩
            simpa using ReadsAs.misassign hus (fun name hn => hno name hn) hequals hvs
        · simp at hs
      · obtain ⟨rfl, rfl, rfl⟩ := yields_pure.1 hpure
        exact ⟨us, rfl, by simpa using ReadsAs.assignment hus⟩
    | binary level =>
      obtain ⟨left, n₁, mid, n₂, hleft, hchain, rfl⟩ := yields_chain.1 h
      obtain ⟨us, rfl, hus⟩ := ih _ hleft
      obtain ⟨taken, rfl, hread⟩ := readsAs_of_chainFrom (ih level.operand) (.operand hus) hchain
      exact ⟨us ++ taken, by simp, hread⟩
    | unary =>
      rcases Yields.branch_cases h with ⟨t, later, p, rfl, -, hs, hp⟩ | hprimary
      · split at hs
        · next ht =>
          cases hs
          obtain ⟨operand, n₁, mid, n₂, hoperand, hend, rfl⟩ := yields_bind.1 hp
          obtain ⟨rfl, rfl, rfl⟩ := yields_pure.1 hend
          obtain ⟨us, rfl, hus⟩ := ih _ hoperand
          exact ⟨t :: us, rfl, by simpa using ReadsAs.negate ht hus⟩
        · simp at hs
      · obtain ⟨us, rfl, hus⟩ := ih _ hprimary
        exact ⟨us, rfl, .unary hus⟩
    | primary =>
      rcases Yields.branch_cases h with ⟨t, later, p, rfl, -, hs, hp⟩ | hreject
      · -- all but the parentheses are single tokens
        have leaf : ∀ {leaf}, ReadsAs (room + 1) .primary [t] leaf [] →
            (pure leaf : Parser Expr).Yields later e notes rest →
            ∃ taken, t :: later = taken ++ rest ∧ ReadsAs (room + 1) .primary taken e notes := by
          intro leaf hleaf hp
          obtain ⟨rfl, rfl, rfl⟩ := yields_pure.1 hp
          exact ⟨[t], rfl, hleaf⟩
        split at hs
        · next ht => cases hs; exact leaf (.false_ ht) hp
        · next ht => cases hs; exact leaf (.true_ ht) hp
        · next ht => cases hs; exact leaf (.nil_ ht) hp
        · next ht => cases hs; exact leaf (.number ht) hp
        · next ht => cases hs; exact leaf (.string ht) hp
        · next ht => cases hs; exact leaf (.name ht) hp
        · next ht =>
          cases hs
          obtain ⟨inner, closing, hinner, hclosing, rfl⟩ := (yields_closed (by decide)).1 hp
          obtain ⟨us, rfl, hus⟩ := ih _ hinner
          exact ⟨t :: (us ++ [closing]), by simp, .grouping ht hus hclosing⟩
        · simp at hs
      · exact absurd hreject not_yields_reject

/-! ### Whatever can be read is yielded -/

/-- A level and the tighter ones. -/
def Level.andTighter : Level → List Level
  | .equality => [.equality, .comparison, .term, .factor]
  | .comparison => [.comparison, .term, .factor]
  | .term => [.term, .factor]
  | .factor => [.factor]

/-- The kinds of tokens that extend what a rule has read. -/
def Rule.extenders : Rule → List TokenKind
  | .expression => .equal :: Level.equality.andTighter.flatMap Level.operators
  | .assignment => .equal :: Level.equality.andTighter.flatMap Level.operators
  | .binary level => level.andTighter.flatMap Level.operators
  | .unary => []
  | .primary => []

/-- The tokens go on with one that does not extend what the rule has read. -/
def Rule.Stops (r : Rule) (rest : List Token) : Prop :=
  ∃ t later, rest = t :: later ∧ t.kind ∉ r.extenders

private theorem Rule.Stops.mono {r r' : Rule} {rest : List Token} (h : r.Stops rest)
    (hr : ∀ kind ∈ r'.extenders, kind ∈ r.extenders) : r'.Stops rest := by
  obtain ⟨t, later, rfl, ht⟩ := h
  exact ⟨t, later, rfl, fun hm => ht (hr _ hm)⟩

private theorem Level.operand_extenders (level : Level) :
    ∀ kind ∈ level.operand.extenders, kind ∈ (Rule.binary level).extenders := by
  cases level <;> decide

private theorem Level.operators_extenders (level : Level) :
    ∀ kind ∈ level.operators, kind ∈ (Rule.binary level).extenders := by
  cases level <;> decide

private theorem Level.operators_not_extenders (level : Level) :
    ∀ kind ∈ level.operators, kind ∉ level.operand.extenders := by
  cases level <;> decide

/-- The kinds of tokens that start the smallest expressions. -/
def Rule.primaryStarters : List TokenKind :=
  [.false_, .true_, .nil_, .number, .string, .identifier, .leftParen]

/-- The kinds of tokens that start an expression. -/
def Rule.starters : List TokenKind := .minus :: .bang :: Rule.primaryStarters

private theorem ReadsAs.primary_start {room : Nat} {ts : List Token} {e : Expr} {notes : List SyntaxError}
    (h : ReadsAs room .primary ts e notes) : ∃ t later, ts = t :: later ∧ t.kind ∈ Rule.primaryStarters := by
  cases h with
  | grouping h => exact ⟨_, _, rfl, by rw [h]; decide⟩
  | _ h => exact ⟨_, _, rfl, by rw [h]; decide⟩

/-- What a rule reads starts with one of a few kinds of tokens. -/
theorem ReadsAs.start {room : Nat} {r : Rule} {ts : List Token} {e : Expr} {notes : List SyntaxError}
    (h : ReadsAs room r ts e notes) : ∃ t later, ts = t :: later ∧ t.kind ∈ Rule.starters := by
  induction h with
  | expression _ ih | assignment _ ih | operand _ ih | unary _ ih => exact ih
  | assign _ _ _ ih | misassign _ _ _ _ ih | join _ _ _ ih =>
    obtain ⟨t, later, rfl, ht⟩ := ih
    exact ⟨t, _, rfl, ht⟩
  | negate h => exact ⟨_, _, rfl, by rcases h with h | h <;> rw [h] <;> decide⟩
  | grouping h => exact ⟨_, _, rfl, by rw [h]; decide⟩
  | _ h => exact ⟨_, _, rfl, by rw [h]; decide⟩

section

open Treewalk.Parser

/-- The rule yields the tree in front of any token that does not extend it. -/
private def Rule.Finds (room : Nat) (r : Rule) (ts : List Token) (e : Expr) (notes : List SyntaxError) : Prop :=
  ∀ rest, r.Stops rest → (r.parser room).Yields (ts ++ rest) e notes rest

/-- A chain gets to the tree `left` and goes on from there. -/
private def Level.Reaches (room : Nat) (level : Level) (ts : List Token) (left : Expr) (notes : List SyntaxError) :
    Prop :=
  ∀ rest, level.operand.Stops rest → ∀ e more rest',
    chainFrom level (level.operand.parser room) left rest = ⟨.ok e, more, rest'⟩ →
      ((Rule.binary level).parser (room + 1)).Yields (ts ++ rest) e (notes ++ more) rest'

variable {room : Nat} {level : Level} {ts us : List Token} {e left right : Expr} {notes n₁ n₂ : List SyntaxError}

private theorem Level.Reaches.finds (h : level.Reaches room ts e notes) :
    (Rule.binary level).Finds (room + 1) ts e notes := by
  intro rest hrest
  have hend : chainFrom level (level.operand.parser room) e rest = ⟨.ok e, [], rest⟩ := by
    obtain ⟨t, later, rfl, ht⟩ := hrest
    exact chainFrom_of_not_mem fun hm => ht (level.operators_extenders _ hm)
  have hyields := h rest (hrest.mono level.operand_extenders) e [] rest hend
  rwa [List.append_nil] at hyields

private theorem Rule.Finds.reaches (h : level.operand.Finds room ts e notes) : level.Reaches room ts e notes :=
  fun rest hrest _ more _ hmore => yields_chain.2 ⟨e, notes, rest, more, h rest hrest, hmore, rfl⟩

private theorem Level.Reaches.join {operator : Token} (hleft : level.Reaches room ts left n₁)
    (hoperator : operator.kind ∈ level.operators) (hright : level.operand.Finds room us right n₂) :
    level.Reaches room (ts ++ operator :: us) (.binary left operator right) (n₁ ++ n₂) := by
  intro rest hrest e more rest' hmore
  have hstops : level.operand.Stops (operator :: (us ++ rest)) :=
    ⟨operator, us ++ rest, rfl, level.operators_not_extenders _ hoperator⟩
  have hchain : chainFrom level (level.operand.parser room) left (operator :: (us ++ rest)) =
      ⟨.ok e, n₂ ++ more, rest'⟩ :=
    (chainFrom_eq_ok_of_mem hoperator).2 ⟨right, n₂, rest, more, hright rest hrest, hmore, rfl⟩
  have hyields := hleft (operator :: (us ++ rest)) hstops e (n₂ ++ more) rest' hchain
  simpa using hyields

private theorem finds_leaf {t : Token} (ht : t.kind ≠ .eof)
    (he : ∃ select otherwise, Rule.primary.parser (room + 1) = branch select otherwise ∧ select t = some (pure e)) :
    Rule.primary.Finds (room + 1) [t] e [] := by
  intro rest _
  obtain ⟨select, otherwise, hp, hs⟩ := he
  rw [hp, List.cons_append, List.nil_append, yields_branch_some ht hs, yields_pure]
  exact ⟨rfl, rfl, rfl⟩

/-- A rule yields whatever it reads, in front of any token that does not extend it. -/
theorem ReadsAs.yields {r : Rule} (h : ReadsAs room r ts e notes) {rest : List Token} (hrest : r.Stops rest) :
    (r.parser room).Yields (ts ++ rest) e notes rest := by
  -- a chain is entered at its first operand, so the induction has to say how it gets to each of its parts
  suffices hfinds : r.Finds room ts e notes ∧
      ∀ level below, r = .binary level → room = below + 1 → level.Reaches below ts e notes from hfinds.1 rest hrest
  clear hrest
  induction h with
  | expression _ ih => exact ⟨ih.1, fun _ _ h => by cases h⟩
  | @assign room ts us name equals value n₁ n₂ _ hequals _ ihname ihvalue =>
    refine ⟨fun rest hrest => ?_, fun _ _ h => by cases h⟩
    have hstops : (Rule.binary .equality).Stops (equals :: (us ++ rest)) := ⟨equals, _, rfl, by rw [hequals]; decide⟩
    have htarget := ihname.1 _ hstops
    have hvalue := ihvalue.1 rest hrest
    rw [List.append_assoc, List.cons_append, Rule.parser, yields_bind]
    refine ⟨.var name, n₁, equals :: (us ++ rest), n₂, htarget, ?_, rfl⟩
    rw [yields_branch_some (by rw [hequals]; decide) (if_pos hequals), yields_bind]
    exact ⟨value, n₂, rest, [], hvalue, yields_pure.2 ⟨rfl, rfl, rfl⟩, by simp⟩
  | @misassign room ts us equals target value n₁ n₂ _ hno hequals _ ihtarget ihvalue =>
    refine ⟨fun rest hrest => ?_, fun _ _ h => by cases h⟩
    have hstops : (Rule.binary .equality).Stops (equals :: (us ++ rest)) := ⟨equals, _, rfl, by rw [hequals]; decide⟩
    have htarget := ihtarget.1 _ hstops
    have hvalue := ihvalue.1 rest hrest
    rw [List.append_assoc, List.cons_append, Rule.parser, yields_bind]
    refine ⟨target, n₁, equals :: (us ++ rest), n₂ ++ [⟨equals, .invalidAssignmentTarget⟩], htarget, ?_, rfl⟩
    rw [yields_branch_some (by rw [hequals]; decide) (if_pos hequals), yields_bind]
    refine ⟨value, n₂, rest, [⟨equals, .invalidAssignmentTarget⟩], hvalue, ?_, rfl⟩
    have hend : (do note ⟨equals, .invalidAssignmentTarget⟩; return target : Parser Expr).Yields rest target
        [⟨equals, .invalidAssignmentTarget⟩] rest :=
      yields_bind.2 ⟨(), _, rest, [], yields_note.2 ⟨rfl, rfl⟩, yields_pure.2 ⟨rfl, rfl, rfl⟩, rfl⟩
    cases target with
    | var name => exact absurd rfl (hno name)
    | _ => exact hend
  | @assignment room ts e notes _ ih =>
    refine ⟨fun rest hrest => ?_, fun _ _ h => by cases h⟩
    have htarget := ih.1 rest (hrest.mono fun _ => List.mem_cons_of_mem _)
    rw [Rule.parser, yields_bind]
    refine ⟨e, notes, rest, [], htarget, ?_, (List.append_nil _).symm⟩
    obtain ⟨t, later, rfl, ht⟩ := hrest
    have hnone : t.kind ≠ .equal := fun h => ht (h ▸ List.mem_cons_self)
    rw [yields_branch_none fun _ => if_neg hnone, yields_pure]
    exact ⟨rfl, rfl, rfl⟩
  | join _ hoperator _ ihleft ihright =>
    have hreach := (ihleft.2 _ _ rfl rfl).join hoperator ihright.1
    exact ⟨hreach.finds, fun _ _ h hroom => by cases h; cases hroom; exact hreach⟩
  | operand _ ih =>
    exact ⟨ih.1.reaches.finds, fun _ _ h hroom => by cases h; cases hroom; exact ih.1.reaches⟩
  | @negate room operator ts operand notes hoperator _ ih =>
    refine ⟨fun rest hrest => ?_, fun _ _ h => by cases h⟩
    have heof : operator.kind ≠ .eof := by rcases hoperator with h | h <;> simp [h]
    rw [List.cons_append, Rule.parser, yields_branch_some heof (if_pos hoperator), yields_bind]
    exact ⟨operand, notes, rest, [], ih.1 rest hrest, yields_pure.2 ⟨rfl, rfl, rfl⟩, by simp⟩
  | @unary room ts e notes h ih =>
    refine ⟨fun rest hrest => ?_, fun _ _ h => by cases h⟩
    have hprimary := ih.1 rest hrest
    obtain ⟨t, us, rfl, ht⟩ := h.primary_start
    -- no smallest expression starts with an operator, so the other branch is not taken
    have hnone : ¬(t.kind = .minus ∨ t.kind = .bang) := by
      rintro (h | h) <;> simp [h, Rule.primaryStarters] at ht
    rwa [List.cons_append, Rule.parser, yields_branch_none fun _ => if_neg hnone]
  | false_ h => exact ⟨finds_leaf (by rw [h]; decide) ⟨_, _, rfl, by rw [h]⟩, fun _ _ h => by cases h⟩
  | true_ h => exact ⟨finds_leaf (by rw [h]; decide) ⟨_, _, rfl, by rw [h]⟩, fun _ _ h => by cases h⟩
  | nil_ h => exact ⟨finds_leaf (by rw [h]; decide) ⟨_, _, rfl, by rw [h]⟩, fun _ _ h => by cases h⟩
  | number h => exact ⟨finds_leaf (by rw [h]; decide) ⟨_, _, rfl, by rw [h]⟩, fun _ _ h => by cases h⟩
  | string h => exact ⟨finds_leaf (by rw [h]; decide) ⟨_, _, rfl, by rw [h]⟩, fun _ _ h => by cases h⟩
  | name h => exact ⟨finds_leaf (by rw [h]; decide) ⟨_, _, rfl, by rw [h]⟩, fun _ _ h => by cases h⟩
  | @grouping room opening closing ts e notes hopening _ hclosing ih =>
    refine ⟨fun rest hrest => ?_, fun _ _ h => by cases h⟩
    have hinner := ih.1 (closing :: rest) ⟨closing, rest, rfl, by rw [hclosing]; decide⟩
    rw [List.cons_append, List.append_assoc, Rule.parser,
      yields_branch_some (by rw [hopening]; decide) (by simp only [hopening]; rfl)]
    exact (yields_closed (by decide)).2 ⟨e, closing, hinner, hclosing, rfl⟩

end

end Treewalk
