import Treewalk.Proofs.Semantics.Frames
import Treewalk.Proofs.Semantics.Total
import Treewalk.Proofs.WellFormed.Walks

/-!
# Running does what programs mean

Running a program gives an outcome if and only if the rules of the language derive it, nesting aside.  The scopes are
compared by the finite maps that they stand for.

Whatever outcome the rules derive, running gives it, unless the allowance is used up (`Evaluates.gives`,
`Executes.gives`, `Runs.agrees`).  The rules give every program an outcome, and running has one outcome only, so that
the other direction follows (`runs_iff_agrees`).
-/

namespace Treewalk

/-! ### Operators -/

private theorem Falsy.iff_truthy {v : Value} : Falsy v ↔ v.truthy = false := by
  constructor
  · rintro (_ | _) <;> rfl
  · intro h
    match v with
    | .nil => exact .nil
    | .bool false => exact .false_

private theorem Same.iff_equals {v w : Value} : Same v w ↔ v.equals w = true := by
  constructor
  · rintro (_ | b | h | s)
    · rfl
    · simp [Value.equals]
    · exact h
    · simp [Value.equals]
  · intro h
    match v, w with
    | .nil, .nil => exact .nil
    | .bool a, .bool b =>
      obtain rfl : a = b := by simpa [Value.equals] using h
      exact .bool a
    | .num x, .num y => exact .num h
    | .str s, .str t =>
      obtain rfl : s = t := by simpa [Value.equals] using h
      exact .str s

private theorem Combines.applyBinary {operator : Token} {v w u : Value} (h : Combines operator.kind v w u) :
    applyBinary operator v w = .ok u := by
  unfold Treewalk.applyBinary
  generalize operator.kind = kind at h
  cases h with
  | equal h => simp only [Same.iff_equals.1 h]
  | notEqual h => simp only [Bool.eq_false_iff.2 (mt Same.iff_equals.2 h)]
  | unequal h => simp only [Bool.eq_false_iff.2 (mt Same.iff_equals.2 h), Bool.not_false]
  | notUnequal h => simp only [Same.iff_equals.1 h, Bool.not_true]
  | _ => rfl

private theorem Clashes.applyBinary {operator : Token} {v w : Value} {requirement : Requirement}
    (h : Clashes operator.kind v w requirement) :
    applyBinary operator v w = .error (.typeMismatch operator requirement) := by
  unfold Treewalk.applyBinary
  generalize operator.kind = kind at h
  cases h with
  | numbers hkind h =>
    have hclash : ∀ f, onNumbers operator f v w = .error (.typeMismatch operator .numbers) := by
      intro f
      unfold onNumbers
      split
      · exact absurd ⟨_, _, rfl, rfl⟩ h
      · rfl
    simp only [List.mem_cons, List.not_mem_nil, or_false] at hkind
    rcases hkind with rfl | rfl | rfl | rfl | rfl | rfl | rfl <;> exact hclash _
  | plus hnumbers hstrings =>
    show Treewalk.plus operator v w = _
    unfold Treewalk.plus
    split
    · exact absurd ⟨_, _, rfl, rfl⟩ hnumbers
    · exact absurd ⟨_, _, rfl, rfl⟩ hstrings
    · rfl

private theorem Transforms.applyUnary {operator : Token} {v u : Value} (h : Transforms operator.kind v u) :
    applyUnary operator v = .ok u := by
  unfold Treewalk.applyUnary
  generalize operator.kind = kind at h
  cases h with
  | negate x => rfl
  | not h => simp only [Falsy.iff_truthy.1 h, Bool.not_false]
  | notNot h => simp only [Bool.not_eq_false _ ▸ mt Falsy.iff_truthy.2 h, Bool.not_true]

private theorem applyUnary_of_clash {operator : Token} {v : Value} (hkind : operator.kind = .minus)
    (h : ∀ x, v ≠ .num x) : applyUnary operator v = .error (.typeMismatch operator .number) := by
  unfold applyUnary
  rw [hkind]
  cases v with
  | num x => exact absurd rfl (h x)
  | _ => rfl

/-! ### Actions -/

namespace Action

variable {α β : Type} {scopes : Chain} {σ σ' : List Frame} {printed printed' : List String}

/-- The action ends as told, unless the allowance is used up. -/
def Gives (action : Action α) (scopes : Chain) (result : Except RuntimeError α) (σ : List Frame)
    (printed : List String) : Prop :=
  (action scopes).result = .error (.fault .tooDeep) ∨
    (action scopes).result = result.mapError .error ∧ (action scopes).scopes.frames = σ ∧
      (action scopes).printed = printed

private theorem gives_pure (hscopes : scopes.frames = σ) (a : α) : (pure a : Action α).Gives scopes (.ok a) σ [] :=
  .inr ⟨rfl, hscopes, rfl⟩

private theorem gives_ofResult (hscopes : scopes.frames = σ) (result : Except RuntimeError α) :
    (ofResult result).Gives scopes result σ [] :=
  .inr ⟨rfl, hscopes, rfl⟩

private theorem gives_print (hscopes : scopes.frames = σ) (text : String) :
    (print text).Gives scopes (.ok ()) σ [text] :=
  .inr ⟨rfl, hscopes, rfl⟩

private theorem gives_define {frame : Frame} (hscopes : scopes.frames = frame :: σ) (name : Token) (value : Value) :
    (define name value).Gives scopes (.ok ()) (frame.insert name.lexeme value :: σ) [] :=
  .inr ⟨rfl, Chain.frames_define hscopes name.lexeme value, rfl⟩

private theorem gives_lookup (hscopes : scopes.frames = σ) {name : Token} {value : Value}
    (h : scopes.get? name.lexeme = some value) : (lookup name).Gives scopes (.ok value) σ [] := by
  unfold Gives lookup
  rw [h]
  exact .inr ⟨rfl, hscopes, rfl⟩

private theorem gives_lookup_unbound (hscopes : scopes.frames = σ) {name : Token} (h : scopes.get? name.lexeme = none) :
    (lookup name).Gives scopes (.error (.undefinedVariable name)) σ [] := by
  unfold Gives lookup
  rw [h]
  exact .inr ⟨rfl, hscopes, rfl⟩

private theorem gives_assign {name : Token} {value : Value} {next : Chain}
    (h : scopes.assign? name.lexeme value = some next) (hnext : next.frames = σ) :
    (assign name value).Gives scopes (.ok ()) σ [] := by
  unfold Gives assign
  rw [h]
  exact .inr ⟨rfl, hnext, rfl⟩

private theorem gives_assign_unbound (hscopes : scopes.frames = σ) {name : Token} {value : Value}
    (h : scopes.assign? name.lexeme value = none) :
    (assign name value).Gives scopes (.error (.undefinedVariable name)) σ [] := by
  unfold Gives assign
  rw [h]
  exact .inr ⟨rfl, hscopes, rfl⟩

private theorem Gives.bind {action : Action α} {f : α → Action β} {a : α} {result : Except RuntimeError β}
    (h : action.Gives scopes (.ok a) σ printed)
    (hf : ∀ next : Chain, next.frames = σ → (f a).Gives next result σ' printed') :
    (action >>= f).Gives scopes result σ' (printed ++ printed') := by
  rcases h with hdeep | ⟨hresult, hframes, rfl⟩
  · exact .inl (by rw [bind_of_error hdeep])
  · rw [Gives, bind_of_ok hresult]
    rcases hf _ hframes with hdeep | ⟨hresult', hframes', rfl⟩
    · exact .inl hdeep
    · exact .inr ⟨hresult', hframes', rfl⟩

private theorem Gives.bind_error {action : Action α} {f : α → Action β} {error : RuntimeError}
    (h : action.Gives scopes (.error error) σ printed) : (action >>= f).Gives scopes (.error error) σ printed := by
  rcases h with hdeep | ⟨hresult, hframes, rfl⟩
  · exact .inl (by rw [bind_of_error hdeep])
  · rw [Gives, bind_of_error hresult]
    exact .inr ⟨rfl, hframes, rfl⟩

private theorem gives_spending {cost room : Nat} {f : Nat → Action β} {result : Except RuntimeError β}
    (h : (f (room - cost)).Gives scopes result σ printed) :
    (spending cost room >>= f).Gives scopes result σ printed := by
  by_cases hcost : cost ≤ room
  · have hspent := spending_of_le hcost scopes
    rw [Gives, bind_of_ok (congrArg Outcome.result hspent), hspent]
    exact h
  · have hspent := spending_of_not_le hcost scopes
    exact .inl (by rw [bind_of_error (congrArg Outcome.result hspent)])

private theorem gives_asking {name : Token} {room : Nat} {f : Nat → Action β} {result : Except RuntimeError β}
    (h : ∀ left, (f left).Gives scopes result σ printed) :
    (asking name room >>= f).Gives scopes result σ printed := by
  rw [Gives, asking_bind]
  exact gives_spending (h _)

private theorem Gives.inScope {action : Action α} {frame : Frame} {result : Except RuntimeError α}
    (h : action.Gives scopes.push result (frame :: σ) printed) (hσ : σ ≠ []) :
    (inScope action).Gives scopes result σ printed := by
  rcases h with hdeep | ⟨hresult, hframes, hprinted⟩
  · exact .inl hdeep
  · exact .inr ⟨hresult, Chain.frames_pop hframes hσ, hprinted⟩

end Action

/-! ### Whatever the rules derive is given -/

open Treewalk.Action

theorem Evaluates.gives {σ σ' : List Frame} {e : Expr} {result : Except RuntimeError Value}
    (h : Evaluates σ e result σ') {scopes : Chain} (hscopes : scopes.frames = σ) (room : Nat) :
    (e.eval room).Gives scopes result σ' [] := by
  -- on the derivation: each rule says what its parts do, and the parts follow each other as in the rule
  induction h generalizing scopes room with
  | literal => exact gives_spending (gives_pure hscopes _)
  | var hinner hv =>
    exact gives_spending (gives_asking fun _ => gives_lookup hscopes (Chain.get?_of_nearest hscopes hinner hv))
  | varUnbound h =>
    rw [← hscopes] at h
    exact gives_spending (gives_asking fun _ => gives_lookup_unbound hscopes (Chain.get?_of_unbound h))
  | @assign _ _ _ _ name _ v _ hinner hframe ih =>
    refine gives_spending (Gives.bind (ih hscopes _) fun next hnext => ?_)
    obtain ⟨last, hlast, hframes⟩ := Chain.assign?_of_nearest hnext hinner hframe v
    refine gives_asking fun _ => ?_
    exact Gives.bind (gives_assign hlast hframes) fun final hfinal => gives_pure hfinal v
  | @assignUnbound _ _ name _ v _ h ih =>
    refine gives_spending (Gives.bind (ih hscopes _) fun next hnext => gives_asking fun _ => Gives.bind_error ?_)
    rw [← hnext] at h
    exact gives_assign_unbound hnext (Chain.assign?_of_unbound h v)
  | assignFails _ ih => exact gives_spending (ih hscopes _).bind_error
  | unary _ h ih =>
    refine gives_spending (Gives.bind (ih hscopes _) fun next hnext => ?_)
    rw [h.applyUnary]
    exact gives_ofResult hnext _
  | unaryClashes _ hkind h ih =>
    refine gives_spending (Gives.bind (ih hscopes _) fun next hnext => ?_)
    rw [applyUnary_of_clash hkind h]
    exact gives_ofResult hnext _
  | unaryFails _ ih => exact gives_spending (ih hscopes _).bind_error
  | binary _ _ h ihleft ihright =>
    refine gives_spending (Gives.bind (ihleft hscopes _) fun mid hmid => ?_)
    refine Gives.bind (ihright hmid _) fun next hnext => ?_
    rw [h.applyBinary]
    exact gives_ofResult hnext _
  | binaryClashes _ _ h ihleft ihright =>
    refine gives_spending (Gives.bind (ihleft hscopes _) fun mid hmid => ?_)
    refine Gives.bind (ihright hmid _) fun next hnext => ?_
    rw [h.applyBinary]
    exact gives_ofResult hnext _
  | leftFails _ ih => exact gives_spending (ih hscopes _).bind_error
  | rightFails _ _ ihleft ihright =>
    exact gives_spending (Gives.bind (ihleft hscopes _) fun mid hmid => (ihright hmid _).bind_error)
  | grouping _ ih => exact gives_spending (ih hscopes _)

/-- The result of the statements of a block: nothing but the error, if there is one. -/
def bodyResult : Option RuntimeError → Except RuntimeError Unit
  | none => .ok ()
  | some error => .error error

-- by recursion on the statements, since the derivations of statements and of lists of them are mutual

mutual

theorem Executes.gives : ∀ {s : Stmt} {σ σ' : List Frame} {result : Except RuntimeError Value}
    {printed : List String}, Executes σ s result σ' printed → ∀ {scopes : Chain}, scopes.frames = σ →
    ∀ room : Nat, (s.exec room).Gives scopes result σ' printed
  | .expression e, _, _, _, _, h, _, hscopes, room => by
    cases h with
    | expression h => rw [Stmt.exec]; exact h.gives hscopes room
  | .print e, _, _, _, _, h, _, hscopes, room => by
    rw [Stmt.exec]
    cases h with
    | print h =>
      refine Gives.bind (h.gives hscopes room) fun next hnext => ?_
      exact Gives.bind (gives_print hnext _) fun last hlast => gives_pure hlast _
    | printFails h => exact (h.gives hscopes room).bind_error
  | .declare name none, _, _, _, _, h, _, hscopes, room => by
    rw [Stmt.exec]
    cases h with
    | declare =>
      exact Gives.bind (gives_define hscopes name .nil) fun last hlast => gives_pure hlast _
  | .declare name (some e), _, _, _, _, h, _, hscopes, room => by
    rw [Stmt.exec]
    cases h with
    | define h =>
      refine Gives.bind (h.gives hscopes room) fun next hnext => ?_
      exact Gives.bind (gives_define hnext name _) fun last hlast => gives_pure hlast _
    | defineFails h => exact (h.gives hscopes room).bind_error
  | .block body, σ, σ', _, printed, h, scopes, hscopes, room => by
    have hpush : scopes.push.frames = ∅ :: σ := by rw [Chain.frames_push, hscopes]
    have hstack : ∀ {frame}, (frame :: σ').length = (∅ :: σ).length → σ' ≠ [] := by
      rintro frame hlength rfl
      obtain rfl : σ = [] := by simpa using hlength.symm
      exact scopes.frames_ne_nil hscopes
    rw [Stmt.exec]
    refine gives_spending ?_
    cases h with
    | block h =>
      have hbody := (h.gives hpush (room - blockCost)).inScope (hstack h.length_eq)
      rw [← List.append_nil printed]
      exact Gives.bind hbody fun last hlast => gives_pure hlast _
    | blockFails h => exact ((h.gives hpush (room - blockCost)).inScope (hstack h.length_eq)).bind_error
  | .skipped, _, _, _, _, h, _, hscopes, room => by
    rw [Stmt.exec]
    cases h with
    | skipped => exact gives_pure hscopes _
  | .misplaced _, _, _, _, _, h, _, _, _ => by cases h

private theorem Runs.gives : ∀ {ss : List Stmt} {σ σ' : List Frame} {values : List Value} {error : Option RuntimeError}
    {printed : List String}, Runs σ ss values error σ' printed → ∀ {scopes : Chain}, scopes.frames = σ →
    ∀ room : Nat, (Stmt.execBody ss room).Gives scopes (bodyResult error) σ' printed
  | [], _, _, _, _, _, h, _, hscopes, room => by
    rw [Stmt.execBody]
    cases h with
    | nil => exact gives_pure hscopes ()
  | s :: later, _, _, _, _, _, h, _, hscopes, room => by
    rw [Stmt.execBody]
    cases h with
    | cons h hlater => exact Gives.bind (h.gives hscopes room) fun next hnext => hlater.gives hnext room
    | stop h => exact (h.gives hscopes room).bind_error

end

/-! ### Programs -/

/-- The run ends as told. -/
def Run.Agrees (run : Run) (values : List Value) (error : Option RuntimeError) (σ : List Frame)
    (printed : List String) : Prop :=
  run.values = values ∧ run.halt = error.map .error ∧ run.scopes.frames = σ ∧ run.printed = printed

theorem Runs.agrees {σ σ' : List Frame} {program : List Stmt} {values : List Value} {error : Option RuntimeError}
    {printed : List String} (h : Runs σ program values error σ' printed) {scopes : Chain} (hscopes : scopes.frames = σ)
    (room : Nat) :
    (runStatements room program scopes).halt = some (.fault .tooDeep) ∨
      (runStatements room program scopes).Agrees values error σ' printed := by
  induction program generalizing σ values printed scopes with
  | nil =>
    cases h with
    | nil => exact .inr ⟨rfl, rfl, hscopes, rfl⟩
  | cons s later ih =>
    rw [runStatements]
    cases h with
    | cons hs hlater =>
      rcases hs.gives hscopes room with hdeep | ⟨hresult, hframes, hprinted⟩
      · exact .inl (by simp only [hdeep])
      · have hresult : (s.exec room scopes).result = .ok _ := hresult
        simp only [hresult]
        rcases ih hlater hframes with hdeep | ⟨hvalues, hhalt, hframes', hprinted'⟩
        · exact .inl hdeep
        · exact .inr ⟨congrArg _ hvalues, hhalt, hframes', congrArg₂ _ hprinted hprinted'⟩
    | stop hs =>
      rcases hs.gives hscopes room with hdeep | ⟨hresult, hframes, hprinted⟩
      · exact .inl (by simp only [hdeep])
      · have hresult : (s.exec room scopes).result = .error (.error _) := hresult
        simp only [hresult]
        exact .inr ⟨rfl, rfl, hframes, hprinted⟩

/-- The rules give some outcome, which is then the one that running has. -/
theorem runs_iff_agrees {room : Nat} {program : List Stmt} (hprogram : Stmt.EveryIn Expr.Meaningful program)
    {scopes : Chain} (hdeep : (runStatements room program scopes).halt ≠ some (.fault .tooDeep))
    {values : List Value} {error : Option RuntimeError} {σ : List Frame} {printed : List String} :
    Runs scopes.frames program values error σ printed ↔
      (runStatements room program scopes).Agrees values error σ printed := by
  constructor
  · intro h
    exact (h.agrees rfl room).resolve_left hdeep
  · rintro ⟨rfl, herror, rfl, rfl⟩
    obtain ⟨values', error', σ', printed', h⟩ := Runs.total hprogram scopes.frames_ne_nil
    obtain ⟨rfl, herror', rfl, rfl⟩ := (h.agrees rfl room).resolve_left hdeep
    obtain rfl : error = error' := Option.map_injective (fun _ _ => Halt.error.inj) (herror.symm.trans herror')
    exact h

/-! ### Reports -/

private theorem Requirement.message_injective : Function.Injective Requirement.message := by
  intro r r' h
  cases r <;> cases r' <;> simp [message] at h ⊢

private theorem RuntimeError.message_ne (name : Token) (requirement : Requirement) :
    requirement.message ≠ "Undefined variable '" ++ name.lexeme ++ "'." := by
  intro h
  have hhead := congrArg (·.toList.head?) h
  cases requirement <;> simp [Requirement.message] at hhead

theorem RuntimeError.report_injective : Function.Injective RuntimeError.report := by
  intro e e' h
  obtain ⟨htoken, hmessage⟩ := Report.running.inj h
  match e, e' with
  | .typeMismatch operator requirement, .typeMismatch operator' requirement' =>
    rw [show operator = operator' from htoken, Requirement.message_injective hmessage]
  | .typeMismatch _ requirement, .undefinedVariable name => exact absurd hmessage (message_ne name requirement)
  | .undefinedVariable name, .typeMismatch _ requirement => exact absurd hmessage.symm (message_ne name requirement)
  | .undefinedVariable name, .undefinedVariable name' => rw [show name = name' from htoken]

/-- What a session replies is the outcome of the run, unless a fault gets out. -/
private theorem Session.interpret_iff_agrees {session : Session} {program : List Stmt}
    (hfault : ∀ fault, (runProgram program session.scopes).halt ≠ some (.fault fault)) {values : List Value}
    {error : Option RuntimeError} {σ : List Frame} {printed : List String} :
    ((session.interpret program).2 = ⟨.ok values, printed, (error.map RuntimeError.report).toList⟩ ∧
        (session.interpret program).1.scopes.frames = σ) ↔
      (runProgram program session.scopes).Agrees values error σ printed := by
  simp only [interpret, Run.Agrees]
  cases hhalt : (runProgram program session.scopes).halt with
  | none => cases error <;> simp [and_assoc, and_comm, and_left_comm]
  | some halt =>
    cases halt with
    | fault fault => exact absurd hhalt (hfault fault)
    | error e =>
      cases error with
      | none => simp
      | some e' =>
        have hreport : e.report = e'.report ↔ e = e' := RuntimeError.report_injective.eq_iff
        simp [hreport, and_assoc, and_comm, and_left_comm]

/-- Programs do what they mean.  In a session a program gives the values, prints the lines, reports the error and leaves
the bindings that the rules derive, and the rules derive nothing else; nesting aside, either because the allowance was
not used up or because there is enough of it for the height of the program and the scopes around it. -/
theorem Session.interpret_iff_runs {program : List Stmt} (hprogram : ∀ s ∈ program, s.Every Expr.Meaningful) :
    (∀ session : Session, (session.interpret program).2.results ≠ .error (.fault .tooDeep) →
      ∀ values error σ printed, Runs session.scopes.frames program values error σ printed ↔
        (session.interpret program).2 = ⟨.ok values, printed, (error.map RuntimeError.report).toList⟩ ∧
          (session.interpret program).1.scopes.frames = σ) ∧
    ∀ room scopes, 4 * Stmt.heightOf program + scopes.depth ≤ room → ∀ values error σ printed,
      Runs scopes.frames program values error σ printed ↔
        (runStatements room program scopes).Agrees values error σ printed := by
  have hin := Stmt.everyIn_iff.2 hprogram
  have hformed : Stmt.EveryIn Expr.WellFormed program := hin.imp fun _ h => h.1
  constructor
  · intro session hdeep values error σ printed
    have hfault : ∀ fault, (runProgram program session.scopes).halt ≠ some (.fault fault) := by
      intro fault hhalt
      cases fault with
      | misplaced misfit => exact runStatements_fault hhalt hformed
      | tooDeep => exact hdeep (by simp only [interpret, hhalt])
    rw [Session.interpret_iff_agrees hfault]
    exact runs_iff_agrees hin (hfault .tooDeep)
  · intro room scopes hroom values error σ printed
    refine runs_iff_agrees hin fun hhalt => ?_
    have hlt : room < 4 * Stmt.heightOf program + scopes.depth := runStatements_fault hhalt
    omega

/-- A program of four statements: the third one assigns in the left operand of a difference, inside a block, and only
then finds operands that are no numbers.  The assignment stays, and the last statement is not run. -/
theorem Session.interpret_iff_runs_difference :
    let a : Token := ⟨.identifier, "a", .nil, 1⟩
    let b : Token := ⟨.identifier, "b", .nil, 2⟩
    let plus : Token := ⟨.plus, "+", .nil, 2⟩
    let minus : Token := ⟨.minus, "-", .nil, 3⟩
    let program : List Stmt := [.declare a (some (.literal (.str "p"))),
      .block [.declare b (some (.binary (.var a) plus (.assign a (.literal (.str "q"))))), .print (.var b)],
      .block [.print (.binary (.grouping (.assign a (.literal (.str "r")))) minus (.var a))], .print (.var a)]
    (∀ s ∈ program, s.Every Expr.Meaningful) ∧ 4 * Stmt.heightOf program + (Chain.global .empty).depth ≤ runningRoom ∧
      Runs [∅] program [.nil, .nil] (some (.typeMismatch minus .numbers)) [Finmap.singleton "a" (.str "r")] ["pq"] ∧
      (Session.start.interpret program).2 = ⟨.ok [.nil, .nil], ["pq"], [.running minus "Operands must be numbers."]⟩ ∧
      (Session.start.interpret program).1.scopes.frames = [Finmap.singleton "a" (.str "r")] := by
  intro a b plus minus program
  have hprogram : ∀ s ∈ program, s.Every Expr.Meaningful := by
    simp [program, Stmt.Every, Stmt.EveryIn, Expr.Meaningful, Expr.WellFormed, Expr.KnownOperators, Expr.Every,
      Expr.Placed, Expr.OperatorKnown, binaryOperators, plus, minus]
  have hroom : 4 * Stmt.heightOf program + (Chain.global .empty).depth ≤ runningRoom := by decide
  have hhalt : (runStatements runningRoom program (.global .empty)).halt =
      some (.error (.typeMismatch minus .numbers)) := by decide +kernel
  have hscopes : (runStatements runningRoom program (.global .empty)).scopes = .global ⟨[("a", .str "r")]⟩ := by
    decide +kernel
  have hdeep : (Session.start.interpret program).2.results ≠ .error (.fault .tooDeep) := by
    simp only [interpret, runProgram, start, hhalt, ne_eq, reduceCtorEq, not_false_eq_true]
  obtain ⟨hsession, hrun⟩ := Session.interpret_iff_runs hprogram
  have hruns := (hrun _ (.global .empty) hroom [.nil, .nil] (some (.typeMismatch minus .numbers)) _ ["pq"]).2
    ⟨by decide +kernel, hhalt, by rw [hscopes], by decide +kernel⟩
  exact ⟨hprogram, hroom, hruns, (hsession .start hdeep _ _ _ _).1 hruns⟩

end Treewalk
