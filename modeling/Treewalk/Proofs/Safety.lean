import Treewalk.Proofs.Names
import Treewalk.Proofs.Scanning.LineEnd
import Treewalk.Proofs.WellFormed.Parsed

/-!
# Sessions are safe

Whatever source texts a session is given, each step comes to an end with results, or the nesting allowance for running
is used up, which takes a program that is too high for it.  In both cases the session is back in the global scope.

What is needed for this has been shown before: the tokens of a text have an end mark behind them, tokens with an end
mark are always read as a program, and its trees are well formed, so that running them meets no misplaced node.

* `readSource_result`: every source text is read as a program, its errors aside.
* `Session.interpret_outerNames`, `Session.interpret_results`: running a program from any scopes.
* `Session.steps_contained`: any number of steps.
-/

namespace Treewalk

/-- The source text that a step reads, if it reads one. -/
def Step.source? : Step → Option String
  | .run source => some source
  | .force source => some source
  | .reset => none

/-- The step has come to an end in the global scope: with results, or because the program in its source text is too high
for the allowance. -/
def Step.Contained (step : Step) (after : Session × Reply) : Prop :=
  after.1.scopes.isGlobal = true ∧
    ((∃ values, after.2.results = .ok values) ∨
      after.2.results = .error (.fault .tooDeep) ∧
        ∃ source ∈ step.source?, ∃ program, (readSource source).result = .ok program ∧
          runningRoom < 4 * Stmt.heightOf program)

/-- The tokens of a source text have an end mark behind them. -/
theorem hasEnd_scan (source : String) : HasEnd (scan source).tokens := by
  obtain ⟨ts, -, htokens⟩ := scan_tokens_eq source
  rw [htokens]
  exact HasEnd.append ⟨_, List.mem_singleton_self _, rfl⟩ ts

/-- Every source text is read as a program with well-formed trees, whatever errors are in it. -/
theorem readSource_result (source : String) :
    ∃ program, (readSource source).result = .ok program ∧ Stmt.EveryIn Expr.WellFormed program := by
  obtain ⟨program, hprogram, -⟩ := Parser.program_result readingRoom (hasEnd_scan source)
  exact ⟨program, hprogram, parse_wellFormed hprogram⟩

namespace Session

theorem interpret_outerNames (session : Session) (program : List Stmt) :
    (session.interpret program).1.scopes.outerNames = session.scopes.outerNames := by
  have hrun := runStatements_outer_names runningRoom program session.scopes
  simp only [interpret]
  split <;> exact hrun

theorem interpret_results (session : Session) {program : List Stmt} (h : Stmt.EveryIn Expr.WellFormed program) :
    (∃ values, (session.interpret program).2.results = .ok values) ∨
      (session.interpret program).2.results = .error (.fault .tooDeep) ∧
        runningRoom < 4 * Stmt.heightOf program + session.scopes.depth := by
  cases hresults : (session.interpret program).2.results with
  | ok values => exact .inl ⟨values, rfl⟩
  | error escape =>
    obtain ⟨fault, rfl, hhalt⟩ := fault_of_interpret hresults
    have hwarranted := runStatements_fault hhalt
    cases fault with
    | misplaced misfit => exact absurd h hwarranted
    | tooDeep => exact .inr ⟨rfl, hwarranted⟩

/-- Reading a source text and going on, with or without regard to errors in it. -/
private theorem proceed_contained {session : Session} (h : session.scopes.isGlobal = true) {step : Step}
    {source : String} (hsource : source ∈ step.source?) (gated : Bool) :
    step.Contained (session.proceed gated (readSource source)) := by
  obtain ⟨program, hprogram, hformed⟩ := readSource_result source
  simp only [proceed, hprogram]
  split
  · exact ⟨h, .inl ⟨_, rfl⟩⟩
  · refine ⟨?_, ?_⟩
    · rw [Chain.isGlobal_iff, interpret_outerNames]
      exact Chain.isGlobal_iff.1 h
    · rcases interpret_results _ hformed with hvalues | ⟨hdeep, hroom⟩
      · exact .inl hvalues
      · rw [Chain.depth_of_isGlobal h] at hroom
        exact .inr ⟨hdeep, source, hsource, program, hprogram, hroom⟩

theorem step_contained {session : Session} (h : session.scopes.isGlobal = true) (step : Step) :
    step.Contained (session.step step) := by
  cases step with
  | run source => exact proceed_contained h rfl true
  | force source => exact proceed_contained h rfl false
  | reset => exact ⟨h, .inl ⟨[], rfl⟩⟩

/-- No sequence of steps gets a session out of the global scope, and nothing gets out of a step but that a program is
too high to be run. -/
theorem steps_contained (flags : Flags) (globals : Scope) (steps : List Step) :
    List.Forall₂ Step.Contained steps (Session.steps ⟨flags, .global globals⟩ steps) := by
  have hsteps : ∀ session : Session, session.scopes.isGlobal = true →
      List.Forall₂ Step.Contained steps (session.steps steps) := by
    induction steps with
    | nil => exact fun _ _ => .nil
    | cons step later ih =>
      intro session h
      have hstep := step_contained h step
      exact .cons hstep (ih _ hstep.1)
  exact hsteps _ rfl

end Session

end Treewalk
