import Mathlib.Data.List.DropRight
import Treewalk.CommandLine
import Treewalk.Proofs.Blame
import Treewalk.Proofs.Names.Declared
import Treewalk.Proofs.Safety

/-!
# The gate between reading and running

A session runs a source text only if no error in a source has been reported since the flags were last cleared.  The
flags tell exactly what has been reported since then, so that an error in one text keeps later ones from being run, too.
A text that is run is free of errors, and all there can be to report is the one error at run time that stops it.

* `Session.run_cases`: a run does nothing but report, or it runs a program that was read without an error.
* `Session.after_flags`: the flags are made up by the reports since the last reset.
* `syntax_errors_gate`: the flags, what a run does in either case, and the exit codes of scripts.
-/

namespace Treewalk

/-! ### Flags -/

namespace Flags

private theorem hadError_recordAll (flags : Flags) (reports : List Report) :
    (flags.recordAll reports).hadError = true ↔ flags.hadError = true ∨ ∃ r ∈ reports, r.isRunning = false := by
  induction reports generalizing flags with
  | nil => simp [recordAll]
  | cons r later ih =>
    show ((flags.record r).recordAll later).hadError = true ↔ _
    rw [ih]
    cases r <;> simp [record, Report.isRunning]

private theorem hadRuntimeError_recordAll (flags : Flags) (reports : List Report) :
    (flags.recordAll reports).hadRuntimeError = true ↔
      flags.hadRuntimeError = true ∨ ∃ r ∈ reports, r.isRunning = true := by
  induction reports generalizing flags with
  | nil => simp [recordAll]
  | cons r later ih =>
    show ((flags.record r).recordAll later).hadRuntimeError = true ↔ _
    rw [ih]
    cases r <;> simp [record, Report.isRunning]

private theorem recordAll_append (flags : Flags) (earlier later : List Report) :
    flags.recordAll (earlier ++ later) = (flags.recordAll earlier).recordAll later :=
  List.foldl_append

end Flags

/-- What is reported about a source text is not about running it. -/
private theorem isRunning_of_readSource {source : String} {r : Report} (h : r ∈ (readSource source).reports) :
    r.isRunning = false := by
  rcases List.mem_append.1 h with h | h
  · obtain ⟨e, -, rfl⟩ := List.mem_map.1 h
    rfl
  · obtain ⟨e, -, rfl⟩ := List.mem_map.1 h
    rfl

/-- After a source text has been read, an error has been reported if there was one before or one in the text. -/
theorem hadError_readSource (flags : Flags) (source : String) :
    (flags.recordAll (readSource source).reports).hadError = true ↔
      flags.hadError = true ∨ (readSource source).reports ≠ [] := by
  rw [Flags.hadError_recordAll]
  refine or_congr_right ⟨fun ⟨r, hr, _⟩ => List.ne_nil_of_mem hr, fun hne => ?_⟩
  obtain ⟨r, hr⟩ := List.exists_mem_of_ne_nil _ hne
  exact ⟨r, hr, isRunning_of_readSource hr⟩

/-- The errors in a source text do not count as errors at run time. -/
private theorem hadRuntimeError_readSource (flags : Flags) (source : String) :
    (flags.recordAll (readSource source).reports).hadRuntimeError = flags.hadRuntimeError := by
  rw [Bool.eq_iff_iff, Flags.hadRuntimeError_recordAll, or_iff_left]
  rintro ⟨r, hr, hrunning⟩
  rw [isRunning_of_readSource hr] at hrunning
  cases hrunning

/-! ### What a run does -/

namespace Session

/-- A program is done, or it is stopped by an error that is reported, or by a fault. -/
theorem interpret_cases (session : Session) (program : List Stmt) :
    let run := runProgram program session.scopes
    (run.halt = none ∧
      session.interpret program = (⟨session.flags, run.scopes⟩, ⟨.ok run.values, run.printed, []⟩)) ∨
    (∃ e : RuntimeError, run.halt = some (.error e) ∧ session.interpret program =
      (⟨session.flags.record e.report, run.scopes⟩, ⟨.ok run.values, run.printed, [e.report]⟩)) ∨
    ∃ f, run.halt = some (.fault f) ∧
      session.interpret program = (⟨session.flags, run.scopes⟩, ⟨.error (.fault f), run.printed, []⟩) := by
  intro run
  cases hhalt : run.halt with
  | none => exact .inl ⟨rfl, by simp only [interpret, run, hhalt]⟩
  | some reason =>
    cases reason with
    | error e => exact .inr (.inl ⟨e, rfl, by simp only [interpret, hhalt, run]⟩)
    | fault f => exact .inr (.inr ⟨f, rfl, by simp only [interpret, hhalt, run]⟩)

/-- A run does nothing but report if an error has been reported, before or in its text; otherwise it runs the program in
the text. -/
theorem run_cases (session : Session) (source : String) :
    ∃ program, (readSource source).result = .ok program ∧ Stmt.EveryIn Expr.WellFormed program ∧
      ((session.flags.recordAll (readSource source).reports).hadError = true ∧
        session.run source = (⟨session.flags.recordAll (readSource source).reports, session.scopes⟩,
          ⟨.ok [], [], (readSource source).reports⟩) ∨
      session.flags.hadError = false ∧ readSource source = ⟨.ok program, []⟩ ∧
        session.run source = session.interpret program) := by
  obtain ⟨program, hprogram, hformed⟩ := readSource_result source
  refine ⟨program, hprogram, hformed, ?_⟩
  by_cases hclosed : (session.flags.recordAll (readSource source).reports).hadError = true
  · exact .inl ⟨hclosed, by simp [run, proceed, hprogram, hclosed]⟩
  · obtain ⟨hflag, hreports⟩ := not_or.1 (mt (hadError_readSource _ _).2 hclosed)
    have hflag : session.flags.hadError = false := by simpa using hflag
    have hread : readSource source = ⟨.ok program, []⟩ := by
      rw [← hprogram, ← not_not.1 hreports]
    exact .inr ⟨hflag, hread, run_of_readSource hflag hread⟩

/-! ### The flags after any number of steps -/

private theorem interpret_flags (session : Session) (program : List Stmt) :
    (session.interpret program).1.flags = session.flags.recordAll (session.interpret program).2.reports := by
  rcases session.interpret_cases program with ⟨-, h⟩ | ⟨e, -, h⟩ | ⟨f, -, h⟩ <;> rw [h] <;> rfl

private theorem proceed_flags (session : Session) (gated : Bool) (reading : SourceReading) :
    (session.proceed gated reading).1.flags = session.flags.recordAll (session.proceed gated reading).2.reports := by
  unfold proceed
  dsimp only
  split
  · rfl
  · split
    · rfl
    · rw [interpret_flags, Flags.recordAll_append]

end Session

/-- Whether a step clears the flags. -/
def Step.isReset : Step → Bool
  | .reset => true
  | _ => false

namespace Session

/-- A step adds its reports to the flags, or clears them. -/
private theorem step_flags (session : Session) (step : Step) :
    (session.step step).1.flags =
      if step.isReset then .clear else session.flags.recordAll (session.step step).2.reports := by
  cases step with
  | run source => exact session.proceed_flags true (readSource source)
  | force source => exact session.proceed_flags false (readSource source)
  | reset => rfl

/-- The session after some steps. -/
def after (session : Session) (steps : List Step) : Session :=
  steps.foldl (fun session step => (session.step step).1) session

private theorem after_concat (session : Session) (steps : List Step) (step : Step) :
    session.after (steps ++ [step]) = ((session.after steps).step step).1 :=
  List.foldl_concat _ _ _ _

/-- Each step is taken in the session after those before it. -/
private theorem getElem?_steps (session : Session) (steps : List Step) (i : Nat) :
    (session.steps steps)[i]? = steps[i]?.map (session.after (steps.take i)).step := by
  induction steps generalizing session i with
  | nil => rfl
  | cons step later ih =>
    cases i with
    | zero => rfl
    | succ i => exact ih _ i

/-- Steps with the replies to them. -/
def transcript (session : Session) (steps : List Step) : List (Step × Reply) :=
  steps.zip ((session.steps steps).map Prod.snd)

private theorem getElem?_transcript (session : Session) (steps : List Step) (i : Nat) :
    (session.transcript steps)[i]? =
      steps[i]?.map fun step => (step, ((session.after (steps.take i)).step step).2) := by
  rw [transcript, List.zip, List.getElem?_zipWith, List.getElem?_map, getElem?_steps]
  cases steps[i]? <;> rfl

end Session

/-- The reports that have been made since the last step that cleared the flags. -/
def reportsSinceReset (transcript : List (Step × Reply)) : List Report :=
  (transcript.rtakeWhile fun entry => !entry.1.isReset).flatMap fun entry => entry.2.reports

private theorem reportsSinceReset_concat (transcript : List (Step × Reply)) (step : Step) (reply : Reply) :
    reportsSinceReset (transcript ++ [(step, reply)]) =
      if step.isReset then [] else reportsSinceReset transcript ++ reply.reports := by
  rw [reportsSinceReset, List.rtakeWhile_concat]
  cases step.isReset with
  | true => rfl
  | false => simp [reportsSinceReset]

namespace Session

/-- The flags are made up by the reports since the last reset. -/
theorem after_flags (scopes : Chain) (steps : List Step) (i : Nat) :
    (after ⟨.clear, scopes⟩ (steps.take i)).flags =
      Flags.clear.recordAll (reportsSinceReset ((transcript ⟨.clear, scopes⟩ steps).take i)) := by
  induction i with
  | zero => rfl
  | succ i ih =>
    rw [List.take_add_one, List.take_add_one, getElem?_transcript]
    cases steps[i]? with
    | none => simpa using ih
    | some step =>
      simp only [Option.map_some, Option.toList_some]
      rw [after_concat, step_flags, reportsSinceReset_concat, ih]
      split
      · rfl
      · rw [Flags.recordAll_append]

/-- After each step the flags are made up by the reports since the last reset. -/
private theorem flags_of_getElem? {scopes : Chain} {steps : List Step} {i : Nat} {after : Session × Reply}
    (h : (Session.steps ⟨.clear, scopes⟩ steps)[i]? = some after) :
    after.1.flags =
      Flags.clear.recordAll (reportsSinceReset ((transcript ⟨.clear, scopes⟩ steps).take (i + 1))) := by
  rw [getElem?_steps] at h
  obtain ⟨step, hstep, rfl⟩ := Option.map_eq_some_iff.1 h
  rw [← after_flags, List.take_add_one, hstep, Option.toList_some, after_concat]

end Session

/-! ### Streams -/

private theorem Report.text_ne_empty (r : Report) : r.text ≠ "" := by
  cases r <;> simp [Report.text, String.append_eq_empty_iff]

private theorem join_text_ne_empty {reports : List Report} (h : reports ≠ []) :
    String.join (reports.map Report.text) ≠ "" := by
  obtain ⟨r, later, rfl⟩ := List.exists_cons_of_ne_nil h
  simp [String.append_eq_empty_iff, r.text_ne_empty]

namespace Session

/-- A run that is closed off does nothing but report. -/
theorem run_of_closed {session : Session} {source : String}
    (h : (session.flags.recordAll (readSource source).reports).hadError = true) :
    session.run source = (⟨session.flags.recordAll (readSource source).reports, session.scopes⟩,
      ⟨.ok [], [], (readSource source).reports⟩) := by
  obtain ⟨program, -, -, ⟨-, hrun⟩ | ⟨hflag, hread, -⟩⟩ := session.run_cases source
  · exact hrun
  · rw [hread] at h
    exact absurd h (by simp [Flags.recordAll, hflag])

/-- A program that ends with results has reported one error, if any, and it has if some statement has no result. -/
private theorem interpret_errors (session : Session) {source : String} {program : List Stmt}
    (hread : readSource source = ⟨.ok program, []⟩) {values : List Value}
    (h : (session.interpret program).2.results = .ok values) :
    let reply := (session.interpret program).2
    (reply.errors = "" ∨ ∃ e : RuntimeError, reply.reports = [e.report] ∧ IsLine reply.errors) ∧
      (reply.errors ≠ "" ↔ values.length < program.length) := by
  have hdone := runStatements_halt_iff runningRoom program session.scopes
  have hle := runStatements_length_values runningRoom program session.scopes
  rcases session.interpret_cases program with ⟨hhalt, hreply⟩ | ⟨e, hhalt, hreply⟩ | ⟨f, -, hreply⟩
  · rw [hreply] at h ⊢
    obtain rfl := Except.ok.inj h
    refine ⟨.inl rfl, iff_of_false (fun hne => hne rfl) ?_⟩
    exact (hdone.1 hhalt).not_lt
  · rw [hreply] at h ⊢
    obtain rfl := Except.ok.inj h
    have herrors : String.join [e.report.text] = e.report.text := by simp
    have hline : IsLine (String.join [e.report.text]) := herrors ▸ isLine_of_readSource hread hhalt
    refine ⟨.inr ⟨e, rfl, hline⟩, iff_of_true hline.ne_empty ?_⟩
    refine hle.lt_of_ne fun hlength => ?_
    have hnone := hdone.2 hlength
    rw [← runProgram, hhalt] at hnone
    cases hnone
  · rw [hreply] at h
    cases h

end Session

namespace CommandLine

/-- A script has errors in its text, or it is done, or stopped by an error, or it is too high for the allowance. -/
private theorem runText_cases (source : String) :
    ((readSource source).reports ≠ [] ∧
      runText source = ⟨.ok 65, "", String.join ((readSource source).reports.map Report.text)⟩) ∨
    ∃ program, readSource source = ⟨.ok program, []⟩ ∧
      let run := runProgram program (.global .empty)
      (run.halt = none ∧ runText source = ⟨.ok 0, linesText run.printed, ""⟩) ∨
      (∃ e : RuntimeError, run.halt = some (.error e) ∧
        runText source = ⟨.ok 70, linesText run.printed, e.report.text⟩) ∨
      (run.halt = some (.fault .tooDeep) ∧ runningRoom < 4 * Stmt.heightOf program ∧
        runText source = ⟨.error (.escape (.fault .tooDeep)), linesText run.printed, ""⟩) := by
  obtain ⟨program, -, hformed, ⟨hclosed, hrun⟩ | ⟨-, hread, hrun⟩⟩ := Session.start.run_cases source
  · have hreports : (readSource source).reports ≠ [] := by
      simpa [Session.start, Flags.clear] using (hadError_readSource _ _).1 hclosed
    refine .inl ⟨hreports, ?_⟩
    simp only [runText, hrun, exitCode, hclosed]
    rfl
  · refine .inr ⟨program, hread, ?_⟩
    rcases Session.start.interpret_cases program with ⟨hhalt, h⟩ | ⟨e, hhalt, h⟩ | ⟨f, hhalt, h⟩
    · exact .inl ⟨hhalt, by simp only [runText, hrun, h]; rfl⟩
    · exact .inr (.inl ⟨e, hhalt, by simp only [runText, hrun, h]; rfl⟩)
    · have hwarranted := runStatements_fault hhalt
      cases f with
      | misplaced misfit => exact absurd hformed hwarranted
      | tooDeep => exact .inr (.inr ⟨hhalt, hwarranted, by simp only [runText, hrun, h]; rfl⟩)

end CommandLine

/-! ### The gate -/

/-- The flags tell which of the two kinds of error have been reported. -/
structure Flags.Tell (flags : Flags) (reports : List Report) : Prop where
  source : flags.hadError = true ↔ ∃ r ∈ reports, r.isRunning = false
  running : flags.hadRuntimeError = true ↔ ∃ r ∈ reports, r.isRunning = true

private theorem Flags.tell_recordAll (reports : List Report) : (clear.recordAll reports).Tell reports :=
  ⟨by simp [hadError_recordAll, clear], by simp [hadRuntimeError_recordAll, clear]⟩

/-- What a run gives, by whether it is closed off: whether an error in a source has been reported, before or in its own
text, when that has been read. -/
structure Session.Gated (session : Session) (reading : SourceReading) (closed : Bool) (after : Session × Reply) :
    Prop where
  closed_iff : closed = true ↔ session.flags.hadError = true ∨ reading.reports ≠ []
  /-- A run that is closed off has no results, prints nothing and leaves the scopes and the other flag alone. -/
  idle : closed = true → after.2.results = .ok [] ∧ after.2.output = "" ∧ after.1.scopes = session.scopes ∧
    after.1.flags.hadRuntimeError = session.flags.hadRuntimeError
  /-- Any other run that ends with results reports nothing or, in one line, an error at run time; it reports one if some
  of its statements have no result. -/
  runs : closed = false → ∃ program, reading.result = .ok program ∧ ∀ values, after.2.results = .ok values →
    (after.2.errors = "" ∨ ∃ e : RuntimeError, after.2.reports = [e.report] ∧ IsLine after.2.errors) ∧
      (after.2.errors ≠ "" ↔ values.length < program.length)

private theorem Session.gated_run (session : Session) (source : String) :
    session.Gated (readSource source) (session.flags.recordAll (readSource source).reports).hadError
      (session.run source) where
  closed_iff := hadError_readSource _ _
  idle hclosed := by
    rw [run_of_closed hclosed]
    exact ⟨rfl, rfl, rfl, hadRuntimeError_readSource _ _⟩
  runs hopen := by
    obtain ⟨program, hprogram, -, ⟨hclosed, -⟩ | ⟨-, hread, hrun⟩⟩ := session.run_cases source
    · exact absurd (hopen.symm.trans hclosed) Bool.false_ne_true
    · rw [hrun]
      exact ⟨program, hprogram, fun values h => session.interpret_errors hread h⟩

/-- What the exit code of a script tells. -/
structure Console.Tells (console : Console) (reading : SourceReading) : Prop where
  /-- There are errors in the text; then nothing is printed. -/
  source : console.exit = .ok 65 ↔ reading.reports ≠ []
  output_of_source : console.exit = .ok 65 → console.output = ""
  /-- There are none, and running the program stops at an error; then that is the one line reported. -/
  running : console.exit = .ok 70 ↔ ∃ program e, reading = ⟨.ok program, []⟩ ∧
    (runProgram program (.global .empty)).halt = some (.error e)
  errors_of_running : console.exit = .ok 70 → IsLine console.errors
  /-- The exit code is 0 if nothing is reported.  There is one unless the program is too high to be run. -/
  ends : (∃ code, console.exit = .ok code ∧ (code = 0 ↔ console.errors = "")) ∨
    console.exit = .error (.escape (.fault .tooDeep)) ∧
      ∃ program, reading.result = .ok program ∧ runningRoom < 4 * Stmt.heightOf program

private theorem CommandLine.tells_runText (source : String) : (runText source).Tells (readSource source) := by
  rcases runText_cases source with ⟨hreports, h⟩ | ⟨program, hprogram, hcases⟩
  · rw [h]
    refine ⟨iff_of_true rfl hreports, fun _ => rfl, iff_of_false (by simp) ?_, by simp, .inl ⟨65, rfl, ?_⟩⟩
    · rintro ⟨program, e, hprogram, -⟩
      exact hreports (by rw [hprogram])
    · exact iff_of_false (by simp) (join_text_ne_empty hreports)
  · rw [hprogram]
    rcases hcases with ⟨hhalt, h⟩ | ⟨e, hhalt, h⟩ | ⟨hhalt, hroom, h⟩
    · rw [h]
      exact ⟨by simp, by simp, by simp [hhalt], by simp, .inl ⟨0, rfl, by simp⟩⟩
    · have hline := isLine_of_readSource hprogram hhalt
      rw [h]
      exact ⟨by simp, by simp, iff_of_true rfl ⟨program, e, rfl, hhalt⟩, fun _ => hline,
        .inl ⟨70, rfl, iff_of_false (by simp) hline.ne_empty⟩⟩
    · rw [h]
      exact ⟨by simp, by simp, by simp [hhalt], by simp, .inr ⟨rfl, program, rfl, hroom⟩⟩

/-- Errors in a source keep it, and what comes after it, from being run.  After each step of a session the flags tell
what has been reported since the last reset; when an error in a source has been reported and its text has been read, a
run is closed off; and the exit code of a script that can be read tells what has been reported about it. -/
theorem syntax_errors_gate :
    (∀ (scopes : Chain) (steps : List Step) (i : Nat) (after : Session × Reply),
      (Session.steps ⟨.clear, scopes⟩ steps)[i]? = some after →
      after.1.flags.Tell (reportsSinceReset ((Session.transcript ⟨.clear, scopes⟩ steps).take (i + 1)))) ∧
    (∀ (session : Session) (source : String), session.Gated (readSource source)
      (session.flags.recordAll (readSource source).reports).hadError (session.run source)) ∧
    ∀ (path : String) (read : String → Except OpenError ByteArray) (input : List PromptInput) (bytes : ByteArray)
      (source : String), read path = .ok bytes → CommandLine.decodeScript bytes = some source →
      (CommandLine.run [path] read input).Tells (readSource source) := by
  refine ⟨fun scopes steps i after h => ?_, Session.gated_run, fun path read input bytes source hread hdecode => ?_⟩
  · rw [Session.flags_of_getElem? h]
    exact Flags.tell_recordAll _
  · have hrun : CommandLine.run [path] read input = CommandLine.runText source := by
      simp only [CommandLine.run, CommandLine.request, CommandLine.runScript, hread, hdecode]
    rw [hrun]
    exact CommandLine.tells_runText source

/-- A session in which a text with an error comes first, then one without, which is not run, and after a reset one that
fails while running; and a script with that last text. -/
theorem syntax_errors_gate_reset :
    let steps : List Step := [.run "print 1", .run "print 2;", .reset, .run "print 3; print -nil;"]
    let sessions := Session.start.steps steps
    let script : String → Except OpenError ByteArray := fun _ => .ok "print 3;\r\nprint -nil;".toUTF8
    let console := CommandLine.run ["script"] script []
    (∃ after, sessions[1]? = some after ∧ after.1.flags = ⟨true, false⟩ ∧
      after.1.flags.Tell (reportsSinceReset ((Session.start.transcript steps).take 2))) ∧
    (∃ after, sessions[3]? = some after ∧ after.1.flags = ⟨false, true⟩ ∧
      after.1.flags.Tell (reportsSinceReset ((Session.start.transcript steps).take 4))) ∧
    console.exit = .ok 70 ∧ console.Tells (readSource "print 3;\nprint -nil;") := by
  intro steps sessions script console
  obtain ⟨hflags, -, hscript⟩ := syntax_errors_gate
  refine ⟨⟨_, rfl, by decide +kernel, hflags _ steps 1 _ rfl⟩, ⟨_, rfl, by decide +kernel, hflags _ steps 3 _ rfl⟩,
    by decide +kernel, hscript "script" script [] _ _ rfl (by decide +kernel)⟩

end Treewalk
