import Treewalk.Proofs.Reading.Statements
import Treewalk.Proofs.Relabel.Running
import Treewalk.Proofs.Scanning.LineEnd
import Treewalk.Session

/-!
# Pieces of a source text

Source texts that are free of errors may be run one after another, or as one text with line ends between them.  Both
ways give the same results, print the same lines and leave the same session.  Only the lines on which errors are
reported count from the start of the whole text.

* `readSource_append_newline`: the program in two texts with a line end between them.
* `Session.interpret_append_of_done`, `Session.interpret_shift`: running a program in two parts, and further down.
* `Session.run_pieces`: running any number of pieces.
-/

namespace Treewalk

/-! ### Reading -/

/-- A source text without errors holds a program, which its tokens are read as. -/
theorem readSource_of_no_reports {source : String} (h : (readSource source).reports = []) :
    ∃ ts program, (scan source).errors = [] ∧ (∀ t ∈ ts, t.kind ≠ .eof) ∧
      (scan source).tokens = ts ++ [Token.endMark (1 + source.toList.count '\n')] ∧
      StatementsReadAs readingRoom ts program [] ∧ readSource source = ⟨.ok program, []⟩ := by
  have hparts : (scan source).errors.map LexicalError.report = [] ∧
      (parse (scan source).tokens).errors.map SyntaxError.report = [] := List.append_eq_nil_iff.1 h
  obtain ⟨ts, hts, htokens⟩ := scan_tokens_eq source
  rw [htokens, List.map_eq_nil_iff, List.map_eq_nil_iff] at hparts
  obtain ⟨program, hprogram, hread⟩ := readAs_of_parse hts rfl hparts.2
  refine ⟨ts, program, hparts.1, hts, htokens, hread, ?_⟩
  simp only [readSource, Scanned.read, htokens, hprogram, hparts, List.map_nil, List.append_nil]

private theorem StatementsReadAs.relabel {f : Token → Token} (hkind : ∀ t, (f t).kind = t.kind)
    (hliteral : ∀ t, (f t).literal = t.literal) {ts : List Token} {program : List Stmt}
    (h : StatementsReadAs readingRoom ts program []) (hts : ∀ t ∈ ts, t.kind ≠ .eof) :
    StatementsReadAs readingRoom (ts.map f) (program.map (Stmt.relabel f)) [] := by
  -- parsing follows the relabelling, and whatever is parsed without an error is read
  have hparse : parse (ts.map f ++ [f (.endMark 1)]) = ⟨.ok (program.map (Stmt.relabel f)), [], [f (.endMark 1)]⟩ := by
    have hyields : (Parser.program readingRoom).Yields (ts ++ [.endMark 1]) program [] [.endMark 1] := h.parse_eq rfl
    have hrelabelled := hyields.program_relabel hkind hliteral
    rwa [List.map_append] at hrelabelled
  have hends : ∀ t ∈ ts.map f, t.kind ≠ .eof := by simpa [hkind] using hts
  obtain ⟨program', hprogram, hread⟩ := readAs_of_parse hends (hkind (.endMark 1)) (by rw [hparse])
  rw [hparse] at hprogram
  obtain rfl := Except.ok.inj hprogram
  exact hread

/-- Two texts without errors and a line end between them hold the two programs, the second one further down. -/
theorem readSource_append_newline {a b : String} {program later : List Stmt} (ha : readSource a = ⟨.ok program, []⟩)
    (hb : readSource b = ⟨.ok later, []⟩) :
    readSource (a ++ "\n" ++ b) =
      ⟨.ok (program ++ later.map (Stmt.relabel (Token.shift (a.toList.count '\n' + 1)))), []⟩ := by
  obtain ⟨ts, program', herrors, hts, htokens, hread, ha'⟩ := readSource_of_no_reports (congrArg (·.reports) ha)
  obtain ⟨us, later', herrors', hus, htokens', hread', hb'⟩ := readSource_of_no_reports (congrArg (·.reports) hb)
  obtain rfl : program = program' := by simpa [ha] using ha'
  obtain rfl : later = later' := by simpa [hb] using hb'
  have hscan := scan_append_newline a b (by simp [herrors])
  have hlater := hread'.relabel (f := Token.shift (a.toList.count '\n' + 1)) (fun _ => rfl) (fun _ => rfl) hus
  have hboth := hread.append hlater
  simp only [Scanned.shift, herrors, herrors', htokens, htokens', List.dropLast_concat, List.map_append, List.map_cons,
    List.map_nil, List.append_nil, ← List.append_assoc] at hscan hboth
  simp only [readSource, Scanned.read, hscan, hboth.parse_eq (e := (Token.endMark _).shift _) rfl, List.map_nil,
    List.append_nil]

private theorem readSource_intercalate {pieces : List String} (h : ∀ q ∈ pieces, (readSource q).reports = []) :
    (readSource ("\n".intercalate pieces)).reports = [] := by
  induction pieces with
  | nil => decide +kernel
  | cons q pieces ih =>
    obtain ⟨hq, hpieces⟩ := List.forall_mem_cons.1 h
    cases pieces with
    | nil => rwa [String.intercalate_singleton]
    | cons r pieces =>
      obtain ⟨_, program, -, -, -, -, hread⟩ := readSource_of_no_reports hq
      obtain ⟨_, later, -, -, -, -, hread'⟩ := readSource_of_no_reports (ih hpieces)
      rw [String.intercalate_cons_cons, readSource_append_newline hread hread']

/-! ### Running -/

/-- A program goes on with its second part if the first part is done. -/
private theorem runStatements_append_of_done {room : Nat} {program : List Stmt} {scopes : Chain}
    (h : (runStatements room program scopes).halt = none) (later : List Stmt) :
    runStatements room (program ++ later) scopes =
      let run := runStatements room program scopes
      let more := runStatements room later run.scopes
      ⟨run.values ++ more.values, more.halt, more.scopes, run.printed ++ more.printed⟩ := by
  induction program generalizing scopes with
  | nil => rfl
  | cons s program ih =>
    rw [runStatements] at h
    rw [List.cons_append, runStatements, runStatements]
    cases hs : (s.exec room scopes).result with
    | ok value =>
      simp only [hs] at h ⊢
      simp only [ih h, List.cons_append, List.append_assoc]
    | error reason => simp [hs] at h

private theorem runStatements_append_of_halt {room : Nat} {program : List Stmt} {scopes : Chain} {reason : Halt}
    (h : (runStatements room program scopes).halt = some reason) (later : List Stmt) :
    runStatements room (program ++ later) scopes = runStatements room program scopes := by
  induction program generalizing scopes with
  | nil => simp [runStatements] at h
  | cons s program ih =>
    rw [runStatements] at h
    rw [List.cons_append, runStatements, runStatements]
    cases hs : (s.exec room scopes).result with
    | ok value =>
      simp only [hs] at h ⊢
      rw [ih h]
    | error reason => rfl

/-- The same report so many lines further down. -/
def Report.shift (k : Nat) : Report → Report
  | .onLine line message => .onLine (line + k) message
  | .atToken token message => .atToken (token.shift k) message
  | .running token message => .running (token.shift k) message

private theorem Report.shift_zero (r : Report) : r.shift 0 = r := by
  cases r <;> simp [Report.shift, Token.shift]

private theorem Report.shift_shift (r : Report) (j k : Nat) : (r.shift j).shift k = r.shift (k + j) := by
  cases r <;> simp [Report.shift, Token.shift] <;> omega

private theorem RuntimeError.report_relabel_shift (e : RuntimeError) (k : Nat) :
    (e.relabel (Token.shift k)).report = e.report.shift k := by
  cases e <;> rfl

/-- Whether a report is one of an error at run time. -/
def Report.isRunning : Report → Bool
  | .running _ _ => true
  | _ => false

/-- There was an error at run time. -/
def Reply.Failed (reply : Reply) : Prop := ∃ r ∈ reply.reports, r.isRunning = true

instance (reply : Reply) : Decidable reply.Failed :=
  inferInstanceAs (Decidable (∃ r ∈ reply.reports, r.isRunning = true))

/-- The results, as far as there are any. -/
def Reply.values (reply : Reply) : List Value :=
  match reply.results with
  | .ok values => values
  | .error _ => []

private theorem Reply.results_of_isOk {reply : Reply} (h : reply.results.isOk = true) :
    reply.results = .ok reply.values := by
  unfold Reply.values
  cases hresults : reply.results with
  | ok values => rfl
  | error escape => simp [hresults, Except.isOk, Except.toBool] at h

/-- The reply to a text in two parts, of which the second starts `k` lines further down. -/
def Reply.followedBy (first : Reply) (k : Nat) (second : Reply) : Reply where
  results := second.results.map (first.values ++ ·)
  printed := first.printed ++ second.printed
  reports := second.reports.map (Report.shift k)

namespace Session

/-- Further down a program runs in the same way, and reports its error further down. -/
theorem interpret_shift (session : Session) (program : List Stmt) (k : Nat) :
    session.interpret (program.map (Stmt.relabel (Token.shift k))) =
      let (next, reply) := session.interpret program
      (next, { reply with reports := reply.reports.map (Report.shift k) }) := by
  have hrun := runStatements_relabel (f := Token.shift k) (fun _ => rfl) (fun _ => rfl) runningRoom program
    session.scopes
  simp only [interpret, runProgram, hrun, Run.relabel]
  cases (runStatements runningRoom program session.scopes).halt with
  | none => rfl
  | some reason =>
    cases reason with
    | error e =>
      simp only [Option.map_some, Halt.relabel, RuntimeError.report_relabel_shift]
      rfl
    | fault f => rfl

private theorem interpret_of_done {session : Session} {program : List Stmt}
    (h : (runProgram program session.scopes).halt = none) :
    session.interpret program =
      let run := runProgram program session.scopes
      (⟨session.flags, run.scopes⟩, ⟨.ok run.values, run.printed, []⟩) := by
  simp only [interpret, h]

/-- A program with results and without an error is done. -/
private theorem done_of_interpret {session : Session} {program : List Stmt}
    (hok : (session.interpret program).2.results.isOk = true) (h : ¬(session.interpret program).2.Failed) :
    (runProgram program session.scopes).halt = none := by
  unfold interpret at hok h
  cases hhalt : (runProgram program session.scopes).halt with
  | none => rfl
  | some reason =>
    cases reason with
    | error e => exact absurd ⟨e.report, by simp [hhalt], rfl⟩ h
    | fault f => simp [hhalt, Except.isOk, Except.toBool] at hok

/-- If the first part of a program is done, the second part is run where the first one ended. -/
theorem interpret_append_of_done {session : Session} {program : List Stmt}
    (h : (runProgram program session.scopes).halt = none) (later : List Stmt) :
    session.interpret (program ++ later) =
      let (next, first) := session.interpret program
      let (last, second) := next.interpret later
      (last, ⟨second.results.map (first.values ++ ·), first.printed ++ second.printed, second.reports⟩) := by
  have hdone : (runStatements runningRoom program session.scopes).halt = none := h
  have hrun := runStatements_append_of_done hdone later
  rw [interpret_of_done h]
  simp only [interpret, runProgram, hrun, Reply.values]
  cases (runStatements runningRoom later (runStatements runningRoom program session.scopes).scopes).halt with
  | none => rfl
  | some reason => cases reason <;> rfl

/-- If the first part of a program fails, the second part is not run. -/
private theorem interpret_append_of_failed {session : Session} {program : List Stmt}
    (h : (session.interpret program).2.Failed) (later : List Stmt) :
    session.interpret (program ++ later) = session.interpret program := by
  cases hhalt : (runStatements runningRoom program session.scopes).halt with
  | none =>
    obtain ⟨r, hr, -⟩ := h
    rw [interpret_of_done hhalt] at hr
    cases hr
  | some reason =>
    have hrun := runStatements_append_of_halt hhalt later
    simp only [interpret, runProgram, hrun]

theorem run_of_readSource {session : Session} {source : String} {program : List Stmt}
    (hflag : session.flags.hadError = false) (h : readSource source = ⟨.ok program, []⟩) :
    session.run source = session.interpret program := by
  simp [run, proceed, h, Flags.recordAll, hflag]

/-- Two texts without errors and a line end between them, if the first one runs to its end. -/
private theorem run_append_newline_of_done {session : Session} {a b : String}
    (hflag : session.flags.hadError = false) (ha : (readSource a).reports = []) (hb : (readSource b).reports = [])
    (hok : (session.run a).2.results.isOk = true) (hdone : ¬(session.run a).2.Failed) :
    (session.run a).1.flags = session.flags ∧ (session.run a).2.reports = [] ∧
      session.run (a ++ "\n" ++ b) = (((session.run a).1.run b).1,
        (session.run a).2.followedBy (a.toList.count '\n' + 1) ((session.run a).1.run b).2) := by
  obtain ⟨_, program, -, -, -, -, hread⟩ := readSource_of_no_reports ha
  obtain ⟨_, later, -, -, -, -, hread'⟩ := readSource_of_no_reports hb
  rw [run_of_readSource hflag hread] at hok hdone ⊢
  have hhalt := done_of_interpret hok hdone
  have hsecond : (session.interpret program).1.run b = (session.interpret program).1.interpret later :=
    run_of_readSource (by rw [interpret_of_done hhalt]; exact hflag) hread'
  rw [run_of_readSource hflag (readSource_append_newline hread hread'), interpret_append_of_done hhalt]
  simp only [interpret_shift, hsecond]
  exact ⟨by rw [interpret_of_done hhalt], by rw [interpret_of_done hhalt], rfl⟩

private theorem run_append_newline_of_failed {session : Session} {a b : String} (hflag : session.flags.hadError = false)
    (ha : (readSource a).reports = []) (hb : (readSource b).reports = []) (hfailed : (session.run a).2.Failed) :
    session.run (a ++ "\n" ++ b) = session.run a := by
  obtain ⟨_, program, -, -, -, -, hread⟩ := readSource_of_no_reports ha
  obtain ⟨_, later, -, -, -, -, hread'⟩ := readSource_of_no_reports hb
  rw [run_of_readSource hflag hread] at hfailed ⊢
  rw [run_of_readSource hflag (readSource_append_newline hread hread'), interpret_append_of_failed hfailed]

end Session

/-! ### Any number of pieces -/

private theorem intercalate_append (before : List String) (p : String) (after : List String) :
    "\n".intercalate (before ++ p :: after) = linesText before ++ "\n".intercalate (p :: after) := by
  induction before with
  | nil => simp [linesText]
  | cons q before ih =>
    rw [List.cons_append, String.intercalate_cons_of_ne_nil (by simp), ih]
    simp [linesText, String.append_assoc]

private theorem count_linesText_cons (q : String) (before : List String) :
    (linesText (q :: before)).toList.count '\n' = q.toList.count '\n' + 1 + (linesText before).toList.count '\n' := by
  simp [linesText]
  omega

namespace Session

/-- Pieces that are free of errors give the same when they are run one after another and when they are run as one
text, with line ends between them: the same results, printed lines and reports, and the same session at the end.  Only
the lines in the reports are further down, by the number of line ends in front of the piece.  This holds if all the
pieces before the last run to their end; if a piece fails, what comes behind it is not run. -/
theorem run_pieces (session : Session) (before : List String) (p : String) (after : List String)
    (hflag : session.flags.hadError = false)
    (hread : ∀ q ∈ before ++ p :: after, (readSource q).reports = [])
    (hok : ∀ r ∈ session.steps ((before ++ [p]).map .run), r.2.results.isOk = true)
    (hdone : ∀ r ∈ session.steps (before.map .run), ¬r.2.Failed)
    (hlast : after = [] ∨ ∃ r ∈ session.steps ((before ++ [p]).map .run), r.2.Failed) :
    let steps := session.steps ((before ++ [p]).map .run)
    let joined := session.run ("\n".intercalate (before ++ p :: after))
    let ahead := linesText before
    "\n".intercalate (before ++ p :: after) = ahead ++ "\n".intercalate (p :: after) ∧
      joined.2.results = .ok (steps.flatMap fun r => r.2.values) ∧
      joined.2.printed = (steps.flatMap fun r => r.2.printed) ∧
      joined.2.reports = (steps.flatMap fun r => r.2.reports).map (Report.shift (ahead.toList.count '\n')) ∧
      steps.getLast?.map Prod.fst = some joined.1 := by
  refine ⟨intercalate_append before p after, ?_⟩
  -- on the pieces before `p`: the first of them runs to its end, and the others go on in the session it leaves
  induction before generalizing session with
  | nil =>
    -- what comes behind `p` is there only if `p` fails
    have hp : session.run ("\n".intercalate (p :: after)) = session.run p := by
      obtain ⟨hp, hafter⟩ := List.forall_mem_cons.1 hread
      cases after with
      | nil => rw [String.intercalate_singleton]
      | cons q after =>
        rw [String.intercalate_cons_cons]
        refine run_append_newline_of_failed hflag hp (readSource_intercalate hafter) ?_
        simpa [steps, step] using hlast
    have hvalues : (session.run p).2.results = .ok (session.run p).2.values :=
      Reply.results_of_isOk (by simpa [steps, step] using hok)
    have hzero : Report.shift 0 = id := funext Report.shift_zero
    simp [steps, step, hp, hvalues, linesText, hzero]
  | cons q before ih =>
    have hsteps : ∀ later, session.steps ((q :: later).map .run) =
        session.run q :: (session.run q).1.steps (later.map .run) := fun _ => rfl
    simp only [List.cons_append, hsteps, List.forall_mem_cons] at hread hok hdone
    obtain ⟨hq, hread⟩ := hread
    obtain ⟨hokq, hok⟩ := hok
    obtain ⟨hdoneq, hdone⟩ := hdone
    obtain ⟨hflags, hreports, hjoined⟩ :=
      run_append_newline_of_done hflag hq (readSource_intercalate hread) hokq hdoneq
    have hlast : after = [] ∨ ∃ r ∈ (session.run q).1.steps ((before ++ [p]).map .run), r.2.Failed := by
      refine hlast.imp_right fun hfails => ?_
      rw [List.cons_append, hsteps] at hfails
      obtain ⟨r, hr, hfailed⟩ := hfails
      rcases List.mem_cons.1 hr with rfl | hr
      · exact absurd hfailed hdoneq
      · exact ⟨r, hr, hfailed⟩
    obtain ⟨hresults, hprinted, hshifted, hend⟩ := ih (session.run q).1 (by rwa [hflags]) hread hok hdone hlast
    have htext : "\n".intercalate (q :: (before ++ p :: after)) =
        q ++ "\n" ++ "\n".intercalate (before ++ p :: after) := String.intercalate_cons_of_ne_nil (by simp)
    have hne : (session.run q).1.steps ((before ++ [p]).map .run) ≠ [] := by cases before <;> simp [steps]
    rw [List.cons_append, List.cons_append, htext, hjoined, hsteps]
    simp only [Reply.followedBy, hresults, hprinted, hshifted, hreports, List.flatMap_cons, count_linesText_cons,
      List.map_map, Function.comp_def, Report.shift_shift]
    refine ⟨rfl, trivial, rfl, ?_⟩
    rw [List.getLast?_cons_of_ne_nil hne, hend]

/-- Of three pieces the second one fails on its second line, which is the fourth line of the whole text. -/
theorem run_pieces_failing :
    let before := ["var a = 1;\nprint a;"]
    let p := "a = 2;\nprint -\"x\";"
    let after := ["print a;"]
    (∀ q ∈ before ++ p :: after, (readSource q).reports = []) ∧
      (start.run ("\n".intercalate (before ++ p :: after))).2.reports =
        ((start.steps ((before ++ [p]).map .run)).flatMap fun r => r.2.reports).map (Report.shift 2) := by
  intro before p after
  have hread : ∀ q ∈ before ++ p :: after, (readSource q).reports = [] := by decide +kernel
  have hlines : (linesText before).toList.count '\n' = 2 := by decide +kernel
  obtain ⟨-, -, -, hreports, -⟩ := run_pieces start before p after rfl hread (by decide +kernel) (by decide +kernel)
    (.inr (by decide +kernel))
  rw [hlines] at hreports
  exact ⟨hread, hreports⟩

end Session

end Treewalk
