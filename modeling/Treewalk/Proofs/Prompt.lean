import Treewalk.Proofs.Gate

/-!
# Lines at the prompt

What one line at the prompt leaves to the next is the names that it has bound, and nothing else.  Whenever a line is
asked for, both flags are clear and the current scope is the global one.  So an empty line, or one with an error in its
text, leaves everything as it was, and any number of them can be taken out of the input: what the other lines give is
the same, and so is the session at the end.

* `Session.AtPrompt`, `Prompt.enter_atPrompt`: what holds at every prompt.
* `PromptInput.Idle`, `Prompt.enter_idle`: lines that leave the session as it was.
* `Prompt.converse_append_of_done`, `Prompt.converse_filter`: the input in two parts, and without some of its lines.
* `Prompt.lines_isolated`: both for all lines.
-/

namespace Treewalk

/-- A session in which a line can be asked for. -/
structure Session.AtPrompt (session : Session) : Prop where
  flags : session.flags = .clear
  isGlobal : session.scopes.isGlobal = true

/-- A line that is empty or has an error in its text. -/
def PromptInput.Idle : PromptInput → Prop
  | .line text => text = "" ∨ (readSource text).reports ≠ []
  | .interrupt => False

instance : DecidablePred PromptInput.Idle
  | .line text => inferInstanceAs (Decidable (text = "" ∨ (readSource text).reports ≠ []))
  | .interrupt => inferInstanceAs (Decidable False)

namespace Prompt

/-! ### One line -/

private theorem enter_of_ne_empty (session : Session) {text : String} (h : text ≠ "") {values : List Value}
    (hvalues : (session.run text).2.results = .ok values) :
    enter session text = ((session.run text).1.reset, (session.run text).2) := by
  simp only [enter, if_neg h, hvalues]

/-- A line leaves a session in which the next one can be asked for, unless it breaks off. -/
theorem enter_atPrompt {session : Session} (h : session.AtPrompt) {text : String} {values : List Value}
    (hvalues : (enter session text).2.results = .ok values) : (enter session text).1.AtPrompt := by
  by_cases htext : text = ""
  · simpa [enter, htext] using h
  · cases hresults : (session.run text).2.results with
    | ok values =>
      rw [enter_of_ne_empty session htext hresults]
      exact ⟨rfl, (session.step_contained h.isGlobal (.run text)).1⟩
    | error escape => simp [enter, htext, hresults] at hvalues

/-- An idle line leaves the session as it was. -/
theorem enter_idle {session : Session} (h : session.AtPrompt) {text : String} (hidle : (PromptInput.line text).Idle) :
    (enter session text).1 = session ∧ (enter session text).2.results = .ok [] := by
  by_cases htext : text = ""
  · simp [enter, htext, Reply.silent]
  · have hrun := Session.run_of_closed ((hadError_readSource session.flags text).2 (.inr (hidle.resolve_left htext)))
    rw [enter_of_ne_empty session htext (by rw [hrun]), hrun]
    refine ⟨?_, rfl⟩
    rw [Session.reset, ← h.flags]

/-! ### Many lines -/

private theorem converse_of_ok {session : Session} {text : String} {values : List Value}
    (h : (enter session text).2.results = .ok values) (later : List PromptInput) :
    converse session (.line text :: later) =
      let more := converse (enter session text).1 later
      { more with replies := (enter session text).2 :: more.replies } := by
  simp only [converse, h]

private theorem converse_of_error {session : Session} {text : String} {escape : Escape}
    (h : (enter session text).2.results = .error escape) (later : List PromptInput) :
    converse session (.line text :: later) = ⟨[(enter session text).2], (enter session text).1, some escape⟩ := by
  simp only [converse, h]

/-- After lines that did not break off, the next line can be asked for. -/
private theorem atPrompt_of_done {session : Session} (h : session.AtPrompt) {lines : List String}
    (hdone : (converse session (lines.map .line)).escape = none) :
    (converse session (lines.map .line)).session.AtPrompt := by
  induction lines generalizing session with
  | nil => exact h
  | cons text lines ih =>
    rw [List.map_cons] at hdone ⊢
    cases hresults : (enter session text).2.results with
    | ok values =>
      rw [converse_of_ok hresults] at hdone ⊢
      exact ih (enter_atPrompt h hresults) hdone
    | error escape => simp [converse_of_error hresults] at hdone

/-- The prompt goes on with the session that the lines before have left. -/
theorem converse_append_of_done {session : Session} {lines : List String}
    (hdone : (converse session (lines.map .line)).escape = none) (later : List PromptInput) :
    converse session (lines.map .line ++ later) =
      let talk := converse session (lines.map .line)
      let more := converse talk.session later
      { more with replies := talk.replies ++ more.replies } := by
  induction lines generalizing session with
  | nil => rfl
  | cons text lines ih =>
    rw [List.map_cons] at hdone
    rw [List.map_cons, List.cons_append]
    cases hresults : (enter session text).2.results with
    | ok values =>
      rw [converse_of_ok hresults] at hdone
      rw [converse_of_ok hresults, converse_of_ok hresults, ih hdone]
      rfl
    | error escape => simp [converse_of_error hresults] at hdone

/-- Nothing follows on a line that breaks off. -/
private theorem converse_append_of_escape {session : Session} {lines : List String} {escape : Escape}
    (h : (converse session (lines.map .line)).escape = some escape) (later : List PromptInput) :
    converse session (lines.map .line ++ later) = converse session (lines.map .line) := by
  induction lines generalizing session with
  | nil => cases h
  | cons text lines ih =>
    rw [List.map_cons] at h ⊢
    rw [List.cons_append]
    cases hresults : (enter session text).2.results with
    | ok values =>
      rw [converse_of_ok hresults] at h
      rw [converse_of_ok hresults, converse_of_ok hresults, ih h]
    | error escape => rw [converse_of_error hresults, converse_of_error hresults]

/-- Without some idle lines, the other inputs get the same replies, and the session at the end is the same. -/
theorem converse_filter {session : Session} (h : session.AtPrompt) {inputs : List (PromptInput × Bool)}
    (hidle : ∀ input ∈ inputs, input.2 = false → input.1.Idle) :
    let talk := converse session (inputs.map Prod.fst)
    converse session ((inputs.filter Prod.snd).map Prod.fst) =
      { talk with replies := ((inputs.zip talk.replies).filter (·.1.2)).map Prod.snd } := by
  induction inputs generalizing session with
  | nil => rfl
  | cons input later ih =>
    obtain ⟨hinput, hlater⟩ := List.forall_mem_cons.1 hidle
    match input with
    | (.interrupt, kept) =>
      -- an interrupt is not idle, so it is still there
      cases kept with
      | true => rfl
      | false => exact (hinput rfl).elim
    | (.line text, false) =>
      obtain ⟨hsession, hresults⟩ := enter_idle h (hinput rfl)
      rw [List.map_cons, converse_of_ok hresults, hsession]
      exact ih h hlater
    | (.line text, true) =>
      rw [List.map_cons, List.filter_cons_of_pos rfl, List.map_cons]
      cases hresults : (enter session text).2.results with
      | ok values =>
        rw [converse_of_ok hresults, converse_of_ok hresults, ih (enter_atPrompt h hresults) hlater]
        rfl
      | error escape =>
        rw [converse_of_error hresults, converse_of_error hresults]
        simp

/-- Lines at the prompt depend on each other only through the names that are bound.  After any lines that have not
broken off the prompt goes on, with the flags clear and in the global scope; after one that has there is nothing more.
If any lines that are empty or have an error in their text are taken out, the other lines get the same replies, and the
session at the end is the same. -/
theorem lines_isolated (globals : Scope) :
    let start : Session := ⟨.clear, .global globals⟩
    (∀ (lines : List String) (later : List PromptInput),
      let talk := converse start (lines.map .line)
      (talk.escape = none → talk.session.flags = .clear ∧ talk.session.scopes.isGlobal = true ∧
        let more := converse talk.session later
        converse start (lines.map .line ++ later) = { more with replies := talk.replies ++ more.replies }) ∧
      (talk.escape ≠ none → converse start (lines.map .line ++ later) = talk)) ∧
    ∀ inputs : List (PromptInput × Bool), (∀ input ∈ inputs, input.2 = false → input.1.Idle) →
      let talk := converse start (inputs.map Prod.fst)
      let shorter := converse start ((inputs.filter Prod.snd).map Prod.fst)
      shorter.session = talk.session ∧ shorter.escape = talk.escape ∧
        shorter.replies = ((inputs.zip talk.replies).filter (·.1.2)).map Prod.snd := by
  intro start
  have hstart : start.AtPrompt := ⟨rfl, rfl⟩
  refine ⟨fun lines later => ⟨fun hdone => ?_, fun hescape => ?_⟩, fun inputs hidle => ?_⟩
  · have hprompt := atPrompt_of_done hstart hdone
    exact ⟨hprompt.flags, hprompt.isGlobal, converse_append_of_done hdone later⟩
  · obtain ⟨escape, h⟩ := Option.ne_none_iff_exists'.1 hescape
    exact converse_append_of_escape h later
  · simp only [converse_filter hstart hidle, and_self]

/-- A line that fails while running and one with an error in its text, after which the prompt goes on; and lines that
bind a name, give it a new value before they fail, and print it, between which an empty line and two with errors in
their text are taken out. -/
theorem lines_isolated_failing_line :
    let failing := converse .start (["var a; print -a;", "a = @4;"].map .line)
    let inputs : List (PromptInput × Bool) := [(.line "var a = 1;", true), (.line "", false), (.line "a = 3", false),
      (.line "a = 2; print -nil;", true), (.line "a = @4;", false), (.line "print a;", true), (.interrupt, true)]
    let talk := converse .start (inputs.map Prod.fst)
    let shorter := converse .start ((inputs.filter Prod.snd).map Prod.fst)
    failing.escape = none ∧ failing.session.flags = .clear ∧
      (∀ input ∈ inputs, input.2 = false → input.1.Idle) ∧ shorter.replies.map Reply.output = ["", "", "2\n"] ∧
      shorter.session = talk.session ∧ shorter.escape = talk.escape ∧
      shorter.replies = ((inputs.zip talk.replies).filter (·.1.2)).map Prod.snd := by
  intro failing inputs talk shorter
  obtain ⟨hprompts, hfilter⟩ := lines_isolated .empty
  have hdone : failing.escape = none := by decide +kernel
  have hidle : ∀ input ∈ inputs, input.2 = false → input.1.Idle := by decide +kernel
  exact ⟨hdone, ((hprompts _ []).1 hdone).1, hidle, by decide +kernel, hfilter inputs hidle⟩

end Prompt

end Treewalk
