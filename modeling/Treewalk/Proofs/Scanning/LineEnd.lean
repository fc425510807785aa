import Mathlib.Algebra.GroupWithZero.Nat
import Treewalk.Token.Scan

/-!
# Scanning over a line end

No segment but a string and a comment goes on over a blank, and a comment ends with its line.  So a line end in a text
separates what is scanned before it from what is scanned after it, provided that it is not inside a string, and the
only thing the scanner carries across is the number of the line.

* `Separates`: a character that no segment but a string or a comment goes on with.
* `Segment.first_append_of_separates`: a segment in front of such a character does not depend on what follows it.
* `Segment.split_append_newline`: the segments of two texts with a line end between them.
* `scan_append_newline`: the tokens and errors of two texts with a line end between them.
* `scan_tokens_eq`: there is one end mark, behind all the other tokens.
-/

namespace Treewalk

/-! ### Segments -/

private theorem takeWhile_append_stop {p : Char → Bool} {s : Char} (hs : p s = false) (cs b : List Char) :
    (cs ++ s :: b).takeWhile p = cs.takeWhile p := by
  induction cs with
  | nil => simp [hs]
  | cons c cs ih => simp only [List.cons_append, List.takeWhile_cons, ih]

private theorem dropWhile_append_stop {p : Char → Bool} {s : Char} (hs : p s = false) (cs b : List Char) :
    (cs ++ s :: b).dropWhile p = cs.dropWhile p ++ s :: b := by
  induction cs with
  | nil => simp [hs]
  | cons c cs ih =>
    simp only [List.cons_append, List.dropWhile_cons, ih]
    split <;> rfl

private theorem while_append_of_dropWhile {p : Char → Bool} {c : Char} {cs rest : List Char} (more : List Char)
    (h : cs.dropWhile p = c :: rest) :
    (cs ++ more).takeWhile p = cs.takeWhile p ∧ (cs ++ more).dropWhile p = c :: (rest ++ more) := by
  induction cs with
  | nil => simp at h
  | cons d cs ih =>
    simp only [List.cons_append, List.takeWhile_cons, List.dropWhile_cons] at h ⊢
    split at h
    · next hd =>
      obtain ⟨htake, hdrop⟩ := ih h
      simp [hd, htake, hdrop]
    · next hd =>
      obtain ⟨rfl, rfl⟩ := List.cons.inj h
      simp [hd]

/-- No name, numeral or operator goes on with the character. -/
structure Separates (s : Char) : Prop where
  name : isNamePart s = false
  digit : s.isDigit = false
  dot : s ≠ '.'
  equal : s ≠ '='
  slash : s ≠ '/'

theorem separates_of_isBlank {s : Char} (hs : isBlank s = true) : Separates s := by
  simp only [isBlank, Bool.or_eq_true, decide_eq_true_eq] at hs
  rcases hs with ((rfl | rfl) | rfl) | rfl <;> constructor <;> decide

namespace Segment

private theorem numeral_append (whole cs : List Char) {s : Char} (hs : Separates s) (b : List Char) :
    numeral whole (cs ++ s :: b) = ((numeral whole cs).1, (numeral whole cs).2 ++ s :: b) := by
  have hdigit := hs.digit
  have hdot := hs.dot
  match cs with
  | [] => simp [numeral, hdot]
  | [c] =>
    by_cases hc : c = '.'
    · subst hc; simp [numeral, hdigit]
    · simp [numeral, hc]
  | c :: d :: after =>
    by_cases hc : c = '.'
    · subst hc
      simp only [numeral, List.cons_append, takeWhile_append_stop hdigit, dropWhile_append_stop hdigit]
      split <;> rfl
    · simp [numeral, hc]

/-- The first segment in front of a separating character, and the rest, unless a string or a comment goes on. -/
theorem first_append_of_separates (c : Char) (cs : List Char) {s : Char} (hs : Separates s) (b : List Char)
    (hstring : (first c cs).1.piece ≠ .unterminated) (hcomment : (first c cs).1.piece = .comment → s = '\n') :
    first c (cs ++ s :: b) = ((first c cs).1, (first c cs).2 ++ s :: b) := by
  have ⟨hname, hdigit, _, hequal, hslash⟩ := hs
  unfold first at hstring hcomment ⊢
  cases hlead : Lead.of c with
  | mark kind | blank | nothing => rfl
  | markOrEqual alone followed =>
    cases cs with
    | nil => simp [hequal]
    | cons d cs => by_cases hd : d = '=' <;> simp [hd]
  | slash =>
    cases cs with
    | nil => simp [hslash]
    | cons d cs =>
      by_cases hd : d = '/'
      · -- only a line end stops a comment
        subst hd
        obtain rfl : s = '\n' := by simpa [hlead] using hcomment
        simp [takeWhile_append_stop, dropWhile_append_stop]
      · simp [hd]
  | quote =>
    simp only [hlead, quoted] at hstring ⊢
    cases hrest : cs.dropWhile (· ≠ c) with
    | nil =>
      rw [hrest] at hstring
      exact absurd rfl hstring
    | cons close rest =>
      obtain ⟨htake, hdrop⟩ := while_append_of_dropWhile (s :: b) hrest
      rw [htake, hdrop]
  | digit =>
    simp only [takeWhile_append_stop hdigit, dropWhile_append_stop hdigit]
    exact numeral_append _ _ hs b
  | letter => simp only [takeWhile_append_stop hname, dropWhile_append_stop hname]

private theorem first_newline (cs : List Char) : first '\n' cs = (⟨.blank, ['\n']⟩, cs) := rfl

/-- The segments of two texts with a line end between them, if no string is left open in the first. -/
theorem split_append_newline (a b : List Char) (h : ∀ s ∈ split a, s.piece ≠ .unterminated) :
    split (a ++ '\n' :: b) = split a ++ ⟨.blank, ['\n']⟩ :: split b := by
  fun_induction split a with
  | case1 => rw [List.nil_append, split, first_newline, List.nil_append]
  | case2 c cs ih =>
    have hfirst := first_append_of_separates c cs (separates_of_isBlank (s := '\n') rfl) b (h _ List.mem_cons_self)
      (fun _ => rfl)
    rw [List.cons_append, split, hfirst, ih (fun s hs => h s (List.mem_cons_of_mem _ hs)), List.cons_append]

theorem flatMap_text_split (text : List Char) : (split text).flatMap Segment.text = text := by
  fun_induction split text with
  | case1 => rfl
  | case2 c cs ih => rw [List.flatMap_cons, ih, first_text_append]

/-! ### Line ends -/

private theorem newline_not_mem_takeWhile {p : Char → Bool} (hp : p '\n' = false) (cs : List Char) :
    '\n' ∉ cs.takeWhile p := by
  intro hmem
  have hnewline := List.all_eq_true.1 List.all_takeWhile _ hmem
  rw [hp] at hnewline
  cases hnewline

private theorem newline_not_mem_numeral {whole : List Char} (h : '\n' ∉ whole) (cs : List Char) :
    '\n' ∉ (numeral whole cs).1.text := by
  unfold numeral
  split
  · next d after =>
    have hafter : '\n' ∉ after.takeWhile Char.isDigit := newline_not_mem_takeWhile rfl after
    split
    · next hd =>
      have hne : '\n' ≠ d := by
        rintro rfl
        cases hd
      simp [h, hne, hafter]
    · exact h
  · exact h

/-- Where no line end may stand there is none. -/
private theorem newline_not_mem_first {c : Char} {cs : List Char} (h : (first c cs).1.piece.mayEndLine = false) :
    '\n' ∉ (first c cs).1.text := by
  have hc : '\n' ≠ c := by
    rintro rfl
    cases h
  have hdigits := newline_not_mem_takeWhile (p := Char.isDigit) rfl cs
  have hletters := newline_not_mem_takeWhile (p := isNamePart) rfl cs
  unfold first at h ⊢
  cases hlead : Lead.of c with
  | mark kind | nothing => simpa using hc
  | markOrEqual alone followed => dsimp only; split <;> simp [hc]
  | slash =>
    dsimp only
    split
    · next rest =>
      have hbody := newline_not_mem_takeWhile (p := (· ≠ '\n')) rfl rest
      exact List.not_mem_cons_of_ne_of_not_mem hc (List.not_mem_cons_of_ne_of_not_mem (by decide) hbody)
    · simpa using hc
  | blank => rw [hlead] at h; cases h
  | quote =>
    simp only [hlead, quoted] at h
    split at h <;> cases h
  | digit => exact newline_not_mem_numeral (by simp [hc, hdigits]) _
  | letter => simp [word, hc, hletters]

/-- So all the line ends of a segment are counted. -/
theorem lineEnds_first (c : Char) (cs : List Char) : (first c cs).1.lineEnds = (first c cs).1.text.count '\n' := by
  unfold lineEnds
  split
  · rfl
  · next h =>
    have hnone := newline_not_mem_first (Bool.eq_false_iff.2 h)
    exact (List.count_eq_zero.2 hnone).symm

theorem sum_lineEnds_split (text : List Char) : ((split text).map lineEnds).sum = text.count '\n' := by
  fun_induction split text with
  | case1 => rfl
  | case2 c cs ih => rw [List.map_cons, List.sum_cons, ih, lineEnds_first, ← List.count_append, first_text_append]

end Segment

/-! ### Tokens and errors -/

/-- The same token so many lines further down. -/
def Token.shift (k : Nat) (t : Token) : Token := { t with line := t.line + k }

/-- The same error so many lines further down. -/
def LexicalError.shift (k : Nat) (e : LexicalError) : LexicalError := { e with line := e.line + k }

/-- The same outcome so many lines further down. -/
def Scanned.shift (k : Nat) (s : Scanned) : Scanned :=
  ⟨s.tokens.map (Token.shift k), s.errors.map (LexicalError.shift k)⟩

namespace Scanned

private theorem ofSegments_shift (line : Int) (k : Nat) (segments : List Segment) :
    ofSegments (line + k) segments = (ofSegments line segments).shift k := by
  induction segments generalizing line with
  | nil => rfl
  | cons s later ih =>
    obtain ⟨piece, text⟩ := s
    have hline : line + k + (Segment.lineEnds ⟨piece, text⟩ : Nat) =
        line + (Segment.lineEnds ⟨piece, text⟩ : Nat) + k := by omega
    simp only [ofSegments, hline, ih]
    cases piece <;> rfl

private theorem ofSegments_tokens_ne_nil (line : Int) (segments : List Segment) :
    (ofSegments line segments).tokens ≠ [] := by
  induction segments generalizing line with
  | nil => simp [ofSegments]
  | cons s later ih =>
    obtain ⟨piece, text⟩ := s
    cases piece <;> simp [ofSegments, ih]

/-- The end mark of the first part gives way to the tokens of the second. -/
private theorem ofSegments_append (line : Int) (xs ys : List Segment) :
    ofSegments line (xs ++ ys) =
      let before := ofSegments line xs
      let after := ofSegments (line + (xs.map Segment.lineEnds).sum) ys
      ⟨before.tokens.dropLast ++ after.tokens, before.errors ++ after.errors⟩ := by
  induction xs generalizing line with
  | nil => simp [ofSegments]
  | cons s xs ih =>
    obtain ⟨piece, text⟩ := s
    have hne := ofSegments_tokens_ne_nil (line + (Segment.lineEnds ⟨piece, text⟩ : Nat)) xs
    simp only [List.cons_append, ofSegments, List.map_cons, List.sum_cons, Int.natCast_add, ← Int.add_assoc, ih]
    cases piece <;> simp [List.dropLast_cons_of_ne_nil hne]

end Scanned

private theorem mem_errors_of_unterminated (line : Int) {segments : List Segment} {s : Segment} (hs : s ∈ segments)
    (hpiece : s.piece = .unterminated) :
    ∃ e ∈ (Scanned.ofSegments line segments).errors, e.problem = .unterminatedString := by
  induction segments generalizing line with
  | nil => cases hs
  | cons t later ih =>
    obtain ⟨piece, text⟩ := t
    rcases List.mem_cons.1 hs with rfl | hs
    · obtain rfl : piece = .unterminated := hpiece
      exact ⟨_, List.mem_cons_self, rfl⟩
    · obtain ⟨e, he, hproblem⟩ := ih (line + (Segment.lineEnds ⟨piece, text⟩ : Nat)) hs
      refine ⟨e, ?_, hproblem⟩
      cases piece <;> simp [Scanned.ofSegments, he]

/-- The tokens and errors of two texts with a line end between them, if no string is left open in the first. -/
theorem scan_append_newline (a b : String) (h : ∀ e ∈ (scan a).errors, e.problem ≠ .unterminatedString) :
    scan (a ++ "\n" ++ b) =
      let after := (scan b).shift (a.toList.count '\n' + 1)
      ⟨(scan a).tokens.dropLast ++ after.tokens, (scan a).errors ++ after.errors⟩ := by
  -- a string that is left open would be among the errors
  have hopen : ∀ s ∈ Segment.split a.toList, s.piece ≠ .unterminated := by
    intro s hs hpiece
    obtain ⟨e, he, hproblem⟩ := mem_errors_of_unterminated 1 hs hpiece
    exact h e he hproblem
  have htext : (a ++ "\n" ++ b).toList = a.toList ++ '\n' :: b.toList := by simp
  have hline : (1 : Int) + (a.toList.count '\n' : Nat) + (Segment.lineEnds ⟨.blank, ['\n']⟩ : Nat) =
      1 + ((a.toList.count '\n' + 1 : Nat) : Int) := by
    have hblank : Segment.lineEnds ⟨.blank, ['\n']⟩ = 1 := rfl
    omega
  rw [scan, htext, Segment.split_append_newline _ _ hopen, Scanned.ofSegments_append, Segment.sum_lineEnds_split]
  simp only [Scanned.ofSegments, hline, Scanned.ofSegments_shift]
  rfl

/-! ### The end mark -/

theorem mem_of_lookup {α β : Type} [BEq α] [LawfulBEq α] {a : α} {b : β} {l : List (α × β)}
    (h : l.lookup a = some b) : (a, b) ∈ l := by
  obtain ⟨l₁, l₂, rfl, -⟩ := List.lookup_eq_some_iff.1 h
  simp

private theorem TokenKind.reserved?_ne_eof {word : String} {kind : TokenKind} (h : reserved? word = some kind) :
    kind ≠ .eof := by
  have hall : ∀ entry ∈ reservedWords, entry.2 ≠ .eof := by decide
  exact hall _ (mem_of_lookup h)

/-- A character that starts neither a blank, a numeral nor a word starts what the list of marks says. -/
theorem Lead.mem_marks {c : Char} (h : Lead.of c ∉ [.blank, .digit, .letter, .nothing]) : (c, Lead.of c) ∈ marks := by
  unfold Lead.of at h ⊢
  split at h
  · simp at h
  · split at h
    · simp at h
    · split at h
      · simp at h
      · cases hmark : marks.lookup c with
        | none => simp [hmark] at h
        | some lead => simp_all [mem_of_lookup hmark]

/-- The kinds of the marks that a character can start. -/
private def Lead.kinds : Lead → List TokenKind
  | .mark kind => [kind]
  | .markOrEqual alone followed => [alone, followed]
  | _ => []

private theorem Lead.eof_not_mem_kinds (c : Char) : .eof ∉ (Lead.of c).kinds := by
  have hmarks : ∀ entry ∈ marks, .eof ∉ entry.2.kinds := by decide
  by_cases hlead : Lead.of c ∈ [.blank, .digit, .letter, .nothing]
  · simp only [List.mem_cons, List.not_mem_nil, or_false] at hlead
    rcases hlead with h | h | h | h <;> simp [h, kinds]
  · exact hmarks _ (Lead.mem_marks hlead)

/-- No segment is a token of the kind of the end mark. -/
private theorem Segment.first_ne_eof (c : Char) (cs : List Char) (literal : Value) :
    (first c cs).1.piece ≠ .token .eof literal := by
  have hmark := Lead.eof_not_mem_kinds c
  unfold first
  cases hlead : Lead.of c with
  | mark kind =>
    rw [hlead] at hmark
    rintro ⟨⟩
    exact hmark (by simp [Lead.kinds])
  | markOrEqual alone followed =>
    rw [hlead] at hmark
    dsimp only
    split <;> rintro ⟨⟩ <;> exact hmark (by simp [Lead.kinds])
  | slash => dsimp only; split <;> simp
  | blank | nothing => simp
  | quote => simp only [quoted]; split <;> simp
  | digit =>
    simp only [numeral]
    split
    · split <;> simp
    · simp
  | letter =>
    simp only [word, ne_eq, Piece.token.injEq, not_and]
    intro heof
    cases hword : TokenKind.reserved? (String.ofList (c :: cs.takeWhile isNamePart)) with
    | none =>
      rw [hword] at heof
      cases heof
    | some kind =>
      rw [hword] at heof
      exact absurd heof (TokenKind.reserved?_ne_eof hword)

private theorem Segment.split_ne_eof (text : List Char) (literal : Value) :
    ∀ s ∈ split text, s.piece ≠ .token .eof literal := by
  fun_induction split text with
  | case1 => simp
  | case2 c cs ih => exact List.forall_mem_cons.2 ⟨first_ne_eof c cs literal, ih⟩

private theorem Scanned.ofSegments_tokens (line : Int) (segments : List Segment)
    (h : ∀ literal, ∀ s ∈ segments, s.piece ≠ .token .eof literal) :
    ∃ ts, (∀ t ∈ ts, t.kind ≠ .eof) ∧ (ofSegments line segments).tokens =
      ts ++ [Token.endMark (line + (segments.map Segment.lineEnds).sum)] := by
  induction segments generalizing line with
  | nil => exact ⟨[], by simp, by simp [ofSegments]⟩
  | cons s later ih =>
    obtain ⟨piece, text⟩ := s
    obtain ⟨ts, hts, htokens⟩ := ih (line + (Segment.lineEnds ⟨piece, text⟩ : Nat)) fun literal =>
      (List.forall_mem_cons.1 (h literal)).2
    rw [Int.add_assoc, ← Int.natCast_add, ← List.sum_cons, ← List.map_cons] at htokens
    cases piece with
    | token kind literal =>
      refine ⟨⟨kind, String.ofList text, literal, line + (Segment.lineEnds ⟨.token kind literal, text⟩ : Nat)⟩ :: ts,
        ?_, ?_⟩
      · refine List.forall_mem_cons.2 ⟨?_, hts⟩
        rintro rfl
        exact h literal _ List.mem_cons_self rfl
      · simp [ofSegments, htokens]
    | _ => exact ⟨ts, hts, by simp [ofSegments, htokens]⟩

/-- Behind the tokens of a text there is one end mark, on its last line. -/
theorem scan_tokens_eq (source : String) : ∃ ts, (∀ t ∈ ts, t.kind ≠ .eof) ∧
    (scan source).tokens = ts ++ [Token.endMark (1 + source.toList.count '\n')] := by
  obtain ⟨ts, hts, htokens⟩ := Scanned.ofSegments_tokens 1 (Segment.split source.toList)
    fun literal => Segment.split_ne_eof source.toList literal
  rw [Segment.sum_lineEnds_split] at htokens
  exact ⟨ts, hts, htokens⟩

end Treewalk
