import Treewalk.Proofs.Lexeme.Exact

/-!
# Scanning line by line

A line end between two texts separates what is scanned in them if and only if no string is left open in the first one.
A string that is left open goes on over the line end, so that everything that is scanned there is on a later line than
the error which the first text has by itself.

* `Segment.lineEnds_lt_of_unterminated`: a string that is left open goes on over the line end.
* `Scanned.errors_not_isPrefix`: the errors of the first text do not come first then.
* `scan_distributes_iff`: the tokens and errors of two texts with a line end between them.
-/

namespace Treewalk

open Segment

private theorem count_append_newline (body more : List Char) :
    ('"' :: body).count '\n' < ('"' :: (body ++ '\n' :: more)).count '\n' := by
  simp only [List.count_cons, List.count_append]
  simp

/-- What is scanned where a string is left open in front of a line end holds this line end too. -/
theorem Segment.lineEnds_lt_of_unterminated {c : Char} {cs : List Char} (h : (first c cs).1.piece = .unterminated)
    (b : List Char) : (first c cs).1.lineEnds < (first c (cs ++ '\n' :: b)).1.lineEnds := by
  rw [lineEnds_first, lineEnds_first]
  have hfits := first_fits c cs
  have happend := first_text_append c cs
  rcases hfirst : first c cs with ⟨⟨piece, text⟩, rest⟩
  rw [hfirst] at h hfits happend
  cases hfits with
  | token | blank | comment | stray => cases h
  | @unterminated body hbody =>
    obtain ⟨rfl, rfl⟩ := List.cons.inj ((List.append_nil _).symm.trans happend)
    -- the string is closed at the first quotation mark behind the line end, or not at all
    by_cases hb : '"' ∈ b
    · obtain ⟨before, after, rfl, hbefore⟩ := List.eq_append_cons_of_mem hb
      have hclosed : '"' ∉ body ++ '\n' :: before := by simp [hbody, hbefore]
      have hstring := first_string hclosed after
      rw [List.append_assoc, List.cons_append] at hstring
      rw [hstring, List.append_assoc]
      exact count_append_newline body _
    · have hopen : '"' ∉ body ++ '\n' :: b := by simp [hbody, hb]
      have hstring := (Fits.unterminated hopen).first_eq rfl
      rw [List.append_nil] at hstring
      rw [hstring]
      exact count_append_newline body b

namespace Scanned

/-- The errors in the first segment are on the line on which it ends, and those in the others follow. -/
private theorem ofSegments_errors_cons (line : Int) (s : Segment) : ∃ own : List LexicalError,
    (∀ e ∈ own, e.line = line + (s.lineEnds : Nat)) ∧ ∀ later, (ofSegments line (s :: later)).errors =
      own ++ (ofSegments (line + (s.lineEnds : Nat)) later).errors := by
  obtain ⟨piece, text⟩ := s
  cases piece with
  | token | blank | comment => exact ⟨[], by simp, fun _ => rfl⟩
  | stray => exact ⟨[⟨line + (lineEnds ⟨.stray, text⟩ : Nat), .unexpectedCharacter⟩], by simp, fun _ => rfl⟩
  | unterminated =>
    exact ⟨[⟨line + (lineEnds ⟨.unterminated, text⟩ : Nat), .unterminatedString⟩], by simp, fun _ => rfl⟩

/-- No error is on a line before the one on which the first segment ends. -/
private theorem le_line_of_mem_errors {line : Int} {s : Segment} {later : List Segment} {e : LexicalError}
    (he : e ∈ (ofSegments line (s :: later)).errors) : line + (s.lineEnds : Nat) ≤ e.line := by
  induction later generalizing line s with
  | nil =>
    obtain ⟨own, hown, herrors⟩ := ofSegments_errors_cons line s
    rw [herrors] at he
    have hline := hown e (by simpa [ofSegments] using he)
    omega
  | cons next later ih =>
    obtain ⟨own, hown, herrors⟩ := ofSegments_errors_cons line s
    rw [herrors] at he
    rcases List.mem_append.1 he with he | he
    · have hline := hown e he
      omega
    · have hle := ih he
      omega

/-- If a string is left open in front of a line end, the errors of the text in front of it do not come first. -/
theorem errors_not_isPrefix {a : List Char} (h : ∃ s ∈ split a, s.piece = .unterminated) (b : List Char) (line : Int) :
    ¬(ofSegments line (split a)).errors <+: (ofSegments line (split (a ++ '\n' :: b))).errors := by
  -- on the segments of the first text: in front of the open string both texts have the same ones
  fun_induction split a generalizing line with
  | case1 => simp at h
  | case2 c cs ih =>
    rw [List.cons_append, split]
    by_cases hopen : (first c cs).1.piece = .unterminated
    · have hlt := lineEnds_lt_of_unterminated hopen b
      obtain ⟨e, he, hline⟩ : ∃ e ∈ (ofSegments line ((first c cs).1 :: split (first c cs).2)).errors,
          e.line = line + ((first c cs).1.lineEnds : Nat) := by
        rcases hfirst : first c cs with ⟨⟨piece, text⟩, rest⟩
        rw [hfirst] at hopen
        obtain rfl : piece = .unterminated := hopen
        exact ⟨_, List.mem_cons_self, rfl⟩
      intro hfront
      have hle := le_line_of_mem_errors (hfront.subset he)
      omega
    · have hlater : ∃ s ∈ split (first c cs).2, s.piece = .unterminated := by
        obtain ⟨s, hs, hpiece⟩ := h
        rcases List.mem_cons.1 hs with rfl | hs
        · exact absurd hpiece hopen
        · exact ⟨s, hs, hpiece⟩
      obtain ⟨own, -, herrors⟩ := ofSegments_errors_cons line (first c cs).1
      have hfirst := first_append_of_separates c cs (separates_of_isBlank (s := '\n') rfl) b hopen (fun _ => rfl)
      rw [hfirst, herrors, herrors, List.prefix_append_right_inj]
      exact ih hlater _

end Scanned

/-- A line end between two texts separates what is scanned in them: there are the tokens of the first text without its
end mark and those of the second text, and the errors of the first text and those of the second, where the lines of the
second text are further down by one more than the number of line ends in the first.  This is so if and only if scanning
the first text does not report a string that is never closed. -/
theorem scan_distributes_iff (a b : String) :
    (∀ e ∈ (scan a).errors, e.problem.message ≠ "Unterminated string.") ↔
      (scan (a ++ "\n" ++ b)).tokens = (scan a).tokens.filter (·.kind ≠ .eof) ++
          (scan b).tokens.map (Token.shift (1 + a.toList.count '\n')) ∧
        (scan (a ++ "\n" ++ b)).errors = (scan a).errors ++
          (scan b).errors.map (LexicalError.shift (1 + a.toList.count '\n')) := by
  constructor
  · intro h
    have hopen : ∀ e ∈ (scan a).errors, e.problem ≠ .unterminatedString := by
      intro e he hproblem
      exact h e he (by rw [hproblem]; rfl)
    obtain ⟨ts, hts, htokens⟩ := scan_tokens_eq a
    have hmark : (scan a).tokens.filter (·.kind ≠ .eof) = (scan a).tokens.dropLast := by
      rw [htokens, List.dropLast_concat, List.filter_append, List.filter_eq_self.2 (by simpa using hts)]
      simp [Token.endMark]
    rw [scan_append_newline a b hopen, hmark, Nat.add_comm 1]
    exact ⟨rfl, rfl⟩
  · rintro ⟨-, herrors⟩ e he hmessage
    -- the error is that of a string which is left open in the first text
    have hopen : ∃ s ∈ split a.toList, s.piece = .unterminated := by
      have hmem := List.mem_map_of_mem (f := fun e : LexicalError => e.problem.message) he
      rw [scan, Scanned.ofSegments_errors_map, hmessage] at hmem
      obtain ⟨⟨piece, text⟩, hs, hcomplaint⟩ := List.mem_filterMap.1 hmem
      refine ⟨_, hs, ?_⟩
      cases piece with
      | unterminated => rfl
      | stray => simp [complaint?] at hcomplaint
      | token | blank | comment => cases hcomplaint
    have htext : (a ++ "\n" ++ b).toList = a.toList ++ '\n' :: b.toList := by simp
    refine Scanned.errors_not_isPrefix hopen b.toList 1 ?_
    rw [← htext]
    exact ⟨_, herrors.symm⟩

-- the string goes on over the line end, and is closed in the second text
example : (scan "@ \"a\n\" b").tokens.length = 3 ∧ (scan "@ \"a").tokens.length = 1 ∧
    (scan "\" b").tokens.length = 1 := by decide +kernel

end Treewalk
