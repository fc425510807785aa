import Treewalk.Proofs.Lexeme.Exact

/-!
# Lexemes scanned again

The lexemes of a source text may be taken out of it and written down anew, with any blanks between them, and scanning
gives the same tokens.  In the source text a token may have ended for other reasons than a blank, and there may have
been errors around it; but whatever was scanned as a token is a lexeme, and a lexeme in front of a blank is scanned as
the token that it determines.

* `interleave`: texts with separators between them.
* `Segment.split_blanks`, `Lexeme.split_append`: what is scanned at a separator, and at a lexeme in front of one.
* `Segment.split_interleave`: the tokens of lexemes with blanks between them.
* `scan_interleave`: the lexemes of a source text scanned again.
-/

namespace Treewalk

/-- The texts in their order, with a separator between each of them and the next. -/
def interleave : List String → List String → String
  | [], _ => ""
  | text :: _, [] => text
  | text :: later, separator :: separators => text ++ separator ++ interleave later separators

/-- The kind, the lexeme and the value of a token: all but its line. -/
def Token.content (t : Token) : TokenKind × String × Value := (t.kind, t.lexeme, t.literal)

/-- One or more blanks. -/
def IsSeparator (text : String) : Prop := text ≠ "" ∧ ∀ c ∈ text.toList, c ∈ [' ', '\t', '\r', '\n']

instance (text : String) : Decidable (IsSeparator text) :=
  decidable_of_iff (text ≠ "" ∧ text.toList.all isBlank = true)
    (by simp only [IsSeparator, List.all_eq_true, isBlank_iff])

namespace Segment

theorem split_blanks {blanks : List Char} (h : ∀ c ∈ blanks, c ∈ [' ', '\t', '\r', '\n']) (rest : List Char) :
    split (blanks ++ rest) = blanks.map (fun c => ⟨.blank, [c]⟩) ++ split rest := by
  induction blanks with
  | nil => rfl
  | cons c blanks ih =>
    obtain ⟨hc, hblanks⟩ := List.forall_mem_cons.1 h
    have hfirst : first c (blanks ++ rest) = (⟨.blank, [c]⟩, blanks ++ rest) := (Fits.blank hc).first_eq rfl
    rw [List.cons_append, split, hfirst, ih hblanks, List.map_cons, List.cons_append]

/-- One lexeme and a separator behind it. -/
private theorem split_lexeme_separator {text separator : String} {kind : TokenKind} {literal : Value}
    (h : Lexeme text.toList kind literal) (hseparator : IsSeparator separator) (rest : List Char) :
    split (text.toList ++ (separator.toList ++ rest)) =
      ⟨.token kind literal, text.toList⟩ :: (separator.toList.map (fun c => ⟨.blank, [c]⟩) ++ split rest) := by
  obtain ⟨hne, hblank⟩ := hseparator
  rw [← split_blanks hblank]
  obtain ⟨c, blanks, hcons⟩ := List.exists_cons_of_ne_nil (mt String.toList_eq_nil_iff.1 hne)
  have hc : isBlank c = true := isBlank_iff.2 (hblank c (by rw [hcons]; exact List.mem_cons_self))
  rw [hcons, List.cons_append, h.split_append (separates_of_isBlank hc)]

/-- Lexemes with blanks between them are scanned as their tokens, and nothing is reported. -/
theorem split_interleave {tokens : List (TokenKind × String × Value)} {separators : List String}
    (h : ∀ t ∈ tokens, Lexeme t.2.1.toList t.1 t.2.2) (hseparators : ∀ s ∈ separators, IsSeparator s)
    (hlength : separators.length = tokens.length - 1) :
    let segments := split (interleave (tokens.map (·.2.1)) separators).toList
    segments.filterMap token? = tokens ∧ segments.filterMap complaint? = [] := by
  induction tokens generalizing separators with
  | nil => simp [interleave, split]
  | cons t later ih =>
    obtain ⟨kind, text, literal⟩ := t
    obtain ⟨ht, hlater⟩ := List.forall_mem_cons.1 h
    cases separators with
    | nil =>
      -- this is the last one
      obtain rfl : later = [] := List.eq_nil_of_length_eq_zero (by simpa using hlength.symm)
      simp only [List.map_cons, interleave, ht.split_eq]
      simp [token?, complaint?]
    | cons separator separators =>
      obtain ⟨hseparator, hothers⟩ := List.forall_mem_cons.1 hseparators
      obtain ⟨htokens, hnone⟩ := ih hlater hothers (by simp at hlength; omega)
      simp only [List.map_cons, interleave, String.toList_append, List.append_assoc,
        split_lexeme_separator ht hseparator, List.filterMap_cons, List.filterMap_append, token?, complaint?,
        String.ofList_toList, htokens, hnone]
      simp [token?, complaint?]

end Segment

/-- The tokens of a source text in front of the end mark are those of its segments, and they are lexemes. -/
theorem scan_tokens_content (source : String) : ∃ ts,
    (scan source).tokens = ts ++ [Token.endMark (1 + source.toList.count '\n')] ∧ (∀ t ∈ ts, t.kind ≠ .eof) ∧
      ts.map Token.content = (Segment.split source.toList).filterMap Segment.token? := by
  obtain ⟨ts, hts, htokens⟩ := scan_tokens_eq source
  have hcontent : (scan source).tokens.map Token.content =
      (Segment.split source.toList).filterMap Segment.token? ++ [(.eof, "", .nil)] :=
    Scanned.ofSegments_tokens_map 1 (Segment.split source.toList)
  rw [htokens, List.map_append] at hcontent
  exact ⟨ts, htokens, hts, (List.append_inj' hcontent rfl).1⟩

/-- Scanning the lexemes again gives back the tokens.  Let the lexemes of a source text be written down with a separator
of blanks between each of them and the next, whatever else there was in the source text.  Then scanning reports nothing,
and gives tokens of the same kinds, lexemes and values in the same order, and an end mark behind them. -/
theorem scan_interleave (source : String) (separators : List String) (ts : List Token)
    (hts : ts = (scan source).tokens.filter (·.kind ≠ .eof)) (hlength : separators.length = ts.length - 1)
    (hseparators : ∀ s ∈ separators, IsSeparator s) :
    let again := scan (interleave (ts.map (·.lexeme)) separators)
    again.errors = [] ∧ ∃ us line, again.tokens = us ++ [Token.endMark line] ∧
      us.map Token.content = ts.map Token.content := by
  obtain ⟨ts', htokens, hkind, hcontent⟩ := scan_tokens_content source
  obtain rfl : ts = ts' := by
    rw [hts, htokens, List.filter_append, List.filter_eq_self.2 (by simpa using hkind)]
    simp [Token.endMark]
  have hlexeme : ∀ t ∈ ts.map Token.content, Lexeme t.2.1.toList t.1 t.2.2 := by
    intro t ht
    rw [hcontent] at ht
    exact (segmentation_split source.toList).lexeme ht
  have hlexemes : ts.map (·.lexeme) = (ts.map Token.content).map (·.2.1) := by
    rw [List.map_map]
    rfl
  obtain ⟨hsame, hnone⟩ := Segment.split_interleave hlexeme hseparators (by rwa [List.length_map])
  rw [← hlexemes] at hsame hnone
  obtain ⟨us, hagain, -, hus⟩ := scan_tokens_content (interleave (ts.map (·.lexeme)) separators)
  refine ⟨?_, us, _, hagain, hus.trans hsame⟩
  have herrors := Scanned.ofSegments_errors_map 1 (Segment.split (interleave (ts.map (·.lexeme)) separators).toList)
  rw [hnone] at herrors
  exact List.map_eq_nil_iff.1 herrors

/-- A numeral that a point cuts off, a stray character, a string with a line end and the mark of a comment in it, and an
operator in front of no equals sign, with blanks of all kinds put between them. -/
theorem scan_interleave_mixed :
    let source := "12.a@!\"u\n//v\"/"
    let ts := (scan source).tokens.filter (·.kind ≠ .eof)
    let separators := [" ", "\n", "\t\t", "\r", "\n "]
    (scan source).errors.length = 1 ∧ separators.length = ts.length - 1 ∧
      (∀ s ∈ separators, IsSeparator s) ∧
      interleave (ts.map (·.lexeme)) separators = "12 .\na\t\t!\r\"u\n//v\"\n /" ∧
      let again := scan (interleave (ts.map (·.lexeme)) separators)
      again.errors = [] ∧ ∃ us line, again.tokens = us ++ [Token.endMark line] ∧
        us.map Token.content = ts.map Token.content := by
  intro source ts separators
  have hlength : separators.length = ts.length - 1 := by decide +kernel
  have hseparators : ∀ s ∈ separators, IsSeparator s := by decide +kernel
  exact ⟨by decide +kernel, hlength, hseparators, by decide +kernel,
    scan_interleave source separators ts rfl hlength hseparators⟩

end Treewalk
