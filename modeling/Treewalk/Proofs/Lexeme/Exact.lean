import Treewalk.Proofs.Lexeme
import Treewalk.Proofs.Scanning.LineEnd

/-!
# Scanning is exact

The scanner cuts a source text into the segments that the rule of the longest match demands, and there is only one way
to do so.  It returns the tokens among them and reports the others that are neither blanks nor comments.

* `Lexeme.first_eq`: a lexeme by itself is scanned as the token it determines.
* `Lexeme.split_append`: so is a lexeme in front of a separating character.
* `Lexeme.le_first`: no lexeme at the front of a text is longer than what is scanned there.
* `segmentation_split`, `Segmentation.eq_split`: the segments found make up the text and fit, and no others do.
* `scan_exact`: the tokens and the errors of a source text.
-/

namespace Treewalk

/-! ### Character classes -/

theorem isBlank_iff {c : Char} : isBlank c = true ↔ c ∈ [' ', '\t', '\r', '\n'] := by
  simp [isBlank, or_assoc]

private theorem Lead.of_blank {c : Char} (h : c ∈ [' ', '\t', '\r', '\n']) : Lead.of c = .blank := by
  rw [Lead.of, if_pos (isBlank_iff.2 h)]

private theorem Lead.of_digit {c : Char} (h : c.isDigit = true) : Lead.of c = .digit := by
  have hblank : isBlank c = false := by
    rw [Bool.eq_false_iff]
    intro hb
    rw [(separates_of_isBlank hb).digit] at h
    cases h
  simp [Lead.of, hblank, h]

private theorem le_toNat_of_isAlpha {c : Char} (h : c.isAlpha = true) : 'A'.toNat ≤ c.toNat := by
  have hletter : (decide ('A'.val ≤ c.val ∧ c.val ≤ 'Z'.val) ||
      decide ('a'.val ≤ c.val) && decide (c.val ≤ 'z'.val)) = true := h
  simp only [Bool.or_eq_true, Bool.and_eq_true, decide_eq_true_eq, UInt32.le_iff_toNat_le] at hletter
  have hA : 'A'.val.toNat = 65 := rfl
  have ha : 'a'.val.toNat = 97 := rfl
  show 'A'.val.toNat ≤ c.val.toNat
  omega

private theorem isDigit_of_isNameStart {c : Char} (h : isNameStart c = true) : c.isDigit = false := by
  rw [Bool.eq_false_iff]
  intro hd
  rw [isNameStart, Bool.or_eq_true, decide_eq_true_eq] at h
  rcases h with h | rfl
  · have hletter := le_toNat_of_isAlpha h
    have hdigit := (Char.isDigit_iff_toNat.1 hd).2
    have hA : 'A'.toNat = 65 := rfl
    have h9 : '9'.toNat = 57 := rfl
    omega
  · revert hd
    decide

private theorem Lead.of_letter {c : Char} (h : isNameStart c = true) : Lead.of c = .letter := by
  have hblank : isBlank c = false := by
    rw [Bool.eq_false_iff]
    intro hb
    have hpart := (separates_of_isBlank hb).name
    simp [isNamePart, h] at hpart
  simp [Lead.of, hblank, isDigit_of_isNameStart h, h]

/-! ### What is scanned at a lexeme -/

namespace Segment

private theorem ne_of_not_mem {q : Char} {body : List Char} (h : q ∉ body) : ∀ d ∈ body, decide (d ≠ q) = true := by
  intro d hd
  exact decide_eq_true (fun he => h (he ▸ hd))

private theorem not_mem_takeWhile_ne (q : Char) (cs : List Char) : q ∉ cs.takeWhile (· ≠ q) := by
  have hbody : ∀ d ∈ cs.takeWhile (· ≠ q), decide (d ≠ q) = true := List.all_eq_true.1 List.all_takeWhile
  intro hmem
  simpa using hbody q hmem

private theorem first_digits {c : Char} {digits : List Char} (hc : c.isDigit = true)
    (h : ∀ d ∈ digits, d.isDigit = true) (tail : List Char) : first c (digits ++ tail) =
      numeral (c :: (digits ++ tail.takeWhile Char.isDigit)) (tail.dropWhile Char.isDigit) := by
  unfold first
  rw [Lead.of_digit hc, List.takeWhile_append_of_pos h, List.dropWhile_append_of_pos h]

private theorem first_fraction {c f : Char} {digits fraction : List Char} (hc : c.isDigit = true)
    (h : ∀ d ∈ digits, d.isDigit = true) (hf : f.isDigit = true) (h' : ∀ d ∈ fraction, d.isDigit = true)
    (tail : List Char) : first c (digits ++ '.' :: f :: (fraction ++ tail)) =
      let fraction := f :: (fraction ++ tail.takeWhile Char.isDigit)
      (⟨.token .number (.num (Decimal.ofDigits (c :: digits) fraction).toFloat), c :: digits ++ '.' :: fraction⟩,
        tail.dropWhile Char.isDigit) := by
  have hdot : '.'.isDigit = false := by decide
  rw [first_digits hc h, List.takeWhile_cons_of_neg (by simp [hdot]), List.dropWhile_cons_of_neg (by simp [hdot]),
    List.append_nil, numeral]
  simp only [hf, if_true, List.takeWhile_append_of_pos h', List.dropWhile_append_of_pos h']

theorem first_string {body : List Char} (h : '"' ∉ body) (tail : List Char) :
    first '"' (body ++ '"' :: tail) =
      (⟨.token .string (.str (String.ofList body)), '"' :: (body ++ ['"'])⟩, tail) := by
  have hbody := ne_of_not_mem h
  show quoted '"' (body ++ '"' :: tail) = _
  rw [quoted, List.takeWhile_append_of_pos hbody, List.dropWhile_append_of_pos hbody]
  simp

private theorem first_letters {c : Char} {letters : List Char} (hc : isNameStart c = true)
    (h : ∀ d ∈ letters, isNamePart d = true) (tail : List Char) : first c (letters ++ tail) =
      (word (c :: (letters ++ tail.takeWhile isNamePart)), tail.dropWhile isNamePart) := by
  unfold first
  rw [Lead.of_letter hc, List.takeWhile_append_of_pos h, List.dropWhile_append_of_pos h]

private theorem first_comment (cs : List Char) : (first '/' ('/' :: cs)) =
    (⟨.comment, '/' :: '/' :: cs.takeWhile (· ≠ '\n')⟩, cs.dropWhile (· ≠ '\n')) := rfl

end Segment

/-! ### Every lexeme is a token -/

open Segment

private theorem operatorLexemes_first : ∀ entry ∈ operatorLexemes,
    (entry.1.head?.map fun c => first c entry.1.tail) = some (⟨.token entry.2 .nil, entry.1⟩, []) := by
  decide

private theorem operatorLexemes_short : ∀ entry ∈ operatorLexemes,
    entry.1.length = 1 ∨ entry.1 ∈ [['!', '='], ['=', '='], ['>', '='], ['<', '=']] := by
  decide

private theorem reservedWords_letters : ∀ entry ∈ TokenKind.reservedWords,
    TokenKind.reserved? entry.1 = some entry.2 ∧ entry.1.toList.head?.any isNameStart = true ∧
      entry.1.toList.tail.all isNamePart = true := by
  decide +kernel

private theorem reserved?_eq_none {word : String} (h : word ∉ TokenKind.reservedWords.map Prod.fst) :
    TokenKind.reserved? word = none := by
  rw [TokenKind.reserved?, List.lookup_eq_none_iff]
  intro entry hentry
  have hne : word ≠ entry.1 := fun he => h (List.mem_map.2 ⟨entry, hentry, he.symm⟩)
  simpa using hne

private theorem letters_of_reserved {c : Char} {more : List Char} {kind : TokenKind} {word : String}
    (h : (word, kind) ∈ TokenKind.reservedWords) (hword : word.toList = c :: more) :
    isNameStart c = true ∧ (∀ d ∈ more, isNamePart d = true) ∧
      TokenKind.reserved? (String.ofList (c :: more)) = some kind := by
  obtain ⟨hkind, hc, hmore⟩ := reservedWords_letters _ h
  simp only [hword, List.head?_cons, Option.any_some, List.tail_cons, List.all_eq_true] at hc hmore
  refine ⟨hc, hmore, ?_⟩
  rw [← hword, String.ofList_toList]
  exact hkind

private theorem first_word {c : Char} {more : List Char} {kind : TokenKind} (hc : isNameStart c = true)
    (hmore : ∀ d ∈ more, isNamePart d = true)
    (hkind : (TokenKind.reserved? (String.ofList (c :: more))).getD .identifier = kind) :
    first c more = (⟨.token kind .nil, c :: more⟩, []) := by
  have hfirst := first_letters hc hmore []
  rw [List.append_nil, List.takeWhile_nil, List.append_nil, Segment.word, hkind] at hfirst
  exact hfirst

/-- A lexeme by itself is scanned as the token that it determines. -/
theorem Lexeme.first_eq {c : Char} {more : List Char} {kind : TokenKind} {literal : Value}
    (h : Lexeme (c :: more) kind literal) : first c more = (⟨.token kind literal, c :: more⟩, []) := by
  generalize htext : c :: more = text at h
  cases h with
  | operator h =>
    have hfirst := operatorLexemes_first _ h
    rw [← htext] at hfirst ⊢
    exact Option.some.inj hfirst
  | whole hne h =>
    subst htext
    obtain ⟨hc, hmore⟩ := List.forall_mem_cons.1 h
    have hfirst := first_digits hc hmore []
    rw [List.append_nil, List.takeWhile_nil, List.append_nil] at hfirst
    exact hfirst
  | @fraction digits fraction hne h hne' h' =>
    obtain ⟨f, fraction, rfl⟩ := List.exists_cons_of_ne_nil hne'
    obtain ⟨d, digits, rfl⟩ := List.exists_cons_of_ne_nil hne
    obtain ⟨rfl, rfl⟩ := List.cons.inj htext
    obtain ⟨hc, hdigits⟩ := List.forall_mem_cons.1 h
    obtain ⟨hf, hfraction⟩ := List.forall_mem_cons.1 h'
    have hfirst := first_fraction hc hdigits hf hfraction []
    simpa using hfirst
  | string h =>
    obtain ⟨rfl, rfl⟩ := List.cons.inj htext
    exact first_string h []
  | reserved h =>
    rw [← htext]
    obtain ⟨hc, hmore, hkind⟩ := letters_of_reserved h htext.symm
    exact first_word hc hmore (by rw [hkind, Option.getD_some])
  | name hc h hfree =>
    obtain ⟨rfl, rfl⟩ := List.cons.inj htext
    exact first_word hc h (by rw [reserved?_eq_none hfree, Option.getD_none])

private theorem Lexeme.ne_nil {text : List Char} {kind : TokenKind} {literal : Value} (h : Lexeme text kind literal) :
    text ≠ [] := by
  rintro rfl
  generalize htext : ([] : List Char) = text at h
  cases h with
  | operator h =>
    have hfirst := operatorLexemes_first _ h
    rw [← htext] at hfirst
    cases hfirst
  | whole hne => exact hne htext.symm
  | fraction hne =>
    obtain ⟨d, digits, rfl⟩ := List.exists_cons_of_ne_nil hne
    cases htext
  | string | name => cases htext
  | reserved h =>
    have hletters := (reservedWords_letters _ h).2.1
    rw [← htext] at hletters
    cases hletters

theorem Lexeme.split_eq {text : List Char} {kind : TokenKind} {literal : Value} (h : Lexeme text kind literal) :
    split text = [⟨.token kind literal, text⟩] := by
  obtain ⟨c, more, rfl⟩ := List.exists_cons_of_ne_nil h.ne_nil
  rw [split, h.first_eq, split]

/-- A lexeme ends where a separating character stands behind it. -/
theorem Lexeme.split_append {text : List Char} {kind : TokenKind} {literal : Value} (h : Lexeme text kind literal)
    {s : Char} (hs : Separates s) (rest : List Char) :
    split (text ++ s :: rest) = ⟨.token kind literal, text⟩ :: split (s :: rest) := by
  obtain ⟨c, more, rfl⟩ := List.exists_cons_of_ne_nil h.ne_nil
  -- by itself the lexeme is a token, so neither a string nor a comment is open at the character
  have hfirst := first_append_of_separates c more hs rest (by simp [h.first_eq]) (by simp [h.first_eq])
  rw [h.first_eq] at hfirst
  rw [List.cons_append, split, hfirst, List.nil_append]

/-- A lexeme determines its kind and its value. -/
private theorem Lexeme.unique {text : List Char} {k₁ k₂ : TokenKind} {v₁ v₂ : Value} (h₁ : Lexeme text k₁ v₁)
    (h₂ : Lexeme text k₂ v₂) : k₁ = k₂ ∧ v₁ = v₂ := by
  obtain ⟨c, more, rfl⟩ := List.exists_cons_of_ne_nil h₁.ne_nil
  have heq := h₁.first_eq.symm.trans h₂.first_eq
  simpa using heq

/-! ### No lexeme is longer than what is scanned -/

/-- The segment is a token or a comment. -/
def Segment.Readable (s : Segment) : Prop := s.piece = .comment ∨ ∃ kind literal, s.piece = .token kind literal

private theorem first_readable {c : Char} (h : Lead.of c ∉ [.blank, .quote, .digit, .letter, .nothing])
    (cs : List Char) : (first c cs).1.Readable := by
  unfold first
  cases hlead : Lead.of c with
  | mark kind => exact .inr ⟨kind, .nil, rfl⟩
  | markOrEqual alone followed =>
    dsimp only
    split
    · exact .inr ⟨followed, .nil, rfl⟩
    · exact .inr ⟨alone, .nil, rfl⟩
  | slash =>
    dsimp only
    split
    · exact .inl rfl
    · exact .inr ⟨.slash, .nil, rfl⟩
  | _ => simp [hlead] at h

private theorem operatorLexemes_lead : ∀ entry ∈ operatorLexemes,
    (entry.1.head?.all fun c => Lead.of c ∉ [.blank, .quote, .digit, .letter, .nothing]) = true := by
  decide

private theorem numeral_text (whole cs : List Char) : ∃ literal more,
    (numeral whole cs).1 = ⟨.token .number literal, whole ++ more⟩ := by
  unfold numeral
  split
  · split
    · exact ⟨_, _, rfl⟩
    · exact ⟨_, [], by rw [List.append_nil]⟩
  · exact ⟨_, [], by rw [List.append_nil]⟩

private theorem le_first_word {c : Char} {more : List Char} (hc : isNameStart c = true)
    (hmore : ∀ d ∈ more, isNamePart d = true) (tail : List Char) :
    (first c (more ++ tail)).1.Readable ∧ (c :: more).length ≤ (first c (more ++ tail)).1.text.length := by
  rw [first_letters hc hmore]
  refine ⟨.inr ⟨_, _, rfl⟩, ?_⟩
  simp only [Segment.word, List.length_cons, List.length_append]
  omega

/-- Where there is a lexeme, a token is scanned that is not shorter, unless it is a comment. -/
theorem Lexeme.le_first {c : Char} {more : List Char} {kind : TokenKind} {literal : Value}
    (h : Lexeme (c :: more) kind literal) (tail : List Char) :
    (first c (more ++ tail)).1.Readable ∧ (c :: more).length ≤ (first c (more ++ tail)).1.text.length := by
  generalize htext : c :: more = text at h
  cases h with
  | operator h =>
    have hlead := operatorLexemes_lead _ h
    have hshort := operatorLexemes_short _ h
    rw [← htext] at hlead hshort ⊢
    refine ⟨first_readable (by simpa using hlead) _, ?_⟩
    -- an operator of two characters is the longer of its two readings, one of a single character cannot be cut
    rcases hshort with hone | htwo
    · rw [hone]
      exact List.length_pos_iff.2 (first_text_ne_nil _ _)
    · simp only [List.mem_cons, List.cons.injEq, List.not_mem_nil, or_false] at htwo
      rcases htwo with ⟨rfl, rfl⟩ | ⟨rfl, rfl⟩ | ⟨rfl, rfl⟩ | ⟨rfl, rfl⟩ <;> exact Nat.le_refl 2
  | whole hne h =>
    subst htext
    obtain ⟨hc, hmore⟩ := List.forall_mem_cons.1 h
    rw [first_digits hc hmore]
    obtain ⟨literal, rest, hnumeral⟩ :=
      numeral_text (c :: (more ++ tail.takeWhile Char.isDigit)) (tail.dropWhile Char.isDigit)
    rw [hnumeral]
    refine ⟨.inr ⟨_, _, rfl⟩, ?_⟩
    simp only [List.length_cons, List.length_append]
    omega
  | @fraction digits fraction hne h hne' h' =>
    obtain ⟨f, fraction, rfl⟩ := List.exists_cons_of_ne_nil hne'
    obtain ⟨d, digits, rfl⟩ := List.exists_cons_of_ne_nil hne
    obtain ⟨rfl, rfl⟩ := List.cons.inj htext
    obtain ⟨hc, hdigits⟩ := List.forall_mem_cons.1 h
    obtain ⟨hf, hfraction⟩ := List.forall_mem_cons.1 h'
    simp only [List.append_eq, List.append_assoc, List.cons_append]
    rw [first_fraction hc hdigits hf hfraction]
    refine ⟨.inr ⟨_, _, rfl⟩, ?_⟩
    simp only [List.length_cons, List.length_append]
    omega
  | string h =>
    obtain ⟨rfl, rfl⟩ := List.cons.inj htext
    rw [List.append_assoc, List.singleton_append, first_string h]
    exact ⟨.inr ⟨_, _, rfl⟩, Nat.le_refl _⟩
  | reserved h =>
    rw [← htext]
    obtain ⟨hc, hmore, -⟩ := letters_of_reserved h htext.symm
    exact le_first_word hc hmore tail
  | name hc h hfree =>
    obtain ⟨rfl, rfl⟩ := List.cons.inj htext
    exact le_first_word hc h tail

/-! ### Every token is a lexeme -/

/-- The lexemes of the marks that a character can start. -/
private def Lead.lexemes (c : Char) : Lead → List (List Char × TokenKind)
  | .mark kind => [([c], kind)]
  | .markOrEqual alone followed => [([c], alone), ([c, '='], followed)]
  | .slash => [([c], .slash)]
  | _ => []

private theorem Lead.lexemes_subset (c : Char) : ∀ entry ∈ (Lead.of c).lexemes c, entry ∈ operatorLexemes := by
  have hmarks : ∀ entry ∈ marks, ∀ lexeme ∈ entry.2.lexemes entry.1, lexeme ∈ operatorLexemes := by decide
  by_cases hlead : Lead.of c ∈ [.blank, .digit, .letter, .nothing]
  · simp only [List.mem_cons, List.not_mem_nil, or_false] at hlead
    rcases hlead with h | h | h | h <;> simp [h, lexemes]
  · exact hmarks _ (Lead.mem_marks hlead)

private theorem Lead.eq_quote {c : Char} (h : Lead.of c = .quote) : c = '"' := by
  have hmarks : ∀ entry ∈ marks, entry.2 = .quote → entry.1 = '"' := by decide
  exact hmarks _ (Lead.mem_marks (by simp [h])) h

private theorem Lead.eq_slash {c : Char} (h : Lead.of c = .slash) : c = '/' := by
  have hmarks : ∀ entry ∈ marks, entry.2 = .slash → entry.1 = '/' := by decide
  exact hmarks _ (Lead.mem_marks (by simp [h])) h

private theorem Lead.marks_classes : ∀ entry ∈ marks, entry.2 ∉ [.blank, .digit, .letter] := by decide

private theorem Lead.of_class {c : Char} (h : Lead.of c ∈ [.blank, .digit, .letter]) :
    (Lead.of c = .blank ∧ isBlank c = true) ∨ (Lead.of c = .digit ∧ c.isDigit = true) ∨
      (Lead.of c = .letter ∧ isNameStart c = true) := by
  by_cases hblank : isBlank c = true
  · exact .inl ⟨Lead.of_blank (isBlank_iff.1 hblank), hblank⟩
  by_cases hdigit : c.isDigit = true
  · exact .inr (.inl ⟨Lead.of_digit hdigit, hdigit⟩)
  by_cases hletter : isNameStart c = true
  · exact .inr (.inr ⟨Lead.of_letter hletter, hletter⟩)
  rw [Lead.of, if_neg hblank, if_neg hdigit, if_neg hletter] at h
  cases hmark : marks.lookup c with
  | none => simp [hmark] at h
  | some lead =>
    rw [hmark, Option.getD_some] at h
    exact absurd h (Lead.marks_classes _ (mem_of_lookup hmark))

private theorem numeral_lexeme {whole : List Char} (hne : whole ≠ []) (h : ∀ d ∈ whole, d.isDigit = true)
    (cs : List Char) {kind : TokenKind} {literal : Value} :
    (numeral whole cs).1.piece = .token kind literal → Lexeme (numeral whole cs).1.text kind literal := by
  unfold numeral
  split
  · next d after =>
    split
    · next hd =>
      rintro ⟨⟩
      refine .fraction hne h (by simp) ?_
      exact List.forall_mem_cons.2 ⟨hd, List.all_eq_true.1 List.all_takeWhile⟩
    · rintro ⟨⟩
      exact .whole hne h
  · rintro ⟨⟩
    exact .whole hne h

private theorem quoted_lexeme (cs : List Char) {kind : TokenKind} {literal : Value} :
    (quoted '"' cs).1.piece = .token kind literal → Lexeme (quoted '"' cs).1.text kind literal := by
  unfold quoted
  dsimp only
  split
  · next close rest hrest =>
    have hclose := List.head?_dropWhile_not (· ≠ '"') cs
    rw [hrest] at hclose
    obtain rfl : close = '"' := by simpa using hclose
    rintro ⟨⟩
    exact .string (not_mem_takeWhile_ne '"' cs)
  · simp

private theorem word_lexeme {c : Char} {letters : List Char} (hc : isNameStart c = true)
    (h : ∀ d ∈ letters, isNamePart d = true) {kind : TokenKind} {literal : Value} :
    (word (c :: letters)).piece = .token kind literal → Lexeme (word (c :: letters)).text kind literal := by
  unfold word
  rintro ⟨⟩
  cases hword : TokenKind.reserved? (String.ofList (c :: letters)) with
  | none =>
    refine .name hc h fun hmem => ?_
    obtain ⟨entry, hentry, heq⟩ := List.mem_map.1 hmem
    have hne := List.lookup_eq_none_iff.1 hword entry hentry
    simp [heq] at hne
  | some kind =>
    have hreserved := Lexeme.reserved (mem_of_lookup hword)
    rwa [String.toList_ofList] at hreserved

/-- Whatever is scanned as a token is the lexeme of this token. -/
private theorem lexeme_of_first {c : Char} {cs : List Char} {kind : TokenKind} {literal : Value} :
    (first c cs).1.piece = .token kind literal → Lexeme (first c cs).1.text kind literal := by
  have hoperators := Lead.lexemes_subset c
  unfold first
  cases hlead : Lead.of c with
  | mark kind' =>
    rintro ⟨⟩
    exact .operator (hoperators _ (by simp [hlead, Lead.lexemes]))
  | markOrEqual alone followed =>
    dsimp only
    split
    · rintro ⟨⟩
      exact .operator (hoperators _ (by simp [hlead, Lead.lexemes]))
    · rintro ⟨⟩
      exact .operator (hoperators _ (by simp [hlead, Lead.lexemes]))
  | slash =>
    dsimp only
    split
    · simp
    · rintro ⟨⟩
      exact .operator (hoperators _ (by simp [hlead, Lead.lexemes]))
  | blank | nothing => simp
  | quote =>
    obtain rfl := Lead.eq_quote hlead
    exact quoted_lexeme cs
  | digit =>
    have hc : c.isDigit = true := by simpa [hlead] using Lead.of_class (c := c) (by simp [hlead])
    refine numeral_lexeme (by simp) (List.forall_mem_cons.2 ⟨hc, ?_⟩) _
    exact List.all_eq_true.1 List.all_takeWhile
  | letter =>
    have hc : isNameStart c = true := by simpa [hlead] using Lead.of_class (c := c) (by simp [hlead])
    exact word_lexeme hc (List.all_eq_true.1 List.all_takeWhile)

/-! ### The segments that are found fit -/

private theorem fits_of_token {c : Char} {cs : List Char} {kind : TokenKind} {literal : Value}
    (h : (first c cs).1.piece = .token kind literal) : Fits (first c cs).1 (first c cs).2 := by
  have happend := first_text_append c cs
  have hlexeme := lexeme_of_first h
  have hlongest : ∀ other kind literal, Lexeme other kind literal → other <+: c :: cs →
      other.length ≤ (first c cs).1.text.length := by
    rintro other kind literal hother ⟨tail, htail⟩
    obtain ⟨d, more, rfl⟩ := List.exists_cons_of_ne_nil hother.ne_nil
    obtain ⟨rfl, rfl⟩ := List.cons.inj htail
    exact (hother.le_first tail).2
  have hcomment : ¬['/', '/'] <+: c :: cs := by
    rintro ⟨tail, htail⟩
    obtain ⟨rfl, rfl⟩ := List.cons.inj htail
    have hpiece : (first '/' ('/' :: tail)).1.piece = .comment := by rw [first_comment]
    rw [show ['/'].append tail = '/' :: tail from rfl, hpiece] at h
    cases h
  rw [← happend] at hlongest hcomment
  rcases hfirst : first c cs with ⟨⟨piece, text⟩, rest⟩
  rw [hfirst] at h hlexeme hlongest hcomment
  obtain rfl : piece = .token kind literal := h
  exact .token hlexeme hlongest hcomment

private theorem fits_of_not_token {c : Char} {cs : List Char} :
    (∀ kind literal, (first c cs).1.piece ≠ .token kind literal) → Fits (first c cs).1 (first c cs).2 := by
  unfold first
  cases hlead : Lead.of c with
  | mark kind => exact fun h => absurd rfl (h kind .nil)
  | markOrEqual alone followed =>
    dsimp only
    split
    · exact fun h => absurd rfl (h followed .nil)
    · exact fun h => absurd rfl (h alone .nil)
  | slash =>
    dsimp only
    split
    · next rest =>
      intro _
      obtain rfl := Lead.eq_slash hlead
      refine .comment (not_mem_takeWhile_ne '\n' rest) ?_
      have hend := List.head?_dropWhile_not (· ≠ '\n') rest
      cases hrest : rest.dropWhile (· ≠ '\n') with
      | nil => exact .inl rfl
      | cons d more =>
        rw [hrest] at hend
        exact .inr ⟨more, by simpa using hend⟩
    · exact fun h => absurd rfl (h .slash .nil)
  | blank =>
    intro _
    have hblank : isBlank c = true := by simpa [hlead] using Lead.of_class (c := c) (by simp [hlead])
    exact .blank (isBlank_iff.1 hblank)
  | quote =>
    obtain rfl := Lead.eq_quote hlead
    simp only [quoted]
    split
    · exact fun h => absurd rfl (h _ _)
    · next hrest =>
      intro _
      have hnone := not_mem_takeWhile_ne '"' cs
      have hall := List.takeWhile_append_dropWhile (p := (· ≠ '"')) (l := cs)
      rw [hrest, List.append_nil] at hall
      rw [hall] at hnone
      exact .unterminated hnone
  | digit =>
    obtain ⟨literal, more, hnumeral⟩ := numeral_text (c :: cs.takeWhile Char.isDigit) (cs.dropWhile Char.isDigit)
    exact fun h => absurd (congrArg Segment.piece hnumeral) (h .number literal)
  | letter => exact fun h => absurd rfl (h _ _)
  | nothing =>
    intro _
    refine .stray (fun hblank => ?_) fun more kind literal hlexeme => ?_
    · rw [Lead.of_blank hblank] at hlead
      cases hlead
    · -- a lexeme that starts here would have been scanned
      have hreadable := (hlexeme.le_first []).1
      unfold Segment.Readable first at hreadable
      simp [hlead] at hreadable

/-- The first segment of a text fits in front of the rest. -/
theorem first_fits (c : Char) (cs : List Char) : Fits (first c cs).1 (first c cs).2 := by
  cases hpiece : (first c cs).1.piece with
  | token kind literal => exact fits_of_token hpiece
  | _ => exact fits_of_not_token fun kind literal h => by simp [hpiece] at h

/-! ### No other segments fit -/

theorem Fits.text_ne_nil {s : Segment} {rest : List Char} (h : Fits s rest) : s.text ≠ [] := by
  cases h with
  | token h => exact h.ne_nil
  | _ => simp

private theorem first_eq_of_token {c : Char} {more rest : List Char} {kind : TokenKind} {literal : Value}
    (h : Lexeme (c :: more) kind literal)
    (hlongest : ∀ other kind literal, Lexeme other kind literal → other <+: c :: more ++ rest →
      other.length ≤ (c :: more).length)
    (hcomment : ¬['/', '/'] <+: c :: more ++ rest) :
    first c (more ++ rest) = (⟨.token kind literal, c :: more⟩, rest) := by
  obtain ⟨hreadable, hle⟩ := h.le_first rest
  have happend := first_text_append c (more ++ rest)
  have hfits := first_fits c (more ++ rest)
  have hfound : ∀ kind literal, (first c (more ++ rest)).1.piece = .token kind literal →
      Lexeme (first c (more ++ rest)).1.text kind literal := fun _ _ => lexeme_of_first
  rcases hfirst : first c (more ++ rest) with ⟨⟨piece, text⟩, rest'⟩
  rw [hfirst] at hreadable hle happend hfits hfound
  rcases hreadable with hpiece | ⟨kind', literal', hpiece⟩
  · obtain rfl : piece = .comment := hpiece
    cases hfits with
    | @comment body => exact absurd ⟨body ++ rest', happend⟩ hcomment
  · obtain rfl : piece = .token kind' literal' := hpiece
    have hlexeme : Lexeme text kind' literal' := hfound kind' literal' rfl
    have hge := hlongest text kind' literal' hlexeme ⟨rest', happend⟩
    have heq : text ++ rest' = c :: more ++ rest := happend
    -- both are lexemes at the same place and none is longer than the other
    obtain ⟨rfl, rfl⟩ := List.append_inj heq (Nat.le_antisymm hge hle)
    obtain ⟨rfl, rfl⟩ := hlexeme.unique h
    rfl

private theorem first_eq_of_stray {c : Char} {rest : List Char} (hblank : c ∉ [' ', '\t', '\r', '\n'])
    (h : ∀ more kind literal, ¬Lexeme (c :: more) kind literal) : first c rest = (⟨.stray, [c]⟩, rest) := by
  have happend := first_text_append c rest
  have hfits := first_fits c rest
  rcases hfirst : first c rest with ⟨⟨piece, text⟩, rest'⟩
  rw [hfirst] at happend hfits
  cases hfits with
  | token hlexeme =>
    obtain ⟨d, more, rfl⟩ := List.exists_cons_of_ne_nil hlexeme.ne_nil
    obtain ⟨rfl, -⟩ := List.cons.inj happend
    exact absurd hlexeme (h _ _ _)
  | blank hc =>
    obtain ⟨rfl, -⟩ := List.cons.inj happend
    exact absurd hc hblank
  | comment =>
    obtain ⟨rfl, -⟩ := List.cons.inj happend
    exact absurd (.operator (by decide)) (h [] .slash .nil)
  | stray =>
    obtain ⟨rfl, rfl⟩ := List.cons.inj happend
    rfl
  | unterminated =>
    obtain ⟨rfl, -⟩ := List.cons.inj happend
    exact absurd (Lexeme.string (List.not_mem_nil)) (h ['"'] .string _)

/-- A segment that fits is the first one of its text. -/
theorem Fits.first_eq {s : Segment} {rest : List Char} (h : Fits s rest) {c : Char} {more : List Char}
    (htext : s.text = c :: more) : first c (more ++ rest) = (s, rest) := by
  cases h with
  | token h hlongest hcomment =>
    dsimp only at htext
    subst htext
    exact first_eq_of_token h hlongest hcomment
  | blank h =>
    obtain ⟨rfl, rfl⟩ := List.cons.inj htext
    unfold first
    rw [Lead.of_blank h]
    rfl
  | @comment body rest h hrest =>
    obtain ⟨rfl, rfl⟩ := List.cons.inj htext
    have hbody := ne_of_not_mem h
    rw [List.cons_append, first_comment, List.takeWhile_append_of_pos hbody, List.dropWhile_append_of_pos hbody]
    rcases hrest with rfl | ⟨more, rfl⟩ <;> simp
  | @stray c rest hblank h =>
    obtain ⟨rfl, rfl⟩ := List.cons.inj htext
    exact first_eq_of_stray hblank h
  | @unterminated body h =>
    obtain ⟨rfl, rfl⟩ := List.cons.inj htext
    have hbody := ne_of_not_mem h
    have hrest : (body ++ []).dropWhile (· ≠ '"') = [] := by rw [List.dropWhile_append_of_pos hbody, List.dropWhile_nil]
    show quoted '"' (body ++ []) = _
    rw [quoted, hrest, List.append_nil]

theorem Segmentation.eq_split {text : List Char} {segments : List Segment} (h : Segmentation text segments) :
    segments = split text := by
  induction h with
  | nil => rw [split]
  | @cons s rest later h _ ih =>
    obtain ⟨c, more, htext⟩ := List.exists_cons_of_ne_nil h.text_ne_nil
    rw [htext, List.cons_append, split, h.first_eq htext, ih]

theorem segmentation_split (text : List Char) : Segmentation text (split text) := by
  fun_induction split text with
  | case1 => exact .nil
  | case2 c cs ih =>
    have hcons := Segmentation.cons (first_fits c cs) ih
    rwa [first_text_append] at hcons

/-! ### The tokens and errors of the segments -/

theorem Scanned.ofSegments_tokens_map (line : Int) (segments : List Segment) :
    (ofSegments line segments).tokens.map (fun t => (t.kind, t.lexeme, t.literal)) =
      segments.filterMap Segment.token? ++ [(.eof, "", .nil)] := by
  induction segments generalizing line with
  | nil => rfl
  | cons s later ih =>
    obtain ⟨piece, text⟩ := s
    have hlater := ih (line + (Segment.lineEnds ⟨piece, text⟩ : Nat))
    rw [List.filterMap_cons]
    cases piece <;> simp [ofSegments, Segment.token?, hlater]

theorem Scanned.ofSegments_errors_map (line : Int) (segments : List Segment) :
    (ofSegments line segments).errors.map (fun e => e.problem.message) = segments.filterMap Segment.complaint? := by
  induction segments generalizing line with
  | nil => rfl
  | cons s later ih =>
    obtain ⟨piece, text⟩ := s
    have hlater := ih (line + (Segment.lineEnds ⟨piece, text⟩ : Nat))
    rw [List.filterMap_cons, ← hlater]
    cases piece <;> rfl

theorem Segmentation.lexeme {text : List Char} {segments : List Segment} (h : Segmentation text segments)
    {kind : TokenKind} {lexeme : String} {literal : Value}
    (hmem : (kind, lexeme, literal) ∈ segments.filterMap Segment.token?) : Lexeme lexeme.toList kind literal := by
  induction h with
  | nil => cases hmem
  | @cons s rest later h _ ih =>
    obtain ⟨s', hs', htoken⟩ := List.mem_filterMap.1 hmem
    rcases List.mem_cons.1 hs' with rfl | hs'
    · cases h with
      | token h =>
        cases htoken
        rwa [String.toList_ofList]
      | _ => cases htoken
    · exact ih (List.mem_filterMap.2 ⟨s', hs', htoken⟩)

/-- The kind of a reserved word belongs to no other lexeme. -/
private theorem Lexeme.reserved_iff {word : String} {kind : TokenKind} {literal : Value}
    (h : Lexeme word.toList kind literal) :
    kind ∈ TokenKind.reservedWords.map Prod.snd ↔ word ∈ TokenKind.reservedWords.map Prod.fst := by
  constructor
  · intro hkind
    generalize htext : word.toList = text at h
    cases h with
    | operator h =>
      have hfree : ∀ entry ∈ operatorLexemes, entry.2 ∉ TokenKind.reservedWords.map Prod.snd := by decide
      exact absurd hkind (hfree _ h)
    | whole | fraction | string | name => exact absurd hkind (by decide)
    | reserved h =>
      obtain rfl := String.toList_inj.1 htext
      exact List.mem_map.2 ⟨_, h, rfl⟩
  · intro hword
    obtain ⟨⟨word', kind'⟩, hentry, rfl⟩ := List.mem_map.1 hword
    obtain ⟨rfl, -⟩ := h.unique (.reserved hentry)
    exact List.mem_map.2 ⟨_, hentry, rfl⟩

/-- A source text is cut in one way into segments that follow the rule of the longest match, and nothing of it is
lost.  The tokens are those segments that are lexemes, in their order, with one end mark behind them; each of them has
the kind and the value that its lexeme determines.  Stray characters and strings that are never closed are reported
once each, in their order, and nothing else is. -/
theorem scan_exact (source : String) : ∃ segments,
    Segmentation source.toList segments ∧ (∀ other, Segmentation source.toList other → other = segments) ∧
      segments.flatMap Segment.text = source.toList ∧
      (scan source).tokens.map (fun t => (t.kind, t.lexeme, t.literal)) =
        segments.filterMap Segment.token? ++ [(.eof, "", .nil)] ∧
      (scan source).errors.map (fun e => e.problem.message) = segments.filterMap Segment.complaint? ∧
      ∀ t ∈ (scan source).tokens, t.kind ≠ .eof →
        Lexeme t.lexeme.toList t.kind t.literal ∧
          (∀ kind literal, Lexeme t.lexeme.toList kind literal → kind = t.kind ∧ literal = t.literal) ∧
          (t.kind ∈ TokenKind.reservedWords.map Prod.snd ↔ t.lexeme ∈ TokenKind.reservedWords.map Prod.fst) := by
  have hsegments := segmentation_split source.toList
  have htokens := Scanned.ofSegments_tokens_map 1 (split source.toList)
  refine ⟨split source.toList, hsegments, fun _ h => h.eq_split, flatMap_text_split _, htokens,
    Scanned.ofSegments_errors_map 1 _, fun t ht hkind => ?_⟩
  have hmem : (t.kind, t.lexeme, t.literal) ∈ (split source.toList).filterMap Segment.token? := by
    have hall := List.mem_map_of_mem (f := fun t : Token => (t.kind, t.lexeme, t.literal)) ht
    rw [scan, htokens] at hall
    simpa [hkind] using hall
  have hlexeme := hsegments.lexeme hmem
  exact ⟨hlexeme, fun _ _ h => h.unique hlexeme, hlexeme.reserved_iff⟩

end Treewalk
