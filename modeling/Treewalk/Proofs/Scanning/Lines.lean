import Treewalk.Proofs.Lexeme.Exact

/-!
# Line numbers

The line of a token or an error is found by counting the line ends in front of a place in the source text.  For a token
this is the place where it ends, so that a string over several lines has the line of its closing quote; for a stray
character it is the place of the character; for a string that is never closed, and for the end mark, it is the end of
the text.

* `Segment.placed`: the segments of a text with the places where they start.
* `Fits.lineEnds_eq`: the scanner counts line ends only in blanks and strings, and there are no others.
* `Scanned.ofSegments_placed`: the line of the scanner keeps pace with the place it has reached.
* `scan_lines`: the tokens and errors of a source text with their lines.
-/

namespace Treewalk

/-- The line of a place in a text: one more than the line ends in front of it. -/
def lineAt (text : List Char) (place : Nat) : Int := 1 + (text.take place).count '\n'

private theorem lineAt_length_append (before rest : List Char) :
    lineAt (before ++ rest) before.length = 1 + before.count '\n' := by
  rw [lineAt, List.take_left]

private theorem lineAt_length (text : List Char) : lineAt text text.length = 1 + text.count '\n' := by
  rw [lineAt, List.take_length]

namespace Segment

/-- The segments with the places where they start, the first of them at `start`. -/
def placed (start : Nat) : List Segment → List (Nat × Segment)
  | [] => []
  | s :: later => (start, s) :: placed (start + s.text.length) later

/-- The token at a place of the text, with the line of the place where it ends. -/
def tokenAt? (text : List Char) : Nat × Segment → Option Token
  | (start, ⟨.token kind literal, lexeme⟩) =>
    some ⟨kind, String.ofList lexeme, literal, lineAt text (start + lexeme.length)⟩
  | _ => none

/-- The error at a place of the text.  A stray character has the line of its place, and a string that is never closed
has the line on which the text ends. -/
def errorAt? (text : List Char) : Nat × Segment → Option LexicalError
  | (start, ⟨.stray, _⟩) => some ⟨lineAt text start, .unexpectedCharacter⟩
  | (_, ⟨.unterminated, _⟩) => some ⟨lineAt text text.length, .unterminatedString⟩
  | _ => none

end Segment

open Segment

/-- Each segment stands at its place. -/
private theorem Segmentation.prefix_drop {rest : List Char} {segments : List Segment} (h : Segmentation rest segments)
    (before : List Char) :
    ∀ p ∈ placed before.length segments, p.2.text <+: (before ++ rest).drop p.1 := by
  induction h generalizing before with
  | nil => simp [placed]
  | @cons s rest later _ _ ih =>
    have hlater := ih (before ++ s.text)
    rw [List.length_append, List.append_assoc] at hlater
    refine List.forall_mem_cons.2 ⟨?_, hlater⟩
    rw [List.drop_left]
    exact List.prefix_append s.text rest

/-- All the line ends of a segment that fits are counted. -/
theorem Fits.lineEnds_eq {s : Segment} {rest : List Char} (h : Fits s rest) : s.lineEnds = s.text.count '\n' := by
  obtain ⟨c, more, htext⟩ := List.exists_cons_of_ne_nil h.text_ne_nil
  have hfirst := lineEnds_first c (more ++ rest)
  rwa [h.first_eq htext] at hfirst

/-- With the text `before` behind it, the scanner is on the line of the place that it has reached, and the lines of all
that follows are those of its places. -/
theorem Scanned.ofSegments_placed {rest : List Char} {segments : List Segment} (h : Segmentation rest segments)
    (before : List Char) :
    let text := before ++ rest
    ofSegments (1 + before.count '\n') segments =
      ⟨(placed before.length segments).filterMap (tokenAt? text) ++ [Token.endMark (1 + text.count '\n')],
        (placed before.length segments).filterMap (errorAt? text)⟩ := by
  induction h generalizing before with
  | nil => simp [ofSegments, placed]
  | @cons s rest later h _ ih =>
    have hlater := ih (before ++ s.text)
    have hline : (1 : Int) + (before.count '\n' : Nat) + (s.lineEnds : Nat) =
        1 + ((before ++ s.text).count '\n' : Nat) := by
      rw [h.lineEnds_eq, List.count_append]
      omega
    have hplace := lineAt_length_append (before ++ s.text) rest
    rw [List.length_append, List.append_assoc] at hlater hplace
    cases h with
    | token => simp only [ofSegments, hline, hlater, placed, tokenAt?, errorAt?, List.filterMap_cons, hplace]; rfl
    | blank | comment => simp only [ofSegments, hline, hlater, placed, tokenAt?, errorAt?, List.filterMap_cons]
    | @stray c _ hblank =>
      -- the character itself is no line end
      have hnone : (before ++ [c]).count '\n' = before.count '\n' := by
        rw [List.count_append, Nat.add_eq_left, List.count_eq_zero]
        intro hmem
        rw [← List.mem_singleton.1 hmem] at hblank
        exact hblank (by decide)
      have hstart : lineAt (before ++ ([c] ++ rest)) before.length = 1 + ((before ++ [c]).count '\n' : Nat) := by
        rw [lineAt_length_append, hnone]
      simp only [ofSegments, hline, hlater, placed, tokenAt?, errorAt?, List.filterMap_cons, hstart]
    | unterminated =>
      -- there is nothing behind the string
      simp only [ofSegments, hline, hlater, placed, tokenAt?, errorAt?, List.filterMap_cons, lineAt_length,
        List.append_nil]

/-- Line numbers are exact.  Let the source text be cut into its segments, each at its place in the text.  Then every
token has the line of the place where its lexeme ends, counted by the line ends in front of that place, and the end mark
has the last line.  A stray character is reported on the line of its place, and a string that is never closed on the
last line. -/
theorem scan_lines (source : String) : ∃ segments,
    Segmentation source.toList segments ∧
      (∀ p ∈ placed 0 segments, p.2.text <+: source.toList.drop p.1) ∧
      (scan source).tokens = (placed 0 segments).filterMap (tokenAt? source.toList) ++
        [Token.endMark (1 + source.toList.count '\n')] ∧
      (scan source).errors = (placed 0 segments).filterMap (errorAt? source.toList) := by
  have hsegments := segmentation_split source.toList
  have hscan := Scanned.ofSegments_placed hsegments []
  refine ⟨_, hsegments, hsegments.prefix_drop [], ?_, ?_⟩
  · exact congrArg Scanned.tokens hscan
  · exact congrArg Scanned.errors hscan

-- the string and the stray character behind it are on the third line, where the string is closed
example : (scan "a\n\"b\nc\" @").tokens.map (·.line) = [1, 3, 3] ∧
    (scan "a\n\"b\nc\" @").errors.map (·.line) = [3] := by decide +kernel

end Treewalk
