import Treewalk.Proofs.Decimal.Fewest

/-!
# What a value shows

The line that a `print` statement prints is the text of a value.  The three words stand for themselves, and a string
for what is in it.  The doubles that are no finite numbers have names.  A finite number is shown as the shortest decimal
that reads back, without an exponent, and without a point if the number is whole (`dot_not_mem_numberText`); a minus
sign may stand in front of it.

* `Shows`: what the text of a value has to be.
* `Value.shows_text`: the text of a value is so.
-/

namespace Treewalk

open Float.Model Float.Model.UnpackedFloat

/-- The text shows the value. -/
inductive Shows : Value → String → Prop where
  | nil : Shows .nil "nil"
  | true_ : Shows (.bool true) "true"
  | false_ : Shows (.bool false) "false"
  | str (s : String) : Shows (.str s) s
  | notANumber {x : Float} (h : x.isNaN = true) : Shows (.num x) "NaN"
  | infinity {x : Float} (h : x.isInf = true) (hsign : 0 < x) : Shows (.num x) "Infinity"
  | negInfinity {x : Float} (h : x.isInf = true) (hsign : x < 0) : Shows (.num x) "-Infinity"
  /-- A decimal that reads back, with as few digits and as few decimal places as there can be. -/
  | decimal {x : Float} {d : Decimal} (hfinite : x.isFinite = true) (h : d.IsShortest x) : Shows (.num x) d.text
  /-- A minus sign in front of such a decimal for the opposite number. -/
  | negative {x y : Float} {d : Decimal} (hfinite : x.isFinite = true) (hx : x = -y) (h : d.IsShortest y) :
      Shows (.num x) ("-" ++ d.text)

private theorem shows_infinity {x : Float} {s : Sign} (h : x.toModel.unpack = .infinity s) :
    Shows (.num x) (signMark s ++ "Infinity") := by
  have hzero : (0 : Float).toModel.unpack = .zero .positive := rfl
  have hinf : x.isInf = true := by
    show x.toModel.unpack.isInf = true
    rw [h]
    rfl
  cases s with
  | positive =>
    refine .infinity hinf ?_
    show decide (UnpackedFloat.lt (0 : Float).toModel.unpack x.toModel.unpack = true) = true
    rw [h, hzero]
    rfl
  | negative =>
    refine .negInfinity hinf ?_
    show decide (UnpackedFloat.lt x.toModel.unpack (0 : Float).toModel.unpack = true) = true
    rw [h, hzero]
    rfl

/-- The text of a value shows it. -/
theorem Value.shows_text (v : Value) : Shows v v.text := by
  cases v with
  | nil => exact .nil
  | bool b =>
    cases b with
    | true => exact .true_
    | false => exact .false_
  | str s => exact .str s
  | num x =>
    by_cases hfinite : x.isFinite = true
    · obtain ⟨d, y, hd, ⟨htext, rfl⟩ | ⟨htext, hx⟩⟩ := numberText_of_isFinite hfinite
      · rw [text, htext]
        exact .decimal hfinite hd
      · rw [text, htext]
        exact .negative hfinite hx hd
    · have hnot : x.toModel.unpack.isFinite ≠ true := hfinite
      cases hunpack : x.toModel.unpack with
      | notANumber =>
        have hnan : x.isNaN = true := by
          show x.toModel.unpack.isNaN = true
          rw [hunpack]
          rfl
        rw [text, numberText, hunpack]
        exact .notANumber hnan
      | infinity s =>
        rw [text, numberText, hunpack]
        exact shows_infinity hunpack
      | zero | finite => exact absurd (by rw [hunpack]; rfl) hnot

end Treewalk
