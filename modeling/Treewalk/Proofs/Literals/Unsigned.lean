import Treewalk.Proofs.Literals

/-!
# Numerals have no sign

The value of a numeral is not negative, and it is not the negative zero either: rounding keeps the sign, and so does
packing the result into a double.  So its text has no minus sign in front, and is a numeral again.

* `Decimal.lexeme_numberText`: the text of the value of a numeral is a lexeme for this value.
-/

namespace Treewalk

open Float.Model Float.Model.UnpackedFloat

/-! ### Signs -/

/-- The number has no minus sign, if it is a number. -/
private inductive Unsigned : UnpackedFloat → Prop where
  | notANumber : Unsigned .notANumber
  | infinity : Unsigned (.infinity .positive)
  | zero : Unsigned (.zero .positive)
  | finite (m : Nat) (e : Int) (hm : 0 < m) : Unsigned (.finite .positive m e hm)

private theorem unsigned_round (m : Nat) (e : Int) (accuracy : Accuracy) :
    Unsigned (roundWithAccuracy Format.binary64 .positive m e accuracy) := by
  simp only [roundWithAccuracy]
  split
  · exact .zero
  · exact .finite _ _ _

private theorem unsigned_ofScientific (m : Nat) (e : Int) :
    Unsigned (UnpackedFloat.ofScientific Format.binary64 m e) := by
  unfold UnpackedFloat.ofScientific
  split
  · exact .zero
  split
  · exact .infinity
  split
  · exact .zero
  split
  · simp only [UnpackedFloat.mul]
    exact unsigned_round _ _ _
  · simp only [UnpackedFloat.div]
    exact unsigned_round _ _ _

/-- The sign has a place of its own. -/
private theorem pack_of_unsigned {u : UnpackedFloat} (h : Unsigned u) : ∃ exponent mantissa,
    UnpackedFloat.pack Format.binary64 u = packComponents Format.binary64 .positive exponent mantissa := by
  cases h with
  | notANumber | infinity | zero => exact ⟨_, _, rfl⟩
  | finite m e hm =>
    unfold UnpackedFloat.pack
    dsimp only
    split
    · exact ⟨_, _, rfl⟩
    split
    · exact ⟨_, _, rfl⟩
    · exact ⟨_, _, rfl⟩

private theorem unsigned_unpack (exponent : BitVec 11) (mantissa : BitVec 52) :
    Unsigned (UnpackedFloat.unpack Format.binary64 (packComponents Format.binary64 .positive exponent mantissa)) := by
  unfold UnpackedFloat.unpack
  simp only [unpackSign_packComponents, Sign.ofBitVec_toBitVec]
  split
  · split
    · exact .infinity
    · exact .notANumber
  split
  · split
    · exact .zero
    · exact .finite _ _ _
  · exact .finite _ _ _

private theorem unsigned_toFloat (d : Decimal) : Unsigned d.toFloat.toModel.unpack := by
  obtain ⟨exponent, mantissa, hpack⟩ := pack_of_unsigned (unsigned_ofScientific d.coefficient (-(d.places : Int)))
  show Unsigned (UnpackedFloat.unpack Format.binary64 (UnpackedFloat.pack Format.binary64 _))
  rw [hpack]
  exact unsigned_unpack exponent mantissa

/-! ### Texts -/

private theorem Lexeme.number_ne_minus {text : List Char} {literal : Value} (h : Lexeme text .number literal)
    (more : List Char) : text ≠ '-' :: more := by
  obtain ⟨whole, fraction, hne, hdigits, rfl⟩ := h.isNumeral
  obtain ⟨d, digits, rfl⟩ := List.exists_cons_of_ne_nil hne
  have hd : d.isDigit = true := hdigits d (by simp)
  intro hminus
  obtain rfl : d = '-' := (List.cons.inj hminus).1
  exact absurd hd (by decide)

/-- The text of the value of a numeral is a lexeme for this value. -/
theorem Decimal.lexeme_numberText {d : Decimal} (h : d.toFloat.isFinite = true) :
    Lexeme (numberText d.toFloat).toList .number (.num d.toFloat) := by
  obtain ⟨shown, y, hshown, ⟨htext, hvalue⟩ | ⟨htext, -⟩⟩ := numberText_of_isFinite h
  · rw [htext, hvalue]
    exact hshown.lexeme
  · have hminus : (numberText d.toFloat).toList = '-' :: shown.text.toList := by
      rw [htext, String.toList_append]
      rfl
    have hunsigned := unsigned_toFloat d
    unfold numberText at hminus
    -- there is no mark in front of the text
    generalize d.toFloat.toModel.unpack = u at hunsigned hminus
    cases hunsigned with
    | notANumber | infinity | zero => simp [signMark] at hminus
    | finite m e hm =>
      simp only [signMark, String.empty_append] at hminus
      exact absurd hminus ((Decimal.shortest d.toFloat.abs).lexeme_text.number_ne_minus _)

end Treewalk
