import Treewalk.Proofs.Decimal.Value

/-!
# Decimals that read back

The shortest decimal of a double reads back as this double, and so does the text of any decimal as this decimal.

The search for the shortest decimal only ever gives one that reads back, but it may find none.  Then the exact
expansion of the double is taken, which has the value of the double and so reads back too.

* `Decimal.toFloat_of_value`: a decimal with the value of a double reads back.
* `Decimal.toFloat_shortest`: the shortest decimal of a double reads back.
* `Decimal.ofDigits_wholeDigits`: the text of a decimal denotes it.
-/

namespace Treewalk

open Float.Model Float.Model.UnpackedFloat

/-- A power with any exponent as a quotient of two with natural exponents. -/
theorem zpow_eq_div {a : ℚ} (ha : a ≠ 0) (e : ℤ) : a ^ e = a ^ e.toNat / a ^ (-e).toNat := by
  rw [← zpow_natCast, ← zpow_natCast, ← zpow_sub₀ ha]
  congr 1
  omega

namespace Decimal

/-- A decimal with the value of a positive double reads back. -/
theorem toFloat_of_value {x : Float} {m : Nat} {e : Int} {hm : 0 < m}
    (h : x.toModel.unpack = .finite .positive m e hm) {d : Decimal} (hd : d.value = m * 2 ^ e) : d.toFloat = x := by
  rw [toFloat_eq_iff h, hd]
  exact (canonical_of_unpack h).rounds

private theorem value_exact (m : Nat) (e : Int) : (exact m e).value = m * 2 ^ e := by
  have hten : (10 : ℚ) ^ (-e).toNat = 5 ^ (-e).toNat * 2 ^ (-e).toNat := by
    rw [← mul_pow]
    norm_num
  rw [zpow_eq_div two_ne_zero]
  simp only [value, exact, Nat.pow_eq]
  push_cast
  rw [hten]
  field_simp

/-- The shortest decimal of a positive double reads back. -/
theorem toFloat_shortest {x : Float} {m : Nat} {e : Int} {hm : 0 < m}
    (h : x.toModel.unpack = .finite .positive m e hm) : (shortest x).toFloat = x := by
  unfold shortest
  rw [h]
  dsimp only
  -- what the search finds reads back by the test it has passed
  obtain hnone | ⟨d, hsome⟩ := Option.eq_none_or_eq_some ((List.range searchedGrids).findSome? _)
  · rw [hnone]
    exact toFloat_of_value h (value_exact m e)
  · rw [hsome]
    obtain ⟨steps, -, hfind⟩ := List.exists_of_findSome?_eq_some hsome
    simpa using List.find?_some hfind

/-! ### The text of a decimal -/

private theorem isDigit_of_mem_paddedDigits {d : Decimal} {c : Char} (h : c ∈ d.paddedDigits) : c.isDigit = true := by
  obtain hzero | hdigit := List.mem_append.1 h
  · rw [List.eq_of_mem_replicate hzero]
    rfl
  · exact Nat.isDigit_of_mem_toDigits (by decide) (Nat.le_refl 10) hdigit

theorem isDigit_of_mem_wholeDigits {d : Decimal} {c : Char} (h : c ∈ d.wholeDigits) : c.isDigit = true :=
  isDigit_of_mem_paddedDigits (List.mem_of_mem_take h)

theorem isDigit_of_mem_fractionDigits {d : Decimal} {c : Char} (h : c ∈ d.fractionDigits) : c.isDigit = true :=
  isDigit_of_mem_paddedDigits (List.mem_of_mem_drop h)

theorem wholeDigits_ne_nil (d : Decimal) : d.wholeDigits ≠ [] := by
  have hlength := congrArg List.length d.wholeDigits_append_fractionDigits
  have hpadded : d.places + 1 ≤ d.paddedDigits.length := by
    simp only [paddedDigits, List.length_append, List.length_replicate]
    omega
  rw [List.length_append, length_fractionDigits] at hlength
  intro hnil
  rw [hnil, List.length_nil] at hlength
  omega

/-- The digits before and behind the point denote the decimal they were made from. -/
theorem ofDigits_wholeDigits (d : Decimal) : ofDigits d.wholeDigits d.fractionDigits = d := by
  have hcoefficient : Nat.ofDigitChars 10 d.paddedDigits 0 = d.coefficient := by
    rw [paddedDigits, Nat.ofDigitChars_append, Nat.ofDigitChars_replicate_zero, Nat.mul_zero,
      Nat.ofDigitChars_ten_toDigits]
  rw [ofDigits, wholeDigits_append_fractionDigits, length_fractionDigits, hcoefficient]

end Decimal

end Treewalk
