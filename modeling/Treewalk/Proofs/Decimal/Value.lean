import Treewalk.Proofs.Decimal.Rounding

/-!
# The value of a decimal

A decimal is read by rounding its value.  The number is held as a fraction that is cut off behind the unit, with two
bits for what is left of it; shifting such a fraction to the right gives one again, and its bits are what is needed to
find the nearest whole number.

* `Decimal.toFloat_eq_iff`: a decimal reads as a double if and only if its value is rounded to that of the double.
* `Decimal.toFloat_of_between`: what lies between two such values is one too.
-/

namespace Treewalk

open Float.Model Float.Model.UnpackedFloat

/-! ### Fractions -/

/-- A fraction cut off behind the unit, and what the bits behind it say of the rest. -/
private def cutOff (a b : Nat) : ExtendedMantissa :=
  .ofMantissaAndAccuracy (a / b) (accuracyOfFraction (a % b) b)

private theorem roundedMantissa_cutOff (a b : Nat) :
    (cutOff a b).roundedMantissa = (accuracyOfFraction (a % b) b).roundToNearestEven (a / b) := by
  unfold cutOff
  cases accuracyOfFraction (a % b) b with
  | exact => rfl
  | inexact order => cases order <;> rfl

private theorem div_eq_floor_add (a : Nat) {b : Nat} (hb : 0 < b) :
    (a / b : ℚ) = (a / b : Nat) + (a % b : Nat) / b := by
  have hne : (b : ℚ) ≠ 0 := by exact_mod_cast hb.ne'
  have hsplit : (a : ℚ) = b * (a / b : Nat) + (a % b : Nat) := by exact_mod_cast (Nat.div_add_mod a b).symm
  rw [div_eq_iff hne, add_mul, div_mul_cancel₀ _ hne]
  linarith

private theorem nearest_cutOff (a : Nat) {b : Nat} (hb : 0 < b) : Nearest (cutOff a b).roundedMantissa (a / b) := by
  have hpos : (0 : ℚ) < b := by exact_mod_cast hb
  have hlt : ((a % b : Nat) : ℚ) < b := by exact_mod_cast Nat.mod_lt a hb
  rw [roundedMantissa_cutOff, div_eq_floor_add a hb]
  generalize a % b = r at hlt
  generalize a / b = q
  unfold accuracyOfFraction
  by_cases hr : r = 0
  · rw [if_pos hr, hr, Nat.cast_zero, zero_div, add_zero]
    exact nearest_self q
  rw [if_neg hr]
  cases hcompare : compare (2 * r) b with
  | lt =>
    have hhalf : (2 : ℚ) * r < b := by exact_mod_cast Nat.compare_eq_lt.1 hcompare
    have hrest : (r : ℚ) / b < 1 / 2 := by rw [div_lt_iff₀ hpos]; linarith
    have hnonneg : (0 : ℚ) ≤ r / b := by positivity
    refine nearest_of_abs_lt ?_
    simp only [Accuracy.roundToNearestEven, add_sub_cancel_left, abs_of_nonneg hnonneg]
    exact hrest
  | eq =>
    have hhalf : (2 : ℚ) * r = b := by exact_mod_cast Nat.compare_eq_eq.1 hcompare
    have hrest : (r : ℚ) / b = 1 / 2 := by rw [div_eq_iff hpos.ne']; linarith
    have heven : Even (q + q % 2) := by rw [Nat.even_iff]; omega
    refine ⟨?_, fun _ => heven⟩
    rw [hrest]
    rcases Nat.mod_two_eq_zero_or_one q with hq | hq
    · norm_num [Accuracy.roundToNearestEven, hq]
    · norm_num [Accuracy.roundToNearestEven, hq]
  | gt =>
    have hhalf : (b : ℚ) < 2 * r := by exact_mod_cast Nat.compare_eq_gt.1 hcompare
    have hrest : 1 / 2 < (r : ℚ) / b := by rw [lt_div_iff₀ hpos]; linarith
    have hone : (r : ℚ) / b < 1 := by rw [div_lt_iff₀ hpos]; linarith
    refine nearest_of_abs_lt ?_
    simp only [Accuracy.roundToNearestEven, Nat.cast_add, Nat.cast_one]
    rw [abs_lt]
    constructor <;> linarith

private theorem shiftRightOne_cutOff (a : Nat) {b : Nat} (hb : 0 < b) :
    (cutOff a b).shiftRightOne = cutOff a (b * 2) := by
  have hmod : a % (b * 2) = a % b + b * (a / b % 2) := Nat.mod_mul
  have hlt : a % b < b := Nat.mod_lt a hb
  unfold cutOff
  rw [← Nat.div_div_eq_div_mul, hmod]
  generalize a % b = r at hlt
  generalize a / b = q
  unfold accuracyOfFraction
  rcases Nat.mod_two_eq_zero_or_one q with hq | hq
  · rw [hq, Nat.mul_zero, Nat.add_zero]
    have hless : compare (2 * r) (b * 2) = .lt := Nat.compare_eq_lt.2 (by omega)
    by_cases hr : r = 0
    · simp [hr, ExtendedMantissa.ofMantissaAndAccuracy, ExtendedMantissa.shiftRightOne, hq]
    · rw [if_neg hr, if_neg hr, hless]
      cases compare (2 * r) b <;>
        simp [ExtendedMantissa.ofMantissaAndAccuracy, ExtendedMantissa.shiftRightOne, hq]
  · have hne : r + b * (q % 2) ≠ 0 := by rw [hq]; omega
    rw [if_neg hne, hq, Nat.mul_one]
    by_cases hr : r = 0
    · have hequal : compare (2 * (r + b)) (b * 2) = .eq := Nat.compare_eq_eq.2 (by omega)
      rw [if_pos hr, hequal]
      simp [ExtendedMantissa.ofMantissaAndAccuracy, ExtendedMantissa.shiftRightOne, hq]
    · have hgreater : compare (2 * (r + b)) (b * 2) = .gt := Nat.compare_eq_gt.2 (by omega)
      rw [if_neg hr, hgreater]
      cases compare (2 * r) b <;>
        simp [ExtendedMantissa.ofMantissaAndAccuracy, ExtendedMantissa.shiftRightOne, hq]

private theorem shiftRight_cutOff (a : Nat) {b : Nat} (hb : 0 < b) (k : Nat) :
    cutOff a b >>> k = cutOff a (b * 2 ^ k) := by
  induction k with
  | zero =>
    rw [Nat.pow_zero, Nat.mul_one]
    rfl
  | succ k ih =>
    show (cutOff a b >>> k).shiftRightOne = _
    rw [ih, shiftRightOne_cutOff a (Nat.mul_pos hb (Nat.two_pow_pos k)), Nat.pow_succ, Nat.mul_assoc]

private theorem cutOff_mul (m : Nat) {b : Nat} (hb : 0 < b) : cutOff (m * b) b = ⟨m, false, false⟩ := by
  simp [cutOff, hb, accuracyOfFraction, ExtendedMantissa.ofMantissaAndAccuracy]

/-! ### Shifting to the wanted exponent -/

/-- The shift cuts off so many bits of the fraction that it has the exponent that the format wants. -/
private theorem shift_cutOff (a : Nat) {b : Nat} (hb : 0 < b) {e t : ℤ} (hle : e ≤ t)
    (ht : Format.binary64.targetExponent (totalExponent (a / b) e) = t) :
    shiftToTargetExponent Format.binary64 (a / b) e (accuracyOfFraction (a % b) b) =
      (cutOff a (b * 2 ^ (t - e).toNat), t) := by
  have hexponent : e + (t - e).toNat = t := by omega
  simp only [shiftToTargetExponent, shiftToExponent, ht, hexponent]
  rw [← shiftRight_cutOff a hb]
  rfl

private theorem log2_mul_two_pow {m : Nat} (hm : 0 < m) (j : Nat) : (m * 2 ^ j).log2 = m.log2 + j := by
  induction j with
  | zero => simp
  | succ j ih =>
    have hne : m * 2 ^ j ≠ 0 := Nat.ne_of_gt (Nat.mul_pos hm (Nat.two_pow_pos j))
    rw [Nat.pow_succ, ← Nat.mul_assoc, Nat.mul_comm _ 2, Nat.log2_two_mul hne, ih]
    omega

/-- A canonical mantissa is found again if there are zeros behind it. -/
private theorem Canonical.shift_eq {m j : Nat} {t : ℤ} (h : Canonical m (t + j)) :
    shiftToTargetExponent Format.binary64 (m * 2 ^ j) t .exact = (⟨m, false, false⟩, t + j) := by
  have htarget : Format.binary64.targetExponent (totalExponent (m * 2 ^ j / 1) t) = t + j := by
    rw [Nat.div_one, ← h.target]
    unfold totalExponent
    rw [log2_mul_two_pow h.pos]
    congr 1
    omega
  have hshift := shift_cutOff (m * 2 ^ j) Nat.one_pos (by omega) htarget
  have hamount : (t + (j : ℤ) - t).toNat = j := by omega
  rw [hamount, Nat.one_mul, cutOff_mul m (Nat.two_pow_pos j), Nat.div_one, Nat.mod_one] at hshift
  exact hshift

/-- The whole part of a fraction determines its grain, if it has bits enough. -/
private theorem grain_fraction (a : Nat) {b : Nat} (hb : 0 < b) {e : ℤ} (hbits : 2 ^ 52 ≤ a / b ∨ e ≤ -1074) :
    Grain (a / b * 2 ^ e) (Format.binary64.targetExponent (totalExponent (a / b) e)) := by
  have hpos : (0 : ℚ) < b := by exact_mod_cast hb
  rw [targetExponent_eq]
  refine ⟨le_max_right _ _, ?_, fun hnormal => ?_⟩
  · have hfloor : (a : ℚ) / b < (2 ^ ((a / b).log2 + 1) : Nat) := by
      rw [div_lt_iff₀ hpos]
      exact_mod_cast (Nat.div_lt_iff_lt_mul hb).1 Nat.lt_log2_self
    have hscaled := mul_lt_mul_of_pos_right hfloor (two_zpow_pos e)
    rw [← two_zpow_add] at hscaled
    exact hscaled.trans_le (two_zpow_le (by push_cast; omega))
  · have hne : a / b ≠ 0 := by
      intro hzero
      rw [hzero, Nat.log2_zero] at hnormal
      omega
    have hfloor : ((2 ^ (a / b).log2 : Nat) : ℚ) ≤ a / b := by
      rw [le_div_iff₀ hpos]
      exact_mod_cast (Nat.le_div_iff_mul_le hb).1 (Nat.log2_self_le hne)
    have hscaled := mul_le_mul_of_nonneg_right hfloor (two_zpow_pos e).le
    rw [← two_zpow_add] at hscaled
    exact le_trans (two_zpow_le (by omega)) hscaled

/-! ### Rounding a fraction -/

/-- A number that is not negative, as it comes out of rounding. -/
private inductive Amounts : UnpackedFloat → ℚ → Prop where
  | zero : Amounts (.zero .positive) 0
  | finite {m : Nat} {e : ℤ} (h : Canonical m e) : Amounts (.finite .positive m e h.pos) (m * 2 ^ e)

/-- What is rounded is zero or has a canonical mantissa, perhaps after one more bit is cut off. -/
private theorem Grain.settled {v : ℚ} {t : ℤ} {n : Nat} (h : Grain v t) (hn : Nearest n (v / 2 ^ t)) :
    n = 0 ∧ t = -1074 ∨ ∃ m j : Nat, n = m * 2 ^ j ∧ Canonical m (t + j) := by
  have hle := h.le
  obtain rfl | hpos := Nat.eq_zero_or_pos n
  · have hsmallest : ¬-1074 < t := fun ht => absurd (h.le_nearest hn ht) (by decide)
    exact .inl ⟨rfl, by omega⟩
  obtain hlt | rfl := (h.nearest_le hn).lt_or_eq
  · exact .inr ⟨n, 0, by simp, by simpa using canonical_of_lt hpos hlt hle (h.le_nearest hn)⟩
  · have hcanonical : Canonical (2 ^ 52) (t + 1) :=
      canonical_of_lt (by norm_num) (by norm_num) (by omega) fun _ => le_rfl
    exact .inr ⟨2 ^ 52, 1, by norm_num, hcanonical⟩

/-- The second shift, behind the rounding, does not change the number. -/
private theorem amounts_settled {v : ℚ} {t : ℤ} {n : Nat} (h : Grain v t) (hn : Nearest n (v / 2 ^ t)) :
    let shifted := shiftToTargetExponent Format.binary64 n t .exact
    Amounts (if hzero : shifted.1.mantissa = 0 then .zero .positive
      else .finite .positive shifted.1.mantissa shifted.2 (Nat.pos_of_ne_zero hzero)) (n * 2 ^ t) := by
  dsimp only
  obtain ⟨rfl, rfl⟩ | ⟨m, j, rfl, hcanonical⟩ := h.settled hn
  · rw [Nat.cast_zero, zero_mul]
    exact .zero
  · have hvalue : ((m * 2 ^ j : Nat) : ℚ) * 2 ^ t = m * 2 ^ (t + j) := by
      rw [two_zpow_add]
      push_cast
      ring
    simp only [hcanonical.shift_eq, dif_neg hcanonical.pos.ne', hvalue]
    exact .finite hcanonical

private theorem amounts_round (a : Nat) {b : Nat} (hb : 0 < b) {e : ℤ} (hbits : 2 ^ 52 ≤ a / b ∨ e ≤ -1074) :
    ∃ r, Rounds (a / b * 2 ^ e) r ∧
      Amounts (roundWithAccuracy Format.binary64 .positive (a / b) e (accuracyOfFraction (a % b) b)) r := by
  obtain ⟨t, ht⟩ : ∃ t, Format.binary64.targetExponent (totalExponent (a / b) e) = t := ⟨_, rfl⟩
  have hgrain := ht ▸ grain_fraction a hb hbits
  have hle : e ≤ t := by
    have hlog : 2 ^ 52 ≤ a / b → 52 ≤ (a / b).log2 := fun h => (Nat.le_log2 (by omega)).2 h
    rw [targetExponent_eq] at ht
    omega
  obtain ⟨k, rfl⟩ : ∃ k : Nat, t = e + k := ⟨(t - e).toNat, by omega⟩
  have hamount : (e + (k : ℤ) - e).toNat = k := by omega
  have hshift := shift_cutOff a hb hle ht
  rw [hamount] at hshift
  have hfraction : (a : ℚ) / b * 2 ^ e / 2 ^ (e + k : ℤ) = a / (b * 2 ^ k : Nat) := by
    have hne := (two_zpow_pos e).ne'
    rw [two_zpow_add]
    push_cast
    field_simp
  have hnearest := nearest_cutOff a (Nat.mul_pos hb (Nat.two_pow_pos k))
  rw [← hfraction] at hnearest
  refine ⟨_, ⟨_, _, hgrain, hnearest, rfl⟩, ?_⟩
  simp only [roundWithAccuracy, hshift]
  exact amounts_settled hgrain hnearest

/-! ### Reading a decimal -/

namespace Decimal

/-- The number that a decimal denotes. -/
def value (d : Decimal) : ℚ := d.coefficient / 10 ^ d.places

private theorem value_nonneg (d : Decimal) : 0 ≤ d.value :=
  div_nonneg (Nat.cast_nonneg _) (pow_nonneg (by norm_num) _)

private theorem value_lt_of_places {d : Decimal} (h : 2048 + d.coefficient.log2 < d.places) :
    d.value < 2 ^ (-1075 : ℤ) := by
  have hcoefficient : (d.coefficient : ℚ) < (2 ^ (d.coefficient.log2 + 1) : Nat) := by
    exact_mod_cast Nat.lt_log2_self
  have hpower : (2 : ℚ) ^ d.places ≤ 10 ^ d.places := pow_le_pow_left₀ (by norm_num) (by norm_num) _
  have hpos : (0 : ℚ) < 2 ^ d.places := by positivity
  calc d.value ≤ d.coefficient / 2 ^ d.places := by unfold value; gcongr
    _ < (2 ^ (d.coefficient.log2 + 1) : Nat) / 2 ^ d.places := by gcongr
    _ = 2 ^ ((d.coefficient.log2 + 1 : Nat) - d.places : ℤ) := by
      rw [zpow_sub₀ two_ne_zero, zpow_natCast, zpow_natCast]
      push_cast
      rfl
    _ ≤ 2 ^ (-1075 : ℤ) := two_zpow_le (by push_cast; omega)

/-- The division has bits enough, unless the quotient is small. -/
private theorem divCore_eq {c : Nat} (hc : 0 < c) (p : Nat) : ∃ s : Nat,
    divCore Format.binary64 c 0 (10 ^ p) 0 =
        (c * 2 ^ s / 10 ^ p, -(s : ℤ), accuracyOfFraction (c * 2 ^ s % 10 ^ p) (10 ^ p)) ∧
      (2 ^ 52 ≤ c * 2 ^ s / 10 ^ p ∨ -(s : ℤ) ≤ -1074) := by
  obtain ⟨t, ht⟩ : ∃ t, min ((0 : ℤ) - 0) (Format.binary64.targetExponent
      (totalExponent c 0 - totalExponent (10 ^ p) 0)) = t := ⟨_, rfl⟩
  have hbound : t ≤ 0 ∧ (t ≤ c.log2 - (10 ^ p).log2 - 53 ∨ t ≤ -1074) := by
    have hminimum : Format.binary64.minExponent = -1074 := rfl
    have hbits : (Format.binary64.mantissaBits : ℤ) = 53 := rfl
    simp only [Format.targetExponent, totalExponent, hminimum, hbits] at ht
    omega
  obtain ⟨s, rfl⟩ : ∃ s : Nat, t = -(s : ℤ) := ⟨(-t).toNat, by omega⟩
  have hshift : ((0 : ℤ) - 0 - -(s : ℤ)).toNat = s := by omega
  refine ⟨s, by simp only [divCore, ht, hshift, Nat.shiftLeft_eq], ?_⟩
  obtain hbits | hsmall := hbound.2
  · left
    rw [Nat.le_div_iff_mul_le (Nat.pow_pos (by decide))]
    calc 2 ^ 52 * 10 ^ p ≤ 2 ^ 52 * 2 ^ ((10 ^ p).log2 + 1) := Nat.mul_le_mul_left _ Nat.lt_log2_self.le
      _ = 2 ^ (52 + ((10 ^ p).log2 + 1)) := (Nat.pow_add 2 _ _).symm
      _ ≤ 2 ^ (c.log2 + s) := Nat.pow_le_pow_right Nat.two_pos (by omega)
      _ = 2 ^ c.log2 * 2 ^ s := Nat.pow_add 2 _ _
      _ ≤ c * 2 ^ s := Nat.mul_le_mul_right _ (Nat.log2_self_le hc.ne')
  · exact .inr hsmall

private theorem value_eq (d : Decimal) (s : Nat) :
    d.value = ((d.coefficient * 2 ^ s : Nat) : ℚ) / (10 ^ d.places : Nat) * 2 ^ (-(s : ℤ)) := by
  unfold value
  rw [zpow_neg, zpow_natCast]
  push_cast
  field_simp

private theorem amounts_mul {d : Decimal} (hne : d.coefficient ≠ 0) (hplaces : d.places = 0) : ∃ r, Rounds d.value r ∧
    Amounts (roundWithAccuracy Format.binary64 .positive (d.coefficient <<< 53 * 10 ^ (-(d.places : ℤ)).toNat)
      (-(53 : Nat)) .exact) r := by
  have hbits : 2 ^ 52 ≤ d.coefficient * 2 ^ 53 / 1 := by omega
  obtain ⟨r, hrounds, hamounts⟩ := amounts_round (d.coefficient * 2 ^ 53) Nat.one_pos (.inl hbits)
  have hmantissa : d.coefficient <<< 53 * 10 ^ (-(d.places : ℤ)).toNat = d.coefficient * 2 ^ 53 := by
    rw [hplaces, Nat.shiftLeft_eq]
    exact Nat.mul_one _
  refine ⟨r, ?_, ?_⟩
  · rw [value_eq d 53, hplaces]
    exact hrounds
  · rw [Nat.div_one, Nat.mod_one] at hamounts
    rw [hmantissa]
    exact hamounts

private theorem amounts_div {d : Decimal} (hne : d.coefficient ≠ 0) : ∃ r, Rounds d.value r ∧
    let quotient := divCore Format.binary64 d.coefficient 0 (10 ^ d.places) 0
    Amounts (roundWithAccuracy Format.binary64 .positive quotient.1 quotient.2.1 quotient.2.2) r := by
  obtain ⟨s, hdiv, hbits⟩ := divCore_eq (Nat.pos_of_ne_zero hne) d.places
  obtain ⟨r, hrounds, hamounts⟩ := amounts_round _ (Nat.pow_pos (by decide)) hbits
  refine ⟨r, ?_, ?_⟩
  · rw [value_eq d s]
    exact hrounds
  · rw [hdiv]
    exact hamounts

private theorem amounts_ofScientific (d : Decimal) : ∃ r, Rounds d.value r ∧
    Amounts (UnpackedFloat.ofScientific Format.binary64 d.coefficient (-(d.places : ℤ))) r := by
  have hsize : (2 : ℤ) ^ Format.binary64.exponentBits = 2048 := rfl
  unfold UnpackedFloat.ofScientific
  rw [hsize]
  split
  next hzero =>
    have hvalue : d.value = 0 := by simp [value, hzero]
    exact ⟨0, rounds_tiny d.value_nonneg (by rw [hvalue]; exact two_zpow_pos _), .zero⟩
  next hne =>
    rw [if_neg (by omega)]
    split
    next hsmall => exact ⟨0, rounds_tiny d.value_nonneg (value_lt_of_places (by omega)), .zero⟩
    split
    next hwhole => exact amounts_mul hne (by omega)
    next hfraction =>
      simp only [UnpackedFloat.div, Int.neg_neg, Int.toNat_natCast]
      exact amounts_div hne

variable {x : Float} {m : Nat} {e : ℤ} {hm : 0 < m} {v v' : ℚ}

/-- A decimal reads as a double if and only if its value is rounded to the value of the double. -/
theorem toFloat_eq_iff (h : x.toModel.unpack = .finite .positive m e hm) (d : Decimal) :
    d.toFloat = x ↔ Rounds d.value (m * 2 ^ e) := by
  obtain ⟨r, hrounds, hamounts⟩ := d.amounts_ofScientific
  have hcanonical := canonical_of_unpack h
  have hpack : d.toFloat.toModel = Float.Model.pack
      (UnpackedFloat.ofScientific Format.binary64 d.coefficient (-(d.places : ℤ))) := rfl
  generalize UnpackedFloat.ofScientific Format.binary64 d.coefficient (-(d.places : ℤ)) = u at hamounts hpack
  constructor
  · rintro rfl
    rw [hpack] at h
    cases hamounts with
    | zero =>
      rw [unpack_pack_zero] at h
      cases h
    | finite hfinite =>
      obtain hunpack | hunpack := hfinite.unpack_pack .positive
      · rw [hunpack] at h
        cases h
        exact hrounds
      · rw [hunpack] at h
        cases h
  · intro hx
    have hvalue := hrounds.unique hx
    have hmodel : d.toFloat.toModel = x.toModel := by
      rw [hpack, ← pack_of_unpack h]
      cases hamounts with
      | zero =>
        have hpos : (0 : ℚ) < m * 2 ^ e := mul_pos (by exact_mod_cast hm) (two_zpow_pos e)
        exact absurd hvalue hpos.ne
      | finite hfinite =>
        obtain ⟨rfl, rfl⟩ := hfinite.eq hcanonical hvalue
        rfl
    exact congrArg Float.ofModel hmodel

/-- A decimal between two numbers that are rounded to a double reads as this double. -/
theorem toFloat_of_between (h : x.toModel.unpack = .finite .positive m e hm) {d : Decimal} (hv : Rounds v (m * 2 ^ e))
    (hv' : Rounds v' (m * 2 ^ e)) (hlow : v ≤ d.value) (hhigh : d.value ≤ v') : d.toFloat = x := by
  obtain ⟨r, hrounds, -⟩ := d.amounts_ofScientific
  obtain rfl : r = m * 2 ^ e := (hrounds.mono hv' hhigh).antisymm (hv.mono hrounds hlow)
  exact (toFloat_eq_iff h d).2 hrounds

end Decimal

end Treewalk
