import Treewalk.Proofs.Decimal.Search

/-!
# The fewest digits

The shortest decimal of a double has no more digits than any other decimal that reads back as this double, and no more
decimal places.  So there is no point in the text of a whole number, and no zero at the end behind a point.

On a coarser grid there are fewer digits, but for one case: the next power of ten has a single digit on any grid.  If it
lies between the double and a decimal that reads back, it reads back too, and the search has come to it before.

* `Decimal.IsShortest`: what the shortest decimal has to be.
* `Decimal.isShortest_shortest`: the shortest decimal of a positive double is so.
* `numberText_of_isFinite`: a finite number is shown by such a decimal, perhaps with a minus sign in front.
* `dot_not_mem_numberText`: a whole number is shown without a point.
-/

namespace Treewalk

open Float.Model Float.Model.UnpackedFloat

namespace Decimal

variable {x : Float} {m : Nat} {e : ℤ} {hm : 0 < m}

/-! ### Digits -/

/-- The decimal has at most `n` digits, apart from zeros in front of them and behind them. -/
def FitsIn (d : Decimal) (n : Nat) : Prop :=
  ∃ units zeros : Nat, d.coefficient = units * 10 ^ zeros ∧ units < 10 ^ n

/-- The units of a decimal that fits, on the grid of its last digit. -/
private theorem FitsIn.value_eq {d : Decimal} {n : Nat} (h : d.FitsIn n) :
    ∃ (units : Nat) (last : ℤ), d.value = units * 10 ^ last ∧ units < 10 ^ n := by
  obtain ⟨units, zeros, hunits, hlt⟩ := h
  refine ⟨units, zeros - d.places, ?_, hlt⟩
  rw [value, hunits, zpow_sub₀ (by norm_num), zpow_natCast, zpow_natCast]
  push_cast
  rw [mul_div_assoc]

private theorem fitsIn_onGrid {n j units : Nat} (hn : 0 < n) (hj : j ≤ n) (hunits : units ≤ 10 ^ j) (grid : ℤ) :
    (onGrid grid units).FitsIn n := by
  obtain hlt | rfl := hunits.lt_or_eq
  · exact ⟨units, grid.toNat, rfl, hlt.trans_le (Nat.pow_le_pow_right (by decide) hj)⟩
  · exact ⟨1, j + grid.toNat, by rw [Nat.one_mul, Nat.pow_add]; rfl, Nat.one_lt_pow hn.ne' (by decide)⟩

/-- A power of ten between a decimal that reads back and the double reads back too. -/
private theorem toFloat_power (h : x.toModel.unpack = .finite .positive m e hm) {d : Decimal} (hd : d.toFloat = x)
    {grid : ℤ} (hlow : d.value ≤ 10 ^ grid) (hhigh : 10 ^ grid ≤ (m * 2 ^ e : ℚ)) : (onGrid grid 1).toFloat = x := by
  have hvalue : (onGrid grid 1).value = 10 ^ grid := by rw [value_onGrid, Nat.cast_one, one_mul]
  rw [← hvalue] at hlow hhigh
  exact toFloat_of_between h ((toFloat_eq_iff h d).1 hd) (canonical_of_unpack h).rounds hlow hhigh

/-- The units between which a double lies on a grid are small, if a power of ten not far above it is small there. -/
private theorem exists_units_le {n low : Nat} {grid last : ℤ} {v : ℚ} (hn : 0 < n) (hlast : last ≤ grid)
    (hlow : low * 10 ^ grid ≤ v) (hhalf : v < 2 * 10 ^ (n + last)) (hpower : v < 10 ^ (n + last) ∨ n + last ≤ grid) :
    ∃ j ≤ n, low + 1 ≤ 10 ^ j := by
  have hten : (0 : ℚ) < 10 ^ grid := zpow_pos (by norm_num) grid
  by_cases hfar : n + last ≤ grid
  · have hgrid : (10 : ℚ) ^ (n + last) ≤ 10 ^ grid := zpow_le_zpow_right₀ (by norm_num) hfar
    have htwo : (low : ℚ) * 10 ^ grid < 2 * 10 ^ grid := by linarith
    have hlow' : (low : ℚ) < (2 : Nat) := lt_of_mul_lt_mul_right htwo hten.le
    have hlt : low < 2 := by exact_mod_cast hlow'
    exact ⟨1, hn, by omega⟩
  · obtain ⟨j, hj⟩ : ∃ j : Nat, (n : ℤ) + last = j + grid := ⟨(n + last - grid).toNat, by omega⟩
    have hsplit : (10 : ℚ) ^ (n + last) = (10 ^ j : Nat) * 10 ^ grid := by
      rw [hj, zpow_add₀ (by norm_num), zpow_natCast]
      push_cast
      rfl
    have hless := hlow.trans_lt (hpower.resolve_right hfar)
    rw [hsplit] at hless
    have hlow' : (low : ℚ) < (10 ^ j : Nat) := lt_of_mul_lt_mul_right hless hten.le
    exact ⟨j, by omega, by exact_mod_cast hlow'⟩

private theorem fitsIn_shortest (h : x.toModel.unpack = .finite .positive m e hm) {d : Decimal} (hd : d.toFloat = x)
    {n : Nat} (hn : d.FitsIn n) : (shortest x).FitsIn n := by
  have hpos : (0 : ℚ) < m * 2 ^ e := mul_pos (by exact_mod_cast hm) (zpow_pos two_pos e)
  have hhalf := (((toFloat_eq_iff h d).1 hd).bounds hpos).1
  obtain ⟨units, last, hunits, hlt⟩ := hn.value_eq
  obtain ⟨grid, low, best, ⟨hlow, -⟩, hbest, hshortest, hcoarsest⟩ := shortest_coarsest h
  have hne : units ≠ 0 := fun hzero => by simp [hunits, hzero] at hhalf; linarith
  have hnpos : 0 < n := Nat.pos_of_ne_zero fun hzero => hne (by simpa [hzero] using hlt)
  have hbelow : d.value < 10 ^ (n + last) := by
    have hten : (0 : ℚ) < 10 ^ last := zpow_pos (by norm_num) last
    have hunits' : (units : ℚ) < 10 ^ n := by exact_mod_cast hlt
    rw [hunits, zpow_add₀ (by norm_num), zpow_natCast]
    gcongr
  have hpower : (m * 2 ^ e : ℚ) < 10 ^ (n + last) ∨ n + last ≤ grid := by
    by_cases hless : (m * 2 ^ e : ℚ) < 10 ^ (n + last)
    · exact .inl hless
    · exact .inr (hcoarsest (toFloat_power h hd hbelow.le (not_lt.1 hless)) (value_onGrid _ 1))
  obtain ⟨j, hj, hunit⟩ := exists_units_le hnpos (hcoarsest hd hunits) hlow (by linarith) hpower
  rw [hshortest]
  exact fitsIn_onGrid hnpos hj (by omega) grid

/-! ### The shortest decimal -/

/-- The decimal reads as the double, and no other that does has fewer digits or fewer decimal places. -/
structure IsShortest (d : Decimal) (x : Float) : Prop where
  reads : d.toFloat = x
  digits : ∀ {other : Decimal} {n : Nat}, other.toFloat = x → other.FitsIn n → d.FitsIn n
  places : ∀ {other : Decimal}, other.toFloat = x → d.places ≤ other.places

private theorem places_shortest_le (h : x.toModel.unpack = .finite .positive m e hm) {d : Decimal}
    (hd : d.toFloat = x) : (shortest x).places ≤ d.places := by
  have hvalue : d.value = d.coefficient * 10 ^ (-(d.places : ℤ)) := by
    rw [value, zpow_neg, zpow_natCast, div_eq_mul_inv]
  obtain ⟨grid, -, best, -, -, hshortest, hcoarsest⟩ := shortest_coarsest h
  have hgrid := hcoarsest hd hvalue
  rw [hshortest]
  show (-grid).toNat ≤ d.places
  omega

/-- The shortest decimal of a positive double is what its name says. -/
theorem isShortest_shortest (h : x.toModel.unpack = .finite .positive m e hm) : (shortest x).IsShortest x where
  reads := toFloat_shortest h
  digits hread hfits := fitsIn_shortest h hread hfits
  places hread := places_shortest_le h hread

/-- Zero is the shortest decimal of zero. -/
private theorem isShortest_zero :
    (⟨0, 0⟩ : Decimal).IsShortest (Float.ofModel (Float.Model.pack (.zero .positive))) where
  reads := by
    rw [toFloat, Float.Model.ofScientific, UnpackedFloat.ofScientific, dif_pos rfl]
  digits {_ n} _ _ := ⟨0, 0, rfl, Nat.pow_pos (by decide)⟩
  places _ := Nat.zero_le _

private theorem dot_not_mem_text {d : Decimal} (h : d.places = 0) : '.' ∉ d.text.toList := by
  rw [text, if_pos h, String.toList_ofList]
  intro hdot
  exact absurd (isDigit_of_mem_wholeDigits hdot) (by decide)

/-- A positive double without a fraction reads back from a decimal without places. -/
private theorem toFloat_whole (h : x.toModel.unpack = .finite .positive m e hm) (hwhole : 2 ^ (-e).toNat ∣ m) :
    ∃ n, (⟨n, 0⟩ : Decimal).toFloat = x := by
  obtain ⟨n, hn⟩ := hwhole
  refine ⟨n * 2 ^ e.toNat, toFloat_of_value h ?_⟩
  rw [zpow_eq_div two_ne_zero, hn]
  simp only [value, pow_zero, div_one]
  push_cast
  field_simp

end Decimal

/-! ### The text of a number -/

private theorem neg_pack {u : UnpackedFloat} (h : (Float.Model.pack u).unpack = u) :
    -Float.ofModel (Float.Model.pack u) = Float.ofModel (Float.Model.pack u.neg) := by
  show Float.ofModel (Float.Model.pack (Float.Model.pack u).unpack.neg) = _
  rw [h]

/-- The text of a finite number is the shortest decimal of this number, or a minus sign and that of its opposite. -/
theorem numberText_of_isFinite {x : Float} (h : x.isFinite = true) : ∃ (d : Decimal) (y : Float), d.IsShortest y ∧
    (numberText x = d.text ∧ x = y ∨ numberText x = "-" ++ d.text ∧ x = -y) := by
  have hfinite : x.toModel.unpack.isFinite = true := h
  unfold numberText
  cases hunpack : x.toModel.unpack with
  | notANumber | infinity => rw [hunpack] at hfinite; cases hfinite
  | zero s =>
    have hx : x = Float.ofModel (Float.Model.pack (.zero s)) := by rw [pack_of_unpack hunpack]
    refine ⟨_, _, Decimal.isShortest_zero, ?_⟩
    rw [neg_pack (unpack_pack_zero _)]
    cases s with
    | positive => exact .inl ⟨rfl, hx⟩
    | negative => exact .inr ⟨rfl, hx⟩
  | finite s m e hm =>
    have hx : x = Float.ofModel (Float.Model.pack (.finite s m e hm)) := by rw [pack_of_unpack hunpack]
    have habs : x.abs = Float.ofModel (Float.Model.pack (.finite .positive m e hm)) := by
      show Float.ofModel (Float.Model.pack x.toModel.unpack.abs) = _
      rw [hunpack]
      rfl
    refine ⟨_, _, Decimal.isShortest_shortest (unpack_abs hunpack), ?_⟩
    -- the decimal is the one of the absolute value, whose parts are those of `x` but for the sign
    rw [habs, neg_pack (unpack_pack_of_unpack hunpack .positive)]
    cases s with
    | positive => exact .inl ⟨String.empty_append, hx⟩
    | negative => exact .inr ⟨rfl, hx⟩

/-- The number has no fraction. -/
def Whole (x : Float) : Prop :=
  match x.toModel.unpack with
  | .zero _ => True
  | .finite _ m e _ => 2 ^ (-e).toNat ∣ m
  | _ => False

/-- There is no point in the text of a whole number. -/
theorem dot_not_mem_numberText {x : Float} (h : Whole x) : '.' ∉ (numberText x).toList := by
  unfold Whole at h
  unfold numberText
  cases hunpack : x.toModel.unpack with
  | notANumber | infinity => simp [hunpack] at h
  | zero s => cases s <;> simp [signMark]
  | finite s m e hm =>
    rw [hunpack] at h
    obtain ⟨n, hread⟩ := Decimal.toFloat_whole (unpack_abs hunpack) h
    have hplaces := (Decimal.isShortest_shortest (unpack_abs hunpack)).places hread
    have hdecimal := Decimal.dot_not_mem_text (Nat.le_zero.1 hplaces)
    have hmark : '.' ∉ (signMark s).toList := by cases s <;> decide
    simp [hmark, hdecimal]

end Treewalk
