import Treewalk.Proofs.Decimal.ReadBack

/-!
# The search for the shortest decimal

The decimals that read back are those whose values are rounded to the double, so whatever lies between the double and
one of them is one too.  For this reason the search needs to try only the two neighbours of the double on each grid.
It stops at the coarsest grid on which there is a decimal that reads back at all: the first grid is coarser than the
double is large, and the last one is so fine that the neighbours are rounded to the double.

* `Decimal.shortest_coarsest`: no decimal on a coarser grid than that of the shortest one reads back.
-/

namespace Treewalk

open Float.Model Float.Model.UnpackedFloat

/-! ### Powers of two and of ten -/

/-- If `N` bits are about as much as `M` digits, so are some multiples of them. -/
private theorem ten_pow_bounds {N M n : Nat} (hlow : 2 ^ N ≤ 10 ^ M) (hhigh : 10 ^ M ≤ 2 ^ (N + 1)) (hn : n ≤ N) :
    2 ^ (n * N) ≤ 10 ^ (n * M) ∧ 10 ^ (n * M) ≤ 2 ^ ((n + 1) * N) := by
  rw [Nat.mul_comm n N, Nat.mul_comm n M, pow_mul, pow_mul]
  refine ⟨Nat.pow_le_pow_left hlow n, ?_⟩
  calc (10 ^ M) ^ n ≤ (2 ^ (N + 1)) ^ n := Nat.pow_le_pow_left hhigh n
    _ = 2 ^ ((N + 1) * n) := (pow_mul 2 _ _).symm
    _ ≤ 2 ^ ((n + 1) * N) := Nat.pow_le_pow_right Nat.two_pos (by nlinarith)

private theorem ten_zpow_bounds {N M : Nat} {t : ℤ} (hlow : 2 ^ N ≤ 10 ^ M) (hhigh : 10 ^ M ≤ 2 ^ (N + 1))
    (ht : t.natAbs ≤ N) :
    (2 : ℚ) ^ ((t - 1) * N) ≤ 10 ^ (t * M) ∧ (10 : ℚ) ^ (t * M) ≤ 2 ^ ((t + 1) * N) := by
  obtain ⟨hbelow, habove⟩ := ten_pow_bounds hlow hhigh ht
  have hbelow' : (2 : ℚ) ^ (t.natAbs * N : ℤ) ≤ 10 ^ (t.natAbs * M : ℤ) := by exact_mod_cast hbelow
  have habove' : (10 : ℚ) ^ (t.natAbs * M : ℤ) ≤ 2 ^ ((t.natAbs + 1) * N : ℤ) := by exact_mod_cast habove
  have hmono {i j : ℤ} (h : i ≤ j) : (2 : ℚ) ^ (i * N) ≤ 2 ^ (j * N) :=
    zpow_le_zpow_right₀ (by norm_num) (Int.mul_le_mul_of_nonneg_right h (Int.natCast_nonneg N))
  obtain h | h := Int.natAbs_eq t
  · rw [← h] at hbelow' habove'
    exact ⟨(hmono (by omega)).trans hbelow', habove'⟩
  · have hneg : (t.natAbs : ℤ) = -t := by omega
    rw [hneg] at hbelow' habove'
    have hten : (10 : ℚ) ^ (t * M) = (10 ^ (-t * M))⁻¹ := by rw [Int.neg_mul, zpow_neg, inv_inv]
    have htwo (i : ℤ) : (2 : ℚ) ^ (i * N) = (2 ^ (-i * N))⁻¹ := by rw [Int.neg_mul, zpow_neg, inv_inv]
    constructor
    · rw [hten, htwo, show -(t - 1) = -t + 1 by ring]
      gcongr
    · refine le_trans ?_ (hmono (show t ≤ t + 1 by omega))
      rw [hten, htwo]
      gcongr

/-- A multiple of the exponent on both sides may be taken away. -/
private theorem zpow_le_zpow_of_mul {a b : ℚ} (ha : 0 < a) (hb : 0 < b) {N : Nat} (hN : 0 < N) {i j : ℤ}
    (h : a ^ (i * N) ≤ b ^ (j * N)) : a ^ i ≤ b ^ j := by
  rw [zpow_mul, zpow_mul, zpow_natCast, zpow_natCast] at h
  exact (pow_le_pow_iff_left₀ (zpow_pos ha i).le (zpow_pos hb j).le hN.ne').1 h

/-- So are parts of them: a hundred thousand bits are about as much as 30103 digits. -/
private theorem digits_of_bits {t l : ℤ} (ht : t.natAbs ≤ 100000) (hl : (t * 30103).fdiv 100000 = l) :
    (2 : ℚ) ^ (t - 1) ≤ 10 ^ (l + 1) ∧ (10 : ℚ) ^ l ≤ 2 ^ (t + 1) := by
  rw [Int.fdiv_eq_ediv_of_nonneg _ (by decide)] at hl
  obtain ⟨hlow, hhigh⟩ := ten_zpow_bounds (N := 100000) (M := 30103) (by decide +kernel) (by decide +kernel) ht
  have hmono {i j : ℤ} (h : i ≤ j) : (10 : ℚ) ^ i ≤ 10 ^ j := zpow_le_zpow_right₀ (by norm_num) h
  constructor
  · refine zpow_le_zpow_of_mul (by norm_num) (by norm_num) (N := 100000) (by decide) (hlow.trans (hmono ?_))
    push_cast
    omega
  · refine zpow_le_zpow_of_mul (by norm_num) (by norm_num) (N := 100000) (by decide) ((hmono ?_).trans hhigh)
    push_cast
    omega

namespace Decimal

/-! ### Grids -/

theorem value_onGrid (grid : ℤ) (units : Nat) : (onGrid grid units).value = units * 10 ^ grid := by
  rw [zpow_eq_div (by norm_num)]
  simp only [value, onGrid, Nat.pow_eq]
  push_cast
  rw [mul_div_assoc]

/-- The two neighbours of a number on a grid. -/
private theorem neighbours_eq (num : Nat) {den : Nat} (hden : 0 < den) (grid : ℤ) : ∃ low : Nat,
    low * 10 ^ grid ≤ (num / den : ℚ) ∧ (num / den : ℚ) < (low + 1) * 10 ^ grid ∧
      ∀ d, d ∈ neighbours num den grid ↔ ∃ units, (units = low ∨ units = low + 1) ∧ d = onGrid grid units := by
  have hpos : 0 < den * 10 ^ grid.toNat := Nat.mul_pos hden (Nat.pow_pos (by decide))
  have hscaled : (num / den : ℚ) =
      (num * 10 ^ (-grid).toNat : Nat) / (den * 10 ^ grid.toNat : Nat) * 10 ^ grid := by
    rw [zpow_eq_div (by norm_num) grid]
    have hne : (den : ℚ) ≠ 0 := by exact_mod_cast hden.ne'
    push_cast
    field_simp
  have hten : (0 : ℚ) < 10 ^ grid := zpow_pos (by norm_num) grid
  have hposq : (0 : ℚ) < (den * 10 ^ grid.toNat : Nat) := by exact_mod_cast hpos
  refine ⟨num * 10 ^ (-grid).toNat / (den * 10 ^ grid.toNat), ?_, ?_, fun d => ?_⟩
  · rw [hscaled]
    gcongr
    rw [le_div_iff₀ hposq]
    exact_mod_cast Nat.div_mul_le_self _ _
  · rw [hscaled]
    gcongr
    rw [div_lt_iff₀ hposq]
    exact_mod_cast (Nat.div_lt_iff_lt_mul hpos).1 (Nat.lt_succ_self _)
  · simp only [neighbours, Nat.pow_eq]
    split
    · simp
    · simp [or_comm]
    · split <;> simp [or_comm]

/-! ### The search -/

variable {x : Float} {m : Nat} {e : ℤ} {hm : 0 < m}

/-- The decimal that the search finds on a grid. -/
private def found (x : Float) (m : Nat) (e : ℤ) (grid : ℤ) : Option Decimal :=
  (neighbours (m * Nat.pow 2 e.toNat) (Nat.pow 2 (-e).toNat) grid).find? fun d => d.toFloat = x

private theorem shortest_eq (h : x.toModel.unpack = .finite .positive m e hm) : shortest x =
    ((List.range searchedGrids).findSome? fun (steps : Nat) => found x m e (coarseGrid m e - steps)).getD
      (exact m e) := by
  unfold shortest
  rw [h]
  rfl

private theorem found_neighbours (x : Float) (m : Nat) (e grid : ℤ) : ∃ low : Nat,
    low * 10 ^ grid ≤ (m * 2 ^ e : ℚ) ∧ (m * 2 ^ e : ℚ) < (low + 1) * 10 ^ grid ∧
      (∀ d, found x m e grid = some d → ∃ units, (units = low ∨ units = low + 1) ∧ d = onGrid grid units) ∧
      (found x m e grid = none → (onGrid grid low).toFloat ≠ x ∧ (onGrid grid (low + 1)).toFloat ≠ x) := by
  obtain ⟨low, hlow, hhigh, hmem⟩ := neighbours_eq (m * Nat.pow 2 e.toNat) (Nat.two_pow_pos (-e).toNat) grid
  have hvalue : ((m * Nat.pow 2 e.toNat : Nat) : ℚ) / (2 ^ (-e).toNat : Nat) = m * 2 ^ e := by
    rw [zpow_eq_div two_ne_zero, Nat.pow_eq]
    push_cast
    rw [mul_div_assoc]
  rw [hvalue] at hlow hhigh
  refine ⟨low, hlow, hhigh, fun d hd => ?_, fun hnone => ?_⟩
  · exact (hmem d).1 (List.mem_of_find?_eq_some hd)
  · have hall := List.find?_eq_none.1 hnone
    exact ⟨by simpa using hall _ ((hmem _).2 ⟨low, .inl rfl, rfl⟩),
      by simpa using hall _ ((hmem _).2 ⟨low + 1, .inr rfl, rfl⟩)⟩

/-- The search succeeds on any grid on which there is a decimal that reads back. -/
private theorem found_ne_none (h : x.toModel.unpack = .finite .positive m e hm) {d : Decimal} (hd : d.toFloat = x)
    {units : Nat} {grid : ℤ} (hunits : d.value = units * 10 ^ grid) : found x m e grid ≠ none := by
  have hself := (canonical_of_unpack h).rounds
  have hread := (toFloat_eq_iff h d).1 hd
  have hten : (0 : ℚ) < 10 ^ grid := zpow_pos (by norm_num) grid
  obtain ⟨low, hlow, hhigh, -, hnone⟩ := found_neighbours x m e grid
  intro hfail
  obtain ⟨hfirst, hsecond⟩ := hnone hfail
  -- the neighbour on the side of the decimal lies between it and the double
  obtain hlt | hle := Nat.lt_or_ge low units
  · refine hsecond (toFloat_of_between h hself hread ?_ ?_)
    · rw [value_onGrid]
      exact_mod_cast hhigh.le
    · rw [hunits, value_onGrid]
      gcongr
      exact hlt
  · refine hfirst (toFloat_of_between h hread hself ?_ ?_)
    · rw [hunits, value_onGrid]
      gcongr
    · rw [value_onGrid]
      exact hlow

/-- The first grid is too coarse, and the last one fine enough. -/
private theorem coarseGrid_bounds (h : Canonical m e) (hle : e ≤ 971) :
    2 * (m * 2 ^ e) < (10 : ℚ) ^ coarseGrid m e ∧ (10 : ℚ) ^ (coarseGrid m e - 23) ≤ 2 ^ (e - 3) := by
  have hlog := h.log2_lt
  have hlow := h.le
  obtain ⟨t, ht⟩ : ∃ t, totalExponent m e = t := ⟨_, rfl⟩
  have htotal : t = (m.log2 + 1 : Nat) + e := ht.symm
  obtain ⟨l, hl⟩ : ∃ l, (t * 30103).fdiv 100000 = l := ⟨_, rfl⟩
  obtain ⟨hcoarse, hfine⟩ := digits_of_bits (by omega) hl
  have hgrid : coarseGrid m e = l + 2 := by rw [coarseGrid, ht, hl]
  rw [hgrid]
  constructor
  · have hm : (m : ℚ) < 2 ^ (m.log2 + 1) := by exact_mod_cast Nat.lt_log2_self
    have hten : (0 : ℚ) < 10 ^ (l + 1) := zpow_pos (by norm_num) _
    calc 2 * (m * 2 ^ e) < (2 : ℚ) * (2 ^ (m.log2 + 1) * 2 ^ e) := by gcongr
      _ = 4 * 2 ^ (t - 1) := by
        rw [htotal, zpow_sub₀ two_ne_zero, zpow_add₀ two_ne_zero, zpow_natCast]
        ring
      _ ≤ 4 * 10 ^ (l + 1) := by gcongr
      _ < 10 * 10 ^ (l + 1) := by linarith
      _ = 10 ^ (l + 2) := by
        rw [← zpow_one_add₀ (by norm_num)]
        congr 1
        ring
  · calc (10 : ℚ) ^ (l + 2 - 23)
      _ = 10 ^ l / 10 ^ 21 := by
        rw [← zpow_natCast, ← zpow_sub₀ (by norm_num)]
        congr 1
        ring
      _ ≤ 2 ^ (t + 1) / 2 ^ 57 := by
        gcongr
        norm_num
      _ = 2 ^ (t - 56) := by
        rw [← zpow_natCast, ← zpow_sub₀ two_ne_zero]
        congr 1
        ring
      _ ≤ 2 ^ (e - 3) := zpow_le_zpow_right₀ (by norm_num) (by omega)

private theorem found_last (h : x.toModel.unpack = .finite .positive m e hm) :
    found x m e (coarseGrid m e - (23 : Nat)) ≠ none := by
  have hcanonical := canonical_of_unpack h
  have hfine := (coarseGrid_bounds hcanonical (exponent_le_of_unpack h)).2
  obtain ⟨low, hlow, hhigh, -, hnone⟩ := found_neighbours x m e (coarseGrid m e - (23 : Nat))
  rw [← value_onGrid] at hlow
  refine fun hfail => (hnone hfail).1 ((toFloat_eq_iff h _).2 (hcanonical.rounds_of_near hlow ?_))
  rw [value_onGrid]
  push_cast at hhigh hfine ⊢
  linarith

private theorem lt_coarseGrid (h : x.toModel.unpack = .finite .positive m e hm) {d : Decimal} (hd : d.toFloat = x)
    {units : Nat} {grid : ℤ} (hunits : d.value = units * 10 ^ grid) : grid < coarseGrid m e := by
  have hcoarse := (coarseGrid_bounds (canonical_of_unpack h) (exponent_le_of_unpack h)).1
  have hpos : (0 : ℚ) < m * 2 ^ e := mul_pos (by exact_mod_cast hm) (two_zpow_pos e)
  obtain ⟨hge, hle⟩ := ((toFloat_eq_iff h d).1 hd).bounds hpos
  have hunit : (1 : ℚ) ≤ units := by
    exact_mod_cast Nat.one_le_iff_ne_zero.2 fun hzero => by simp [hunits, hzero] at hge; linarith
  have hten : (0 : ℚ) < 10 ^ grid := zpow_pos (by norm_num) grid
  have hlt : (10 : ℚ) ^ grid < 10 ^ coarseGrid m e := by
    calc (10 : ℚ) ^ grid ≤ units * 10 ^ grid := le_mul_of_one_le_left hten.le hunit
      _ = d.value := hunits.symm
      _ ≤ 2 * (m * 2 ^ e) := hle
      _ < 10 ^ coarseGrid m e := hcoarse
  exact (zpow_lt_zpow_iff_right₀ (by norm_num)).1 hlt

/-- The first success of a search. -/
private theorem findSome?_range {α : Type} {f : Nat → Option α} {n : Nat} {a : α}
    (h : (List.range n).findSome? f = some a) : ∃ i, f i = some a ∧ ∀ k, f k ≠ none → i ≤ k := by
  obtain ⟨before, i, after, hrange, hi, hnone⟩ := List.findSome?_eq_some_iff.1 h
  refine ⟨i, hi, fun k hk => Nat.le_of_not_lt fun hlt => ?_⟩
  have hin : i < n := List.mem_range.1 (hrange ▸ List.mem_append_right _ List.mem_cons_self)
  have hmem : k ∈ before ++ i :: after := hrange ▸ List.mem_range.2 (hlt.trans hin)
  -- what comes before `k` in the range is less than `k`
  have hsorted : (before ++ i :: after).Pairwise (· < ·) := hrange ▸ List.pairwise_lt_range
  rcases List.mem_append.1 hmem with hbefore | hlater
  · exact hk (hnone k hbefore)
  · rcases List.mem_cons.1 hlater with rfl | hafter
    · exact Nat.lt_irrefl _ hlt
    · exact Nat.lt_asymm hlt (List.rel_of_pairwise_cons (List.pairwise_append.1 hsorted).2.1 hafter)

/-- The shortest decimal is next to the number on some grid, and there is none that reads back on a coarser grid. -/
theorem shortest_coarsest (h : x.toModel.unpack = .finite .positive m e hm) : ∃ (grid : ℤ) (low best : Nat),
    (low * 10 ^ grid ≤ (m * 2 ^ e : ℚ) ∧ (m * 2 ^ e : ℚ) < (low + 1) * 10 ^ grid) ∧
      (best = low ∨ best = low + 1) ∧ shortest x = onGrid grid best ∧
      ∀ {d : Decimal} {units : Nat} {other : ℤ}, d.toFloat = x → d.value = units * 10 ^ other → other ≤ grid := by
  rw [shortest_eq h]
  cases hsearch : (List.range searchedGrids).findSome? fun (steps : Nat) => found x m e (coarseGrid m e - steps) with
  | none => exact absurd (List.findSome?_eq_none_iff.1 hsearch 23 (List.mem_range.2 (by decide))) (found_last h)
  | some d =>
    obtain ⟨steps, hd, hfirst⟩ := findSome?_range hsearch
    obtain ⟨low, hlow, hhigh, hfound, -⟩ := found_neighbours x m e (coarseGrid m e - steps)
    obtain ⟨best, hbest, rfl⟩ := hfound d hd
    refine ⟨coarseGrid m e - steps, low, best, ⟨hlow, hhigh⟩, hbest, rfl, fun {d units other} hd hunits => ?_⟩
    have hother := lt_coarseGrid h hd hunits
    obtain ⟨k, hk⟩ : ∃ k : Nat, other = coarseGrid m e - k := ⟨(coarseGrid m e - other).toNat, by omega⟩
    have hsteps := hfirst k (hk ▸ found_ne_none h hd hunits)
    omega

end Decimal

end Treewalk
