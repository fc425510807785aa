import Treewalk.Proofs.Decimal.Parts

/-!
# Rounding

What it means that a number is rounded to a double: the size of the number determines a power of two, and the number is
rounded to the nearest multiple of this power, of two that are equally near to the even one.  This is a relation of
rational numbers, without a largest one, and says nothing of how the result is found.

* `Rounds`: a number is rounded to another one.
* `Rounds.mono`: rounding keeps the order, so that between two numbers that are rounded to the same all others are too.
* `Canonical.rounds`, `Canonical.rounds_of_near`: a double is rounded to itself, and what is only a little less than it
  is rounded to it too.
-/

namespace Treewalk

variable {v v' r r' : ℚ} {t t' e e' : ℤ} {n n' m m' : Nat}

/-! ### Nearest whole numbers -/

/-- The whole number is nearest to `q`, and of two that are it is the even one. -/
structure Nearest (n : Nat) (q : ℚ) : Prop where
  le : |q - n| ≤ 1 / 2
  even : |q - n| = 1 / 2 → Even n

private theorem Nearest.mono {q q' : ℚ} (h : Nearest n q) (h' : Nearest n' q') (hle : q ≤ q') : n ≤ n' := by
  by_contra hlt
  have hsucc : (n' : ℚ) + 1 ≤ n := by exact_mod_cast Nat.lt_of_not_le hlt
  have hlow := (abs_le.1 h.le).1
  have hhigh := (abs_le.1 h'.le).2
  -- both are halfway between two neighbours
  have hn : (n : ℚ) = (n' + 1 : Nat) := by push_cast; linarith
  have heven := h.even (abs_eq (by norm_num) |>.2 (.inr (by linarith)))
  have heven' := h'.even (abs_eq (by norm_num) |>.2 (.inl (by linarith)))
  rw [Nat.cast_inj.1 hn, Nat.even_add_one] at heven
  exact heven heven'

theorem nearest_of_abs_lt {q : ℚ} (h : |q - n| < 1 / 2) : Nearest n q :=
  ⟨h.le, fun heq => absurd heq h.ne⟩

theorem nearest_self (n : Nat) : Nearest n n :=
  nearest_of_abs_lt (by norm_num)

/-! ### Powers of two -/

theorem two_zpow_pos (t : ℤ) : (0 : ℚ) < 2 ^ t :=
  zpow_pos two_pos t

theorem two_zpow_add (t : ℤ) (k : Nat) : (2 : ℚ) ^ (t + k) = (2 ^ k : Nat) * 2 ^ t := by
  rw [zpow_add₀ two_ne_zero, zpow_natCast, mul_comm]
  push_cast
  rfl

theorem two_zpow_le {t u : ℤ} (h : t ≤ u) : (2 : ℚ) ^ t ≤ 2 ^ u :=
  zpow_le_zpow_right₀ one_le_two h

/-! ### Rounding -/

/-- The exponent that the format wants for numbers of the size of `v`. -/
structure Grain (v : ℚ) (t : ℤ) : Prop where
  le : -1074 ≤ t
  lt : v < 2 ^ (t + 53)
  normal : -1074 < t → 2 ^ (t + 52) ≤ v

private theorem Grain.mono (h : Grain v t) (h' : Grain v' t') (hle : v ≤ v') : t ≤ t' := by
  by_contra hlt
  have hlow := h.normal (by have := h'.le; omega)
  have hpower : (2 : ℚ) ^ (t' + 53) ≤ 2 ^ (t + 52) := two_zpow_le (by omega)
  exact absurd h'.lt (not_lt.2 (hpower.trans (hlow.trans hle)))

/-- The number `v` is rounded to `r`, a multiple of the power of two that goes with its size.  There is no largest
number here. -/
def Rounds (v r : ℚ) : Prop :=
  ∃ t : ℤ, ∃ n : Nat, Grain v t ∧ Nearest n (v / 2 ^ t) ∧ r = n * 2 ^ t

/-- Rounding goes up to the next power of two at most. -/
theorem Grain.nearest_le (h : Grain v t) (hn : Nearest n (v / 2 ^ t)) : n ≤ 2 ^ 53 := by
  refine hn.mono (nearest_self (2 ^ 53)) ?_
  rw [div_le_iff₀ (two_zpow_pos t), ← two_zpow_add]
  exact h.lt.le

theorem Grain.le_nearest (h : Grain v t) (hn : Nearest n (v / 2 ^ t)) (ht : -1074 < t) :
    2 ^ 52 ≤ n := by
  refine (nearest_self (2 ^ 52)).mono hn ?_
  rw [le_div_iff₀ (two_zpow_pos t), ← two_zpow_add]
  exact h.normal ht

theorem Rounds.mono (h : Rounds v r) (h' : Rounds v' r') (hle : v ≤ v') : r ≤ r' := by
  obtain ⟨t, n, hgrain, hnearest, rfl⟩ := h
  obtain ⟨t', n', hgrain', hnearest', rfl⟩ := h'
  have hpos := two_zpow_pos t
  obtain hlt | rfl := (hgrain.mono hgrain' hle).lt_or_eq
  · have hn : (n : ℚ) ≤ (2 ^ 53 : Nat) := by exact_mod_cast hgrain.nearest_le hnearest
    have hn' : ((2 ^ 52 : Nat) : ℚ) ≤ n' := by
      exact_mod_cast hgrain'.le_nearest hnearest' (by have := hgrain.le; omega)
    calc (n : ℚ) * 2 ^ t ≤ (2 ^ 53 : Nat) * 2 ^ t := by gcongr
      _ = 2 ^ (t + 53) := (two_zpow_add t 53).symm
      _ ≤ 2 ^ (t' + 52) := two_zpow_le (by omega)
      _ = (2 ^ 52 : Nat) * 2 ^ t' := two_zpow_add t' 52
      _ ≤ n' * 2 ^ t' := by gcongr
  · have hn : (n : ℚ) ≤ n' := by exact_mod_cast hnearest.mono hnearest' (by gcongr)
    gcongr

theorem Rounds.unique (h : Rounds v r) (h' : Rounds v r') : r = r' :=
  (h.mono h' le_rfl).antisymm (h'.mono h le_rfl)

/-- What is not rounded to zero becomes at most twice as large, or half as large. -/
theorem Rounds.bounds (h : Rounds v r) (hr : 0 < r) : r ≤ 2 * v ∧ v ≤ 2 * r := by
  obtain ⟨t, n, -, hnearest, rfl⟩ := h
  have hpos := two_zpow_pos t
  have hn : (1 : ℚ) ≤ n := by
    exact_mod_cast Nat.one_le_iff_ne_zero.2 fun hzero => by simp [hzero] at hr
  obtain ⟨hlow, hhigh⟩ := abs_le.1 hnearest.le
  have hv : v = v / 2 ^ t * 2 ^ t := (div_mul_cancel₀ v hpos.ne').symm
  generalize v / 2 ^ t = q at *
  subst hv
  constructor <;> nlinarith

private theorem Grain.rounds (h : Grain v t) (hlow : n * 2 ^ t < v + 2 ^ t / 2) (hhigh : v < n * 2 ^ t + 2 ^ t / 2) :
    Rounds v (n * 2 ^ t) := by
  have hpos := two_zpow_pos t
  refine ⟨t, n, h, nearest_of_abs_lt ?_, rfl⟩
  rw [abs_lt, lt_sub_iff_add_lt, sub_lt_iff_lt_add, lt_div_iff₀ hpos, div_lt_iff₀ hpos]
  constructor <;> linarith

private theorem Grain.rounds_zero (h : Grain v t) (hv : 0 ≤ v) (hlt : v < 2 ^ t / 2) : Rounds v 0 := by
  have hpos := two_zpow_pos t
  have hzero : ((0 : Nat) : ℚ) * 2 ^ t = 0 := by rw [Nat.cast_zero, zero_mul]
  rw [← hzero]
  exact h.rounds (by linarith) (by linarith)

/-- What is less than half of the smallest double is rounded to zero. -/
theorem rounds_tiny (hv : 0 ≤ v) (htiny : v < 2 ^ (-1075 : ℤ)) : Rounds v 0 := by
  have hhalf : (2 : ℚ) ^ (-1075 : ℤ) = 2 ^ (-1074 : ℤ) / 2 := zpow_sub_one₀ two_ne_zero (-1074)
  have hgrain : Grain v (-1074) :=
    ⟨le_rfl, htiny.trans_le (two_zpow_le (by decide)), fun h => absurd h (lt_irrefl _)⟩
  exact hgrain.rounds_zero hv (hhalf ▸ htiny)

/-! ### Canonical numbers -/

private theorem Canonical.grain (h : Canonical m e) : Grain (m * 2 ^ e) e where
  le := h.le
  lt := by
    have hm : (m : ℚ) < (2 ^ 53 : Nat) := by exact_mod_cast h.lt
    have hscaled := mul_lt_mul_of_pos_right hm (two_zpow_pos e)
    rwa [← two_zpow_add] at hscaled
  normal he := by
    have hm : ((2 ^ 52 : Nat) : ℚ) ≤ m := by exact_mod_cast h.le_mantissa he
    have hscaled := mul_le_mul_of_nonneg_right hm (two_zpow_pos e).le
    rwa [← two_zpow_add] at hscaled

/-- A double is rounded to itself. -/
theorem Canonical.rounds (h : Canonical m e) : Rounds (m * 2 ^ e) (m * 2 ^ e) := by
  have hpos := two_zpow_pos e
  exact h.grain.rounds (by linarith) (by linarith)

/-- Two doubles have the same value only if they have the same parts. -/
theorem Canonical.eq (h : Canonical m e) (h' : Canonical m' e') (heq : (m : ℚ) * 2 ^ e = m' * 2 ^ e') :
    m = m' ∧ e = e' := by
  obtain rfl : e = e' := (h.grain.mono h'.grain heq.le).antisymm (h'.grain.mono h.grain heq.ge)
  exact ⟨by exact_mod_cast mul_right_cancel₀ (two_zpow_pos e).ne' heq, rfl⟩

/-- What is a little less than a double is rounded to it. -/
theorem Canonical.rounds_of_near (h : Canonical m e) (hle : v ≤ m * 2 ^ e) (hnear : m * 2 ^ e ≤ v + 2 ^ (e - 3)) :
    Rounds v (m * 2 ^ e) := by
  have hpos := two_zpow_pos e
  have heighth : (2 : ℚ) ^ (e - 3) = 2 ^ e / 8 := by
    rw [zpow_sub₀ two_ne_zero]
    norm_num
  rw [heighth] at hnear
  by_cases hsame : -1074 < e → 2 ^ (e + 52) ≤ v
  · have hgrain : Grain v e := ⟨h.le, hle.trans_lt h.grain.lt, hsame⟩
    exact hgrain.rounds (by linarith) (by linarith)
  · -- the double is a power of two, and below it the grain is finer
    obtain ⟨he, hlt⟩ := Classical.not_imp.1 hsame
    have hhalf : (2 : ℚ) ^ (e - 1) = 2 ^ e / 2 := zpow_sub_one₀ two_ne_zero e
    have hgrain : Grain v (e - 1) := by
      have hone : (2 : ℚ) ^ (e + 52) = (2 ^ 52 : Nat) * 2 ^ e := two_zpow_add e 52
      have hless : (2 : ℚ) ^ (e - 1 + 52) = (2 ^ 52 : Nat) * 2 ^ (e - 1) := two_zpow_add (e - 1) 52
      have hupper : (2 : ℚ) ^ (e - 1 + 53) = 2 ^ (e + 52) := by congr 1; ring
      have hnormal := h.grain.normal he
      refine ⟨by omega, by rw [hupper]; exact not_le.1 hlt, fun _ => ?_⟩
      rw [hone] at hnormal
      rw [hless, hhalf]
      push_cast at hnormal ⊢
      linarith
    have hvalue : ((2 * m : Nat) : ℚ) * 2 ^ (e - 1) = m * 2 ^ e := by
      rw [hhalf]
      push_cast
      ring
    rw [← hvalue]
    exact hgrain.rounds (by rw [hvalue, hhalf]; linarith) (by rw [hvalue, hhalf]; linarith)

end Treewalk
