import Mathlib
import Treewalk.Value

/-!
# The parts of a double

A double is its sign, its exponent and its mantissa.  Taking a finite double apart and putting it together again gives
the double back, also with another sign, and its mantissa and exponent are the canonical ones.

* `Canonical`: a mantissa and an exponent are what doubles have.
* `canonical_of_unpack`: those of a finite double are.
* `pack_of_unpack`, `unpack_pack_of_unpack`: putting the parts together, with any sign.
* `Canonical.unpack_pack`: putting canonical parts together, which may be too large.
-/

namespace Treewalk

open Float.Model Float.Model.UnpackedFloat

/-! ### The fields of a finite double -/

/-- The mantissa and the exponent that the two fields of a finite double stand for.  In a subnormal one the first bit
of the mantissa is not implied. -/
private def Fields (exponent : BitVec 11) (mantissa : BitVec 52) (m : Nat) (e : Int) : Prop :=
  exponent.toNat ≤ 2046 ∧
    ((exponent.toNat = 0 ∧ 0 < mantissa.toNat ∧ m = mantissa.toNat ∧ e = -1074) ∨
      (0 < exponent.toNat ∧ m = 2 ^ 52 + mantissa.toNat ∧ e = exponent.toNat - 1075))

private theorem toNat_implicit (v : BitVec 52) : (1#1 ++ v).toNat = 2 ^ 52 + v.toNat := by
  rw [BitVec.toNat_append, ← Nat.shiftLeft_add_eq_or_of_lt v.isLt]
  rfl

private theorem eq_neg_one_iff (v : BitVec 11) : v = -1#11 ↔ v.toNat = 2047 := by
  rw [← BitVec.toNat_inj]
  rfl

private theorem eq_zero_iff {n : Nat} (v : BitVec n) : v = 0#n ↔ v.toNat = 0 := by
  rw [← BitVec.toNat_inj, BitVec.toNat_zero]

private theorem unpack_packComponents_iff {s s' : Sign} {exponent : BitVec 11} {mantissa : BitVec 52} {m : Nat}
    {e : Int} {hm : 0 < m} :
    UnpackedFloat.unpack Format.binary64 (packComponents Format.binary64 s exponent mantissa) = .finite s' m e hm ↔
      s' = s ∧ Fields exponent mantissa m e := by
  have hlt : exponent.toNat < 2 ^ 11 := exponent.isLt
  have hbias : (Format.binary64.exponentBias : Int) + Format.binary64.mantissaBitsWithoutImplicit = 1075 := rfl
  unfold UnpackedFloat.unpack Fields
  simp only [unpackMantissa_packComponents, unpackExponent_packComponents, unpackSign_packComponents,
    Sign.ofBitVec_toBitVec, eq_neg_one_iff, eq_zero_iff, hbias]
  -- the exponents are those of the infinite ones and the NaN, of the subnormals and zero, and of the others
  by_cases hone : exponent.toNat = 2047
  · rw [if_pos hone]
    split <;> simp [hone]
  rw [if_neg hone]
  by_cases hzero : exponent.toNat = 0
  · rw [if_pos hzero]
    by_cases hnone : mantissa.toNat = 0
    · simp [hnone, hzero]
    · rw [dif_neg hnone, UnpackedFloat.finite.injEq]
      constructor
      · rintro ⟨rfl, rfl, rfl⟩
        exact ⟨rfl, by omega, by omega⟩
      · rintro ⟨rfl, -, h⟩
        exact ⟨rfl, by omega, by omega⟩
  · rw [if_neg hzero, UnpackedFloat.finite.injEq, toNat_implicit]
    constructor
    · rintro ⟨rfl, rfl, rfl⟩
      exact ⟨rfl, by omega, by omega⟩
    · rintro ⟨rfl, -, h⟩
      exact ⟨rfl, by omega, by omega⟩

private theorem pack_of_fields {exponent : BitVec 11} {mantissa : BitVec 52} {m : Nat} {e : Int}
    (h : Fields exponent mantissa m e) (s : Sign) (hm : 0 < m) :
    UnpackedFloat.pack Format.binary64 (.finite s m e hm) = packComponents Format.binary64 s exponent mantissa := by
  have hbias : (Format.binary64.exponentBias : Int) = 1023 := rfl
  have hbits : ((52 : Nat) : Int) = 52 := rfl
  have hmantissa : mantissa.toNat < 2 ^ 52 := mantissa.isLt
  unfold UnpackedFloat.pack
  simp only [hbias, Format.mantissaBits]
  obtain ⟨hle, ⟨hzero, hpos, rfl, rfl⟩ | ⟨hpos, rfl, rfl⟩⟩ := h
  · have hlog : mantissa.toNat.log2 < 52 := (Nat.log2_lt (by omega)).2 hmantissa
    rw [if_neg (by decide), if_neg (by omega), (eq_zero_iff exponent).2 hzero, BitVec.ofNat_toNat, BitVec.setWidth_eq]
  · have hlog : (2 ^ 52 + mantissa.toNat).log2 = 52 := (Nat.log2_eq_iff (by omega)).2 ⟨by omega, by omega⟩
    have hexponent : ((exponent.toNat : Int) - 1075 + 1023 + 52).toNat = exponent.toNat := by omega
    have hrest : BitVec.ofNat 52 (2 ^ 52 + mantissa.toNat) = mantissa := by
      rw [← BitVec.toNat_inj, BitVec.toNat_ofNat]
      omega
    rw [hbits, hexponent, if_neg (by omega), if_pos (by omega), BitVec.ofNat_toNat, BitVec.setWidth_eq, hrest]

/-! ### Doubles -/

/-- The exponent that the format wants leaves 53 bits to the mantissa, unless it is the smallest one. -/
theorem targetExponent_eq (m : Nat) (e : Int) :
    Format.binary64.targetExponent (totalExponent m e) = max (m.log2 + e - 52) (-1074) := by
  have hminimum : Format.binary64.minExponent = -1074 := rfl
  have hbits : (Format.binary64.mantissaBits : Int) = 53 := rfl
  unfold Format.targetExponent totalExponent
  rw [hminimum, hbits]
  omega

/-- A mantissa and an exponent as a finite double has them: the exponent is the one that the format wants for a number
of this size. -/
structure Canonical (m : Nat) (e : Int) : Prop where
  pos : 0 < m
  le : -1074 ≤ e
  target : Format.binary64.targetExponent (totalExponent m e) = e

theorem Canonical.log2_lt {m : Nat} {e : Int} (h : Canonical m e) : m.log2 < 53 := by
  have htarget := h.target
  rw [targetExponent_eq] at htarget
  omega

/-- The mantissa has no more bits than there are places for. -/
theorem Canonical.lt {m : Nat} {e : Int} (h : Canonical m e) : m < 2 ^ 53 :=
  (Nat.log2_lt h.pos.ne').1 h.log2_lt

/-- Only with the smallest exponent the mantissa has fewer bits. -/
theorem Canonical.le_mantissa {m : Nat} {e : Int} (h : Canonical m e) (he : -1074 < e) : 2 ^ 52 ≤ m := by
  have htarget := h.target
  rw [targetExponent_eq] at htarget
  exact (Nat.le_log2 h.pos.ne').1 (by omega)

theorem canonical_of_lt {m : Nat} {e : Int} (hpos : 0 < m) (hlt : m < 2 ^ 53) (hle : -1074 ≤ e)
    (hnormal : -1074 < e → 2 ^ 52 ≤ m) : Canonical m e := by
  have hlog : m.log2 < 53 := (Nat.log2_lt hpos.ne').2 hlt
  have hlow : -1074 < e → 52 ≤ m.log2 := fun he => (Nat.le_log2 hpos.ne').2 (hnormal he)
  refine ⟨hpos, hle, ?_⟩
  rw [targetExponent_eq]
  omega

private theorem Fields.canonical {exponent : BitVec 11} {mantissa : BitVec 52} {m : Nat} {e : Int}
    (h : Fields exponent mantissa m e) : Canonical m e := by
  have hmantissa : mantissa.toNat < 2 ^ 52 := mantissa.isLt
  unfold Fields at h
  exact canonical_of_lt (by omega) (by omega) (by omega) (by omega)

variable {a : Float.Model} {s : Sign} {m : Nat} {e : Int} {hm : 0 < m}

private theorem fields_of_unpack (h : a.unpack = .finite s m e hm) :
    ∃ exponent mantissa, a.toBits.toBitVec = packComponents Format.binary64 s exponent mantissa ∧
      Fields exponent mantissa m e := by
  have hbits := @packComponents_unpackSign_unpackExponent_unpackMantissa Format.binary64 a.toBits.toBitVec
  rw [Float.Model.unpack, ← hbits] at h
  obtain ⟨hs, hfields⟩ := unpack_packComponents_iff.1 h
  exact ⟨_, _, by rw [hs, hbits], hfields⟩

/-- The parts of a double make it up. -/
theorem pack_of_unpack {u : UnpackedFloat} (h : a.unpack = u) : Float.Model.pack u = a := by
  have hpack := pack_unpack_of_valid a.valid
  rw [Float.Model.unpack] at h
  rw [h] at hpack
  obtain ⟨bits, valid⟩ := a
  simp only [Float.Model.pack, hpack]

/-- The mantissa and the exponent of a finite double are canonical. -/
theorem canonical_of_unpack (h : a.unpack = .finite s m e hm) : Canonical m e := by
  obtain ⟨_, _, -, hfields⟩ := fields_of_unpack h
  exact hfields.canonical

private theorem Canonical.fields (h : Canonical m e) (hle : e ≤ 971) :
    ∃ exponent mantissa, Fields exponent mantissa m e := by
  have hlt := h.lt
  have hnormal := h.le_mantissa
  obtain hsmall | hlarge := Nat.lt_or_ge m (2 ^ 52)
  · have he : e = -1074 := by have := h.le; omega
    have hmantissa : (BitVec.ofNat 52 m).toNat = m := by rw [BitVec.toNat_ofNat, Nat.mod_eq_of_lt hsmall]
    exact ⟨0#11, BitVec.ofNat 52 m, by decide, .inl ⟨rfl, hmantissa.symm ▸ h.pos, hmantissa.symm, he⟩⟩
  · have he := h.le
    refine ⟨BitVec.ofNat 11 (e + 1075).toNat, BitVec.ofNat 52 (m - 2 ^ 52), ?_⟩
    have hexponent : (e + 1075).toNat % 2 ^ 11 = (e + 1075).toNat := Nat.mod_eq_of_lt (by omega)
    have hmantissa : (m - 2 ^ 52) % 2 ^ 52 = m - 2 ^ 52 := Nat.mod_eq_of_lt (by omega)
    simp only [Fields, BitVec.toNat_ofNat, hexponent, hmantissa]
    omega

/-- Packing a canonical number and unpacking it gives the number back, if it is not too large. -/
theorem Canonical.unpack_pack (h : Canonical m e) (s : Sign) :
    (Float.Model.pack (.finite s m e h.pos)).unpack = .finite s m e h.pos ∨
      (Float.Model.pack (.finite s m e h.pos)).unpack = .infinity s := by
  obtain hle | hlarge : e ≤ 971 ∨ 971 < e := by omega
  · left
    obtain ⟨exponent, mantissa, hfields⟩ := h.fields hle
    show UnpackedFloat.unpack Format.binary64 (UnpackedFloat.pack Format.binary64 (.finite s m e h.pos)) = _
    rw [pack_of_fields hfields, unpack_packComponents_iff]
    exact ⟨rfl, hfields⟩
  · right
    have htop : 2 ^ 11 ≤ (e + (1023 : Nat) + (52 : Nat)).toNat + 1 := by omega
    have hinfinite : UnpackedFloat.pack Format.binary64 (.finite s m e h.pos) = packedInfinity Format.binary64 s :=
      if_pos htop
    show UnpackedFloat.unpack Format.binary64 (UnpackedFloat.pack Format.binary64 (.finite s m e h.pos)) = _
    rw [hinfinite]
    cases s <;> rfl

/-- There is a largest exponent. -/
theorem exponent_le_of_unpack (h : a.unpack = .finite s m e hm) : e ≤ 971 := by
  obtain ⟨exponent, mantissa, -, hfields⟩ := fields_of_unpack h
  unfold Fields at hfields
  omega

/-- A finite double may be given another sign. -/
theorem unpack_pack_of_unpack (h : a.unpack = .finite s m e hm) (s' : Sign) :
    (Float.Model.pack (.finite s' m e hm)).unpack = .finite s' m e hm := by
  obtain ⟨exponent, mantissa, -, hfields⟩ := fields_of_unpack h
  show UnpackedFloat.unpack Format.binary64 (UnpackedFloat.pack Format.binary64 (.finite s' m e hm)) = _
  rw [pack_of_fields hfields, unpack_packComponents_iff]
  exact ⟨rfl, hfields⟩

/-- The absolute value of a finite double has the other sign at most. -/
theorem unpack_abs {x : Float} (h : x.toModel.unpack = .finite s m e hm) :
    x.abs.toModel.unpack = .finite .positive m e hm := by
  have hpositive := unpack_pack_of_unpack h .positive
  show (Float.Model.pack x.toModel.unpack.abs).unpack = _
  rw [h]
  exact hpositive

theorem unpack_pack_zero (s : Sign) : (Float.Model.pack (.zero s)).unpack = .zero s := by
  cases s <;> rfl

end Treewalk
