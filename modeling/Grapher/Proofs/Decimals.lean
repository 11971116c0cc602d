import Grapher.Decimal.Basic
import Grapher.Proofs.RoundedQuotients

set_option relaxedAutoImplicit false
set_option autoImplicit false

/-!
# Decimals are read as the nearest numbers

A decimal is read as the number that is nearest to it, or as an infinite one if it is too large. If
its digits fit and its power of ten is small, both are numbers without rounding, and one
multiplication or division rounds once. Otherwise an exact product or quotient is rounded. Where the
power of ten is so large that it need not be computed, the result is infinite or zero, and so is the
nearest number.

## Main definitions

* `Decimal.amount` — the value of a decimal.

## Main results

* `Binary64.ofScientific_isNearest` — digits and a power of ten are rounded once.
* `Decimal.toFloat_isNearest` — a decimal is read as the nearest number.
-/

namespace Grapher

namespace Binary64

open Float.Model (UnpackedFloat Format)

/-! ## Powers of ten without rounding -/

/-- Whether an unpacked number is a given whole number. -/
def isWhole (n : ℕ) : UnpackedFloat → Bool
  | .finite .positive m e _ => m * 2 ^ e.toNat == n * 2 ^ (-e).toNat
  | _ => false

/-- A power with a negative exponent is what its inverse lacks. -/
theorem zpow_mul_pow_toNat {b : ℚ} (hb : b ≠ 0) (e : ℤ) : b ^ e * b ^ (-e).toNat = b ^ e.toNat := by
  rw [← zpow_natCast, ← zpow_natCast, ← zpow_add₀ hb]
  congr 1
  omega

theorem amount_of_isWhole {n : ℕ} {u : UnpackedFloat} (h : isWhole n u) :
    u.isFinite ∧ amount u = n := by
  unfold isWhole at h
  split at h
  · next m e hm =>
    refine ⟨rfl, ?_⟩
    have hnat : (m : ℚ) * 2 ^ e.toNat = n * 2 ^ (-e).toNat := by exact_mod_cast beq_iff_eq.1 h
    rw [← zpow_mul_pow_toNat two_ne_zero, ← mul_assoc] at hnat
    exact mul_right_cancel₀ (by positivity) hnat
  · cases h

/-- The small powers of ten are numbers without rounding. -/
theorem isWhole_powersOfTen : ∀ e (h : e < Float.exactlyRepresentablePowersOfTen.size),
    isWhole (10 ^ e) Float.exactlyRepresentablePowersOfTen[e].toModel.unpack := by
  decide +kernel

theorem value_powersOfTen {e : ℕ} (h : e < Float.exactlyRepresentablePowersOfTen.size) :
    Float.exactlyRepresentablePowersOfTen[e].isFinite ∧
      value Float.exactlyRepresentablePowersOfTen[e] = 10 ^ e := by
  obtain ⟨hfinite, hamount⟩ := amount_of_isWhole (isWhole_powersOfTen e h)
  exact ⟨hfinite, by rw [value, hamount]; norm_cast⟩

/-! ## Powers of ten that are out of range -/

/-- What has passed the top becomes infinite. -/
theorem infinity_isNearest {q : ℚ} (h : top ≤ q) :
    IsNearest (Float.ofModel (Float.Model.pack (.infinity .positive))) q := by
  have hunpack := unpack_pack_infinity .positive
  have hnearest : top ≤ nearest q := nearest_top ▸ nearest_mono h
  refine ⟨?_, ?_⟩
  · change (Float.Model.pack (.infinity .positive)).unpack.isNaN = false
    rw [hunpack]
    rfl
  · change amount (Float.Model.pack (.infinity .positive)).unpack = _
    rw [hunpack]
    exact (clamp_signed .positive hnearest).symm

/-- What is far below the smallest unit becomes zero. -/
theorem rounds_zero_of_tiny {q : ℚ} (hq : 0 ≤ q) (h : q < 2 ^ (-1076 : ℤ)) :
    Rounds (.zero .positive) q := by
  refine ⟨rfl, trivial, ?_⟩
  rw [nearest_of_nonneg hq]
  rcases hq.eq_or_lt with rfl | hpos
  · exact nearestMagnitude_zero.symm
  have hlog : Int.log 2 q < -1076 :=
    (Int.lt_zpow_iff_log_lt (by norm_num) hpos).1 (by exact_mod_cast h)
  have hunit : unit q = -1074 := max_eq_right (by omega)
  have hquarter : (2 : ℚ) ^ (-1076 : ℤ) = 1 / 4 * 2 ^ unit q := by
    rw [hunit, show (-1076 : ℤ) = -2 + -1074 by norm_num, zpow_add₀ two_ne_zero]
    norm_num
  have hsmall : q / 2 ^ unit q < 1 / 4 := (div_lt_iff₀ (unit_pos q)).2 (hquarter ▸ h)
  have hdigits : nearestEven (q / 2 ^ unit q) = 0 := by
    refine nearestEven_of_abs_sub_lt ?_
    rw [Int.cast_zero, sub_zero, abs_of_nonneg (div_nonneg hq (unit_pos q).le)]
    linarith
  rw [nearestMagnitude, hdigits, Int.cast_zero, zero_mul]
  rfl

/-- A whole number that is divided by a power of ten of more digits than it has itself, and more
than numbers can have, is far below the smallest unit. -/
theorem natCast_mul_ten_zpow_lt {n : ℕ} {e : ℤ} (h : e < -((2 : ℤ) ^ 11 + n.log2)) :
    (n : ℚ) * 10 ^ e < 2 ^ (-1076 : ℤ) := by
  obtain ⟨k, rfl⟩ : ∃ k : ℕ, e = -k := ⟨e.natAbs, by omega⟩
  have hdigits : (n : ℚ) < 2 ^ ((n.log2 : ℤ) + 1) := by exact_mod_cast Nat.lt_log2_self
  have hpower : (10 : ℚ) ^ (-(k : ℤ)) ≤ 2 ^ (-(k : ℤ)) := by
    rw [zpow_neg, zpow_neg, zpow_natCast, zpow_natCast]
    exact inv_anti₀ (by positivity) (pow_le_pow_left₀ (by norm_num) (by norm_num) k)
  calc (n : ℚ) * 10 ^ (-(k : ℤ)) ≤ n * 2 ^ (-(k : ℤ)) :=
        mul_le_mul_of_nonneg_left hpower (Nat.cast_nonneg n)
    _ < 2 ^ ((n.log2 : ℤ) + 1) * 2 ^ (-(k : ℤ)) := mul_lt_mul_of_pos_right hdigits (by positivity)
    _ = 2 ^ ((n.log2 : ℤ) + 1 - k) := by rw [← zpow_add₀ two_ne_zero, sub_eq_add_neg]
    _ ≤ 2 ^ (-1076 : ℤ) := zpow_le_zpow_right₀ one_le_two (by omega)

/-- A power of ten of more digits than numbers can have is beyond the top. -/
theorem top_le_natCast_mul_ten_zpow {n : ℕ} (hn : n ≠ 0) {e : ℤ} (h : (2 : ℤ) ^ 11 < e) :
    top ≤ n * 10 ^ e := by
  obtain ⟨k, rfl⟩ : ∃ k : ℕ, e = k := ⟨e.toNat, by omega⟩
  have hone : (1 : ℚ) ≤ n := by exact_mod_cast Nat.one_le_iff_ne_zero.2 hn
  calc top ≤ (2 : ℚ) ^ (k : ℤ) := zpow_le_zpow_right₀ one_le_two (by omega)
    _ ≤ 10 ^ (k : ℤ) := by
      rw [zpow_natCast, zpow_natCast]
      exact pow_le_pow_left₀ (by norm_num) (by norm_num) k
    _ ≤ n * 10 ^ (k : ℤ) := le_mul_of_one_le_left (by positivity) hone

/-! ## Rounding once -/

/-- **Digits and a power of ten are rounded once.** -/
theorem ofScientific_isNearest (n : ℕ) (e : ℤ) :
    IsNearest (Float.ofModel (Float.Model.ofScientific n e)) (n * 10 ^ e) := by
  change IsNearest (Float.ofModel (Float.Model.pack
    (UnpackedFloat.ofScientific Format.binary64 n e))) _
  by_cases hn : n = 0
  · subst hn
    rw [UnpackedFloat.ofScientific, dif_pos rfl, Nat.cast_zero, zero_mul]
    exact (rounds_zero .positive).isNearest
  by_cases hlarge : e > 2 ^ 11
  · rw [UnpackedFloat.ofScientific, dif_neg hn, if_pos hlarge]
    exact infinity_isNearest (top_le_natCast_mul_ten_zpow hn hlarge)
  rcases le_or_gt 0 e with hnonneg | hneg
  · obtain ⟨k, rfl⟩ := Int.eq_ofNat_of_zero_le hnonneg
    have hrounds := rounds_ofScientific hn (t := k) (by omega)
    rw [← zpow_natCast] at hrounds
    exact hrounds.isNearest
  by_cases hsmall : e < -((2 : ℤ) ^ 11 + n.log2)
  · rw [UnpackedFloat.ofScientific, dif_neg hn, if_neg hlarge, if_pos hsmall]
    exact (rounds_zero_of_tiny (by positivity) (natCast_mul_ten_zpow_lt hsmall)).isNearest
  · obtain ⟨k, rfl⟩ : ∃ k : ℕ, e = -k := ⟨e.natAbs, by omega⟩
    have hpower : 0 < 10 ^ (- -(k : ℤ)).toNat := by positivity
    have hquotient : amount (.finite .positive n 0 (Nat.pos_of_ne_zero hn)) /
        amount (.finite .positive (10 ^ (- -(k : ℤ)).toNat) 0 hpower) = n * 10 ^ (-(k : ℤ)) := by
      simp [amount, signed, div_eq_mul_inv]
    rw [UnpackedFloat.ofScientific, dif_neg hn, if_neg hlarge, if_neg hsmall,
      if_neg (not_le.2 hneg), ← hquotient]
    exact (rounds_div_finite .positive .positive _ hpower).isNearest

end Binary64

/-! ## Decimals -/

namespace Decimal

open Binary64

/-- The value of a decimal. -/
def amount (d : Decimal) : ℚ :=
  d.coefficient * 10 ^ d.exponent

/-- **A decimal is read as the nearest number.** -/
theorem toFloat_isNearest (d : Decimal) : IsNearest d.toFloat d.amount := by
  obtain ⟨n, e⟩ := d
  change IsNearest (Float.ofScientific n (e < 0) e.natAbs) (n * 10 ^ e)
  unfold Float.ofScientific
  split
  · next hfast =>
    obtain ⟨hfinite, hvalue⟩ := value_toFloat hfast.1
    have htable : e.natAbs < Float.exactlyRepresentablePowersOfTen.size :=
      Nat.lt_succ_of_le hfast.2
    obtain ⟨hpower, hten⟩ := value_powersOfTen htable
    dsimp only
    by_cases hneg : e < 0
    · have hquotient := div_isNearest hfinite hpower (by rw [hten]; positivity)
      have hscale : (n : ℚ) / 10 ^ e.natAbs = n * 10 ^ e := by
        rw [div_eq_mul_inv, ← zpow_natCast, ← zpow_neg, Int.ofNat_natAbs_of_nonpos hneg.le, neg_neg]
      rw [hvalue, hten, hscale] at hquotient
      rwa [if_pos (decide_eq_true hneg)]
    · have hproduct := mul_isNearest hfinite hpower
      have hscale : (10 : ℚ) ^ e.natAbs = 10 ^ e := by
        rw [← zpow_natCast, Int.natAbs_of_nonneg (not_lt.1 hneg)]
      rw [hvalue, hten, hscale] at hproduct
      rwa [if_neg (by simpa using hneg)]
  · have hexponent :
        (if decide (e < 0) then Int.negOfNat e.natAbs else Int.ofNat e.natAbs) = e := by
      by_cases hneg : e < 0
      · rw [if_pos (decide_eq_true hneg), Int.negOfNat_eq, Int.ofNat_eq_natCast]
        omega
      · rw [if_neg (by simpa using hneg), Int.ofNat_eq_natCast]
        omega
    dsimp only
    rw [hexponent]
    exact ofScientific_isNearest n e

end Decimal

end Grapher
