import Grapher.Proofs.NearestEven
import Grapher.Proofs.Suggestions
import Mathlib

set_option relaxedAutoImplicit false
set_option autoImplicit false

/-!
# The values of binary64 numbers

What the model of binary64 does with significands and exponents, told in rational numbers. A finite
number has a value, and an infinite one counts as if it had just passed all finite ones. Of the
numbers that are no number nothing is said.

Digits that are dropped leave a trace, the first of them and whether anything stands behind it,
which tells whether the number is below, at or above the middle between two neighbours. That is all
that rounding to the nearest one needs. A number that is packed keeps its value, and becomes
infinite if it has passed all finite ones. The order of numbers is that of their values.

## Main definitions

* `Binary64.value` — the value of a number, and `Binary64.top`, that of positive infinity.
* `Binary64.Canonical`, `Binary64.Fits` — a significand and an exponent are those of a number.
* `Binary64.Represents` — what is kept of a number whose digits are dropped.
* `Binary64.IsNearest` — a number is an exact result that has been rounded once.

## Main results

* `Binary64.roundWithAccuracy_spec`, `Binary64.normalize_spec` — the model rounds to the nearest
  number.
* `Binary64.unpack_pack` — what packing keeps.
* `Binary64.unpack_of_isFinite` — the two forms of a finite number.
* `Binary64.lt_iff_value` — numbers are compared by their values.
-/

namespace Grapher.Binary64

open Float.Model (UnpackedFloat Format totalExponent)
open Float.Model.UnpackedFloat (Sign ExtendedMantissa Accuracy)

/-! ## Values -/

/-- A magnitude with a sign. -/
def signed : Sign → ℚ → ℚ
  | .positive, x => x
  | .negative, x => -x

/-- The smallest power of two that is above all finite numbers. -/
def top : ℚ := 2 ^ (1024 : ℤ)

/-- The value of an unpacked number. An infinite one counts as if it had just passed all finite
ones, and what is no number as zero. -/
def amount : UnpackedFloat → ℚ
  | .infinity sign => signed sign top
  | .notANumber => 0
  | .zero _ => 0
  | .finite sign m e _ => signed sign (m * 2 ^ e)

/-- The exponent of a finite number is that of the grid around it. -/
def Canonical : UnpackedFloat → Prop
  | .finite _ m e _ => e = unit (m * 2 ^ e)
  | _ => True

/-! ## The grid around a significand -/

section Significand

variable {x q : ℚ} {m : ℕ} {e k : ℤ}

/-- A number is as long as the powers of two around it say. -/
theorem log_eq (hlow : (2 : ℚ) ^ k ≤ x) (hhigh : x < 2 ^ (k + 1)) : Int.log 2 x = k := by
  have hx : 0 < x := (zpow_pos two_pos k).trans_le hlow
  have hle : k ≤ Int.log 2 x := (Int.zpow_le_iff_le_log (by norm_num) hx).1 (by exact_mod_cast hlow)
  have hlt : Int.log 2 x < k + 1 :=
    (Int.lt_zpow_iff_log_lt (by norm_num) hx).1 (by exact_mod_cast hhigh)
  omega

/-- A number is as long as its integral part. -/
theorem log_mul_zpow (hm : m ≠ 0) (hlow : (m : ℚ) ≤ q) (hhigh : q < m + 1) (e : ℤ) :
    Int.log 2 (q * 2 ^ e) = m.log2 + e := by
  have hpower : ∀ n : ℕ, (2 : ℚ) ^ ((n : ℤ) + e) = ((2 ^ n : ℕ) : ℚ) * 2 ^ e := fun n => by
    rw [zpow_add₀ two_ne_zero]
    norm_cast
  have he : (0 : ℚ) < 2 ^ e := zpow_pos two_pos e
  have hself : 2 ^ m.log2 ≤ m := Nat.log2_self_le hm
  have hnext : m + 1 ≤ 2 ^ (m.log2 + 1) := Nat.lt_log2_self
  refine log_eq ?_ ?_
  · rw [hpower]
    exact mul_le_mul_of_nonneg_right (le_trans (by exact_mod_cast hself) hlow) he.le
  · rw [show (m.log2 : ℤ) + e + 1 = ((m.log2 + 1 : ℕ) : ℤ) + e by push_cast; ring, hpower]
    exact mul_lt_mul_of_pos_right (hhigh.trans_le (by exact_mod_cast hnext)) he

/-- The grid around a number, by its integral part. -/
theorem unit_mul_zpow (hm : m ≠ 0) (hlow : (m : ℚ) ≤ q) (hhigh : q < m + 1) (e : ℤ) :
    unit (q * 2 ^ e) = max (m.log2 + e - 52) (-1074) := by
  rw [unit, log_mul_zpow hm hlow hhigh]

/-- The exponent that a significand should have is that of the grid. -/
theorem targetExponent_eq (m : ℕ) (e : ℤ) :
    Format.binary64.targetExponent (totalExponent m e) = max (m.log2 + e - 52) (-1074) := by
  simp only [Format.targetExponent, totalExponent, Format.mantissaBits, Format.minExponent]
  norm_num
  omega

/-- The grid around a number, by its significand. -/
theorem unit_natCast_mul_zpow (hm : m ≠ 0) (e : ℤ) :
    unit (m * 2 ^ e) = max (m.log2 + e - 52) (-1074) :=
  unit_mul_zpow hm le_rfl (by linarith) e

end Significand

/-! ## Dropped digits -/

/-- What an extended significand stands for: its digits, and where the number is among the two
halves behind them. -/
structure Represents (em : ExtendedMantissa) (q : ℚ) : Prop where
  /-- The number is not below its digits. -/
  low : (em.mantissa : ℚ) ≤ q
  /-- It is below the next digits. -/
  high : q < em.mantissa + 1
  /-- The first digit that is dropped. -/
  round : em.roundBit ↔ (em.mantissa : ℚ) + 1 / 2 ≤ q
  /-- Whether anything behind it is dropped. -/
  sticky : em.stickyBit ↔ q ≠ em.mantissa ∧ q ≠ em.mantissa + 1 / 2

namespace Represents

variable {em : ExtendedMantissa} {q : ℚ}

/-- Where no digit is dropped, nothing is lost. -/
theorem exact (m : ℕ) : Represents (.ofMantissaAndAccuracy m .exact) m :=
  ⟨le_rfl, by simp [ExtendedMantissa.ofMantissaAndAccuracy],
    by simp [ExtendedMantissa.ofMantissaAndAccuracy],
    by simp [ExtendedMantissa.ofMantissaAndAccuracy]⟩

/-- One digit more is dropped. -/
theorem shiftRightOne (h : Represents em q) : Represents em.shiftRightOne (q / 2) := by
  obtain ⟨m, round, sticky⟩ := em
  obtain ⟨hlow, hhigh, hround, hsticky⟩ := h
  dsimp only at hlow hhigh hround hsticky
  have hdivision : (m : ℚ) = 2 * ((m / 2 : ℕ) : ℚ) + ((m % 2 : ℕ) : ℚ) := by
    exact_mod_cast (Nat.div_add_mod m 2).symm
  have hdropped : (round || sticky) = true ↔ q ≠ m := by
    rw [Bool.or_eq_true, hround, hsticky]
    constructor
    · rintro (h | h)
      · exact fun heq => by linarith
      · exact h.1
    · intro hne
      by_cases hhalf : q = m + 1 / 2
      · exact .inl hhalf.ge
      · exact .inr ⟨hne, hhalf⟩
  rcases Nat.mod_two_eq_zero_or_one m with hparity | hparity
  · rw [hparity, Nat.cast_zero, add_zero] at hdivision
    refine ⟨?_, ?_, ?_, ?_⟩ <;> simp only [ExtendedMantissa.shiftRightOne, hparity]
    · linarith
    · linarith
    · refine iff_of_false (by simp) (not_le.2 ?_)
      linarith
    · rw [hdropped]
      refine ⟨fun hne => ⟨fun heq => hne (by linarith), fun heq => ?_⟩, fun hne heq => hne.1 ?_⟩
      · linarith
      · linarith
  · rw [hparity, Nat.cast_one] at hdivision
    refine ⟨?_, ?_, ?_, ?_⟩ <;> simp only [ExtendedMantissa.shiftRightOne, hparity]
    · linarith
    · linarith
    · refine iff_of_true (by simp) ?_
      linarith
    · rw [hdropped]
      refine ⟨fun hne => ⟨fun heq => ?_, fun heq => hne (by linarith)⟩, fun hne heq => hne.2 ?_⟩
      · linarith
      · linarith

/-- Any number of digits is dropped. -/
theorem shiftRight (h : Represents em q) (n : ℕ) : Represents (em >>> n) (q / 2 ^ n) := by
  change Represents (n.repeat ExtendedMantissa.shiftRightOne em) _
  induction n with
  | zero => simpa [Nat.repeat] using h
  | succ n ih =>
    rw [Nat.repeat, pow_succ, ← div_div]
    exact ih.shiftRightOne

/-- **The significand is rounded to the nearest integer.** -/
theorem roundedMantissa (h : Represents em q) : (em.roundedMantissa : ℤ) = nearestEven q := by
  obtain ⟨m, round, sticky⟩ := em
  obtain ⟨hlow, hhigh, hround, hsticky⟩ := h
  dsimp only at hlow hhigh hround hsticky
  have hfloor : ⌊q⌋ = (m : ℤ) :=
    Int.floor_eq_iff.2 ⟨by exact_mod_cast hlow, by exact_mod_cast hhigh⟩
  unfold nearestEven
  rw [hfloor]
  cases round <;> cases sticky <;>
    simp only [Bool.false_eq_true, true_iff, false_iff, not_and_or, not_le,
      not_not] at hround hsticky
  · have hq : q = m := hsticky.resolve_right fun heq => by linarith
    simp [ExtendedMantissa.roundedMantissa, ExtendedMantissa.accuracy,
      Accuracy.roundToNearestEven, hq]
  · rw [if_pos (by push_cast; linarith)]
    rfl
  · have hq : q = m + 1 / 2 := hsticky.resolve_left fun heq => by linarith
    rw [if_neg (by push_cast; linarith), if_neg (by push_cast; linarith)]
    simp [ExtendedMantissa.roundedMantissa, ExtendedMantissa.accuracy,
      Accuracy.roundToNearestEven]
  · have hne : q ≠ m + 1 / 2 := hsticky.2
    have hlt : (m : ℚ) + 1 / 2 < q := lt_of_le_of_ne hround hne.symm
    rw [if_neg (by push_cast; linarith), if_pos (by push_cast; linarith)]
    simp [ExtendedMantissa.roundedMantissa, ExtendedMantissa.accuracy,
      Accuracy.roundToNearestEven]

end Represents

/-! ## Rounding -/

section Rounding

variable {sign : Sign} {m : ℕ} {e : ℤ} {accuracy : Accuracy} {q : ℚ}

/-- A significand with at most 53 digits is where it should be, or one step below. -/
theorem shiftToTargetExponent_exact (hm : m < 2 ^ 53) (he : -1074 ≤ e) :
    UnpackedFloat.shiftToTargetExponent Format.binary64 m e .exact =
      (.ofMantissaAndAccuracy m .exact, e) := by
  have hlog : m.log2 ≤ 52 := by
    rcases Nat.eq_zero_or_pos m with rfl | hpos
    · decide
    · exact Nat.le_of_lt_succ ((Nat.log2_lt hpos.ne').2 hm)
  have hshift : (max ((m.log2 : ℤ) + e - 52) (-1074) - e).toNat = 0 := by omega
  rw [UnpackedFloat.shiftToTargetExponent, targetExponent_eq, UnpackedFloat.shiftToExponent, hshift]
  simp [HShiftRight.hShiftRight, Nat.repeat]

/-- A significand that has grown to a digit more loses the last one, which is zero. -/
theorem shiftToTargetExponent_carry (he : -1074 ≤ e) :
    UnpackedFloat.shiftToTargetExponent Format.binary64 (2 ^ 53) e .exact =
      (.ofMantissaAndAccuracy (2 ^ 52) .exact, e + 1) := by
  have hlog : (2 ^ 53).log2 = 53 := Nat.log2_two_pow
  have hshift : (max (((2 ^ 53).log2 : ℤ) + e - 52) (-1074) - e).toNat = 1 := by
    rw [hlog]
    omega
  rw [UnpackedFloat.shiftToTargetExponent, targetExponent_eq, UnpackedFloat.shiftToExponent, hshift]
  rfl

/-- The digits of an extended significand are those it is made of. -/
theorem mantissa_ofMantissaAndAccuracy (m : ℕ) (accuracy : Accuracy) :
    (ExtendedMantissa.ofMantissaAndAccuracy m accuracy).mantissa = m := by
  rcases accuracy with _ | (_ | _ | _) <;> rfl

/-- The exponent that is aimed at is that of the grid around the number. A number below the smallest
significand may have lost all its digits. -/
theorem targetExponent_eq_unit (hq : Represents (.ofMantissaAndAccuracy m accuracy) q)
    (hpos : 0 < q) (hm : m ≠ 0 ∨ e ≤ -1022) :
    Format.binary64.targetExponent (totalExponent m e) = unit (q * 2 ^ e) := by
  obtain ⟨hlow, hhigh, -, -⟩ := hq
  rw [mantissa_ofMantissaAndAccuracy] at hlow hhigh
  rw [targetExponent_eq]
  by_cases hzero : m = 0
  · have he := hm.resolve_left (not_not.2 hzero)
    have hx : 0 < q * 2 ^ e := mul_pos hpos (zpow_pos two_pos e)
    have hlt : q * 2 ^ e < 2 ^ e := by
      rw [hzero, Nat.cast_zero, zero_add] at hhigh
      exact (mul_lt_iff_lt_one_left (zpow_pos two_pos e)).2 hhigh
    have hlog : Int.log 2 (q * 2 ^ e) < e :=
      (Int.lt_zpow_iff_log_lt (by norm_num) hx).1 (by exact_mod_cast hlt)
    have hlog2 : Nat.log2 0 = 0 := by decide
    rw [hzero, hlog2, unit]
    omega
  · rw [unit_mul_zpow hzero hlow hhigh]

/-- **The digits that are left** are the nearest integer of units of the grid. -/
theorem shiftToTargetExponent_round (hq : Represents (.ofMantissaAndAccuracy m accuracy) q)
    (hpos : 0 < q) (hm : m ≠ 0 ∨ e ≤ -1022) (he : e ≤ unit (q * 2 ^ e)) :
    ((UnpackedFloat.shiftToTargetExponent Format.binary64 m e accuracy).1.roundedMantissa : ℤ) =
        nearestEven (q * 2 ^ e / 2 ^ unit (q * 2 ^ e)) ∧
      (UnpackedFloat.shiftToTargetExponent Format.binary64 m e accuracy).2 =
        unit (q * 2 ^ e) := by
  obtain ⟨n, hn⟩ := Int.eq_ofNat_of_zero_le (sub_nonneg.2 he)
  have hunit : unit (q * 2 ^ e) = e + n := by omega
  rw [UnpackedFloat.shiftToTargetExponent, targetExponent_eq_unit hq hpos hm,
    UnpackedFloat.shiftToExponent, hn, Int.toNat_natCast]
  refine ⟨?_, hunit.symm⟩
  rw [(hq.shiftRight n).roundedMantissa, hunit, zpow_add₀ two_ne_zero, zpow_natCast]
  congr 1
  field_simp

/-- The digits that are left are at most 53, or a power of two with one more; they are 53 unless
they stand on the finest grid. -/
theorem nearestEven_unit_bounds {x : ℚ} (hx : 0 < x) :
    nearestEven (x / 2 ^ unit x) ≤ 2 ^ 53 ∧
      (unit x = -1074 ∨ 2 ^ 52 ≤ nearestEven (x / 2 ^ unit x)) := by
  have hlog := lt_zpow_log x
  have hle : Int.log 2 x - 52 ≤ unit x := le_max_left _ _
  constructor
  · rw [← nearestEven_intCast (2 ^ 53)]
    refine nearestEven_mono ((div_le_iff₀ (unit_pos x)).2 (hlog.le.trans ?_))
    have hpower : ((2 ^ 53 : ℤ) : ℚ) * 2 ^ unit x = 2 ^ (53 + unit x) := by
      rw [zpow_add₀ two_ne_zero]
      norm_num
    rw [hpower]
    exact zpow_le_zpow_right₀ one_le_two (by omega)
  · by_cases hmin : unit x = -1074
    · exact .inl hmin
    · have hunit : unit x = Int.log 2 x - 52 := by
        unfold unit at hmin ⊢
        omega
      refine .inr ?_
      rw [← nearestEven_intCast (2 ^ 52)]
      refine nearestEven_mono ((le_div_iff₀ (unit_pos x)).2 (le_trans ?_ (zpow_log_le hx)))
      have hpower : ((2 ^ 52 : ℤ) : ℚ) * 2 ^ unit x = 2 ^ (52 + unit x) := by
        rw [zpow_add₀ two_ne_zero]
        norm_num
      rw [hpower]
      exact zpow_le_zpow_right₀ one_le_two (by omega)

/-- **The model rounds to the nearest number of the grid**, and the result is in canonical form. -/
theorem roundWithAccuracy_spec (sign : Sign)
    (hq : Represents (.ofMantissaAndAccuracy m accuracy) q) (hpos : 0 < q)
    (hm : m ≠ 0 ∨ e ≤ -1022) (he : e ≤ unit (q * 2 ^ e)) :
    (UnpackedFloat.roundWithAccuracy Format.binary64 sign m e accuracy).isFinite ∧
      Canonical (UnpackedFloat.roundWithAccuracy Format.binary64 sign m e accuracy) ∧
      amount (UnpackedFloat.roundWithAccuracy Format.binary64 sign m e accuracy) =
        signed sign (nearestMagnitude (q * 2 ^ e)) := by
  obtain ⟨hdigits, hexponent⟩ := shiftToTargetExponent_round hq hpos hm he
  have hx : 0 < q * 2 ^ e := mul_pos hpos (zpow_pos two_pos e)
  obtain ⟨hhigh, hlow⟩ := nearestEven_unit_bounds hx
  have hmin : -1074 ≤ unit (q * 2 ^ e) := le_max_right _ _
  rw [nearestMagnitude, ← hdigits]
  rw [← hdigits] at hhigh hlow
  unfold UnpackedFloat.roundWithAccuracy
  generalize UnpackedFloat.shiftToTargetExponent Format.binary64 m e accuracy = shifted at *
  obtain ⟨em, t⟩ := shifted
  dsimp only at hexponent hdigits hhigh hlow ⊢
  rw [← hexponent] at hlow hmin ⊢
  generalize em.roundedMantissa = r at *
  have hr : r ≤ 2 ^ 53 := by exact_mod_cast hhigh
  rcases hr.lt_or_eq with hr | rfl
  · rw [shiftToTargetExponent_exact hr hmin]
    simp only [mantissa_ofMantissaAndAccuracy]
    split
    · next hzero =>
      subst hzero
      refine ⟨rfl, trivial, ?_⟩
      cases sign <;> simp [amount, signed]
    · next hne =>
      refine ⟨rfl, ?_, ?_⟩
      · have hlog : r.log2 < 53 := (Nat.log2_lt hne).2 hr
        rw [Canonical, unit_natCast_mul_zpow hne]
        rcases hlow with hlow | hlow
        · omega
        · have hlow : 52 ≤ r.log2 := (Nat.le_log2 hne).2 (by exact_mod_cast hlow)
          omega
      · simp [amount]
  · rw [shiftToTargetExponent_carry hmin]
    simp only [mantissa_ofMantissaAndAccuracy]
    rw [dif_neg (by norm_num)]
    have hlog : (2 ^ 52).log2 = 52 := Nat.log2_two_pow
    refine ⟨rfl, ?_, ?_⟩
    · rw [Canonical, unit_natCast_mul_zpow (by norm_num), hlog]
      omega
    · rw [amount, zpow_add₀ two_ne_zero]
      congr 1
      norm_num
      ring

/-- Digits that are added change no value. -/
theorem decreaseExponent_spec (m : ℕ) (e t : ℤ) :
    ((UnpackedFloat.decreaseExponent m e t).1 : ℚ) * 2 ^ (UnpackedFloat.decreaseExponent m e t).2 =
        m * 2 ^ e ∧
      (UnpackedFloat.decreaseExponent m e t).2 = min e t := by
  unfold UnpackedFloat.decreaseExponent
  refine ⟨?_, by dsimp only; omega⟩
  dsimp only
  rw [Nat.shiftLeft_eq, Nat.cast_mul, mul_assoc, zpow_sub₀ two_ne_zero, zpow_natCast]
  push_cast
  field_simp

/-- **What a finite significand is rounded to.** -/
theorem round_spec (sign : Sign) (hm : m ≠ 0) :
    (UnpackedFloat.round Format.binary64 sign m e).isFinite ∧
      Canonical (UnpackedFloat.round Format.binary64 sign m e) ∧
      amount (UnpackedFloat.round Format.binary64 sign m e) =
        signed sign (nearestMagnitude (m * 2 ^ e)) := by
  obtain ⟨t, ht, hunit⟩ : ∃ t, Format.binary64.targetExponent (totalExponent m e) = t ∧
      unit (m * 2 ^ e) = t :=
    ⟨_, targetExponent_eq m e, unit_natCast_mul_zpow hm e⟩
  obtain ⟨hvalue, hexponent⟩ := decreaseExponent_spec m e t
  have hround : UnpackedFloat.round Format.binary64 sign m e =
      UnpackedFloat.roundWithAccuracy Format.binary64 sign (UnpackedFloat.decreaseExponent m e t).1
        (UnpackedFloat.decreaseExponent m e t).2 .exact := by
    rw [← ht]
    rfl
  rw [hround]
  generalize (UnpackedFloat.decreaseExponent m e t).1 = m' at hvalue ⊢
  generalize (UnpackedFloat.decreaseExponent m e t).2 = e' at hvalue hexponent ⊢
  have hpos : (0 : ℚ) < m' := by
    have hm : (0 : ℚ) < m := by exact_mod_cast Nat.pos_of_ne_zero hm
    have hproduct : (0 : ℚ) < m' * 2 ^ e' := hvalue ▸ mul_pos hm (zpow_pos two_pos e)
    exact (pos_iff_pos_of_mul_pos hproduct).2 (zpow_pos two_pos e')
  rw [← hvalue] at hunit ⊢
  refine roundWithAccuracy_spec sign (.exact m') hpos (.inl ?_) ?_
  · exact_mod_cast hpos.ne'
  · rw [hunit, hexponent]
    exact min_le_right _ _

/-- Where no digit is left, none appears when more of them are dropped. -/
theorem shiftToTargetExponent_zero (e : ℤ) :
    Represents (UnpackedFloat.shiftToTargetExponent Format.binary64 0 e .exact).1 0 := by
  rw [UnpackedFloat.shiftToTargetExponent, UnpackedFloat.shiftToExponent]
  generalize (Format.binary64.targetExponent (totalExponent 0 e) - e).toNat = k
  have hdropped := (Represents.exact 0).shiftRight k
  rwa [Nat.cast_zero, zero_div] at hdropped

/-- Zero is rounded to zero, and the sign is kept. -/
theorem round_zero (sign : Sign) (e : ℤ) :
    UnpackedFloat.round Format.binary64 sign 0 e = .zero sign := by
  obtain ⟨e', he'⟩ : ∃ e', UnpackedFloat.round Format.binary64 sign 0 e =
      UnpackedFloat.roundWithAccuracy Format.binary64 sign 0 e' .exact := by
    refine ⟨(UnpackedFloat.decreaseExponent 0 e
      (Format.binary64.targetExponent (totalExponent 0 e))).2, ?_⟩
    simp [UnpackedFloat.round, UnpackedFloat.decreaseExponent]
  have hrounded : (UnpackedFloat.shiftToTargetExponent Format.binary64 0 e'
      .exact).1.roundedMantissa = 0 := by
    have hnearest := (shiftToTargetExponent_zero e').roundedMantissa
    rw [← Int.cast_zero, nearestEven_intCast] at hnearest
    exact_mod_cast hnearest
  rw [he', UnpackedFloat.roundWithAccuracy]
  dsimp only
  rw [hrounded, dif_pos]
  exact_mod_cast le_antisymm (shiftToTargetExponent_zero _).low (Nat.cast_nonneg _)

/-- **What a significand with a sign is rounded to.** -/
theorem normalize_spec (n : ℤ) (e : ℤ) (zeroSign : Sign) :
    (UnpackedFloat.normalize Format.binary64 n e zeroSign).isFinite ∧
      Canonical (UnpackedFloat.normalize Format.binary64 n e zeroSign) ∧
      amount (UnpackedFloat.normalize Format.binary64 n e zeroSign) = nearest (n * 2 ^ e) := by
  have he : (0 : ℚ) < 2 ^ e := zpow_pos two_pos e
  unfold UnpackedFloat.normalize
  rcases lt_trichotomy n 0 with hn | rfl | hn
  · rw [compare_lt_iff_lt.2 hn]
    obtain ⟨k, hk⟩ := Int.eq_ofNat_of_zero_le (neg_nonneg.2 hn.le)
    obtain rfl : n = -k := by omega
    obtain ⟨hfinite, hcanonical, hamount⟩ :=
      round_spec (m := k) (e := e) .negative (by omega)
    simp only [neg_neg, Int.toNat_natCast] at hfinite hcanonical hamount ⊢
    refine ⟨hfinite, hcanonical, hamount.trans ?_⟩
    have hneg : ((-(k : ℤ) : ℤ) : ℚ) * 2 ^ e = -((k : ℚ) * 2 ^ e) := by
      push_cast
      ring
    rw [hneg, nearest_neg, nearest_of_nonneg (by positivity)]
    rfl
  · rw [compare_eq_iff_eq.2 rfl]
    refine ⟨rfl, trivial, ?_⟩
    simp [amount, nearest]
  · rw [compare_gt_iff_gt.2 hn]
    obtain ⟨k, rfl⟩ := Int.eq_ofNat_of_zero_le hn.le
    obtain ⟨hfinite, hcanonical, hamount⟩ :=
      round_spec (m := k) (e := e) .positive (by omega)
    refine ⟨hfinite, hcanonical, hamount.trans ?_⟩
    rw [nearest_of_nonneg (by positivity)]
    rfl

end Rounding

/-! ## Packing -/

section Packing

variable {sign : Sign} {m : ℕ} {e : ℤ}

/-- A canonical form has 53 digits, or fewer on the finest grid. -/
theorem eq_unit_iff (hm : m ≠ 0) :
    e = unit (m * 2 ^ e) ↔ m < 2 ^ 53 ∧ -1074 ≤ e ∧ (2 ^ 52 ≤ m ∨ e = -1074) := by
  rw [unit_natCast_mul_zpow hm, ← Nat.log2_lt hm, ← Nat.le_log2 hm]
  omega

/-- The top as a product of powers of two. -/
theorem top_eq {j k : ℤ} (h : j + k = 1024) : top = 2 ^ j * 2 ^ k := by
  rw [top, ← zpow_add₀ two_ne_zero, h]

/-- What has a significand is above zero. -/
theorem mul_zpow_pos (hm : 0 < m) (e : ℤ) : (0 : ℚ) < m * 2 ^ e :=
  mul_pos (by exact_mod_cast hm) (zpow_pos two_pos e)

/-- The exponents of finite numbers end where the numbers of 53 digits reach the top. -/
theorem mul_zpow_lt_top_iff (hm : m ≠ 0) (he : e = unit (m * 2 ^ e)) :
    (m : ℚ) * 2 ^ e < top ↔ e ≤ 971 := by
  obtain ⟨hhigh, -, hlow⟩ := (eq_unit_iff hm).1 he
  constructor
  · intro hlt
    by_contra hlarge
    have hm : ((2 : ℚ) ^ (52 : ℤ)) ≤ m := by exact_mod_cast hlow.resolve_right (by omega)
    have hle : (2 : ℚ) ^ (1024 - 52 : ℤ) ≤ 2 ^ e := zpow_le_zpow_right₀ one_le_two (by omega)
    rw [top_eq (by norm_num : (52 : ℤ) + (1024 - 52) = 1024)] at hlt
    exact absurd hlt (not_lt.2 (mul_le_mul hm hle (zpow_pos two_pos _).le (Nat.cast_nonneg m)))
  · intro hle
    have hm : (m : ℚ) < 2 ^ (53 : ℤ) := by exact_mod_cast hhigh
    have hle : (2 : ℚ) ^ e ≤ 2 ^ (1024 - 53 : ℤ) := zpow_le_zpow_right₀ one_le_two (by omega)
    rw [top_eq (by norm_num : (53 : ℤ) + (1024 - 53) = 1024)]
    exact mul_lt_mul hm hle (zpow_pos two_pos e) (zpow_pos two_pos _).le

/-- The first of 53 digits, which is not stored, is put before the others. -/
theorem toNat_implicit (mantissa : BitVec 52) :
    (1#1 ++ mantissa).toNat = 2 ^ 52 + mantissa.toNat := by
  rw [BitVec.toNat_append, ← Nat.shiftLeft_add_eq_or_of_lt mantissa.isLt]
  rfl

/-- The number with the given components. -/
def ofComponents (sign : Sign) (exponent : BitVec 11) (mantissa : BitVec 52) : UnpackedFloat :=
  if exponent = -1#_ then if mantissa = 0#_ then .infinity sign else .notANumber
  else if exponent = 0#_ then
    if h : mantissa = 0#_ then .zero sign
    else .finite sign mantissa.toNat (-1074)
      (by simpa [BitVec.toNat_pos, BitVec.pos_iff_ne_zero])
  else .finite sign (2 ^ 52 + mantissa.toNat) (exponent.toNat - 1075) (by positivity)

/-- A number is unpacked by its three components. -/
theorem unpack_eq (bits : BitVec Format.binary64.numBits) :
    UnpackedFloat.unpack Format.binary64 bits =
      ofComponents (Sign.ofBitVec (UnpackedFloat.unpackSign bits))
        (UnpackedFloat.unpackExponent bits) (UnpackedFloat.unpackMantissa bits) := by
  unfold UnpackedFloat.unpack ofComponents
  simp only [toNat_implicit]
  split
  · rfl
  · split
    · next hzero =>
      split
      · rfl
      · simp only [hzero]
        rfl
    · rfl

/-- The components of a packed number are unpacked as they were packed. -/
theorem unpack_packComponents (sign : Sign) (exponent : BitVec 11) (mantissa : BitVec 52) :
    UnpackedFloat.unpack Format.binary64
        (UnpackedFloat.packComponents Format.binary64 sign exponent mantissa) =
      ofComponents sign exponent mantissa := by
  rw [unpack_eq, UnpackedFloat.unpackMantissa_packComponents,
    UnpackedFloat.unpackExponent_packComponents, UnpackedFloat.unpackSign_packComponents,
    Sign.ofBitVec_toBitVec]

/-- Equal significands and exponents make equal numbers. -/
theorem finite_congr {n : ℕ} {f : ℤ} {hm : 0 < m} {hn : 0 < n} (hmantissa : m = n)
    (hexponent : e = f) : UnpackedFloat.finite sign m e hm = .finite sign n f hn := by
  subst hmantissa hexponent
  rfl

/-- The exponent of a finite number, as it is packed: neither all ones nor all zeros. -/
theorem packed_exponent {n : ℕ} (hpos : 0 < n) (hlt : n < 2047) :
    BitVec.ofNat 11 n ≠ -1#_ ∧ BitVec.ofNat 11 n ≠ 0#_ ∧ (BitVec.ofNat 11 n).toNat = n := by
  have hnat : (BitVec.ofNat 11 n).toNat = n := by
    rw [BitVec.toNat_ofNat]
    exact Nat.mod_eq_of_lt (by omega)
  refine ⟨fun h => ?_, fun h => ?_, hnat⟩
  · rw [h] at hnat
    exact absurd hnat.symm (ne_of_lt hlt)
  · rw [h] at hnat
    exact absurd hnat (ne_of_lt hpos)

/-- A significand of 53 digits is stored without its first one. -/
theorem ofComponents_normal (sign : Sign) (hm : 0 < m) (hlow : 2 ^ 52 ≤ m) (hhigh : m < 2 ^ 53)
    (hmin : -1074 ≤ e) (hmax : e ≤ 971) :
    ofComponents sign (BitVec.ofNat 11 (e + 1075).toNat) (BitVec.ofNat 52 m) =
      .finite sign m e hm := by
  obtain ⟨hones, hzeros, hnat⟩ := @packed_exponent (e + 1075).toNat (by omega) (by omega)
  rw [ofComponents, if_neg hones, if_neg hzeros]
  refine finite_congr ?_ ?_
  · rw [BitVec.toNat_ofNat]
    omega
  · rw [hnat]
    omega

/-- A significand with fewer digits is stored as it is. -/
theorem ofComponents_subnormal (sign : Sign) (hm : 0 < m) (hlt : m < 2 ^ 52) :
    ofComponents sign 0#11 (BitVec.ofNat 52 m) = .finite sign m (-1074) hm := by
  have hmod : (BitVec.ofNat 52 m).toNat = m := by
    rw [BitVec.toNat_ofNat, Nat.mod_eq_of_lt hlt]
  have hne : BitVec.ofNat 52 m ≠ 0#_ := fun h => by
    rw [h] at hmod
    exact hm.ne hmod
  rw [ofComponents, if_neg (by decide), if_pos rfl, dif_neg hne]
  exact finite_congr hmod rfl

/-- **A number in canonical form is packed without loss**, unless its exponent is too large: then it
becomes infinite. -/
theorem unpack_pack (sign : Sign) (hm : 0 < m) (he : e = unit (m * 2 ^ e)) :
    (Float.Model.pack (.finite sign m e hm)).unpack =
      if e ≤ 971 then .finite sign m e hm else .infinity sign := by
  obtain ⟨hhigh, hmin, hlow⟩ := (eq_unit_iff hm.ne').1 he
  have hlog : m.log2 + 1 = 53 ↔ 2 ^ 52 ≤ m := by
    rw [← Nat.le_log2 hm.ne']
    have hlt : m.log2 < 53 := (Nat.log2_lt hm.ne').2 hhigh
    omega
  have hbias : e + Format.binary64.exponentBias + Format.binary64.mantissaBitsWithoutImplicit =
      e + 1075 := by
    have h : (Format.binary64.exponentBias : ℤ) = 1023 := rfl
    rw [h]
    push_cast
    ring
  change UnpackedFloat.unpack Format.binary64
    (UnpackedFloat.pack Format.binary64 (.finite sign m e hm)) = _
  unfold UnpackedFloat.pack
  dsimp only
  rw [hbias]
  split
  · next hlarge =>
    have hlarge : ¬ e ≤ 971 := by omega
    rw [if_neg hlarge, UnpackedFloat.packedInfinity, unpack_packComponents, ofComponents,
      if_pos rfl]
    rfl
  · next hsmall =>
    have hsmall : e ≤ 971 := by omega
    rw [if_pos hsmall]
    split
    · next hnormal =>
      rw [unpack_packComponents]
      exact ofComponents_normal sign hm (hlog.1 hnormal) hhigh hmin hsmall
    · next hsubnormal =>
      have hlt : m < 2 ^ 52 := not_le.1 (mt hlog.2 hsubnormal)
      obtain rfl : e = -1074 := hlow.resolve_left (not_le.2 hlt)
      rw [unpack_packComponents]
      exact ofComponents_subnormal sign hm hlt

/-- A finite number is in canonical form, and its magnitude lies between zero and the top. -/
def Fits : UnpackedFloat → Prop
  | .finite _ m e _ => e = unit (m * 2 ^ e) ∧ (0 : ℚ) < m * 2 ^ e ∧ (m : ℚ) * 2 ^ e < top
  | _ => True

/-- **Every unpacked number is in canonical form.** -/
theorem fits_ofComponents (sign : Sign) (exponent : BitVec 11) (mantissa : BitVec 52) :
    Fits (ofComponents sign exponent mantissa) := by
  have hfits : ∀ {m : ℕ} {e : ℤ} (hm : 0 < m), m < 2 ^ 53 → -1074 ≤ e → e ≤ 971 →
      (2 ^ 52 ≤ m ∨ e = -1074) → Fits (.finite sign m e hm) := by
    intro m e hm hhigh hmin hmax hlow
    have he := (eq_unit_iff hm.ne').2 ⟨hhigh, hmin, hlow⟩
    exact ⟨he, mul_zpow_pos hm e, (mul_zpow_lt_top_iff hm.ne' he).2 hmax⟩
  have hmantissa := mantissa.isLt
  unfold ofComponents
  split
  · split <;> trivial
  · next hones =>
    split
    · split
      · trivial
      · exact hfits _ (by omega) le_rfl (by norm_num) (.inr rfl)
    · next hzeros =>
      have hpos : exponent.toNat ≠ 0 := fun h => hzeros (BitVec.eq_of_toNat_eq h)
      have hlt : exponent.toNat ≠ 2047 := fun h => hones (BitVec.eq_of_toNat_eq h)
      have hbound := exponent.isLt
      exact hfits _ (by omega) (by omega) (by omega) (.inl (by omega))

/-- The bits of a packed number are those of its components. -/
theorem bits_eq {bits other : BitVec Format.binary64.numBits}
    (hsign : UnpackedFloat.unpackSign bits = UnpackedFloat.unpackSign other)
    (hexponent : UnpackedFloat.unpackExponent bits = UnpackedFloat.unpackExponent other)
    (hmantissa : UnpackedFloat.unpackMantissa bits = UnpackedFloat.unpackMantissa other) :
    bits = other := by
  refine BitVec.eq_of_getLsbD_eq fun i hi => ?_
  have hi : i < 64 := hi
  rcases lt_or_ge i 52 with hlow | hhigh
  · have h := congrArg (fun v => v.getLsbD i) hmantissa
    have hle : i ≤ 51 := by omega
    simpa [UnpackedFloat.unpackMantissa, hle] using h
  rcases lt_or_ge i 63 with hlow | hhigh
  · have h := congrArg (fun v => v.getLsbD (i - 52)) hexponent
    have hle : i - 52 ≤ 10 := by omega
    simpa [UnpackedFloat.unpackExponent, hle, Nat.add_sub_cancel' hhigh] using h
  · obtain rfl : i = 63 := by omega
    have h := congrArg (fun v => v.getLsbD 0) hsign
    simpa [UnpackedFloat.unpackSign] using h

/-- A sign is stored in one bit. -/
theorem toBitVec_ofBitVec : ∀ bit : BitVec 1, (Sign.ofBitVec bit).toBitVec = bit := by
  decide

/-- A finite number is packed in one way only. -/
theorem components_of_eq {s t : Sign} {e f : BitVec 11} {m n : BitVec 52}
    (hfinite : (ofComponents s e m).isFinite) (h : ofComponents s e m = ofComponents t f n) :
    s = t ∧ e = f ∧ m = n := by
  have hm := m.isLt
  have hn := n.isLt
  unfold ofComponents at h hfinite
  split_ifs at h hfinite <;> simp [UnpackedFloat.isFinite] at h hfinite
  all_goals
    refine ⟨by first | exact h | exact h.1, ?_⟩
    constructor <;> bv_omega

end Packing

/-! ## The order of numbers -/

/-- The value of a number. -/
def value (x : Float) : ℚ :=
  amount x.toModel.unpack

/-- Every number is in canonical form when it is unpacked. -/
theorem fits_unpack (x : Float) : Fits x.toModel.unpack := by
  rw [Float.Model.unpack, unpack_eq]
  exact fits_ofComponents _ _ _

/-- **A finite number is a zero, or has a significand and an exponent**, which fit. -/
theorem unpack_of_isFinite {x : Float} (hx : x.isFinite) :
    (∃ sign, x.toModel.unpack = .zero sign) ∨
      ∃ sign m e hm, x.toModel.unpack = .finite sign m e hm ∧ Fits (.finite sign m e hm) := by
  have hfits := fits_unpack x
  have hfinite : x.toModel.unpack.isFinite := hx
  cases hunpack : x.toModel.unpack with
  | infinity | notANumber =>
    rw [hunpack] at hfinite
    cases hfinite
  | zero sign => exact .inl ⟨sign, rfl⟩
  | finite sign m e hm => exact .inr ⟨sign, m, e, hm, rfl, hunpack ▸ hfits⟩

/-- **A finite number is known by what it is unpacked to.** -/
theorem eq_of_unpack {x y : Float} (hx : x.isFinite)
    (h : x.toModel.unpack = y.toModel.unpack) : x = y := by
  have hfinite : x.toModel.unpack.isFinite := hx
  rw [Float.Model.unpack, unpack_eq] at hfinite h
  rw [Float.Model.unpack, unpack_eq] at h
  obtain ⟨hsign, hexponent, hmantissa⟩ := components_of_eq hfinite h
  have hsign := congrArg Sign.toBitVec hsign
  rw [toBitVec_ofBitVec, toBitVec_ofBitVec] at hsign
  have hbits := bits_eq hsign hexponent hmantissa
  obtain ⟨⟨bits, hvalid⟩⟩ := x
  obtain ⟨⟨bits', hvalid'⟩⟩ := y
  obtain rfl : bits = bits' := UInt64.eq_of_toBitVec_eq hbits
  rfl

section Order

variable {m n : ℕ} {e f : ℤ}

/-- Canonical forms are compared by their exponents first. -/
theorem mul_zpow_lt_iff (hm : 0 < m) (he : e = unit (m * 2 ^ e)) (hn : 0 < n)
    (hf : f = unit (n * 2 ^ f)) : (m : ℚ) * 2 ^ e < n * 2 ^ f ↔ e < f ∨ e = f ∧ m < n := by
  constructor
  · intro hlt
    have hle : e ≤ f := by
      rw [he, hf]
      exact unit_mono (mul_zpow_pos hm e) hlt.le
    rcases hle.lt_or_eq with hlt' | rfl
    · exact .inl hlt'
    · exact .inr ⟨rfl, by exact_mod_cast (mul_lt_mul_iff_left₀ (zpow_pos two_pos e)).1 hlt⟩
  · rintro (hlt | ⟨rfl, hlt⟩)
    · by_contra hle
      have hunit := unit_mono (mul_zpow_pos hn f) (not_lt.1 hle)
      rw [← he, ← hf] at hunit
      omega
    · exact (mul_lt_mul_iff_left₀ (zpow_pos two_pos e)).2 (by exact_mod_cast hlt)

/-- The top is above zero. -/
theorem top_pos : 0 < top :=
  zpow_pos two_pos _

/-- **The ranks of numbers are in the order of their values.** -/
theorem rank_lt_iff {a b : UnpackedFloat} (ha : Fits a) (hb : Fits b) (hnum : a.isNaN = false)
    (hnum' : b.isNaN = false) :
    (∃ i ∈ Arithmetic.rank a, ∃ j ∈ Arithmetic.rank b, i < j) ↔ amount a < amount b := by
  have htop := top_pos
  rcases a with (_ | _) | _ | (_ | _) | ⟨_ | _, m, e, hm⟩ <;>
    rcases b with (_ | _) | _ | (_ | _) | ⟨_ | _, n, f, hn⟩ <;>
    first
    | cases hnum; done
    | cases hnum'; done
    | skip
  all_goals
    simp only [Arithmetic.rank, amount, signed, Option.mem_def, Option.some_inj, exists_eq_left',
      Prod.Lex.toLex_lt_toLex, Fits] at ha hb ⊢
  all_goals norm_num
  case finite.negative.finite.negative =>
    rw [mul_zpow_lt_iff hn hb.1 hm ha.1]
    grind
  case finite.positive.finite.positive => exact (mul_zpow_lt_iff hm ha.1 hn hb.1).symm
  all_goals grind

end Order

/-- **Numbers are compared by their values.** -/
theorem lt_iff_value {x y : Float} (hx : x.isNaN = false) (hy : y.isNaN = false) :
    x < y ↔ value x < value y := by
  rw [Arithmetic.lt_iff_rank]
  exact rank_lt_iff (fits_unpack x) (fits_unpack y) hx hy

/-- Numbers are compared by their values, also if they may be equal. -/
theorem le_iff_value {x y : Float} (hx : x.isNaN = false) (hy : y.isNaN = false) :
    x ≤ y ↔ value x ≤ value y := by
  rw [Arithmetic.le_iff_not_lt hx hy, lt_iff_value hy hx, not_lt]

/-- A number that is not zero has the canonical form of its value. -/
theorem unpack_of_value {x : Float} (hx : x.isFinite) {m : ℕ} {e : ℤ} (hm : 0 < m)
    (he : e = unit (m * 2 ^ e)) (hvalue : value x = m * 2 ^ e) :
    x.toModel.unpack = .finite .positive m e hm := by
  have hpos := mul_zpow_pos hm e
  unfold value at hvalue
  rcases unpack_of_isFinite hx with ⟨sign, hunpack⟩ | ⟨_ | _, n, f, hn, hunpack, hfits⟩ <;>
    rw [hunpack] at hvalue ⊢
  · exact absurd hvalue hpos.ne
  · have hneg : -((n : ℚ) * 2 ^ f) = m * 2 ^ e := hvalue
    linarith [mul_zpow_pos hn f]
  · have hsame : (n : ℚ) * 2 ^ f = m * 2 ^ e := hvalue
    obtain rfl : f = e := by rw [hfits.1, he, hsame]
    have hdigits := mul_right_cancel₀ (zpow_pos two_pos f).ne' hsame
    exact finite_congr (by exact_mod_cast hdigits) rfl

/-! ## Rounded results -/

/-- A value between those of the two infinite numbers. -/
def clamp (x : ℚ) : ℚ :=
  max (-top) (min x top)

/-- Clamping keeps the order. -/
theorem clamp_mono : Monotone clamp :=
  fun _ _ h => max_le_max_left _ (min_le_min_right _ h)

/-- What is not below zero stays so. -/
theorem clamp_nonneg {x : ℚ} (hx : 0 ≤ x) : 0 ≤ clamp x :=
  le_max_of_le_right (le_min hx top_pos.le)

/-- What is not below zero does not grow. -/
theorem clamp_le {x : ℚ} (hx : 0 ≤ x) : clamp x ≤ x :=
  max_le ((neg_neg_of_pos top_pos).le.trans hx) (min_le_left _ _)

/-- A value below the top stays below all greater ones. -/
theorem lt_clamp {x y : ℚ} (hx : x < y) (htop : x < top) : x < clamp y :=
  lt_max_of_lt_right (lt_min hx htop)

/-- Values of finite numbers are kept. -/
theorem clamp_of_abs_lt {x : ℚ} (h : |x| < top) : clamp x = x := by
  obtain ⟨hlow, hhigh⟩ := abs_lt.1 h
  rw [clamp, min_eq_left hhigh.le, max_eq_right hlow.le]

/-- The magnitude of a number, whatever its sign is. -/
theorem abs_signed (sign : Sign) (x : ℚ) : |signed sign x| = |x| := by
  cases sign
  · exact abs_neg x
  · rfl

/-- What has passed the top is moved back to it. -/
theorem clamp_signed (sign : Sign) {x : ℚ} (h : top ≤ x) :
    clamp (signed sign x) = signed sign top := by
  have htop := top_pos
  cases sign
  · rw [signed, clamp, min_eq_left (by linarith), max_eq_left (by linarith)]
    rfl
  · rw [signed, clamp, min_eq_right h, max_eq_right (by linarith)]
    rfl

/-- The number that an exact result is rounded to: the nearest one, or an infinite one if the
nearest one is too large. -/
structure IsNearest (x : Float) (q : ℚ) : Prop where
  /-- It is a number. -/
  isNaN : x.isNaN = false
  /-- Its value is the nearest one. -/
  value : value x = clamp (nearest q)

/-- A number is finite just if its value lies between those of the infinite ones. -/
theorem isFinite_iff {x : Float} (hx : x.isNaN = false) : x.isFinite ↔ |value x| < top := by
  have htop := top_pos
  have hfits := fits_unpack x
  have hnum : x.toModel.unpack.isNaN = false := hx
  change x.toModel.unpack.isFinite ↔ |amount x.toModel.unpack| < top
  revert hfits hnum
  rcases x.toModel.unpack with sign | _ | sign | ⟨sign, m, e, hm⟩
  · simp [UnpackedFloat.isFinite, amount, abs_signed, abs_of_pos htop]
  · exact fun _ h => Bool.noConfusion h
  · simp [UnpackedFloat.isFinite, amount, htop]
  · rintro ⟨-, hpos, hlt⟩ -
    simp only [UnpackedFloat.isFinite, amount, abs_signed, abs_of_pos hpos, hlt]

/-- What is finite is a number. -/
theorem isNaN_of_isFinite {x : Float} (hx : x.isFinite) : x.isNaN = false := by
  change x.toModel.unpack.isNaN = false
  have hfinite : x.toModel.unpack.isFinite := hx
  revert hfinite
  cases x.toModel.unpack <;> simp [UnpackedFloat.isFinite, UnpackedFloat.isNaN]

/-- A finite number is the nearest one itself. -/
theorem IsNearest.value_of_isFinite {x : Float} {q : ℚ} (h : IsNearest x q) (hx : x.isFinite) :
    Binary64.value x = nearest q := by
  obtain ⟨hlow, hhigh⟩ := abs_lt.1 ((isFinite_iff h.isNaN).1 hx)
  rw [h.value] at hlow hhigh ⊢
  have hmin : min (nearest q) top < top := (le_max_right _ _).trans_lt hhigh
  have hlt : nearest q < top := (min_lt_iff.1 hmin).resolve_right (lt_irrefl _)
  rw [clamp, min_eq_left hlt.le] at hlow ⊢
  exact max_eq_right ((lt_max_iff.1 hlow).resolve_left (lt_irrefl _)).le

/-- What is packed has the value that is packed, as far as it is finite. -/
theorem value_pack {u : UnpackedFloat} (hfinite : u.isFinite) (hcanonical : Canonical u) :
    (Float.ofModel (Float.Model.pack u)).isNaN = false ∧
      value (Float.ofModel (Float.Model.pack u)) = clamp (amount u) := by
  change (Float.Model.pack u).unpack.isNaN = false ∧ amount (Float.Model.pack u).unpack = _
  rcases u with sign | _ | sign | ⟨sign, m, e, hm⟩
  · cases hfinite
  · cases hfinite
  · have hzero : (Float.Model.pack (.zero sign)).unpack = .zero sign := by
      cases sign <;> rfl
    rw [hzero]
    refine ⟨rfl, (clamp_of_abs_lt ?_).symm⟩
    simpa [amount] using top_pos
  · have hlt := mul_zpow_lt_top_iff hm.ne' hcanonical
    rw [unpack_pack sign hm hcanonical]
    split
    · next hle =>
      refine ⟨rfl, (clamp_of_abs_lt ?_).symm⟩
      rw [amount, abs_signed, abs_of_pos (mul_zpow_pos hm e)]
      exact hlt.2 hle
    · next hgt => exact ⟨rfl, (clamp_signed sign (not_lt.1 (mt hlt.1 hgt))).symm⟩

/-- The opposite of a finite number has the opposite sign. -/
theorem unpack_neg {x : Float} (hx : x.isFinite) :
    (-x).toModel.unpack = x.toModel.unpack.neg := by
  change (Float.Model.pack x.toModel.unpack.neg).unpack = _
  rcases unpack_of_isFinite hx with ⟨sign, hunpack⟩ | ⟨sign, m, e, hm, hunpack, hfits⟩ <;>
    rw [hunpack]
  · cases sign <;> rfl
  · have hsmall := (mul_zpow_lt_top_iff hm.ne' hfits.1).1 hfits.2.2
    rw [UnpackedFloat.neg, unpack_pack _ hm hfits.1, if_pos hsmall]

/-- A finite number is on the grid. -/
theorem nearest_amount {u : UnpackedFloat} (hfinite : u.isFinite) (hcanonical : Canonical u) :
    nearest (amount u) = amount u := by
  rcases u with sign | _ | sign | ⟨sign, m, e, hm⟩
  · cases hfinite
  · cases hfinite
  · simp [amount, nearest]
  · have hpos := mul_zpow_pos hm e
    have hself : nearest (m * 2 ^ e) = m * 2 ^ e := by
      rw [nearest_of_nonneg hpos.le]
      exact nearestMagnitude_of_eq (n := m) (by rw [← hcanonical]; norm_cast)
    cases sign
    · rw [amount, signed, nearest_neg, hself]
    · exact hself

end Grapher.Binary64
