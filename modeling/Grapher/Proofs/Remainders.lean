import Grapher.Proofs.RoundedQuotients

set_option relaxedAutoImplicit false
set_option autoImplicit false

/-!
# Remainders of binary64 numbers

A multiple of the divisor is taken from the dividend, and what is left is smaller than the divisor
and has the sign of the dividend. There is one such number, and it is never rounded: it is a
multiple of the smaller unit of the two numbers, and the one that is counted in this unit has at
most 53 digits. By an infinite divisor nothing is taken. There is no remainder where the dividend
is not finite, or the divisor is zero or no number.

## Main definitions

* `Binary64.IsRemainder` — what is left when a multiple is taken.

## Main results

* `Binary64.IsRemainder.unique` — a division has one remainder.
* `Binary64.remainder_isRemainder`, `Binary64.remainder_infinite`, `Binary64.isNaN_remainder_iff` —
  what the remainder of two numbers is, and where there is none.
-/

namespace Grapher.Binary64

open Float.Model (UnpackedFloat)
open Float.Model.UnpackedFloat (Sign)

/-! ## What is left -/

/-- What is left of `p` when as many multiples of `q` are taken from it as fit. -/
structure IsRemainder (p q r : ℚ) : Prop where
  /-- A multiple is taken. -/
  multiple : ∃ k : ℤ, p = k * q + r
  /-- What is left is smaller than the divisor. -/
  small : |r| < |q|
  /-- It has the sign of the dividend. -/
  sign : 0 ≤ p * r

namespace IsRemainder

variable {p q r r' : ℚ}

/-- What is left of a natural number, in any unit. -/
theorem natCast_mul (m : ℕ) {n : ℕ} (hn : 0 < n) {unit : ℚ} (hunit : 0 < unit) :
    IsRemainder (m * unit) (n * unit) ((m % n : ℕ) * unit) where
  multiple := by
    have hdivision : (m : ℚ) = n * (m / n : ℕ) + (m % n : ℕ) := by
      exact_mod_cast (Nat.div_add_mod m n).symm
    refine ⟨(m / n : ℕ), ?_⟩
    rw [Int.cast_natCast]
    linear_combination unit * hdivision
  small := by
    rw [abs_mul, abs_mul, Nat.abs_cast, Nat.abs_cast]
    exact mul_lt_mul_of_pos_right (by exact_mod_cast Nat.mod_lt m hn) (abs_pos.2 hunit.ne')
  sign := by positivity

/-- The sign of the divisor is of no account. -/
theorem neg_right (h : IsRemainder p q r) : IsRemainder p (-q) r := by
  obtain ⟨⟨k, hk⟩, hsmall, hsign⟩ := h
  refine ⟨⟨-k, ?_⟩, by rwa [abs_neg], hsign⟩
  rw [Int.cast_neg, neg_mul_neg, hk]

/-- The sign of the dividend passes to what is left. -/
theorem neg_left (h : IsRemainder p q r) : IsRemainder (-p) q (-r) := by
  obtain ⟨⟨k, hk⟩, hsmall, hsign⟩ := h
  refine ⟨⟨-k, ?_⟩, by rwa [abs_neg], by rwa [neg_mul_neg]⟩
  rw [Int.cast_neg, hk]
  ring

/-- What is left of a magnitude is left of the number as well, with the sign of the number. -/
theorem signed (h : IsRemainder p q r) :
    ∀ s t : Sign, IsRemainder (Binary64.signed s p) (Binary64.signed t q) (Binary64.signed s r)
  | .positive, .positive => h
  | .positive, .negative => h.neg_right
  | .negative, .positive => h.neg_left
  | .negative, .negative => h.neg_left.neg_right

/-- A multiple of the divisor that is smaller than the divisor is zero. -/
theorem eq_zero_of_abs_lt {k : ℤ} (hr : r = k * q) (hlt : |r| < |q|) : r = 0 := by
  have hpos : 0 < |q| := (abs_nonneg r).trans_lt hlt
  rw [hr, abs_mul, mul_lt_iff_lt_one_left hpos] at hlt
  obtain rfl : k = 0 := Int.abs_lt_one_iff.1 (by exact_mod_cast hlt)
  rw [hr, Int.cast_zero, zero_mul]

/-- Two numbers on one side of zero are no farther from each other than from zero. -/
theorem abs_sub_lt_of_mul_nonneg (hsign : 0 ≤ r * r') (hlt : |r| < |q|) (hlt' : |r'| < |q|) :
    |r - r'| < |q| := by
  rw [abs_lt] at hlt hlt' ⊢
  rcases mul_nonneg_iff.1 hsign with ⟨h, h'⟩ | ⟨h, h'⟩
  · constructor <;> linarith
  · constructor <;> linarith

/-- **A division has one remainder.** -/
theorem unique (h : IsRemainder p q r) (h' : IsRemainder p q r') : r = r' := by
  obtain ⟨⟨k, hk⟩, hlt, hsign⟩ := h
  obtain ⟨⟨k', hk'⟩, hlt', hsign'⟩ := h'
  rcases eq_or_ne p 0 with rfl | hp
  -- What is left of zero may have either sign, so the two are not on one side of zero as such.
  · have hzero : r = (-k : ℤ) * q := by
      rw [Int.cast_neg]
      linarith
    have hzero' : r' = (-k' : ℤ) * q := by
      rw [Int.cast_neg]
      linarith
    rw [eq_zero_of_abs_lt hzero hlt, eq_zero_of_abs_lt hzero' hlt']
  · have hsame : 0 ≤ r * r' := by
      have hsquare : 0 ≤ p ^ 2 * (r * r') := by
        rw [show p ^ 2 * (r * r') = p * r * (p * r') by ring]
        exact mul_nonneg hsign hsign'
      exact nonneg_of_mul_nonneg_right hsquare (by positivity)
    have hdifference : r - r' = (k' - k : ℤ) * q := by
      rw [Int.cast_sub]
      linarith
    exact sub_eq_zero.1 (eq_zero_of_abs_lt hdifference (abs_sub_lt_of_mul_nonneg hsame hlt hlt'))

end IsRemainder

/-! ## Significands in one unit -/

/-- A significand in a smaller unit stands for the same number. -/
theorem inUnits_mul_zpow {k e : ℤ} (h : k ≤ e) (m : ℕ) :
    (Arithmetic.inUnits k m e : ℚ) * 2 ^ k = m * 2 ^ e := by
  obtain ⟨n, rfl⟩ := Int.le.dest h
  rw [Arithmetic.inUnits, add_sub_cancel_left, Int.toNat_natCast, Nat.pow_eq, Nat.cast_mul,
    Nat.cast_pow, Nat.cast_two, zpow_add₀ two_ne_zero, zpow_natCast, mul_assoc, mul_comm (2 ^ n)]

/-- What is left has at most 53 digits: it is at most the dividend and less than the divisor, and
one of them keeps its own unit. -/
theorem inUnits_mod_lt {m n : ℕ} {e f : ℤ} (hn : 0 < n) (hm : m < 2 ^ 53) (hn' : n < 2 ^ 53) :
    Arithmetic.inUnits (min e f) m e % Arithmetic.inUnits (min e f) n f < 2 ^ 53 := by
  rcases le_total e f with h | h
  · rw [min_eq_left h]
    refine (Nat.mod_le _ _).trans_lt ?_
    simpa [Arithmetic.inUnits] using hm
  · rw [min_eq_right h]
    refine (Nat.mod_lt _ ?_).trans ?_
    · simpa [Arithmetic.inUnits] using hn
    · simpa [Arithmetic.inUnits] using hn'

/-- A significand with at most 53 digits is kept as it is. -/
theorem value_nearest (sign : Sign) {m : ℕ} {e : ℤ} (hm : m < 2 ^ 53) (he : -1074 ≤ e)
    (htop : (m : ℚ) * 2 ^ e < top) :
    (Arithmetic.nearest sign m e).isFinite ∧
      value (Arithmetic.nearest sign m e) = signed sign (m * 2 ^ e) := by
  have hnonneg : (0 : ℚ) ≤ m * 2 ^ e := mul_nonneg (Nat.cast_nonneg m) (zpow_pos two_pos e).le
  have habs : |signed sign ((m : ℚ) * 2 ^ e)| < top := by
    rw [abs_signed, abs_of_nonneg hnonneg]
    exact htop
  obtain ⟨hnum, hvalue⟩ := nearest_isNearest sign m e
  rw [nearest_signed sign hnonneg, ← nearest_of_nonneg hnonneg, nearest_natCast_mul_zpow hm he,
    clamp_of_abs_lt habs] at hvalue
  refine ⟨(isFinite_iff hnum).2 ?_, hvalue⟩
  rwa [hvalue]

/-- What is left of one finite number by another is not rounded. -/
theorem isRemainder_nearest (s t : Sign) {m n : ℕ} {e f : ℤ} {hm : 0 < m} {hn : 0 < n}
    (hx : Fits (.finite s m e hm)) (hy : Fits (.finite t n f hn)) :
    (Arithmetic.nearest s (Arithmetic.inUnits (min e f) m e % Arithmetic.inUnits (min e f) n f)
        (min e f)).isFinite ∧
      IsRemainder (amount (.finite s m e hm)) (amount (.finite t n f hn))
        (value (Arithmetic.nearest s
          (Arithmetic.inUnits (min e f) m e % Arithmetic.inUnits (min e f) n f) (min e f))) := by
  obtain ⟨hhigh, hmin, -⟩ := (eq_unit_iff hm.ne').1 hx.1
  obtain ⟨hhigh', hmin', -⟩ := (eq_unit_iff hn.ne').1 hy.1
  have hdigits := inUnits_mod_lt (e := e) (f := f) hn hhigh hhigh'
  have hpos : 0 < Arithmetic.inUnits (min e f) n f := Nat.mul_pos hn (Nat.two_pow_pos _)
  have hleft := IsRemainder.natCast_mul (Arithmetic.inUnits (min e f) m e) hpos
    (zpow_pos (two_pos (α := ℚ)) (min e f))
  rw [inUnits_mul_zpow (min_le_left e f), inUnits_mul_zpow (min_le_right e f)] at hleft
  have hsmall := (le_abs_self _).trans_lt (hleft.small.trans_eq (abs_of_pos hy.2.1))
  obtain ⟨hfinite, hvalue⟩ :=
    value_nearest s hdigits (le_min hmin hmin') (hsmall.trans hy.2.2)
  refine ⟨hfinite, ?_⟩
  rw [hvalue]
  exact hleft.signed s t

/-! ## The remainder of two numbers -/

variable {x y : Float}

/-- **The remainder is exact**: it is what is left of the dividend, and not rounded. -/
theorem remainder_isRemainder (hx : x.isFinite) (hy : y.isFinite) (hne : value y ≠ 0) :
    (Arithmetic.remainder x y).isFinite ∧
      IsRemainder (value x) (value y) (value (Arithmetic.remainder x y)) := by
  unfold Arithmetic.remainder
  rcases unpack_of_isFinite hy with ⟨t, hunpack'⟩ | ⟨t, n, f, hn, hunpack', hfits'⟩
  · exact absurd (by rw [value, hunpack', amount]) hne
  rcases unpack_of_isFinite hx with ⟨s, hunpack⟩ | ⟨s, m, e, hm, hunpack, hfits⟩
  · have hvalue : value x = 0 := by rw [value, hunpack, amount]
    have hzero : IsRemainder 0 (value y) 0 := ⟨⟨0, by simp⟩, by simpa using hne, by simp⟩
    rw [hunpack, hunpack']
    dsimp only
    rw [hvalue]
    exact ⟨hx, hzero⟩
  · rw [value, value, hunpack, hunpack']
    exact isRemainder_nearest s t hfits hfits'

/-- By an infinite number nothing is taken. -/
theorem remainder_infinite (hx : x.isFinite) (hnum : y.isNaN = false) (hy : ¬ y.isFinite) :
    Arithmetic.remainder x y = x := by
  obtain ⟨sign, hsign⟩ := exists_unpack_eq_infinity hnum hy
  unfold Arithmetic.remainder
  rw [hsign]
  rcases unpack_of_isFinite hx with ⟨s, hunpack⟩ | ⟨s, m, e, hm, hunpack, -⟩ <;> rw [hunpack]

/-- Zero and what is no number have the value zero, and nothing else has. -/
theorem value_eq_zero_iff : value y = 0 ↔
    y.toModel.unpack = .notANumber ∨ ∃ sign, y.toModel.unpack = .zero sign := by
  have hfits := fits_unpack y
  have hne : ∀ (sign : Sign) {q : ℚ}, 0 < q → signed sign q ≠ 0 := fun sign q hq hzero => by
    have habs := abs_signed sign q
    rw [hzero, abs_zero, abs_of_pos hq] at habs
    exact hq.ne habs
  unfold value
  cases hunpack : y.toModel.unpack with
  | notANumber => exact iff_of_true rfl (.inl rfl)
  | zero sign => exact iff_of_true rfl (.inr ⟨sign, rfl⟩)
  | infinity sign => exact iff_of_false (hne sign top_pos) (by simp)
  | finite sign m e hm =>
    rw [hunpack] at hfits
    exact iff_of_false (hne sign hfits.2.1) (by simp)

/-- **Where there is no remainder**: the dividend is not finite, or the divisor is zero or no
number. -/
theorem isNaN_remainder_iff : (Arithmetic.remainder x y).isNaN ↔ ¬ x.isFinite ∨ value y = 0 := by
  constructor
  · intro hnan
    by_contra! ⟨hx, hne⟩
    have hnum : y.isNaN = false := by
      change y.toModel.unpack.isNaN = false
      cases hunpack : y.toModel.unpack with
      | notANumber => exact absurd (value_eq_zero_iff.2 (.inl hunpack)) hne
      | infinity | zero | finite => rfl
    have hremainder : (Arithmetic.remainder x y).isNaN = false := by
      by_cases hy : y.isFinite
      · exact isNaN_of_isFinite (remainder_isRemainder hx hy hne).1
      · rw [remainder_infinite hx hnum hy]
        exact isNaN_of_isFinite hx
    rw [hremainder] at hnan
    cases hnan
  · have hnan : Arithmetic.notANumber.isNaN := rfl
    rintro (hx | hy)
    · change ¬ x.toModel.unpack.isFinite at hx
      unfold Arithmetic.remainder
      cases hunpack : x.toModel.unpack with
      | infinity | notANumber => cases y.toModel.unpack <;> exact hnan
      | zero | finite => exact absurd (by rw [hunpack]; rfl) hx
    · unfold Arithmetic.remainder
      rcases value_eq_zero_iff.1 hy with hunpack | ⟨sign, hunpack⟩
      · rw [hunpack]
        cases x.toModel.unpack <;> exact hnan
      · rw [hunpack]
        cases x.toModel.unpack <;> exact hnan

end Grapher.Binary64
