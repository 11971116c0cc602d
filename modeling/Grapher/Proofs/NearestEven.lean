import Mathlib.Algebra.Order.Field.Basic
import Mathlib.Data.Int.Log
import Mathlib.Data.Rat.Floor
import Mathlib.Tactic.Linarith
import Mathlib.Tactic.NormNum

set_option relaxedAutoImplicit false
set_option autoImplicit false

/-!
# Rounding rational numbers

Binary64 has the numbers `m · 2 ^ e` with 53 binary digits in `m`, where `e` is at least `-1074`.
Around a number they stand on a grid, whose unit is set by the greatest power of two that is not
above the magnitude of the number. A number that is not on its grid is rounded to the nearest one
that is, and to the one with an even significand if two are nearest.

Rounding keeps the order. Where the grid changes, at a power of two, this power is on both grids.

## Main definitions

* `nearestEven` — the nearest integer.
* `Binary64.unit` — the exponent of the unit of the grid around a number.
* `Binary64.nearest` — the nearest number of the grid, without a bound on the exponent.
* `Binary64.Finest` — the numbers of the finest grid, on which all others are.

## Main results

* `nearestEven_mono`, `abs_nearestEven_sub_le` — rounding to an integer.
* `nearestEven_of_abs_sub_lt`, `nearestEven_of_abs_sub_le` — what is rounded to a given integer.
* `Binary64.nearest_mono`, `Binary64.abs_nearest_sub_le` — rounding to the grid.
-/

namespace Grapher

/-! ## The nearest integer -/

/-- The integer nearest to a number, the even one if two are nearest. -/
def nearestEven (q : ℚ) : ℤ :=
  if q - ⌊q⌋ < 1 / 2 then ⌊q⌋ else if 1 / 2 < q - ⌊q⌋ then ⌊q⌋ + 1 else ⌊q⌋ + ⌊q⌋ % 2

/-- An integer is nearest to itself. -/
@[simp]
theorem nearestEven_intCast (n : ℤ) : nearestEven n = n := by
  simp [nearestEven]

/-- The nearest integer is one of the two around a number. -/
theorem nearestEven_bounds (q : ℚ) : ⌊q⌋ ≤ nearestEven q ∧ nearestEven q ≤ ⌊q⌋ + 1 := by
  unfold nearestEven
  split_ifs <;> omega

/-- **Rounding to an integer keeps the order.** -/
theorem nearestEven_mono {p q : ℚ} (hle : p ≤ q) : nearestEven p ≤ nearestEven q := by
  have hfloor : ⌊p⌋ ≤ ⌊q⌋ := Int.floor_mono hle
  rcases hfloor.lt_or_eq with hlt | heq
  · exact (nearestEven_bounds p).2.trans ((Int.add_one_le_iff.2 hlt).trans (nearestEven_bounds q).1)
  · unfold nearestEven
    rw [heq]
    split_ifs <;> first | omega | linarith

/-- The nearest integer is at most one half away. -/
theorem abs_nearestEven_sub_le (q : ℚ) : |(nearestEven q : ℚ) - q| ≤ 1 / 2 := by
  have hlow : (⌊q⌋ : ℚ) ≤ q := Int.floor_le q
  have hhigh : q < ⌊q⌋ + 1 := Int.lt_floor_add_one q
  have hparity : ((⌊q⌋ % 2 : ℤ) : ℚ) = 0 ∨ ((⌊q⌋ % 2 : ℤ) : ℚ) = 1 := by
    rcases Int.emod_two_eq_zero_or_one ⌊q⌋ with h | h <;> simp [h]
  unfold nearestEven
  rw [abs_le]
  split_ifs <;> push_cast <;> constructor <;> rcases hparity with h | h <;> linarith

/-- What is less than one half away from an integer is rounded to it. -/
theorem nearestEven_of_abs_sub_lt {q : ℚ} {n : ℤ} (h : |q - n| < 1 / 2) : nearestEven q = n := by
  obtain ⟨hlow, hhigh⟩ := abs_lt.1 h
  obtain ⟨hlow', hhigh'⟩ := abs_le.1 (abs_nearestEven_sub_le q)
  have hlt : ((nearestEven q : ℤ) : ℚ) < ((n + 1 : ℤ) : ℚ) := by push_cast; linarith
  have hgt : ((n - 1 : ℤ) : ℚ) < ((nearestEven q : ℤ) : ℚ) := by push_cast; linarith
  have hlt := Int.cast_lt.1 hlt
  have hgt := Int.cast_lt.1 hgt
  omega

/-- Halfway between two integers the even one is nearest, also from above. -/
theorem nearestEven_add_half {n : ℤ} (hn : n % 2 = 0) : nearestEven (n + 1 / 2) = n := by
  have hfloor : ⌊(n : ℚ) + 1 / 2⌋ = n := Int.floor_eq_iff.2 ⟨by linarith, by linarith⟩
  unfold nearestEven
  rw [hfloor, if_neg (by linarith), if_neg (by linarith), hn, add_zero]

/-- Halfway between two integers the even one is nearest, also from below. -/
theorem nearestEven_sub_half {n : ℤ} (hn : n % 2 = 0) : nearestEven (n - 1 / 2) = n := by
  have hfloor : ⌊(n : ℚ) - 1 / 2⌋ = n - 1 := by
    refine Int.floor_eq_iff.2 ⟨?_, ?_⟩ <;> push_cast <;> linarith
  unfold nearestEven
  rw [hfloor, if_neg (by push_cast; linarith), if_neg (by push_cast; linarith)]
  omega

/-- What is at most one half away from an even integer is rounded to it. -/
theorem nearestEven_of_abs_sub_le {q : ℚ} {n : ℤ} (hn : n % 2 = 0) (h : |q - n| ≤ 1 / 2) :
    nearestEven q = n := by
  obtain ⟨hlow, hhigh⟩ := abs_le.1 h
  have hle : q ≤ n + 1 / 2 := by linarith
  have hge : (n : ℚ) - 1 / 2 ≤ q := by linarith
  exact le_antisymm ((nearestEven_mono hle).trans_eq (nearestEven_add_half hn))
    ((nearestEven_sub_half hn).symm.trans_le (nearestEven_mono hge))

/-! ## The grid -/

namespace Binary64

/-- The exponent of the unit of the grid around a number: 53 binary digits from its first one on,
but not below the smallest exponent. -/
def unit (x : ℚ) : ℤ :=
  max (Int.log 2 x - 52) (-1074)

/-- The number of the grid that is nearest to a magnitude. -/
def nearestMagnitude (x : ℚ) : ℚ :=
  nearestEven (x / 2 ^ unit x) * 2 ^ unit x

/-- The number of the grid that is nearest to a number, as if the exponent had no upper bound. -/
def nearest (x : ℚ) : ℚ :=
  if 0 ≤ x then nearestMagnitude x else -nearestMagnitude (-x)

section Magnitude

variable {x y : ℚ}

/-- The power of two that a magnitude reaches. -/
theorem zpow_log_le (hx : 0 < x) : (2 : ℚ) ^ Int.log 2 x ≤ x := by
  exact_mod_cast Int.zpow_log_le_self (by norm_num : 1 < 2) hx

/-- The power of two that a magnitude does not reach. -/
theorem lt_zpow_log (x : ℚ) : x < 2 ^ (Int.log 2 x + 1) := by
  exact_mod_cast Int.lt_zpow_succ_log_self (by norm_num : 1 < 2) x

/-- The grid has a distance. -/
theorem unit_pos (x : ℚ) : (0 : ℚ) < 2 ^ unit x :=
  zpow_pos two_pos _

/-- Around greater magnitudes the grid is no finer. -/
theorem unit_mono (hx : 0 < x) (hle : x ≤ y) : unit x ≤ unit y := by
  have hlog : Int.log 2 x ≤ Int.log 2 y := Int.log_mono_right hx hle
  exact max_le_max_right _ (by omega)

/-- A power of two that is not below another one is a multiple of it. -/
theorem exists_zpow_eq_mul {j k : ℤ} (h : j ≤ k) : ∃ n : ℤ, (2 : ℚ) ^ k = n * 2 ^ j := by
  obtain ⟨n, hn⟩ := Int.eq_ofNat_of_zero_le (sub_nonneg.2 h)
  obtain rfl : k = n + j := by omega
  refine ⟨2 ^ n, ?_⟩
  rw [zpow_add₀ two_ne_zero]
  norm_cast

/-- A multiple of the unit is on the grid. -/
theorem nearestMagnitude_of_eq {n : ℤ} (h : x = n * 2 ^ unit x) : nearestMagnitude x = x := by
  have hdiv : x / 2 ^ unit x = n := by
    rw [div_eq_iff (unit_pos x).ne']
    exact h
  rw [nearestMagnitude, hdiv, nearestEven_intCast, ← h]

/-- Zero is on the grid. -/
@[simp]
theorem nearestMagnitude_zero : nearestMagnitude 0 = 0 := by
  have hzero : nearestEven 0 = 0 := by exact_mod_cast nearestEven_intCast 0
  simp [nearestMagnitude, hzero]

/-- Rounding does not pass a multiple of the unit from below. -/
theorem nearestMagnitude_le {n : ℤ} (h : x ≤ n * 2 ^ unit x) :
    nearestMagnitude x ≤ n * 2 ^ unit x := by
  have hround : nearestEven (x / 2 ^ unit x) ≤ n := by
    rw [← nearestEven_intCast n]
    exact nearestEven_mono ((div_le_iff₀ (unit_pos x)).2 h)
  exact mul_le_mul_of_nonneg_right (by exact_mod_cast hround) (unit_pos x).le

/-- Rounding does not pass a multiple of the unit from above. -/
theorem le_nearestMagnitude {n : ℤ} (h : n * 2 ^ unit x ≤ x) :
    n * 2 ^ unit x ≤ nearestMagnitude x := by
  have hround : n ≤ nearestEven (x / 2 ^ unit x) := by
    rw [← nearestEven_intCast n]
    exact nearestEven_mono ((le_div_iff₀ (unit_pos x)).2 h)
  exact mul_le_mul_of_nonneg_right (by exact_mod_cast hround) (unit_pos x).le

/-- No magnitude is rounded below zero. -/
theorem nearestMagnitude_nonneg (hx : 0 ≤ x) : 0 ≤ nearestMagnitude x := by
  simpa using le_nearestMagnitude (x := x) (n := 0) (by simpa using hx)

/-- **Rounding a magnitude keeps the order.**

**Proof sketch.** On one grid this is the order of the nearest integers. On two grids a power of two
stands between the magnitudes that is on both of them. -/
theorem nearestMagnitude_mono (hx : 0 ≤ x) (hle : x ≤ y) :
    nearestMagnitude x ≤ nearestMagnitude y := by
  rcases hx.eq_or_lt with rfl | hx
  · rw [nearestMagnitude_zero]
    exact nearestMagnitude_nonneg hle
  have hlog : Int.log 2 x ≤ Int.log 2 y := Int.log_mono_right hx hle
  rcases (unit_mono hx hle).lt_or_eq with hlt | heq
  · obtain ⟨hgrid, hbetween⟩ : unit y = Int.log 2 y - 52 ∧ Int.log 2 x < Int.log 2 y := by
      unfold unit at hlt ⊢
      omega
    have habove : x ≤ 2 ^ Int.log 2 y :=
      (lt_zpow_log x).le.trans (zpow_le_zpow_right₀ one_le_two (by omega))
    have hbelow : 2 ^ Int.log 2 y ≤ y := zpow_log_le (hx.trans_le hle)
    obtain ⟨m, hm⟩ := exists_zpow_eq_mul (show unit x ≤ Int.log 2 y by omega)
    obtain ⟨n, hn⟩ := exists_zpow_eq_mul (show unit y ≤ Int.log 2 y by omega)
    calc nearestMagnitude x ≤ m * 2 ^ unit x := nearestMagnitude_le (hm ▸ habove)
      _ = n * 2 ^ unit y := hm.symm.trans hn
      _ ≤ nearestMagnitude y := le_nearestMagnitude (hn ▸ hbelow)
  · unfold nearestMagnitude
    rw [heq]
    refine mul_le_mul_of_nonneg_right ?_ (unit_pos y).le
    exact_mod_cast nearestEven_mono ((div_le_div_iff_of_pos_right (unit_pos y)).2 hle)

/-- A magnitude is moved by half a unit at most. -/
theorem abs_nearestMagnitude_sub_le (x : ℚ) :
    |nearestMagnitude x - x| ≤ 2 ^ unit x / 2 := by
  have hsplit : nearestMagnitude x - x =
      (nearestEven (x / 2 ^ unit x) - x / 2 ^ unit x) * 2 ^ unit x := by
    rw [sub_mul, div_mul_cancel₀ _ (unit_pos x).ne']
    rfl
  rw [hsplit, abs_mul, abs_of_pos (unit_pos x)]
  have hhalf := mul_le_mul_of_nonneg_right (abs_nearestEven_sub_le (x / 2 ^ unit x))
    (unit_pos x).le
  linarith

/-- A magnitude above the smallest normal number is moved by one part of `2 ^ 53` at most. -/
theorem abs_nearestMagnitude_sub_le_of_normal (hx : 0 < x) (hnormal : -1022 ≤ Int.log 2 x) :
    |nearestMagnitude x - x| ≤ x / 2 ^ 53 := by
  have hunit : unit x = Int.log 2 x - 52 := max_eq_left (by omega)
  have hpower : (2 : ℚ) ^ unit x / 2 = 2 ^ Int.log 2 x / 2 ^ 53 := by
    rw [hunit, zpow_sub₀ two_ne_zero, div_div]
    norm_num
  calc |nearestMagnitude x - x| ≤ 2 ^ unit x / 2 := abs_nearestMagnitude_sub_le x
    _ = 2 ^ Int.log 2 x / 2 ^ 53 := hpower
    _ ≤ x / 2 ^ 53 := div_le_div_of_nonneg_right (zpow_log_le hx) (by norm_num)

end Magnitude

/-! ## Rounding -/

section Nearest

variable {x y : ℚ}

/-- A number that is not negative is rounded as a magnitude. -/
theorem nearest_of_nonneg (hx : 0 ≤ x) : nearest x = nearestMagnitude x :=
  if_pos hx

/-- Opposite numbers are rounded alike. -/
theorem nearest_neg (x : ℚ) : nearest (-x) = -nearest x := by
  unfold nearest
  rcases lt_trichotomy x 0 with hx | rfl | hx
  · rw [if_pos (by linarith), if_neg (by linarith), neg_neg]
  · simp
  · rw [if_neg (by linarith), if_pos hx.le, neg_neg]

/-- A number that is not negative is not rounded below zero. -/
theorem nearest_nonneg (hx : 0 ≤ x) : 0 ≤ nearest x := by
  rw [nearest_of_nonneg hx]
  exact nearestMagnitude_nonneg hx

/-- **Rounding keeps the order.** -/
theorem nearest_mono : Monotone nearest := by
  intro x y hle
  rcases le_total 0 x with hx | hx
  · rw [nearest_of_nonneg hx, nearest_of_nonneg (hx.trans hle)]
    exact nearestMagnitude_mono hx hle
  rcases le_total 0 y with hy | hy
  · have hneg : 0 ≤ nearest (-x) := nearest_nonneg (by linarith)
    rw [nearest_neg] at hneg
    exact (neg_nonneg.1 hneg).trans (nearest_nonneg hy)
  · have hneg : nearest (-y) ≤ nearest (-x) := by
      rw [nearest_of_nonneg (by linarith), nearest_of_nonneg (by linarith)]
      exact nearestMagnitude_mono (by linarith) (by linarith)
    rw [nearest_neg, nearest_neg] at hneg
    exact neg_le_neg_iff.1 hneg

end Nearest

/-! ## Errors -/

section Errors

variable {x y : ℚ}

/-- A multiple of the smallest unit, as all finite numbers are. -/
def Finest (x : ℚ) : Prop :=
  ∃ n : ℤ, x = n * 2 ^ (-1074 : ℤ)

/-- Multiples of the smallest unit have multiples as opposites. -/
theorem Finest.neg (hx : Finest x) : Finest (-x) := by
  obtain ⟨n, rfl⟩ := hx
  exact ⟨-n, by rw [Int.cast_neg, neg_mul]⟩

/-- Multiples of the smallest unit add up to one. -/
theorem Finest.add (hx : Finest x) (hy : Finest y) : Finest (x + y) := by
  obtain ⟨m, rfl⟩ := hx
  obtain ⟨n, rfl⟩ := hy
  exact ⟨m + n, by rw [Int.cast_add, add_mul]⟩

/-- A multiple of the smallest unit stays one when it is repeated. -/
theorem Finest.mul_natCast (hx : Finest x) (n : ℕ) : Finest (x * n) := by
  obtain ⟨m, rfl⟩ := hx
  exact ⟨m * n, by rw [Int.cast_mul, Int.cast_natCast, mul_right_comm]⟩

/-- The nearest number is on the same side of zero. -/
theorem abs_nearest_sub (x : ℚ) : |nearest x - x| = |nearestMagnitude (|x|) - (|x|)| := by
  unfold nearest
  split
  · next hx => rw [abs_of_nonneg hx]
  · next hx =>
    rw [abs_of_neg (not_le.1 hx), ← abs_neg]
    congr 1
    ring

/-- **A multiple of the smallest unit is moved by one part of `2 ^ 53` at most**: on the finest grid
it stays where it is. -/
theorem Finest.abs_nearest_sub_le (hx : Finest x) : |nearest x - x| ≤ |x| / 2 ^ 53 := by
  rw [abs_nearest_sub]
  obtain ⟨n, hn⟩ : Finest |x| := by
    rcases abs_choice x with h | h <;> rw [h]
    exacts [hx, hx.neg]
  by_cases hnormal : -1022 ≤ Int.log 2 |x|
  · rcases (abs_nonneg x).eq_or_lt with hzero | hpos
    · rw [← hzero, nearestMagnitude_zero]
      norm_num
    · exact abs_nearestMagnitude_sub_le_of_normal hpos hnormal
  · have hunit : unit |x| = -1074 := max_eq_right (by omega)
    rw [nearestMagnitude_of_eq (hunit.symm ▸ hn), sub_self, abs_zero]
    positivity

/-- **Any number is moved by one part of `2 ^ 53` at most**, or by half the smallest unit. -/
theorem abs_nearest_sub_le (x : ℚ) : |nearest x - x| ≤ |x| / 2 ^ 53 + 2 ^ (-1075 : ℤ) := by
  have htiny : (0 : ℚ) < 2 ^ (-1075 : ℤ) := zpow_pos two_pos _
  rw [abs_nearest_sub]
  by_cases hnormal : -1022 ≤ Int.log 2 |x|
  · rcases (abs_nonneg x).eq_or_lt with hzero | hpos
    · rw [← hzero, nearestMagnitude_zero, sub_self, abs_zero, zero_div, zero_add]
      exact htiny.le
    · linarith [abs_nearestMagnitude_sub_le_of_normal hpos hnormal]
  · have hunit : unit |x| = -1074 := max_eq_right (by omega)
    have hhalf : (2 : ℚ) ^ (-1074 : ℤ) / 2 = 2 ^ (-1075 : ℤ) := by
      rw [div_eq_iff two_ne_zero, ← zpow_add_one₀ two_ne_zero]
      norm_num
    have hmoved := abs_nearestMagnitude_sub_le |x|
    rw [hunit, hhalf] at hmoved
    linarith [div_nonneg (abs_nonneg x) (show (0 : ℚ) ≤ 2 ^ 53 by norm_num)]

end Errors

end Binary64

end Grapher
