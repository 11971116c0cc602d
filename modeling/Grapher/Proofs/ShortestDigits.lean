import Grapher.Decimal.Shortest
import Grapher.Proofs.Decimals

set_option relaxedAutoImplicit false
set_option autoImplicit false

/-!
# The shortest decimal reads back

The decimal that is written for a positive number is read as the same number. The decimal lies in
the interval that the search looks in, or it is exactly the number. The interval ends halfway to the
next numbers, and its ends belong to it only where a half goes to its number, so all that it holds
rounds to its number. The one place where the two sides differ is a power of two: below it the next
number is half as far, and the rounding is finer there as well.

## Main definitions

* `Decimal.Inside` — the interval around a number, between rational ends.
* `Decimal.admits` — the comparison of natural numbers that decides what the interval holds.

## Main results

* `Decimal.inside_of_neighbour?` — the multiple of a power of ten that is chosen lies in the
  interval.
* `Decimal.Inside.rounds` — the numbers of the interval round to its number.
* `Decimal.unpack_toFloat` — decimals of the value of the shortest one are read as the number that
  it stands for.
-/

namespace Grapher

namespace Decimal

open Binary64

/-! ## The interval -/

theorem ratio_pos (m : ℕ) (e g : ℤ) : 0 < (ratio m e g).2 :=
  Nat.mul_pos (Nat.pow_pos two_pos) (Nat.pow_pos (by norm_num))

/-- A quotient by a power of ten, as the two natural numbers that it is compared by. -/
theorem ratio_mul (m : ℕ) (e g : ℤ) :
    ((ratio m e g).1 : ℚ) * (10 ^ g / (ratio m e g).2) = m * 2 ^ e := by
  have htwo := zpow_mul_pow_toNat two_ne_zero e
  have hten := zpow_mul_pow_toNat (b := 10) (by norm_num) g
  simp only [ratio, Nat.pow_eq]
  push_cast
  rw [mul_div_assoc', div_eq_iff (by positivity), ← htwo, ← hten]
  ring

/-- The distance from the number to the lower end of the interval. -/
def gapBelow (m : ℕ) (e : ℤ) : ℚ :=
  if m = leastNormal ∧ leastExponent < e then 2 ^ e / 4 else 2 ^ e / 2

/-- The numbers of the interval around `m · 2 ^ e` that round to it. -/
structure Inside (m : ℕ) (e : ℤ) (q : ℚ) : Prop where
  /-- They start halfway to the next number below. -/
  lower : m * 2 ^ e - gapBelow m e ≤ q
  /-- They end halfway to the next number above. -/
  upper : q ≤ m * 2 ^ e + 2 ^ e / 2
  /-- If `m` is odd, the two ends round to the next numbers. -/
  strict : m % 2 ≠ 0 → m * 2 ^ e - gapBelow m e < q ∧ q < m * 2 ^ e + 2 ^ e / 2

/-- Whether the interval holds a quotient with the common denominator. -/
def admits (m : ℕ) (e g : ℤ) (n : ℕ) : Bool :=
  let value := (ratio (4 * m) (e - 2) g).1
  let half := (ratio 2 (e - 2) g).1
  let below := if m = leastNormal ∧ leastExponent < e then half / 2 else half
  if m % 2 = 0 then decide (value ≤ n + below) && decide (n ≤ value + half)
  else decide (value < n + below) && decide (n < value + half)

/-- A neighbour that is chosen is a multiple that the comparison admits. -/
theorem neighbour?_eq_some {m : ℕ} {e g : ℤ} {d : Decimal} (h : neighbour? m e g = some d) :
    ∃ n, d = ⟨n, g⟩ ∧ admits m e g (n * (ratio (4 * m) (e - 2) g).2) := by
  unfold neighbour? at h
  dsimp only at h
  split at h
  · next hlower hupper =>
    split at h <;> cases h
    · exact ⟨_, rfl, hlower⟩
    · exact ⟨_, rfl, hupper⟩
  · next hlower hupper =>
    cases h
    exact ⟨_, rfl, hlower⟩
  · next hlower hupper =>
    cases h
    exact ⟨_, rfl, hupper⟩
  · cases h

theorem zpow_sub_two (e : ℤ) : (2 : ℚ) ^ (e - 2) = 2 ^ e / 4 := by
  rw [zpow_sub₀ two_ne_zero]
  norm_num

/-- The natural numbers that the interval is compared by are its ends over the common
denominator. -/
theorem ratio_ends (m : ℕ) (e g : ℤ) :
    ((ratio (4 * m) (e - 2) g).1 : ℚ) * (10 ^ g / (ratio (4 * m) (e - 2) g).2) = m * 2 ^ e ∧
      ((ratio 2 (e - 2) g).1 : ℚ) * (10 ^ g / (ratio (4 * m) (e - 2) g).2) = 2 ^ e / 2 ∧
      (((ratio 2 (e - 2) g).1 / 2 : ℕ) : ℚ) * (10 ^ g / (ratio (4 * m) (e - 2) g).2) =
        2 ^ e / 4 := by
  have hhalf : (ratio 2 (e - 2) g).1 / 2 = (ratio 1 (e - 2) g).1 := by
    simp only [ratio, one_mul, mul_assoc]
    exact Nat.mul_div_cancel_left _ two_pos
  refine ⟨?_, ?_, ?_⟩
  · rw [ratio_mul, zpow_sub_two]
    push_cast
    ring
  · have htwo := ratio_mul 2 (e - 2) g
    rw [zpow_sub_two] at htwo
    refine htwo.trans ?_
    push_cast
    ring
  · rw [hhalf]
    have hone := ratio_mul 1 (e - 2) g
    rw [zpow_sub_two, Nat.cast_one, one_mul] at hone
    exact hone

/-- Comparisons of natural numbers on a common scale decide what the interval holds. -/
theorem Inside.of_scaled {m : ℕ} {e : ℤ} {value below half n : ℕ} {scale q : ℚ} (hpos : 0 < scale)
    (hvalue : value * scale = m * 2 ^ e) (hbelow : below * scale = gapBelow m e)
    (hhalf : half * scale = 2 ^ e / 2) (hn : n * scale = q)
    (hends : value ≤ n + below ∧ n ≤ value + half)
    (hstrict : m % 2 ≠ 0 → value < n + below ∧ n < value + half) : Inside m e q := by
  have hlower : ((n + below : ℕ) : ℚ) * scale = q + gapBelow m e := by
    rw [Nat.cast_add, add_mul, hn, hbelow]
  have hupper : ((value + half : ℕ) : ℚ) * scale = m * 2 ^ e + 2 ^ e / 2 := by
    rw [Nat.cast_add, add_mul, hvalue, hhalf]
  have hle : ∀ {a b : ℕ}, a ≤ b → (a : ℚ) * scale ≤ b * scale := fun h =>
    mul_le_mul_of_nonneg_right (by exact_mod_cast h) hpos.le
  have hlt : ∀ {a b : ℕ}, a < b → (a : ℚ) * scale < b * scale := fun h =>
    mul_lt_mul_of_pos_right (by exact_mod_cast h) hpos
  exact {
    lower := sub_le_iff_le_add.2 (hvalue ▸ hlower ▸ hle hends.1)
    upper := hn ▸ hupper ▸ hle hends.2
    strict := fun hodd => ⟨sub_lt_iff_lt_add.2 (hvalue ▸ hlower ▸ hlt (hstrict hodd).1),
      hn ▸ hupper ▸ hlt (hstrict hodd).2⟩ }

/-- **A neighbour that is chosen lies in the interval.** -/
theorem inside_of_neighbour? {m : ℕ} {e g : ℤ} {d : Decimal} (h : neighbour? m e g = some d) :
    Inside m e d.amount := by
  obtain ⟨n, rfl, hadmits⟩ := neighbour?_eq_some h
  obtain ⟨hvalue, hhalf, hquarter⟩ := ratio_ends m e g
  have hunit : (0 : ℚ) < (ratio (4 * m) (e - 2) g).2 := by
    exact_mod_cast ratio_pos (4 * m) (e - 2) g
  unfold admits at hadmits
  dsimp only at hadmits
  set value := (ratio (4 * m) (e - 2) g).1
  set unit := (ratio (4 * m) (e - 2) g).2
  set half := (ratio 2 (e - 2) g).1
  set below := if m = leastNormal ∧ leastExponent < e then half / 2 else half with hbelow
  have hgap : (below : ℚ) * (10 ^ g / unit) = gapBelow m e := by
    rw [hbelow, gapBelow]
    split
    · exact hquarter
    · exact hhalf
  have hamount : ((n * unit : ℕ) : ℚ) * (10 ^ g / unit) = (⟨n, g⟩ : Decimal).amount := by
    rw [amount, Nat.cast_mul]
    field_simp
  have hscaled := Inside.of_scaled (by positivity) hvalue hgap hhalf hamount
  by_cases heven : m % 2 = 0
  · obtain ⟨hlow, hhigh⟩ : value ≤ n * unit + below ∧ n * unit ≤ value + half := by
      simpa [heven] using hadmits
    exact hscaled ⟨hlow, hhigh⟩ fun hodd => absurd heven hodd
  · obtain ⟨hlow, hhigh⟩ : value < n * unit + below ∧ n * unit < value + half := by
      simpa [heven] using hadmits
    exact hscaled ⟨hlow.le, hhigh.le⟩ fun _ => ⟨hlow, hhigh⟩

/-! ## Rounding the interval -/

section Interval

variable {m : ℕ} {e : ℤ} {q : ℚ}

theorem gapBelow_le (m : ℕ) (e : ℤ) : gapBelow m e ≤ 2 ^ e / 2 := by
  have hpos : (0 : ℚ) < 2 ^ e := by positivity
  unfold gapBelow
  split <;> linarith

/-- The interval does not reach zero. -/
theorem Inside.pos (h : Inside m e q) (hm : 0 < m) : 0 < q := by
  have hpos : (0 : ℚ) < 2 ^ e := by positivity
  have hone : (2 : ℚ) ^ e ≤ m * 2 ^ e :=
    le_mul_of_one_le_left hpos.le (by exact_mod_cast hm)
  have hgap := gapBelow_le m e
  linarith [h.lower]

/-- Where the interval has the grid of its number, its numbers round to this one. -/
theorem Inside.nearestMagnitude_of_unit (h : Inside m e q) (hunit : unit q = e) :
    nearestMagnitude q = m * 2 ^ e := by
  have hpos : (0 : ℚ) < 2 ^ e := by positivity
  have hgap := gapBelow_le m e
  have hscaled : q / 2 ^ e - m = (q - m * 2 ^ e) / 2 ^ e := by field_simp
  have hdigits : nearestEven (q / 2 ^ e) = (m : ℤ) := by
    by_cases heven : m % 2 = 0
    · refine nearestEven_of_abs_sub_le (by omega) ?_
      rw [Int.cast_natCast, hscaled, abs_div, abs_of_pos hpos, div_le_iff₀ hpos, abs_le]
      exact ⟨by linarith [h.lower], by linarith [h.upper]⟩
    · obtain ⟨hlow, hhigh⟩ := h.strict heven
      refine nearestEven_of_abs_sub_lt ?_
      rw [Int.cast_natCast, hscaled, abs_div, abs_of_pos hpos, div_lt_iff₀ hpos, abs_lt]
      exact ⟨by linarith, by linarith⟩
  rw [nearestMagnitude, hunit, hdigits, Int.cast_natCast]

/-- Below a power of two the grid is finer, and what is close enough rounds to the power. -/
theorem nearestMagnitude_below_power (he : -1074 < e) (hlow : (2 ^ 52 - 1 / 4) * 2 ^ e ≤ q)
    (hhigh : q < 2 ^ 52 * 2 ^ e) : nearestMagnitude q = 2 ^ 52 * 2 ^ e := by
  have hpos : (0 : ℚ) < 2 ^ e := by positivity
  have hlog : Int.log 2 q = 51 + e := by
    refine log_eq ?_ ?_
    · rw [zpow_add₀ two_ne_zero]
      refine le_trans (mul_le_mul_of_nonneg_right ?_ hpos.le) hlow
      norm_num
    · rwa [show 51 + e + 1 = 52 + e by ring, zpow_add₀ two_ne_zero]
  have hunit : unit q = e - 1 := by
    rw [unit, hlog]
    omega
  have hfine : (2 : ℚ) ^ (e - 1) = 2 ^ e / 2 := by
    rw [zpow_sub₀ two_ne_zero, zpow_one]
  have hdigits : nearestEven (q / 2 ^ (e - 1)) = 2 ^ 53 := by
    refine nearestEven_of_abs_sub_le (by norm_num) ?_
    have hscaled : q / 2 ^ (e - 1) - ((2 ^ 53 : ℤ) : ℚ) = (2 * q - 2 ^ 53 * 2 ^ e) / 2 ^ e := by
      rw [hfine]
      push_cast
      field_simp
      ring
    rw [hscaled, abs_div, abs_of_pos hpos, div_le_iff₀ hpos, abs_le]
    exact ⟨by linarith, by linarith⟩
  rw [nearestMagnitude, hunit, hdigits, hfine]
  push_cast
  ring

/-- The interval ends before the grid gets coarser. -/
theorem Inside.unit_le (h : Inside m e q) (hm : 0 < m) (hdigits : m < 2 ^ 53)
    (hleast : -1074 ≤ e) : unit q ≤ e := by
  have hpos : (0 : ℚ) < 2 ^ e := by positivity
  have hnext : (m : ℚ) + 1 ≤ 2 ^ 53 := by exact_mod_cast hdigits
  have hhigh : q < 2 ^ (53 + e) := by
    rw [zpow_add₀ two_ne_zero]
    have hscaled := mul_le_mul_of_nonneg_right hnext hpos.le
    have hupper := h.upper
    norm_num at hscaled ⊢
    linarith
  have hlog : Int.log 2 q < 53 + e :=
    (Int.lt_zpow_iff_log_lt (by norm_num) (h.pos hm)).1 (by exact_mod_cast hhigh)
  unfold unit
  omega

/-- The interval starts where the grid gets finer, unless its number is a power of two. -/
theorem Inside.le_unit (h : Inside m e q) (hm : 0 < m) (hnormal : 2 ^ 52 ≤ m ∨ e = -1074)
    (hpower : m = 2 ^ 52 → -1074 < e → m * 2 ^ e ≤ q) (hleast : -1074 ≤ e) : e ≤ unit q := by
  have hpos : (0 : ℚ) < 2 ^ e := by positivity
  rcases hleast.eq_or_lt with rfl | hexponent
  -- subnormal numbers have the finest grid of all
  · exact le_max_right _ _
  have hnormal : 2 ^ 52 ≤ m := hnormal.resolve_right hexponent.ne'
  have hlow : (2 : ℚ) ^ (52 + e) ≤ q := by
    rw [zpow_add₀ two_ne_zero]
    rcases hnormal.eq_or_lt with rfl | hgreater
    · exact_mod_cast hpower rfl hexponent
    · have hnext : (2 : ℚ) ^ 52 + 1 ≤ m := by exact_mod_cast hgreater
      have hscaled := mul_le_mul_of_nonneg_right hnext hpos.le
      have hgap := gapBelow_le m e
      have hlower := h.lower
      norm_num at hscaled ⊢
      linarith
  have hlog : 52 + e ≤ Int.log 2 q :=
    (Int.zpow_le_iff_le_log (by norm_num) (h.pos hm)).1 (by exact_mod_cast hlow)
  unfold unit
  omega

/-- **The numbers of the interval round to its number.**

**Proof sketch.** The interval ends before the grid gets coarser. Below it the grid gets finer only
if the number is a power of two, and then the interval is shorter. -/
theorem Inside.rounds (h : Inside m e q) (hm : 0 < m) (he : e = unit (m * 2 ^ e)) :
    nearestMagnitude q = m * 2 ^ e := by
  obtain ⟨hdigits, hleast, hnormal⟩ := (eq_unit_iff hm.ne').1 he
  by_cases hfine : m = 2 ^ 52 ∧ -1074 < e ∧ q < m * 2 ^ e
  · -- the number is a power of two, and the grid below it is finer
    obtain ⟨rfl, hexponent, hbelow⟩ := hfine
    have hlow := h.lower
    rw [gapBelow, if_pos ⟨rfl, hexponent⟩] at hlow
    push_cast at hlow hbelow ⊢
    exact nearestMagnitude_below_power hexponent (by linarith) hbelow
  · have hpower : m = 2 ^ 52 → -1074 < e → (m : ℚ) * 2 ^ e ≤ q := fun hm hexponent =>
      not_lt.1 fun hlt => hfine ⟨hm, hexponent, hlt⟩
    exact h.nearestMagnitude_of_unit
      (le_antisymm (h.unit_le hm hdigits hleast) (h.le_unit hm hnormal hpower hleast))

end Interval

/-! ## The decimal that is chosen -/

/-- The exact decimal is what it stands for. -/
theorem amount_exact (m : ℕ) (e : ℤ) : (exact m e).amount = m * 2 ^ e := by
  rcases le_or_gt 0 e with hnonneg | hneg
  · obtain ⟨k, rfl⟩ := Int.eq_ofNat_of_zero_le hnonneg
    simp [exact, amount]
  · obtain ⟨k, rfl⟩ : ∃ k : ℕ, e = -k := ⟨e.natAbs, by omega⟩
    have hten : (10 : ℚ) = 5 * 2 := by norm_num
    simp only [exact, amount, Nat.pow_eq, min_eq_left hneg.le, neg_neg, Int.toNat_natCast]
    rw [Int.toNat_of_nonpos hneg.le]
    push_cast
    rw [hten, mul_zpow, zpow_neg, zpow_neg, zpow_natCast, zpow_natCast]
    field_simp

/-- **The shortest decimal rounds to the number that it stands for.** -/
theorem nearestMagnitude_shortest {m : ℕ} {e : ℤ} (hm : 0 < m) (he : e = unit (m * 2 ^ e)) :
    nearestMagnitude (shortest m e).amount = m * 2 ^ e := by
  unfold shortest
  dsimp only
  cases hfound : ((List.range 21).map fun (finer : ℕ) => coarsestGrid m e - finer).findSome?
      (neighbour? m e) with
  | none =>
    rw [Option.getD_none, amount_exact]
    refine nearestMagnitude_of_eq (n := m) ?_
    rw [← he, Int.cast_natCast]
  | some d =>
    obtain ⟨g, -, hneighbour⟩ := List.exists_of_findSome?_eq_some hfound
    exact (inside_of_neighbour? hneighbour).rounds hm he

/-- **A decimal of the value of the shortest one is read as the number that it stands for.** -/
theorem unpack_toFloat {d : Decimal} {m : ℕ} {e : ℤ} (hm : 0 < m) (he : e = unit (m * 2 ^ e))
    (htop : (m : ℚ) * 2 ^ e < top) (hamount : d.amount = (shortest m e).amount) :
    d.toFloat.toModel.unpack = .finite .positive m e hm := by
  have hpos := mul_zpow_pos hm e
  have hnearest := toFloat_isNearest d
  have hnonneg : 0 ≤ d.amount := mul_nonneg (Nat.cast_nonneg _) (by positivity)
  have hvalue : value d.toFloat = m * 2 ^ e := by
    rw [hnearest.value, nearest_of_nonneg hnonneg, hamount, nearestMagnitude_shortest hm he,
      clamp_of_abs_lt (by rwa [abs_of_pos hpos])]
  have hfinite : d.toFloat.isFinite := by
    rw [isFinite_iff hnearest.isNaN, hvalue, abs_of_pos hpos]
    exact htop
  exact unpack_of_value hfinite hm he hvalue

end Decimal

end Grapher
