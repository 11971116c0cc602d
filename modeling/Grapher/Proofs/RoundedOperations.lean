import Grapher.Proofs.Binary64

set_option relaxedAutoImplicit false
set_option autoImplicit false

/-!
# Operations on binary64 numbers

The sum and the product of finite numbers are the exact ones, rounded once, and so is a whole number
that becomes a binary64 one. An infinite number stays what it is when a finite one is added.

## Main definitions

* `Binary64.Rounds` — an unpacked number is an exact result that has been rounded once.

## Main results

* `Binary64.add_isNearest`, `Binary64.mul_isNearest`, `Binary64.ofNat_isNearest` — what is rounded
  once.
* `Binary64.value_add_le` — a sum keeps the order of an operand that may be infinite.
-/

namespace Grapher.Binary64

open Float.Model (UnpackedFloat Format totalExponent)
open Float.Model.UnpackedFloat (Sign ExtendedMantissa Accuracy)

/-! ## Results that are rounded once -/

/-- A finite result in canonical form that is the nearest number to an exact result. -/
structure Rounds (u : UnpackedFloat) (q : ℚ) : Prop where
  /-- The result is finite. -/
  finite : u.isFinite
  /-- It is in canonical form. -/
  canonical : Canonical u
  /-- It is the nearest number. -/
  amount : amount u = nearest q

/-- What is rounded before it is packed is still rounded once. -/
theorem Rounds.isNearest {u : UnpackedFloat} {q : ℚ} (h : Rounds u q) :
    IsNearest (Float.ofModel (Float.Model.pack u)) q := by
  obtain ⟨hnum, hvalue⟩ := value_pack h.finite h.canonical
  exact ⟨hnum, by rw [hvalue, h.amount]⟩

/-- What fits is in canonical form. -/
theorem Fits.canonical {u : UnpackedFloat} (h : Fits u) : Canonical u := by
  cases u with
  | finite => exact h.1
  | _ => trivial

/-- A finite number is its own nearest one. -/
theorem Fits.rounds {u : UnpackedFloat} (h : Fits u) (hfinite : u.isFinite) :
    Rounds u (amount u) :=
  ⟨hfinite, h.canonical, (nearest_amount hfinite h.canonical).symm⟩

/-- Both zeros are exact. -/
theorem rounds_zero (sign : Sign) : Rounds (.zero sign) 0 :=
  ⟨rfl, trivial, by simp [amount, nearest]⟩

/-- Zero has no sign. -/
theorem signed_zero (sign : Sign) : signed sign 0 = 0 := by
  cases sign
  · exact neg_zero
  · rfl

/-- A magnitude is rounded, whatever its sign is. -/
theorem nearest_signed (sign : Sign) {x : ℚ} (hx : 0 ≤ x) :
    nearest (signed sign x) = signed sign (nearestMagnitude x) := by
  cases sign
  · rw [signed, nearest_neg, nearest_of_nonneg hx]
    rfl
  · exact nearest_of_nonneg hx

variable {a b : UnpackedFloat}

/-- A significand takes the sign of its number. -/
theorem signed_natCast (sign : Sign) (m : ℕ) (x : ℚ) :
    signed sign (m * x) = ((sign.apply m : ℤ) : ℚ) * x := by
  cases sign <;> simp [signed, Sign.apply]

/-- **The sum is rounded once.** -/
theorem rounds_add (ha : Fits a) (hb : Fits b) (hfinite : a.isFinite) (hfinite' : b.isFinite) :
    Rounds (UnpackedFloat.add Format.binary64 a b) (amount a + amount b) := by
  rcases a with sign | _ | sign | ⟨sign, m, e, hm⟩
  · cases hfinite
  · cases hfinite
  · rcases b with sign' | _ | sign' | ⟨sign', n, f, hn⟩
    · cases hfinite'
    · cases hfinite'
    · have hzero : ∃ s, UnpackedFloat.add Format.binary64 (.zero sign) (.zero sign') = .zero s := by
        cases sign <;> cases sign' <;> exact ⟨_, rfl⟩
      obtain ⟨s, hs⟩ := hzero
      rw [hs]
      simpa [amount] using rounds_zero s
    · change Rounds (.finite sign' n f hn) (0 + amount (.finite sign' n f hn))
      rw [zero_add]
      exact hb.rounds rfl
  · rcases b with sign' | _ | sign' | ⟨sign', n, f, hn⟩
    · cases hfinite'
    · cases hfinite'
    · change Rounds (.finite sign m e hm) (amount (.finite sign m e hm) + 0)
      rw [add_zero]
      exact ha.rounds rfl
    · obtain ⟨hvalue, hexponent⟩ := decreaseExponent_spec m e (min e f)
      obtain ⟨hvalue', hexponent'⟩ := decreaseExponent_spec n f (min e f)
      obtain ⟨hfin, hcan, hamount⟩ := normalize_spec
        (sign.apply (UnpackedFloat.decreaseExponent m e (min e f)).1 +
          sign'.apply (UnpackedFloat.decreaseExponent n f (min e f)).1) (min e f) .positive
      refine ⟨hfin, hcan, hamount.trans (congrArg nearest ?_)⟩
      rw [hexponent, min_eq_right (min_le_left e f)] at hvalue
      rw [hexponent', min_eq_right (min_le_right e f)] at hvalue'
      rw [amount, amount, ← hvalue, ← hvalue', signed_natCast, signed_natCast, Int.cast_add,
        add_mul]

/-- A product of significands has digits enough. -/
theorem add_le_unit {m n : ℕ} {e f : ℤ} (hm : 0 < m) (he : e = unit (m * 2 ^ e)) (hn : 0 < n)
    (hf : f = unit (n * 2 ^ f)) : e + f ≤ unit (((m * n : ℕ) : ℚ) * 2 ^ (e + f)) := by
  obtain ⟨-, hmin, hlow⟩ := (eq_unit_iff hm.ne').1 he
  obtain ⟨-, hmin', hlow'⟩ := (eq_unit_iff hn.ne').1 hf
  have hmn : m * n ≠ 0 := (Nat.mul_pos hm hn).ne'
  rw [unit_natCast_mul_zpow hmn]
  have hlong : 2 ^ 52 ≤ m ∨ 2 ^ 52 ≤ n → 52 ≤ (m * n).log2 := by
    intro h
    refine (Nat.le_log2 hmn).2 ?_
    rcases h with h | h
    · exact h.trans (Nat.le_mul_of_pos_right m hn)
    · exact h.trans (Nat.le_mul_of_pos_left n hm)
  rcases hlow with hlow | rfl
  · have hlog := hlong (.inl hlow)
    omega
  · rcases hlow' with hlow' | rfl
    · have hlog := hlong (.inr hlow')
      omega
    · omega

/-- The sign of a product. -/
theorem signed_mul (s t : Sign) (x y : ℚ) : signed (s * t) (x * y) = signed s x * signed t y := by
  cases s <;> cases t
  · exact (neg_mul_neg x y).symm
  · exact (neg_mul x y).symm
  · exact (mul_neg x y).symm
  · rfl

/-- The product of two significands is rounded once, if it has digits enough. -/
theorem rounds_mul_finite (s t : Sign) {m n : ℕ} {e f : ℤ} (hm : 0 < m) (hn : 0 < n)
    (h : e + f ≤ unit (((m * n : ℕ) : ℚ) * 2 ^ (e + f))) :
    Rounds (UnpackedFloat.mul Format.binary64 (.finite s m e hm) (.finite t n f hn))
      (amount (.finite s m e hm) * amount (.finite t n f hn)) := by
  have hmn : 0 < m * n := Nat.mul_pos hm hn
  obtain ⟨hfinite, hcanonical, hamount⟩ := roundWithAccuracy_spec (s * t) (.exact (m * n))
    (by exact_mod_cast hmn) (.inl hmn.ne') h
  refine ⟨hfinite, hcanonical, hamount.trans ?_⟩
  have hproduct : ((m * n : ℕ) : ℚ) * 2 ^ (e + f) = (m * 2 ^ e) * (n * 2 ^ f) := by
    rw [zpow_add₀ two_ne_zero]
    push_cast
    ring
  have hnonneg : (0 : ℚ) ≤ ((m * n : ℕ) : ℚ) * 2 ^ (e + f) := (mul_zpow_pos hmn _).le
  rw [amount, amount, ← signed_mul, ← hproduct, nearest_signed _ hnonneg]

/-- **The product is rounded once.** -/
theorem rounds_mul (ha : Fits a) (hb : Fits b) (hfinite : a.isFinite) (hfinite' : b.isFinite) :
    Rounds (UnpackedFloat.mul Format.binary64 a b) (amount a * amount b) := by
  rcases a with sign | _ | sign | ⟨sign, m, e, hm⟩
  · cases hfinite
  · cases hfinite
  · rcases b with sign' | _ | sign' | ⟨sign', n, f, hn⟩
    · cases hfinite'
    · cases hfinite'
    · exact (zero_mul (amount (.zero sign'))).symm ▸ rounds_zero (sign * sign')
    · exact (zero_mul (amount (.finite sign' n f hn))).symm ▸ rounds_zero (sign * sign')
  · rcases b with sign' | _ | sign' | ⟨sign', n, f, hn⟩
    · cases hfinite'
    · cases hfinite'
    · exact (mul_zero (amount (.finite sign m e hm))).symm ▸ rounds_zero (sign * sign')
    · exact rounds_mul_finite sign sign' hm hn (add_le_unit hm ha.1 hn hb.1)

variable {x y : Float}

/-- The sum of two finite numbers is the exact one, rounded once. -/
theorem add_isNearest (hx : x.isFinite) (hy : y.isFinite) : IsNearest (x + y) (value x + value y) :=
  (rounds_add (fits_unpack x) (fits_unpack y) hx hy).isNearest

/-- The product of two finite numbers is the exact one, rounded once. -/
theorem mul_isNearest (hx : x.isFinite) (hy : y.isFinite) : IsNearest (x * y) (value x * value y) :=
  (rounds_mul (fits_unpack x) (fits_unpack y) hx hy).isNearest

/-! ## Infinite operands -/

/-- Infinite numbers are packed without loss. -/
theorem unpack_pack_infinity (sign : Sign) :
    (Float.Model.pack (.infinity sign)).unpack = .infinity sign := by
  cases sign <;> rfl

/-- A number that is not finite is infinite. -/
theorem exists_unpack_eq_infinity (hnum : x.isNaN = false) (h : ¬ x.isFinite) :
    ∃ sign, x.toModel.unpack = .infinity sign := by
  change ¬ x.toModel.unpack.isFinite at h
  change x.toModel.unpack.isNaN = false at hnum
  revert h hnum
  cases x.toModel.unpack with
  | infinity sign => exact fun _ _ => ⟨sign, rfl⟩
  | notANumber => simp [UnpackedFloat.isNaN]
  | zero | finite => simp [UnpackedFloat.isFinite]

/-- No value is beyond those of the infinite numbers. -/
theorem abs_value_le_top (x : Float) : |value x| ≤ top := by
  have hfits := fits_unpack x
  unfold value
  revert hfits
  cases x.toModel.unpack with
  | infinity sign => simp [amount, abs_signed, abs_of_pos top_pos]
  | notANumber | zero => simp [amount, top_pos.le]
  | finite sign m e hm =>
    rintro ⟨-, hpos, hlt⟩
    rw [amount, abs_signed, abs_of_pos hpos]
    exact hlt.le

/-- A finite number does not change an infinite one. -/
theorem add_infinite (hx : x.isFinite) (hnum : y.isNaN = false) (hy : ¬ y.isFinite) :
    (x + y).isNaN = false ∧ value (x + y) = value y := by
  obtain ⟨sign, hsign⟩ := exists_unpack_eq_infinity hnum hy
  have hadd : UnpackedFloat.add Format.binary64 x.toModel.unpack (.infinity sign) =
      .infinity sign := by
    rcases unpack_of_isFinite hx with ⟨s, hunpack⟩ | ⟨s, m, e, hm, hunpack, -⟩ <;>
      rw [hunpack] <;> rfl
  have hunpack : (x + y).toModel.unpack = .infinity sign := by
    rw [← unpack_pack_infinity sign, ← hadd, ← hsign]
    rfl
  refine ⟨?_, ?_⟩
  · change (x + y).toModel.unpack.isNaN = false
    rw [hunpack]
    rfl
  · rw [value, value, hunpack, hsign]

/-- A sum with a finite number is a number. -/
theorem isNaN_add (hx : x.isFinite) (hy : y.isNaN = false) : (x + y).isNaN = false := by
  by_cases hfinite : y.isFinite
  · exact (add_isNearest hx hfinite).isNaN
  · exact (add_infinite hx hy hfinite).1

/-- **A sum with a finite number keeps the order of the other operand.** -/
theorem value_add_le {z : Float} (hx : x.isFinite) (hy : y.isNaN = false) (hz : z.isNaN = false)
    (hle : value y ≤ value z) : value (x + y) ≤ value (x + z) := by
  have hbound := abs_le.1 (abs_value_le_top (x + y))
  have hbound' := abs_le.1 (abs_value_le_top (x + z))
  by_cases hfinite : y.isFinite <;> by_cases hfinite' : z.isFinite
  · rw [(add_isNearest hx hfinite).value, (add_isNearest hx hfinite').value]
    exact clamp_mono (nearest_mono (by linarith))
  · have hlow := (abs_lt.1 ((isFinite_iff hy).1 hfinite)).1
    rw [isFinite_iff hz, not_lt, le_abs] at hfinite'
    rw [(add_infinite hx hz (by rw [isFinite_iff hz, not_lt, le_abs]; exact hfinite')).2]
    rcases hfinite' with h | h <;> linarith
  · have hhigh := (abs_lt.1 ((isFinite_iff hz).1 hfinite')).2
    rw [isFinite_iff hy, not_lt, le_abs] at hfinite
    rw [(add_infinite hx hy (by rw [isFinite_iff hy, not_lt, le_abs]; exact hfinite)).2]
    rcases hfinite with h | h <;> linarith
  · rw [(add_infinite hx hy hfinite).2, (add_infinite hx hz hfinite').2]
    exact hle

/-! ## Whole numbers -/

/-- A whole number with at most 53 digits is on the grid, also in units of a power of two. -/
theorem nearest_natCast_mul_zpow {n : ℕ} {k : ℤ} (hn : n < 2 ^ 53) (hk : -1074 ≤ k) :
    nearest (n * 2 ^ k) = n * 2 ^ k := by
  rcases Nat.eq_zero_or_pos n with rfl | hpos
  · simp [nearest]
  have hlog : n.log2 < 53 := (Nat.log2_lt hpos.ne').2 hn
  have hunit : unit (n * 2 ^ k) ≤ k := by
    rw [unit_natCast_mul_zpow hpos.ne']
    omega
  obtain ⟨j, hj⟩ := exists_zpow_eq_mul hunit
  rw [nearest_of_nonneg (mul_zpow_pos hpos k).le]
  refine nearestMagnitude_of_eq (n := n * j) ?_
  rw [Int.cast_mul, mul_assoc, ← hj, Int.cast_natCast]

/-- A whole number with at most 53 digits is on the grid. -/
theorem nearest_natCast {n : ℕ} (h : n < 2 ^ 53) : nearest n = n := by
  simpa using nearest_natCast_mul_zpow h (k := 0) (by norm_num)

/-- The powers of two below the top. -/
theorem zpow_lt_top {k : ℤ} (h : k < 1024) : (2 : ℚ) ^ k < top :=
  zpow_lt_zpow_right₀ one_lt_two h

/-- The top is where the grid of the largest numbers would go on. -/
theorem nearest_top : nearest top = top := by
  simpa [top] using nearest_natCast_mul_zpow (n := 1) (k := 1024) (by norm_num) (by norm_num)

/-- A whole number with at most 53 digits is far from the top. -/
theorem abs_natCast_lt_top {n : ℕ} (h : n < 2 ^ 53) : |(n : ℚ)| < top := by
  rw [Nat.abs_cast]
  have hlt : (n : ℚ) < 2 ^ (53 : ℤ) := by exact_mod_cast h
  exact hlt.trans (zpow_lt_top (by norm_num))

/-- The bits of the number one. -/
theorem value_ofBits_one : value (Float.ofBits 0x3FF0000000000000) = 1 := by
  have hbits : (Float.ofBits 0x3FF0000000000000).toModel.unpack =
      .finite .positive (2 ^ 52) (-52) (by norm_num) := rfl
  rw [value, hbits, amount, signed]
  norm_num

/-- A whole number with at most 53 digits is converted without loss. -/
theorem value_toFloat {n : ℕ} (h : n < 2 ^ 53) :
    n.toUInt64.toFloat.isFinite ∧ value n.toUInt64.toFloat = n := by
  have hnat : n.toUInt64.toNat = n := by
    rw [Nat.toUInt64, UInt64.toNat_ofNat']
    exact Nat.mod_eq_of_lt (by omega)
  have hnormalize : n.toUInt64.toFloat =
      Float.ofModel (Float.Model.pack (UnpackedFloat.normalize Format.binary64 n 0 .positive)) := by
    rw [← congrArg (fun k : ℕ => Float.ofModel (Float.Model.pack
      (UnpackedFloat.normalize Format.binary64 (k : ℤ) 0 .positive))) hnat]
    rfl
  obtain ⟨hfinite, hcanonical, hamount⟩ := normalize_spec n 0 .positive
  obtain ⟨hnum, hvalue⟩ := value_pack hfinite hcanonical
  have hself : nearest (((n : ℤ) : ℚ) * 2 ^ (0 : ℤ)) = n := by
    rw [zpow_zero, mul_one, Int.cast_natCast]
    exact nearest_natCast h
  rw [hamount, hself, clamp_of_abs_lt (abs_natCast_lt_top h)] at hvalue
  rw [hnormalize]
  refine ⟨(isFinite_iff hnum).2 ?_, hvalue⟩
  rw [hvalue]
  exact abs_natCast_lt_top h

/-- A whole number with some binary places, where there are digits enough, is rounded once when it
is multiplied by a power of ten. -/
theorem rounds_mul_pow_ten {n m k t : ℕ} (hpos : 0 < m) (hten : 0 < 10 ^ t) (hm : m = n * 2 ^ k)
    (hk : 52 ≤ k) (hn : n ≠ 0) :
    Rounds (UnpackedFloat.mul Format.binary64 (.finite .positive m (-k) hpos)
      (.finite .positive (10 ^ t) 0 hten)) (n * 10 ^ t) := by
  have hproduct : m * 10 ^ t ≠ 0 := (Nat.mul_pos hpos hten).ne'
  have hlog : k ≤ (m * 10 ^ t).log2 := by
    rw [Nat.le_log2 hproduct, hm, mul_right_comm]
    exact Nat.le_mul_of_pos_left _ (Nat.mul_pos (Nat.pos_of_ne_zero hn) hten)
  have hgrid : -(k : ℤ) + 0 ≤ unit (((m * 10 ^ t : ℕ) : ℚ) * 2 ^ (-(k : ℤ) + 0)) := by
    rw [unit_natCast_mul_zpow hproduct]
    omega
  have hamount : amount (.finite .positive m (-k) hpos) = n := by
    rw [amount, signed, hm, zpow_neg, zpow_natCast, Nat.cast_mul]
    push_cast
    exact mul_inv_cancel_right₀ (pow_ne_zero k two_ne_zero) _
  have hpower : amount (.finite .positive (10 ^ t) 0 hten) = 10 ^ t := by
    norm_num [amount, signed]
  have hrounds := rounds_mul_finite .positive .positive hpos hten hgrid
  rwa [hamount, hpower] at hrounds

/-- A whole number in decimal notation, with zeros that are not too many, is rounded once. -/
theorem rounds_ofScientific {n : ℕ} (hn : n ≠ 0) {t : ℕ} (ht : t ≤ 2 ^ 11) :
    Rounds (UnpackedFloat.ofScientific Format.binary64 n t) (n * 10 ^ t) := by
  have hlarge : ¬ (t : ℤ) > 2 ^ Format.binary64.exponentBits := by
    rw [gt_iff_lt, not_lt]
    exact_mod_cast ht
  have hsmall : ¬ (t : ℤ) < -(2 ^ Format.binary64.exponentBits + n.log2) :=
    not_lt.2 ((neg_nonpos.2 (by positivity)).trans (Int.natCast_nonneg t))
  unfold UnpackedFloat.ofScientific
  rw [dif_neg hn, if_neg hlarge, if_neg hsmall, if_pos (Int.natCast_nonneg t)]
  exact rounds_mul_pow_ten _ _ (Nat.shiftLeft_eq _ _) (by decide) hn

/-- **A whole number is rounded once.** -/
theorem ofNat_isNearest (n : ℕ) : IsNearest (Float.ofNat n) n := by
  have hdef : Float.ofNat n = Float.ofScientific n false 0 := rfl
  rw [hdef]
  unfold Float.ofScientific
  split
  · next h =>
    obtain ⟨hfinite, hvalue⟩ := value_toFloat h.1
    have hone := mul_isNearest hfinite (y := Float.ofBits 0x3FF0000000000000) rfl
    rw [value_ofBits_one, mul_one, hvalue] at hone
    exact hone
  · next h =>
    have hn : n ≠ 0 := by
      rintro rfl
      exact h (by norm_num)
    have hrounds := rounds_ofScientific hn (t := 0) (by norm_num)
    rw [pow_zero, mul_one] at hrounds
    exact hrounds.isNearest

/-- A whole number with at most 53 digits has its own value. -/
theorem value_ofNat {n : ℕ} (h : n < 2 ^ 53) : value (Float.ofNat n) = n := by
  rw [(ofNat_isNearest n).value, nearest_natCast h, clamp_of_abs_lt (abs_natCast_lt_top h)]

/-- Rounding keeps the order of whole numbers. -/
theorem value_ofNat_mono : Monotone fun n => value (Float.ofNat n) := by
  intro m n hle
  simp only [(ofNat_isNearest _).value]
  exact clamp_mono (nearest_mono (by exact_mod_cast hle))

/-- No whole number is rounded below zero. -/
theorem value_ofNat_nonneg (n : ℕ) : 0 ≤ value (Float.ofNat n) := by
  rw [(ofNat_isNearest n).value]
  exact le_max_of_le_right (le_min (nearest_nonneg (Nat.cast_nonneg n)) top_pos.le)

/-- A power of two is not rounded. -/
theorem value_ofNat_two_pow {k : ℕ} (h : k < 1024) : value (Float.ofNat (2 ^ k)) = 2 ^ k := by
  have hself := nearest_natCast_mul_zpow (n := 1) (k := k) (by norm_num) (by omega)
  have hlt : |(2 : ℚ) ^ k| < top := by
    rw [abs_of_pos (by positivity), ← zpow_natCast]
    exact zpow_lt_top (by omega)
  rw [Nat.cast_one, one_mul, zpow_natCast] at hself
  rw [(ofNat_isNearest _).value, Nat.cast_pow, Nat.cast_two, hself, clamp_of_abs_lt hlt]

/-- A machine word becomes a finite number. -/
theorem isFinite_ofNat {n : ℕ} (h : n ≤ 2 ^ 64) : (Float.ofNat n).isFinite := by
  have hhigh := value_ofNat_mono h
  simp only [value_ofNat_two_pow (show 64 < 1024 by norm_num)] at hhigh
  rw [isFinite_iff (ofNat_isNearest n).isNaN, abs_of_nonneg (value_ofNat_nonneg n)]
  exact hhigh.trans_lt (zpow_lt_top (k := 64) (by norm_num))

/-- A finite number by its significand and its exponent. -/
theorem exists_value_eq (hx : x.isFinite) : ∃ (sign : Sign) (m : ℕ) (e : ℤ),
    value x = signed sign (m * 2 ^ e) ∧ m < 2 ^ 53 ∧ -1074 ≤ e := by
  unfold value
  rcases unpack_of_isFinite hx with ⟨sign, hunpack⟩ | ⟨sign, m, e, hm, hunpack, hfits⟩
  · refine ⟨sign, 0, 0, ?_, by norm_num, by norm_num⟩
    rw [hunpack, Nat.cast_zero, zero_mul, signed_zero, amount]
  · obtain ⟨hhigh, hmin, -⟩ := (eq_unit_iff hm.ne').1 hfits.1
    rw [hunpack]
    exact ⟨sign, m, e, rfl, hhigh, hmin⟩

/-- A finite number is on the grid, also in units of a power of two. -/
theorem nearest_mul_value (hx : x.isFinite) (k : ℕ) :
    nearest (2 ^ k * value x) = 2 ^ k * value x := by
  obtain ⟨sign, m, e, hvalue, hm, he⟩ := exists_value_eq hx
  have hscaled : 2 ^ k * value x = signed sign (m * 2 ^ (e + k)) := by
    rw [hvalue, zpow_add₀ two_ne_zero, zpow_natCast]
    cases sign <;> simp only [signed] <;> ring
  have hnonneg : (0 : ℚ) ≤ m * 2 ^ (e + (k : ℤ)) :=
    mul_nonneg (Nat.cast_nonneg m) (zpow_pos two_pos _).le
  rw [hscaled, nearest_signed sign hnonneg, ← nearest_of_nonneg hnonneg,
    nearest_natCast_mul_zpow hm (by omega)]

/-- All finite numbers are multiples of the smallest unit. -/
theorem finest_value (hx : x.isFinite) : Finest (value x) := by
  obtain ⟨sign, m, e, hvalue, -, he⟩ := exists_value_eq hx
  obtain ⟨n, hn⟩ := exists_zpow_eq_mul he
  have hfinest : Finest (m * 2 ^ e) := ⟨m * n, by rw [hn, Int.cast_mul, mul_assoc]; rfl⟩
  rw [hvalue]
  cases sign
  · exact hfinest.neg
  · exact hfinest

/-- A finite number is its own nearest one. -/
theorem isNearest_self (hx : x.isFinite) : IsNearest x (value x) := by
  have hnum := isNaN_of_isFinite hx
  have hgrid := nearest_mul_value hx 0
  rw [pow_zero, one_mul] at hgrid
  exact ⟨hnum, by rw [hgrid, clamp_of_abs_lt ((isFinite_iff hnum).1 hx)]⟩

/-- An integer with at most 53 digits is an exact result that is not rounded. -/
theorem IsNearest.value_intCast {n : ℤ} (h : IsNearest x n) (hn : |n| < 2 ^ 53) :
    x.isFinite ∧ Binary64.value x = n := by
  obtain ⟨hlow, hhigh⟩ := abs_lt.1 hn
  have hself : nearest n = n := by
    rcases Int.eq_nat_or_neg n with ⟨k, rfl | rfl⟩
    · exact_mod_cast nearest_natCast (n := k) (by omega)
    · rw [Int.cast_neg, nearest_neg]
      exact_mod_cast congrArg Neg.neg (nearest_natCast (n := k) (by omega))
  have hlt : |(n : ℚ)| < top := by
    have hcast : |(n : ℚ)| < 2 ^ (53 : ℤ) := by exact_mod_cast hn
    exact hcast.trans (zpow_lt_top (by norm_num))
  have hvalue : Binary64.value x = n := by rw [h.value, hself, clamp_of_abs_lt hlt]
  exact ⟨(isFinite_iff h.isNaN).2 (hvalue ▸ hlt), hvalue⟩

/-- The number zero has the value zero. -/
theorem value_zero : value 0 = 0 :=
  (value_ofNat (by norm_num)).trans Nat.cast_zero

/-- The number one has the value one. -/
theorem value_one : value 1 = 1 :=
  (value_ofNat (by norm_num)).trans Nat.cast_one

end Grapher.Binary64
