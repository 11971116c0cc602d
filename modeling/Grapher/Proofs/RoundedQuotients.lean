import Grapher.Proofs.RoundedOperations

set_option relaxedAutoImplicit false
set_option autoImplicit false

/-!
# Quotients of binary64 numbers

The difference and the quotient of finite numbers are the exact ones, rounded once. The division of
the significands stops where there are digits enough; its remainder tells whether something is
dropped and where it is among the two halves. A number is rounded down to an integer without a loss
unless it has too many digits, and one that is a whole number is converted to it.

## Main results

* `Binary64.sub_isNearest`, `Binary64.div_isNearest`, `Binary64.floor_isNearest` — what is rounded
  once.
* `Binary64.nearest_isNearest` — a significand is rounded once, whatever its exponent is.
* `Binary64.toNat_toUInt64` — the conversion to a natural number.
-/

namespace Grapher.Binary64

open Float.Model (UnpackedFloat Format totalExponent)
open Float.Model.UnpackedFloat (Sign ExtendedMantissa Accuracy)

variable {a b : UnpackedFloat} {x y : Float}

/-! ## Differences -/

/-- The opposite number has the same significand and exponent. -/
theorem Fits.neg (h : Fits a) : Fits a.neg := by
  cases a <;> exact h

/-- The opposite number is finite as well. -/
theorem isFinite_neg (a : UnpackedFloat) : a.neg.isFinite = a.isFinite := by
  cases a <;> rfl

/-- The sign of an opposite magnitude. -/
theorem signed_neg (sign : Sign) (q : ℚ) : signed (-sign) q = -signed sign q := by
  cases sign
  · exact (neg_neg q).symm
  · rfl

/-- The value of the opposite number. -/
theorem amount_neg (a : UnpackedFloat) : amount a.neg = -amount a := by
  cases a with
  | notANumber | zero => exact neg_zero.symm
  | infinity sign => exact signed_neg sign _
  | finite sign m e hm => exact signed_neg sign _

/-- Subtraction is addition of the opposite number. -/
theorem sub_eq_add (spec : Format) (ha : a.isFinite) (hb : b.isFinite) :
    UnpackedFloat.sub spec a b = UnpackedFloat.add spec a b.neg := by
  have happly : ∀ (sign : Sign) (n : ℤ), (-sign).apply n = -sign.apply n := by
    rintro (_ | _) n
    · exact (neg_neg n).symm
    · rfl
  cases a with
  | infinity | notANumber => cases ha
  | zero sign =>
    cases b with
    | infinity | notANumber => cases hb
    | zero sign' => cases sign <;> cases sign' <;> rfl
    | finite => rfl
  | finite =>
    cases b with
    | infinity | notANumber => cases hb
    | zero => rfl
    | finite =>
      simp only [UnpackedFloat.sub, UnpackedFloat.neg, UnpackedFloat.add, happly, sub_eq_add_neg]

/-- **The difference is rounded once.** -/
theorem sub_isNearest (hx : x.isFinite) (hy : y.isFinite) :
    IsNearest (x - y) (value x - value y) := by
  have hneg : y.toModel.unpack.neg.isFinite := by
    rw [isFinite_neg]
    exact hy
  have hrounds := rounds_add (fits_unpack x) (fits_unpack y).neg hx hneg
  rw [amount_neg, ← sub_eq_add _ hx hy, ← sub_eq_add_neg] at hrounds
  exact hrounds.isNearest

/-! ## Quotients -/

/-- Where the dropped part is among the two halves is all that is kept of it. -/
theorem represents_inexact (d : ℕ) {f : ℚ} (hpos : 0 < f) (hlt : f < 1) :
    Represents (.ofMantissaAndAccuracy d (.inexact (compare f (1 / 2)))) (d + f) := by
  rcases lt_trichotomy f (1 / 2) with h | rfl | h
  · rw [compare_lt_iff_lt.2 h]
    refine ⟨?_, ?_, iff_of_false Bool.false_ne_true ?_, iff_of_true rfl ⟨?_, ?_⟩⟩ <;>
      dsimp only [ExtendedMantissa.ofMantissaAndAccuracy]
    · linarith
    · linarith
    · linarith
    · exact fun heq => by linarith
    · exact fun heq => by linarith
  · rw [compare_eq_iff_eq.2 rfl]
    refine ⟨?_, ?_, iff_of_true rfl le_rfl, iff_of_false Bool.false_ne_true fun h => h.2 rfl⟩ <;>
      dsimp only [ExtendedMantissa.ofMantissaAndAccuracy]
    · linarith
    · linarith
  · rw [compare_gt_iff_gt.2 h]
    refine ⟨?_, ?_, iff_of_true rfl ?_, iff_of_true rfl ⟨?_, ?_⟩⟩ <;>
      dsimp only [ExtendedMantissa.ofMantissaAndAccuracy]
    · linarith
    · linarith
    · linarith
    · exact fun heq => by linarith
    · exact fun heq => by linarith

/-- Twice a numerator is where the fraction is, among the two halves. -/
theorem compare_two_mul {r n : ℕ} (hn : 0 < n) :
    compare (2 * r) n = compare ((r : ℚ) / n) (1 / 2) := by
  have hn' : (0 : ℚ) < n := by exact_mod_cast hn
  have hfraction : (r : ℚ) / n - 1 / 2 = (2 * r - n) / (2 * n) := by
    field_simp
  rcases lt_trichotomy (2 * r) n with h | h | h
  · have hcast : (2 : ℚ) * r < n := by exact_mod_cast h
    rw [compare_lt_iff_lt.2 h, eq_comm, compare_lt_iff_lt, ← sub_neg, hfraction]
    exact div_neg_of_neg_of_pos (sub_neg.2 hcast) (by positivity)
  · have hcast : (2 : ℚ) * r = n := by exact_mod_cast h
    rw [compare_eq_iff_eq.2 h, eq_comm, compare_eq_iff_eq, ← sub_eq_zero, hfraction, hcast,
      sub_self, zero_div]
  · have hcast : (n : ℚ) < 2 * r := by exact_mod_cast h
    rw [compare_gt_iff_gt.2 h, eq_comm, compare_gt_iff_gt, ← sub_pos, hfraction]
    exact div_pos (sub_pos.2 hcast) (by positivity)

/-- A fraction by the quotient and the remainder of the division. -/
theorem natCast_div_eq (m : ℕ) {n : ℕ} (hn : 0 < n) :
    (m : ℚ) / n = (m / n : ℕ) + ((m % n : ℕ) : ℚ) / n := by
  have hn' : (n : ℚ) ≠ 0 := by exact_mod_cast hn.ne'
  rw [eq_comm, ← mul_right_inj' hn', mul_add, mul_div_cancel₀ _ hn', mul_div_cancel₀ _ hn']
  exact_mod_cast Nat.div_add_mod m n

/-- What a division drops is not zero if its remainder is not. -/
theorem remainder_div_pos {m n : ℕ} (hn : 0 < n) (h : m % n ≠ 0) : 0 < ((m % n : ℕ) : ℚ) / n :=
  div_pos (by exact_mod_cast Nat.pos_of_ne_zero h) (by exact_mod_cast hn)

/-- What a division drops is less than a unit. -/
theorem remainder_div_lt_one (m : ℕ) {n : ℕ} (hn : 0 < n) : ((m % n : ℕ) : ℚ) / n < 1 := by
  rw [div_lt_one (by exact_mod_cast hn)]
  exact_mod_cast Nat.mod_lt m hn

/-- The remainder of a division tells what is dropped. -/
theorem represents_div (m : ℕ) {n : ℕ} (hn : 0 < n) :
    Represents (.ofMantissaAndAccuracy (m / n) (UnpackedFloat.accuracyOfFraction (m % n) n))
      (m / n) := by
  rw [natCast_div_eq m hn, UnpackedFloat.accuracyOfFraction]
  split
  · next hzero =>
    rw [hzero, Nat.cast_zero, zero_div, add_zero]
    exact Represents.exact (m / n)
  · next hne =>
    rw [compare_two_mul hn]
    exact represents_inexact _ (remainder_div_pos hn hne) (remainder_div_lt_one m hn)

/-- The quotient of two significands is about as long as its exponent says. -/
theorem le_log_div {m n : ℕ} (hm : m ≠ 0) (hn : n ≠ 0) (e f : ℤ) :
    (m.log2 : ℤ) + e - (n.log2 + f) - 1 ≤ Int.log 2 ((m : ℚ) * 2 ^ e / (n * 2 ^ f)) := by
  have hnum : (2 : ℚ) ^ ((m.log2 : ℤ) + e) ≤ m * 2 ^ e := by
    rw [zpow_add₀ two_ne_zero, zpow_natCast]
    exact mul_le_mul_of_nonneg_right (by exact_mod_cast Nat.log2_self_le hm) (zpow_pos two_pos e).le
  have hden : (n : ℚ) * 2 ^ f ≤ 2 ^ ((n.log2 : ℤ) + f + 1) := by
    have hlt : (n : ℚ) ≤ ((2 ^ (n.log2 + 1) : ℕ) : ℚ) := by exact_mod_cast Nat.lt_log2_self.le
    rw [show (n.log2 : ℤ) + f + 1 = ((n.log2 + 1 : ℕ) : ℤ) + f by push_cast; ring,
      zpow_add₀ two_ne_zero, zpow_natCast]
    exact mul_le_mul_of_nonneg_right (by exact_mod_cast hlt) (zpow_pos two_pos f).le
  have hpos : (0 : ℚ) < n * 2 ^ f := mul_zpow_pos (Nat.pos_of_ne_zero hn) f
  have hquotient : 0 < (m : ℚ) * 2 ^ e / (n * 2 ^ f) :=
    div_pos (mul_zpow_pos (Nat.pos_of_ne_zero hm) e) hpos
  refine (Int.zpow_le_iff_le_log (by norm_num) hquotient).1 ?_
  rw [Nat.cast_two, le_div_iff₀ hpos]
  have hpower : (2 : ℚ) ^ ((m.log2 : ℤ) + e - (n.log2 + f) - 1) * 2 ^ ((n.log2 : ℤ) + f + 1) =
      2 ^ ((m.log2 : ℤ) + e) := by
    rw [← zpow_add₀ two_ne_zero]
    congr 1
    ring
  exact (mul_le_mul_of_nonneg_left hden (zpow_pos two_pos _).le).trans (hpower.trans_le hnum)

/-- The sign of a quotient. -/
theorem signed_div (s t : Sign) (p q : ℚ) : signed (s / t) (p / q) = signed s p / signed t q := by
  cases s <;> cases t
  · exact (neg_div_neg_eq p q).symm
  · exact (neg_div q p).symm
  · exact (div_neg p).symm
  · rfl

/-- The digits of the quotient of two significands, and whether there are enough of them. -/
theorem divCore_spec {m n : ℕ} (hm : 0 < m) (hn : 0 < n) (e f : ℤ) :
    ∃ (d : ℕ) (k : ℤ) (accuracy : Accuracy) (q : ℚ),
      UnpackedFloat.divCore Format.binary64 m e n f = (d, k, accuracy) ∧
        Represents (.ofMantissaAndAccuracy d accuracy) q ∧
        q * 2 ^ k = m * 2 ^ e / (n * 2 ^ f) ∧ (d ≠ 0 ∨ k ≤ -1022) ∧
        k ≤ unit (m * 2 ^ e / (n * 2 ^ f)) := by
  have hlog := le_log_div hm.ne' hn.ne' e f
  obtain ⟨k, hk, hdigits, hdiv⟩ : ∃ k : ℤ, k ≤ e - f ∧
      k ≤ max ((m.log2 : ℤ) + e - (n.log2 + f) - 53) (-1074) ∧
      UnpackedFloat.divCore Format.binary64 m e n f =
        ((m <<< (e - f - k).toNat) / n, k,
          UnpackedFloat.accuracyOfFraction ((m <<< (e - f - k).toNat) % n) n) := by
    refine ⟨_, min_le_left _ _, (min_le_right _ _).trans ?_, rfl⟩
    simp only [Format.targetExponent, totalExponent, Format.mantissaBits, Format.minExponent]
    norm_num
    omega
  have hshift : ((e - f - k).toNat : ℤ) = e - f - k := Int.toNat_of_nonneg (by omega)
  have hvalue : ((m <<< (e - f - k).toNat : ℕ) : ℚ) / n * 2 ^ k = m * 2 ^ e / (n * 2 ^ f) := by
    have hn' : (n : ℚ) ≠ 0 := by exact_mod_cast hn.ne'
    rw [Nat.shiftLeft_eq, Nat.cast_mul, Nat.cast_pow, Nat.cast_two, ← zpow_natCast, hshift,
      zpow_sub₀ two_ne_zero, zpow_sub₀ two_ne_zero]
    field_simp
  refine ⟨_, k, _, _, hdiv, represents_div _ hn, hvalue, ?_, ?_⟩
  · refine or_iff_not_imp_left.2 fun hzero => ?_
    have hlt : ((m <<< (e - f - k).toNat : ℕ) : ℚ) / n < 1 := by
      rw [div_lt_one (by exact_mod_cast hn)]
      exact_mod_cast (Nat.div_eq_zero_iff_lt hn).1 (not_not.1 hzero)
    have hsmall : (m : ℚ) * 2 ^ e / (n * 2 ^ f) < 2 ^ k := by
      rw [← hvalue]
      exact (mul_lt_iff_lt_one_left (zpow_pos two_pos k)).2 hlt
    have hpos : (0 : ℚ) < m * 2 ^ e / (n * 2 ^ f) :=
      div_pos (mul_zpow_pos hm e) (mul_zpow_pos hn f)
    have hshort : Int.log 2 ((m : ℚ) * 2 ^ e / (n * 2 ^ f)) < k :=
      (Int.lt_zpow_iff_log_lt (by norm_num) hpos).1 (by exact_mod_cast hsmall)
    omega
  · unfold unit
    omega

/-- The quotient of two significands is rounded once. -/
theorem rounds_div_finite (s t : Sign) {m n : ℕ} {e f : ℤ} (hm : 0 < m) (hn : 0 < n) :
    Rounds (UnpackedFloat.div Format.binary64 (.finite s m e hm) (.finite t n f hn))
      (amount (.finite s m e hm) / amount (.finite t n f hn)) := by
  have hpos : (0 : ℚ) < m * 2 ^ e / (n * 2 ^ f) :=
    div_pos (mul_zpow_pos hm e) (mul_zpow_pos hn f)
  obtain ⟨d, k, accuracy, q, hdiv, hq, hvalue, hdigits, hunit⟩ := divCore_spec hm hn e f
  have hdefinition : UnpackedFloat.div Format.binary64 (.finite s m e hm) (.finite t n f hn) =
      UnpackedFloat.roundWithAccuracy Format.binary64 (s / t) d k accuracy := by
    simp only [UnpackedFloat.div, hdiv]
  rw [← hvalue] at hpos hunit
  obtain ⟨hfinite, hcanonical, hamount⟩ := roundWithAccuracy_spec (s / t) hq
    ((pos_iff_pos_of_mul_pos hpos).2 (zpow_pos two_pos k)) hdigits hunit
  rw [hdefinition]
  refine ⟨hfinite, hcanonical, hamount.trans ?_⟩
  rw [amount, amount, ← signed_div, ← hvalue, nearest_signed _ hpos.le]

/-- **The quotient is rounded once.** -/
theorem rounds_div (ha : a.isFinite) (hb : b.isFinite) (hne : amount b ≠ 0) :
    Rounds (UnpackedFloat.div Format.binary64 a b) (amount a / amount b) := by
  rcases b with _ | _ | _ | ⟨t, n, f, hn⟩
  · cases hb
  · cases hb
  · exact absurd rfl hne
  · rcases a with _ | _ | sign | ⟨s, m, e, hm⟩
    · cases ha
    · cases ha
    · exact (zero_div (amount (.finite t n f hn))).symm ▸ rounds_zero (sign / t)
    · exact rounds_div_finite s t hm hn

/-- The quotient of two finite numbers is the exact one, rounded once. -/
theorem div_isNearest (hx : x.isFinite) (hy : y.isFinite) (hne : value y ≠ 0) :
    IsNearest (x / y) (value x / value y) :=
  (rounds_div hx hy hne).isNearest

/-- An infinite number stays infinite when it is divided by a finite one. -/
theorem isFinite_of_div (hnum : x.isNaN = false) (hy : y.isFinite) (h : (x / y).isFinite) :
    x.isFinite := by
  by_contra hx
  obtain ⟨sign, hsign⟩ := exists_unpack_eq_infinity hnum hx
  have hdiv : ∃ sign', UnpackedFloat.div Format.binary64 (.infinity sign) y.toModel.unpack =
      .infinity sign' := by
    rcases unpack_of_isFinite hy with ⟨t, hunpack⟩ | ⟨t, n, f, hn, hunpack, -⟩ <;>
      rw [hunpack] <;> exact ⟨_, rfl⟩
  obtain ⟨sign', hsign'⟩ := hdiv
  have hunpack : (x / y).toModel.unpack = .infinity sign' := by
    rw [← unpack_pack_infinity sign', ← hsign', ← hsign]
    rfl
  change (x / y).toModel.unpack.isFinite at h
  rw [hunpack] at h
  cases h

/-! ## Integers -/

/-- **A significand with an exponent is rounded once**, also if it has too many digits. -/
theorem nearest_isNearest (sign : Sign) (m : ℕ) (e : ℤ) :
    IsNearest (Arithmetic.nearest sign m e) (signed sign (m * 2 ^ e)) := by
  have hrounds : Rounds (UnpackedFloat.round Format.binary64 sign m e)
      (signed sign (m * 2 ^ e)) := by
    rcases Nat.eq_zero_or_pos m with rfl | hm
    · rw [round_zero, Nat.cast_zero, zero_mul, signed_zero]
      exact rounds_zero sign
    · obtain ⟨hfinite, hcanonical, hamount⟩ := round_spec (e := e) sign hm.ne'
      refine ⟨hfinite, hcanonical, hamount.trans ?_⟩
      rw [nearest_signed _ (mul_zpow_pos hm e).le]
  exact hrounds.isNearest

/-- An integer is rounded once. -/
theorem nearest_natCast_isNearest (sign : Sign) (m : ℕ) :
    IsNearest (Arithmetic.nearest sign m 0) (signed sign m) := by
  simpa using nearest_isNearest sign m 0

/-- A negative fraction is rounded down to the quotient, and to one more if the division has a
remainder. -/
theorem floor_neg_natCast_div (m : ℕ) {n : ℕ} (hn : 0 < n) :
    ⌊-((m : ℚ) / n)⌋ = -((m / n + if m % n ≠ 0 then 1 else 0 : ℕ) : ℤ) := by
  rw [natCast_div_eq m hn]
  split
  · next hne =>
    have hpos := remainder_div_pos hn hne
    have hlt := remainder_div_lt_one m hn
    generalize m / n = d
    rw [Int.floor_eq_iff]
    push_cast
    constructor <;> linarith
  · next hzero =>
    rw [not_not.1 hzero, Nat.cast_zero, zero_div, add_zero, add_zero]
    exact_mod_cast Int.floor_intCast (R := ℚ) (-((m / n : ℕ) : ℤ))

/-- A number without binary places is an integer. -/
theorem floor_of_nonneg {sign : Sign} {m : ℕ} {e : ℤ} {hm : 0 < m} (hx : x.isFinite)
    (hunpack : x.toModel.unpack = .finite sign m e hm) (he : 0 ≤ e) :
    IsNearest (Arithmetic.floor x) ⌊value x⌋ := by
  obtain ⟨k, rfl⟩ := Int.eq_ofNat_of_zero_le he
  have hvalue : value x = ((sign.apply (m * 2 ^ k) : ℤ) : ℚ) := by
    rw [value, hunpack, amount, zpow_natCast]
    cases sign <;> simp [signed, Sign.apply]
  have hself := isNearest_self hx
  rw [hvalue] at hself
  rwa [Arithmetic.floor_of_nonneg_exponent hunpack he, hvalue, Int.floor_intCast]

/-- A number with binary places is cut off, and a negative one moved on if something is lost. -/
theorem floor_of_neg {sign : Sign} {m : ℕ} {e : ℤ} {hm : 0 < m}
    (hunpack : x.toModel.unpack = .finite sign m e hm) (he : ¬ 0 ≤ e) :
    IsNearest (Arithmetic.floor x) ⌊value x⌋ := by
  obtain ⟨k, hk⟩ : ∃ k : ℕ, k = (-e).toNat := ⟨_, rfl⟩
  have hvalue : value x = signed sign ((m : ℚ) / (2 ^ k : ℕ)) := by
    rw [value, hunpack, amount, show e = -(k : ℤ) by omega, zpow_neg, zpow_natCast,
      div_eq_mul_inv]
    norm_cast
  unfold Arithmetic.floor Arithmetic.toIntegral
  rw [hunpack, hvalue]
  dsimp only
  rw [if_neg he, ← hk]
  cases sign with
  | positive =>
    have hfloor : ⌊(m : ℚ) / (2 ^ k : ℕ)⌋ = (m / 2 ^ k : ℕ) :=
      Rat.floor_natCast_div_natCast m (2 ^ k)
    have hrounded := nearest_natCast_isNearest .positive (m / 2 ^ k)
    rw [signed] at hrounded ⊢
    rw [hfloor]
    exact hrounded
  | negative =>
    have hfloor := floor_neg_natCast_div m (Nat.two_pow_pos k)
    have hrounded :=
      nearest_natCast_isNearest .negative (m / 2 ^ k + if m % 2 ^ k ≠ 0 then 1 else 0)
    rw [signed] at hrounded ⊢
    rw [hfloor, Int.cast_neg, Int.cast_natCast]
    simpa using hrounded

/-- **A number is rounded down to an integer**, and once more if it has too many digits. -/
theorem floor_isNearest (hx : x.isFinite) : IsNearest (Arithmetic.floor x) ⌊value x⌋ := by
  rcases unpack_of_isFinite hx with ⟨sign, hunpack⟩ | ⟨sign, m, e, hm, hunpack, -⟩
  · have hfloor : Arithmetic.floor x = x := by
      unfold Arithmetic.floor Arithmetic.toIntegral
      rw [hunpack]
    have hvalue : value x = 0 := by rw [value, hunpack, amount]
    have hself := isNearest_self hx
    rw [hfloor]
    rwa [hvalue] at hself ⊢
  · by_cases he : 0 ≤ e
    · exact floor_of_nonneg hx hunpack he
    · exact floor_of_neg hunpack he

/-- A significand that stands for an integer is converted to it. -/
theorem roundToInt_eq (sign : Sign) {m n : ℕ} {e : ℤ} (h : (m : ℚ) * 2 ^ e = n) :
    UnpackedFloat.roundToInt sign m e = sign.apply n := by
  obtain ⟨hvalue, hexponent⟩ := decreaseExponent_spec m e 0
  unfold UnpackedFloat.roundToInt
  generalize UnpackedFloat.decreaseExponent m e 0 = decreased at hvalue hexponent ⊢
  obtain ⟨d, f⟩ := decreased
  dsimp only at hvalue hexponent ⊢
  obtain ⟨k, rfl⟩ : ∃ k : ℕ, f = -k := ⟨(-f).toNat, by omega⟩
  have hrepresents := (Represents.exact d).shiftRight k
  have hquotient : (d : ℚ) / 2 ^ k = n := by
    rw [← h, ← hvalue, zpow_neg, zpow_natCast, div_eq_mul_inv]
  have hshift : (0 - -(k : ℤ)).toNat = k := by omega
  rw [hquotient] at hrepresents
  rw [UnpackedFloat.shiftToExponent, hshift]
  generalize ExtendedMantissa.ofMantissaAndAccuracy d .exact >>> k = em at hrepresents ⊢
  have hlow : em.mantissa ≤ n := by exact_mod_cast hrepresents.low
  have hhigh : n < em.mantissa + 1 := by exact_mod_cast hrepresents.high
  rw [show em.mantissa = n by omega]

/-- **A number that is a whole one is converted to it.** -/
theorem toNat_toUInt64 {n : ℕ} (hnum : x.isNaN = false) (hvalue : value x = n) (hn : n < 2 ^ 53) :
    x.toUInt64.toNat = n := by
  have hint : UnpackedFloat.toInt 0 (UInt64.size - 1) x.toModel.unpack = n := by
    have htop : (n : ℚ) < top := (le_abs_self _).trans_lt (abs_natCast_lt_top hn)
    have hnonneg : (0 : ℚ) ≤ n := Nat.cast_nonneg n
    have hpos := top_pos
    change x.toModel.unpack.isNaN = false at hnum
    unfold value at hvalue
    cases hunpack : x.toModel.unpack with
    | notANumber =>
      rw [hunpack] at hnum
      cases hnum
    | infinity sign =>
      rw [hunpack, amount] at hvalue
      cases sign <;> simp only [signed] at hvalue <;> linarith
    | zero sign =>
      rw [hunpack, amount] at hvalue
      obtain rfl : n = 0 := by exact_mod_cast hvalue.symm
      rfl
    | finite sign m e hm =>
      have hmagnitude := mul_zpow_pos hm e
      rw [hunpack, amount] at hvalue
      cases sign with
      | negative =>
        rw [signed] at hvalue
        linarith
      | positive => exact roundToInt_eq .positive hvalue
  have hsize : n < UInt64.size := hn.trans (by norm_num)
  change (UInt64.ofNatClamp
    (UnpackedFloat.toInt 0 (UInt64.size - 1) x.toModel.unpack).toNat).toNat = n
  rw [hint, Int.toNat_natCast, UInt64.toNat_ofNatClamp_of_lt hsize]

/-- The greater of two numbers has the greater value. -/
theorem value_greatest (hx : x.isNaN = false) (hy : y.isNaN = false) :
    (Arithmetic.greatest x y).isNaN = false ∧
      value (Arithmetic.greatest x y) = max (value x) (value y) := by
  unfold Arithmetic.greatest
  rw [hx, hy, if_neg Bool.false_ne_true, if_neg Bool.false_ne_true]
  split
  · next hlt => exact ⟨hy, (max_eq_right ((lt_iff_value hx hy).1 hlt).le).symm⟩
  · next hge => exact ⟨hx, (max_eq_left (not_lt.1 (mt (lt_iff_value hx hy).2 hge))).symm⟩

end Grapher.Binary64
