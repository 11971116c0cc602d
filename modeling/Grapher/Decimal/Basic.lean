set_option relaxedAutoImplicit false
set_option autoImplicit false

/-!
# Decimals

A decimal is a coefficient scaled by a power of ten. Every number that a formula writes and every
number that the program prints passes through one.

## Main definitions

* `Decimal` — the number `coefficient · 10 ^ exponent`.
* `Decimal.toFloat` — the nearest binary64 number.
* `Decimal.positional` — the digits with a point, never with an exponent.
* `Decimal.scientific` — one digit, a point, the other digits and an exponent.
* `Decimal.halfToEven` — a quotient rounded to the nearest natural number.

## Main results

* `Decimal.halfToEven_error` — a rounded quotient is off by one half at most.
-/

namespace Grapher

/-- The number `coefficient · 10 ^ exponent`. -/
structure Decimal where
  /-- The digits, as a natural number. -/
  coefficient : Nat
  /-- The power of ten that scales them. -/
  exponent : Int
deriving DecidableEq, Repr

namespace Decimal

/-- The binary64 number nearest to a decimal, a tie going to the even neighbour. -/
def toFloat (d : Decimal) : Float :=
  OfScientific.ofScientific d.coefficient (d.exponent < 0) d.exponent.natAbs

/-- The digits of a natural number. -/
def digits (n : Nat) : List Char :=
  Nat.toDigits 10 n

/-- A row of zeros. -/
def zeros (n : Nat) : List Char :=
  List.replicate n '0'

/-- A decimal in positional notation: at least one digit stands before the point, and a point
stands only before digits. -/
def positional (d : Decimal) : List Char :=
  let all := digits d.coefficient
  if 0 ≤ d.exponent then all ++ zeros d.exponent.toNat
  else
    let places := (-d.exponent).toNat
    if places < all.length then
      all.take (all.length - places) ++ '.' :: all.drop (all.length - places)
    else '0' :: '.' :: zeros (places - all.length) ++ all

/-- A decimal in scientific notation: the first digit, a point before the others if there are
any, and the exponent of the first digit after the letter `e`. -/
def scientific (d : Decimal) : List Char :=
  let all := digits d.coefficient
  let fraction := all.drop 1
  let power := d.exponent + fraction.length
  all.take 1 ++ (if fraction.isEmpty then [] else '.' :: fraction) ++ 'e' ::
    ((if power < 0 then ['-'] else []) ++ digits power.natAbs)

example : positional ⟨5, -2⟩ = "0.05".toList := by decide
example : positional ⟨12345, -2⟩ = "123.45".toList := by decide
example : positional ⟨7, 3⟩ = "7000".toList := by decide
example : positional ⟨0, -3⟩ = "0.000".toList := by decide
example : scientific ⟨500, -4⟩ = "5.00e-2".toList := by decide

/-! ## Rounding -/

/-- The natural number nearest to a quotient; a half goes to the even neighbour. -/
def halfToEven (numerator denominator : Nat) : Nat :=
  let quotient := numerator / denominator
  let twice := 2 * (numerator % denominator)
  if twice < denominator ∨ (twice = denominator ∧ quotient % 2 = 0) then quotient
  else quotient + 1

/-- **A rounded quotient is off by one half at most.** -/
theorem halfToEven_error (numerator : Nat) {denominator : Nat} (h : 0 < denominator) :
    2 * numerator ≤ (2 * halfToEven numerator denominator + 1) * denominator ∧
      (2 * halfToEven numerator denominator - 1) * denominator ≤ 2 * numerator := by
  have hd := Nat.div_add_mod numerator denominator
  have hm := Nat.mod_lt numerator h
  unfold halfToEven
  generalize numerator / denominator = q at *
  generalize numerator % denominator = r at *
  subst hd
  simp only
  split
  · next hs =>
    constructor
    · rw [Nat.add_mul, Nat.mul_assoc, Nat.mul_comm q denominator]; omega
    · rw [Nat.sub_mul, Nat.mul_assoc, Nat.mul_comm q denominator]; omega
  · next hs =>
    have e : (q + 1) * denominator = denominator * q + denominator := by
      rw [Nat.add_mul, Nat.mul_comm]; omega
    constructor
    · rw [Nat.add_mul, Nat.mul_assoc, e]; omega
    · rw [Nat.sub_mul, Nat.mul_assoc, e]; omega

example : halfToEven 5 2 = 2 ∧ halfToEven 7 2 = 4 ∧ halfToEven 1 2 = 0 := by decide

end Decimal

end Grapher
