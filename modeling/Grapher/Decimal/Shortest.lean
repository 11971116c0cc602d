import Grapher.Decimal.Basic

set_option relaxedAutoImplicit false
set_option autoImplicit false

/-!
# The shortest decimal of a binary number

A positive binary64 number is `m · 2 ^ e`, and the reals that round to it form an interval around
it. The decimal chosen for it lies in this interval. Among the multiples of a power of ten only
the two neighbours of the number need a look: if any multiple lies in the interval, so does one
of them. The coarsest power of ten with a neighbour in the interval gives the fewest digits; of
two neighbours in the interval the nearer is chosen, and the upper one if both are as near.

All quantities are compared as natural numbers over a common denominator.

## Main definitions

* `Decimal.ratio` — the quotient of `m · 2 ^ e` by `10 ^ g`, as two natural numbers.
* `Decimal.neighbour?` — the multiple of `10 ^ g` chosen for `m · 2 ^ e`, if one is close enough.
* `Decimal.shortest` — the chosen decimal.
* `Decimal.exact` — the decimal equal to `m · 2 ^ e`.
-/

namespace Grapher.Decimal

/-- A numerator and a denominator of `m · 2 ^ e / 10 ^ g`. -/
def ratio (m : Nat) (e g : Int) : Nat × Nat :=
  (m * Nat.pow 2 e.toNat * Nat.pow 10 (-g).toNat, Nat.pow 2 (-e).toNat * Nat.pow 10 g.toNat)

/-- The least significand of a normal binary64 number. -/
def leastNormal : Nat := 4503599627370496

/-- The exponent that all subnormal binary64 numbers have. -/
def leastExponent : Int := -1074

/-- The multiple of `10 ^ g` that stands for `m · 2 ^ e`, if one of its neighbours among these
multiples rounds to it. The interval ends halfway to the next binary numbers, which below a power
of two lie half as far apart, and its ends belong to it when `m` is even. -/
def neighbour? (m : Nat) (e g : Int) : Option Decimal :=
  let (value, unit) := ratio (4 * m) (e - 2) g
  let half := (ratio 2 (e - 2) g).1
  let below := if m = leastNormal ∧ leastExponent < e then half / 2 else half
  let inside (n : Nat) : Bool :=
    if m % 2 = 0 then decide (value ≤ n + below) && decide (n ≤ value + half)
    else decide (value < n + below) && decide (n < value + half)
  let lower := value / unit
  let upper := lower + 1
  match inside (lower * unit), inside (upper * unit) with
  | true, true =>
    some ⟨if 2 * value < (lower + upper) * unit then lower else upper, g⟩
  | true, false => some ⟨lower, g⟩
  | false, true => some ⟨upper, g⟩
  | false, false => none

/-- A power of ten not below `m · 2 ^ e`, and above it by a factor of a hundred at most. -/
def coarsestGrid (m : Nat) (e : Int) : Int :=
  ((m.log2 + 1 : Nat) + e) * 30103 / 100000 + 1

/-- The decimal equal to `m · 2 ^ e`. -/
def exact (m : Nat) (e : Int) : Decimal :=
  ⟨m * Nat.pow 2 e.toNat * Nat.pow 5 (-e).toNat, min e 0⟩

/-- The decimal that stands for the positive binary64 number `m · 2 ^ e`. Seventeen digits are
always enough, and the coarsest grid may have three powers of ten too many. -/
def shortest (m : Nat) (e : Int) : Decimal :=
  let grids := (List.range 21).map fun (finer : Nat) => coarsestGrid m e - finer
  (grids.findSome? (neighbour? m e)).getD (exact m e)

example : shortest 7205759403792794 (-56) = ⟨1, -1⟩ := by decide +kernel
example : shortest 1 (-1074) = ⟨5, -324⟩ := by decide +kernel
example : shortest 4503599627370496 1 = ⟨9007199254740992, 0⟩ := by decide +kernel

end Grapher.Decimal
