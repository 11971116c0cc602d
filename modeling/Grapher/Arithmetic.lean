set_option relaxedAutoImplicit false
set_option autoImplicit false

/-!
# Arithmetic on binary64 numbers

The operations that the core library has no model of and that integers settle exactly: rounding
to an integer, the remainder of a division, and the length of a hypotenuse. Each takes the
numbers apart into `± m · 2 ^ e`, works on integers, and rounds once at the end, if at all. Below
them stand a few functions on whole numbers, chosen by comparison. What is computed, as an exact
number, is the subject of `Grapher.Proofs.RoundedQuotients` and `Grapher.Proofs.Remainders`.

## Main definitions

* `Arithmetic.nearest` — the binary64 number nearest to `± m · 2 ^ e`.
* `Arithmetic.floor`, `Arithmetic.ceil` — rounding to an integer.
* `Arithmetic.remainder` — what is left of a dividend, with the dividend's sign.
* `Arithmetic.hypotenuse` — the distance of a point from the origin.
* `Arithmetic.least`, `Arithmetic.greatest` — of two numbers, where `NaN` is no candidate.
* `Arithmetic.sign` — minus one, zero or one.

## Main results

* `Arithmetic.floor_of_nonneg_exponent` — a number without binary places is its own floor.
-/

namespace Grapher.Arithmetic

open Float.Model (UnpackedFloat)
open Float.Model.UnpackedFloat (Sign)

/-- The binary64 number that stands for the given unpacked one. -/
def ofUnpacked (x : UnpackedFloat) : Float :=
  Float.ofModel (Float.Model.pack x)

/-- The binary64 number nearest to `± m · 2 ^ e`, a tie going to the even neighbour. -/
def nearest (sign : Sign) (m : Nat) (e : Int) : Float :=
  ofUnpacked (UnpackedFloat.round Float.Model.Format.binary64 sign m e)

/-- What is no number. -/
def notANumber : Float :=
  ofUnpacked .notANumber

/-! ## Rounding to an integer -/

/-- A number rounded to an integer, where `up` says whether a magnitude that is no integer is
rounded away from zero. -/
def toIntegral (up : Sign → Bool) (x : Float) : Float :=
  match x.toModel.unpack with
  | .finite sign m e _ =>
    if 0 ≤ e then x
    else
      let unit := Nat.pow 2 (-e).toNat
      nearest sign (m / unit + if up sign && decide (m % unit ≠ 0) then 1 else 0) 0
  | _ => x

/-- The greatest integer that is not above a number. -/
def floor : Float → Float :=
  toIntegral fun
    | .negative => true
    | .positive => false

/-- The least integer that is not below a number. -/
def ceil : Float → Float :=
  toIntegral fun
    | .negative => false
    | .positive => true

/-- A number without binary places is its own floor. -/
theorem floor_of_nonneg_exponent {x : Float} {sign : Sign} {m : Nat} {e : Int} {hm : 0 < m}
    (h : x.toModel.unpack = .finite sign m e hm) (he : 0 ≤ e) : floor x = x := by
  unfold floor toIntegral
  rw [h]
  exact if_pos he

/-! ## Division and distance -/

/-- The number `m · 2 ^ e` in units of `2 ^ unit`, where `unit` is at most `e`. -/
def inUnits (unit : Int) (m : Nat) (e : Int) : Nat :=
  m * Nat.pow 2 (e - unit).toNat

/-- What is left of `x` when the multiples of `y` are taken from it: smaller than `y`, and of the
sign of `x` (`Binary64.remainder_isRemainder`). There is none for an infinite dividend or a zero
divisor. -/
def remainder (x y : Float) : Float :=
  match x.toModel.unpack, y.toModel.unpack with
  | .notANumber, _ => notANumber
  | _, .notANumber => notANumber
  | .infinity _, _ => notANumber
  | _, .zero _ => notANumber
  | .zero _, _ => x
  | .finite .., .infinity _ => x
  | .finite sign m e _, .finite _ n f _ =>
    let unit := min e f
    nearest sign (inUnits unit m e % inUnits unit n f) unit

/-- The significand and the exponent of a number that is no infinity; zero has neither, and both
are written as zero. -/
def magnitude? : UnpackedFloat → Option (Nat × Int)
  | .zero _ => some (0, 0)
  | .finite _ m e _ => some (m, e)
  | _ => none

/-- The distance of the point `(x, y)` from the origin, rounded once. It is infinite as soon as
one coordinate is, whatever the other is. -/
def hypotenuse (x y : Float) : Float :=
  if x.isInf || y.isInf then ofUnpacked (.infinity .positive)
  else match magnitude? x.toModel.unpack, magnitude? y.toModel.unpack with
    | some (m, e), some (n, f) =>
      let unit := min e f
      let a := inUnits unit m e
      let b := inUnits unit n f
      let square := a * a + b * b
      if h : 0 < square then
        ofUnpacked
          (UnpackedFloat.sqrt Float.Model.Format.binary64 (.finite .positive square (2 * unit) h))
      else 0
    | _, _ => notANumber

/-! ## Choices -/

/-- The smaller of two numbers; what is no number is passed over. -/
def least (x y : Float) : Float :=
  if x.isNaN then y else if y.isNaN then x else if y < x then y else x

/-- The greater of two numbers; what is no number is passed over. -/
def greatest (x y : Float) : Float :=
  if x.isNaN then y else if y.isNaN then x else if x < y then y else x

/-- Minus one, zero or one, like the number itself; both zeros have the sign zero. -/
def sign (x : Float) : Float :=
  if x == 0 then 0 else if x.isNaN then x else if x < 0 then -1 else 1

/-! ## Constants and units -/

/-- Half a turn in radians. -/
def pi : Float := 3.141592653589793

/-- A full turn in radians. -/
def tau : Float := 6.283185307179586

/-- The base of the natural logarithm. -/
def euler : Float := 2.718281828459045

/-- An angle in radians, in degrees. -/
def degrees (x : Float) : Float :=
  x * 57.29577951308232

/-- An angle in degrees, in radians. -/
def radians (x : Float) : Float :=
  x * (pi / 180)

end Grapher.Arithmetic
