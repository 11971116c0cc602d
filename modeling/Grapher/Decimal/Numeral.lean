import Grapher.Decimal.Shortest

set_option relaxedAutoImplicit false
set_option autoImplicit false

/-!
# Numerals

The texts of binary64 numbers. A number is written with the fewest digits that read back, with a
fixed count of decimal places, or with a fixed count of significant digits. The last two round
the exact value, a half going to the even neighbour. A minus sign stands before every number
whose sign is negative, zero included; the numbers that are no reals have names.

## Main definitions

* `Numeral.written` — the sign and the names, around a given way to write positive numbers.
* `Numeral.shortest` — the fewest digits that read back, in positional notation.
* `Numeral.fixed` — a fixed count of places after the point.
* `Numeral.scientific` — a fixed count of significant digits, with an exponent.
-/

namespace Grapher.Numeral

open Float.Model (UnpackedFloat)

/-- The names of the numbers that are no reals. -/
structure Names where
  /-- The name of what is no number. -/
  notANumber : String
  /-- The name of positive infinity. -/
  infinity : String
  /-- The mark before a negative number. -/
  minus : String

/-- Numbers that are no reals are `NaN` and `inf`, and a hyphen is the sign. -/
def names : Names := ⟨"NaN", "inf", "-"⟩

/-- The mark before a number of the given sign. -/
def mark : UnpackedFloat.Sign → String
  | .negative => names.minus
  | .positive => ""

/-- The text of a number, where `zero` is the text of zero and `magnitude` writes the positive
number `m · 2 ^ e`. -/
def written (zero : List Char) (magnitude : Nat → Int → List Char) (x : Float) : String :=
  match x.toModel.unpack with
  | .notANumber => names.notANumber
  | .infinity sign => mark sign ++ names.infinity
  | .zero sign => mark sign ++ String.ofList zero
  | .finite sign m e _ => mark sign ++ String.ofList (magnitude m e)

/-- The fewest digits that read back, without an exponent. -/
def shortest (x : Float) : String :=
  written ['0'] (fun m e => (Decimal.shortest m e).positional) x

/-- The decimal with the given count of places that is nearest to `m · 2 ^ e`. -/
def rounded (places : Nat) (m : Nat) (e : Int) : Decimal :=
  let grid : Int := -(places : Int)
  let (value, unit) := Decimal.ratio m e grid
  ⟨Decimal.halfToEven value unit, grid⟩

/-- The number with a fixed count of places after the point. -/
def fixed (places : Nat) (x : Float) : String :=
  written (Decimal.positional ⟨0, -(places : Int)⟩)
    (fun m e => (rounded places m e).positional) x

/-- The exponent of the first digit of the positive number `m · 2 ^ e`. -/
def leadingExponent (m : Nat) (e : Int) : Int :=
  let grid := Decimal.coarsestGrid m e - 4
  let (value, unit) := Decimal.ratio m e grid
  grid + (Decimal.digits (value / unit)).length - 1

/-- The decimal with the given count of significant digits that is nearest to `m · 2 ^ e`. -/
def significant (count : Nat) (m : Nat) (e : Int) : Decimal :=
  let grid := leadingExponent m e - (count : Int) + 1
  let (value, unit) := Decimal.ratio m e grid
  let coefficient := Decimal.halfToEven value unit
  if coefficient = Nat.pow 10 count then ⟨Nat.pow 10 (count - 1), grid + 1⟩
  else ⟨coefficient, grid⟩

/-- The text of zero with a fixed count of significant digits. -/
def scientificZero (count : Nat) : List Char :=
  '0' :: (if count ≤ 1 then [] else '.' :: Decimal.zeros (count - 1)) ++ ['e', '0']

/-- The number with a fixed count of significant digits, in scientific notation. -/
def scientific (count : Nat) (x : Float) : String :=
  written (scientificZero count) (fun m e => (significant count m e).scientific) x

end Grapher.Numeral
