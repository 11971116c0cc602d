import Grapher.Arithmetic
import Grapher.Decimal.Numeral

set_option relaxedAutoImplicit false
set_option autoImplicit false

/-!
# Points of the plane

A point has two coordinates. It can also be given by its distance from the origin and the angle
that it makes with the first axis, in radians; at the origin every angle would do, and the angle
is taken to be zero there, whatever the signs of the two zeros.

## Main definitions

* `Point`, `Point.text` — a point and its text.
* `Polar`, `Polar.toPoint`, `Polar.ofPoint` — the polar form of a point.

## Main results

* `Polar.angleOf_origin` — the angle of the origin is zero.
-/

namespace Grapher

/-- A point of the plane. -/
structure Point where
  /-- The coordinate along the first axis. -/
  x : Float
  /-- The coordinate along the second axis. -/
  y : Float
deriving DecidableEq

/-- A number with a fixed count of places, or with the fewest digits if there is no such count. -/
def Numeral.withPlaces : Option Nat → Float → String
  | some places => Numeral.fixed places
  | none => Numeral.shortest

/-- The text of a point: its coordinates in parentheses. -/
def Point.text (places : Option Nat) (p : Point) : String :=
  "(" ++ Numeral.withPlaces places p.x ++ ", " ++ Numeral.withPlaces places p.y ++ ")"

/-- The distance and the angle of a point. -/
structure Polar where
  /-- The distance from the origin; a negative one points the other way. -/
  radius : Float
  /-- The angle with the first axis, in radians. -/
  angle : Float
deriving DecidableEq

namespace Polar

/-- The point at a distance and an angle. -/
def toPoint (p : Polar) : Point :=
  ⟨p.radius * Float.cos p.angle, p.radius * Float.sin p.angle⟩

/-- The distance of a point from the origin. -/
def radiusOf (p : Point) : Float :=
  Arithmetic.hypotenuse p.x p.y

/-- The angle of a point, zero at the origin. -/
def angleOf (p : Point) : Float :=
  if p.x == 0 && p.y == 0 then 0 else Float.atan2 p.y p.x

/-- The polar form of a point. -/
def ofPoint (p : Point) : Polar :=
  ⟨radiusOf p, angleOf p⟩

/-- The angle of the origin is zero, whatever the signs of its coordinates. -/
theorem angleOf_origin {p : Point} (hx : (p.x == 0) = true) (hy : (p.y == 0) = true) :
    angleOf p = 0 := by
  simp [angleOf, hx, hy]

end Polar

end Grapher
