import Grapher.Point
import Grapher.Worksheet.Basic

set_option relaxedAutoImplicit false
set_option autoImplicit false

/-!
# Sweeps

A plot is a sweep over the range of a worksheet. The number at each position is bound to the
swept variable, and the formulas of the curve give the point there. A sweep keeps its own copy of
everything that it needs, so later changes of the worksheet do not touch it. From one position to
the next it keeps the variables, with the swept one bound, and the stack on which the formulas are
evaluated.

The number at a position is the start plus the position times the step, not a running sum, so
that rounding errors do not add up. Positions are natural numbers here. A counter of 64 bits wraps
around when it reaches `Sweep.positions`, after as many points, so what is said of a position is
meant of one below that.

## Main definitions

* `Curve` — the formulas of a plot, and the point that they give at a number.
* `Missing` — why a sweep cannot start: a formula loads an undeclared variable.
* `Sweep`, `Worksheet.startSweep` — a sweep, and how it starts.
* `Sweep.next`, `Sweep.take` — the next point, and a number of them.
* `Sweep.point` — the point at a position.
* `Sweep.remaining` — bounds on the number of points that are left.

## Main results

* `Sweep.next_of_ended` — a sweep that has ended gives no more points.
-/

namespace Grapher

/-- The formulas of a plot. -/
inductive Curve
  | explicit (y : Formula)
  | parametric (x y : Formula)
  | radial (r : Formula)
  | angular (t : Formula)

namespace Curve

/-- The formulas of a curve with their coordinates, in the order in which they are examined. -/
def formulas : Curve → List (Coordinate × Formula)
  | .explicit y => [(.y, y)]
  | .parametric x y => [(.x, x), (.y, y)]
  | .radial r => [(.r, r)]
  | .angular t => [(.t, t)]

/-- The value of a formula, or what is no number where it has no value. -/
def valueOf (formula : Formula) (env : Environment) : Float :=
  match formula.value env with
  | .ok value => value
  | .error _ => Arithmetic.notANumber

/-- The point at a number of the range, where the environment binds the swept variable to it. -/
def point (curve : Curve) (value : Float) (env : Environment) : Point :=
  match curve with
  | .explicit y => ⟨value, valueOf y env⟩
  | .parametric x y => ⟨valueOf x env, valueOf y env⟩
  | .radial r => Polar.toPoint ⟨valueOf r env, value⟩
  | .angular t => Polar.toPoint ⟨value, valueOf t env⟩

/-- The value of a formula as in `valueOf`, on a stack that is kept. -/
def valueOn (formula : Formula) (env : Environment) : StateM (List Float) Float := do
  match ← (formula.program.evaluate env).run with
  | .ok value => return value
  | .error _ => return Arithmetic.notANumber

/-- The point at a number of the range as in `point`, on a stack that is kept from one formula to
the next. -/
def pointOn (curve : Curve) (value : Float) (env : Environment) : StateM (List Float) Point :=
  match curve with
  | .explicit y => return ⟨value, ← valueOn y env⟩
  | .parametric x y => return ⟨← valueOn x env, ← valueOn y env⟩
  | .radial r => return Polar.toPoint ⟨← valueOn r env, value⟩
  | .angular t => return Polar.toPoint ⟨value, ← valueOn t env⟩

end Curve

/-- An undeclared variable that the formula of a coordinate loads. -/
structure Missing where
  /-- The coordinate. -/
  coordinate : Coordinate
  /-- The text of its formula. -/
  source : String
  /-- The undeclared variable. -/
  name : String
deriving DecidableEq, Repr

/-- The description of an undeclared variable. -/
def Missing.message (missing : Missing) : String :=
  s!"{missing.coordinate.letter} expression '{missing.source}' uses variable " ++
    s!"'{missing.name}', which is not declared"

/-- The first undeclared variable that a curve loads. -/
def Curve.missing? (curve : Curve) (env : Environment) : Option Missing :=
  curve.formulas.findSome? fun entry =>
    (entry.2.firstUndeclared? env).map fun name => ⟨entry.1, entry.2.source, name⟩

/-- A sweep over a range. -/
structure Sweep where
  /-- The curve that gives the points. -/
  curve : Curve
  /-- The variables. The swept one has the number of the last position. -/
  env : Environment
  /-- The swept variable. -/
  swept : String
  /-- The number at the first position. -/
  start : Float
  /-- The number after which the sweep ends. -/
  finish : Float
  /-- The distance between two positions. -/
  step : Float
  /-- The next position. It is counted in 64 bits, so it is this number as long as it is less than
  `Sweep.positions`. -/
  position : Nat
  /-- The stack on which formulas are evaluated, with what the last evaluation has left. -/
  stack : List Float
  /-- Whether the end has been met. -/
  ended : Bool

namespace Sweep

/-- The number at a position. -/
def number (sweep : Sweep) (position : Nat) : Float :=
  sweep.start + sweep.step * Float.ofNat position

/-- Whether a number is past the end. What is no number is past it as well. -/
def isPast (sweep : Sweep) (number : Float) : Bool :=
  decide (sweep.finish < number) || number.isNaN

/-- The point at a position. -/
def point (sweep : Sweep) (position : Nat) : Point :=
  let number := sweep.number position
  sweep.curve.point number (sweep.env.set sweep.swept number)

/-- The next point, if there is one, and the sweep after it. -/
def next (sweep : Sweep) : Option Point × Sweep :=
  if sweep.ended then (none, sweep)
  else
    let number := sweep.number sweep.position
    if sweep.isPast number then (none, { sweep with ended := true })
    else
      let env := sweep.env.set sweep.swept number
      let (point, stack) := (sweep.curve.pointOn number env).run sweep.stack
      (some point, { sweep with env := env, position := sweep.position + 1, stack := stack })

/-- The points of `before` in reverse, then at most `count` further ones up to the end, and
the sweep after them. -/
def takeAfter (before : List Point) : Nat → Sweep → List Point × Sweep
  | 0, sweep => (before.reverse, sweep)
  | count + 1, sweep =>
    match sweep.next with
    | (some point, later) => takeAfter (point :: before) count later
    | (none, later) => (before.reverse, later)

/-- At most `count` points, up to the end of the sweep, and the sweep after them. -/
def take (count : Nat) (sweep : Sweep) : List Point × Sweep :=
  takeAfter [] count sweep

/-- The number of positions that a sweep can count. -/
def positions : Nat := UInt64.size

/-- All points up to the end of the sweep. -/
def points (sweep : Sweep) : List Point :=
  (sweep.take positions).1

/-- Bounds on the number of points that are left. Rounding may add the last number of the range
to the sweep or take it away, which the bounds allow for. -/
def remaining (sweep : Sweep) : Nat × Nat :=
  if sweep.ended then (0, 0)
  else
    let total := Arithmetic.floor ((sweep.finish - sweep.start) / sweep.step) + 1
    let left := (Arithmetic.greatest (total - Float.ofNat sweep.position) 0).toUInt64.toNat
    (left - 1, left + 1)

/-- A sweep that has ended gives no more points. -/
theorem next_of_ended {sweep : Sweep} (h : sweep.ended = true) : sweep.next = (none, sweep) := by
  simp [next, h]

end Sweep

namespace Worksheet

/-- The curve that a mode plots. -/
def curve (w : Worksheet) : Mode → Curve
  | .explicit => .explicit (w.formula .y)
  | .parametric => .parametric (w.formula .x) (w.formula .y)
  | .radial => .radial (w.formula .r)
  | .angular => .angular (w.formula .t)

/-- The variable that a mode sweeps. -/
def swept (w : Worksheet) : Mode → String
  | .explicit => "x"
  | .parametric => w.parameter
  | .radial => w.angle
  | .angular => w.radius

/-- The sweep of a mode at its start. -/
def sweep (w : Worksheet) (mode : Mode) : Sweep where
  curve := w.curve mode
  env := w.env
  swept := w.swept mode
  start := w.range.start.value
  finish := w.range.finish.value
  step := w.range.step.value
  position := 0
  stack := []
  ended := false

/-- A sweep starts if all variables that its curve loads are declared. The worksheet then keeps
the mode. -/
def startSweep (w : Worksheet) (mode : Mode) : Except Missing (Worksheet × Sweep) :=
  match (w.curve mode).missing? w.env with
  | some missing => .error missing
  | none => .ok ({ w with mode := mode }, w.sweep mode)

end Worksheet

end Grapher
