import Grapher.Formula.Basic

set_option relaxedAutoImplicit false
set_option autoImplicit false

/-!
# Worksheets

A worksheet holds all that a user works on: the variables, a formula for each of four
coordinates, the range that a plot sweeps, the names of the swept variables, the number of places
of printed points, and what is plotted.

## Main definitions

* `Coordinate`, `PerCoordinate` — the coordinates that formulas describe.
* `Mode` — what is plotted.
* `Bound`, `Range` — the swept range, as numbers with the texts that they were computed from.
* `Worksheet`, `Worksheet.initial` — a worksheet, and the one to start with.

## Main results

* `PerCoordinate.get_set` — setting one coordinate leaves the others alone.
-/

namespace Grapher

/-! ## Coordinates -/

/-- The coordinates that formulas describe: two Cartesian and two polar ones. -/
inductive Coordinate
  | x
  | y
  | r
  | t
deriving DecidableEq, Repr

namespace Coordinate

/-- All coordinates. -/
def all : List Coordinate := [.x, .y, .r, .t]

theorem mem_all (c : Coordinate) : c ∈ all := by
  cases c <;> decide

/-- The letter of a coordinate. -/
def letter : Coordinate → String
  | .x => "x"
  | .y => "y"
  | .r => "r"
  | .t => "t"

/-- The coordinate that a text names, in any case and with blanks around it. -/
def ofText? (text : String) : Option Coordinate :=
  all.find? fun c => c.letter == (Text.trimmed text).toLower

end Coordinate

/-- One thing for each coordinate. -/
structure PerCoordinate (α : Type) where
  /-- What belongs to `x`. -/
  x : α
  /-- What belongs to `y`. -/
  y : α
  /-- What belongs to `r`. -/
  r : α
  /-- What belongs to `t`. -/
  t : α

namespace PerCoordinate

variable {α β : Type}

/-- The same thing for each coordinate. -/
def all (a : α) : PerCoordinate α := ⟨a, a, a, a⟩

/-- What belongs to a coordinate. -/
def get (p : PerCoordinate α) : Coordinate → α
  | .x => p.x
  | .y => p.y
  | .r => p.r
  | .t => p.t

/-- What belongs to one coordinate is replaced. -/
def set (p : PerCoordinate α) (c : Coordinate) (a : α) : PerCoordinate α :=
  match c with
  | .x => { p with x := a }
  | .y => { p with y := a }
  | .r => { p with r := a }
  | .t => { p with t := a }

/-- A function applied to what belongs to each coordinate. -/
def map (f : α → β) (p : PerCoordinate α) : PerCoordinate β :=
  ⟨f p.x, f p.y, f p.r, f p.t⟩

/-- All four things, in the order of the coordinates. -/
def toList (p : PerCoordinate α) : List α :=
  Coordinate.all.map p.get

/-- **Setting one coordinate leaves the others alone.** -/
theorem get_set (p : PerCoordinate α) (c d : Coordinate) (a : α) :
    (p.set c a).get d = if d = c then a else p.get d := by
  cases c <;> cases d <;> rfl

/-- What is the same for each coordinate is the same. -/
@[ext]
theorem eq_of_get {p q : PerCoordinate α} (h : ∀ c, p.get c = q.get c) : p = q := by
  obtain ⟨x, y, r, t⟩ := p
  obtain rfl : x = q.x := h .x
  obtain rfl : y = q.y := h .y
  obtain rfl : r = q.r := h .r
  obtain rfl : t = q.t := h .t
  rfl

theorem get_map (f : α → β) (p : PerCoordinate α) (c : Coordinate) :
    (p.map f).get c = f (p.get c) := by
  cases c <;> rfl

theorem get_all (a : α) (c : Coordinate) : (all a).get c = a := by
  cases c <;> rfl

end PerCoordinate

/-! ## Modes -/

/-- What is plotted: `y` over `x`, `x` and `y` over a parameter, the radius over the angle, or
the angle over the radius. -/
inductive Mode
  | explicit
  | parametric
  | radial
  | angular
deriving DecidableEq, Repr

namespace Mode

/-- All modes. -/
def all : List Mode := [.explicit, .parametric, .radial, .angular]

theorem mem_all (mode : Mode) : mode ∈ all := by
  cases mode <;> decide

/-- The name of a mode. -/
def name : Mode → String
  | .explicit => "YPlot"
  | .parametric => "XYPlot"
  | .radial => "RPlot"
  | .angular => "TPlot"

/-- The mode of exactly the given name. -/
def ofName? (name : String) : Option Mode :=
  all.find? fun mode => mode.name == name

/-- The mode that a text names, in any case and with blanks around it. -/
def ofText? (text : String) : Option Mode :=
  all.find? fun mode => mode.name.toLower == (Text.trimmed text).toLower

end Mode

/-! ## Ranges -/

/-- A number and the text that it was computed from. -/
structure Bound where
  /-- The number. -/
  value : Float
  /-- The text. -/
  source : String
deriving DecidableEq

/-- The bound that is written out as a number. -/
def Bound.ofFloat (value : Float) : Bound :=
  ⟨value, Numeral.shortest value⟩

/-- The bounds of a range. -/
inductive Bound.Role
  | start
  | finish
  | step
deriving DecidableEq, Repr

namespace Bound.Role

/-- All roles, in the order in which a range is given. -/
def all : List Bound.Role := [.start, .finish, .step]

/-- The word for a bound. -/
def word : Bound.Role → String
  | .start => "start"
  | .finish => "end"
  | .step => "step"

end Bound.Role

/-- The range that a plot sweeps. -/
structure Range where
  /-- The first number. -/
  start : Bound
  /-- The number after which the sweep ends. -/
  finish : Bound
  /-- The distance between two numbers. -/
  step : Bound
deriving DecidableEq

namespace Range

/-- The range from minus one to one in steps of a twentieth. -/
def initial : Range :=
  ⟨.ofFloat (-1), .ofFloat 1, .ofFloat 0.05⟩

/-- One bound of a range. -/
def get (range : Range) : Bound.Role → Bound
  | .start => range.start
  | .finish => range.finish
  | .step => range.step

/-- One bound of a range is replaced. -/
def set (range : Range) (role : Bound.Role) (bound : Bound) : Range :=
  match role with
  | .start => { range with start := bound }
  | .finish => { range with finish := bound }
  | .step => { range with step := bound }

/-- Setting one bound leaves the others alone. -/
theorem get_set (range : Range) (role other : Bound.Role) (bound : Bound) :
    (range.set role bound).get other = if other = role then bound else range.get other := by
  cases role <;> cases other <;> rfl

/-- Ranges with the same bounds are the same. -/
@[ext]
theorem eq_of_get {range other : Range} (h : ∀ role, range.get role = other.get role) :
    range = other := by
  obtain ⟨start, finish, step⟩ := range
  obtain rfl : start = other.start := h .start
  obtain rfl : finish = other.finish := h .finish
  obtain rfl : step = other.step := h .step
  rfl

/-- The text of a range, in the texts of its bounds. -/
def text (range : Range) : String :=
  range.start.source ++ " to " ++ range.finish.source ++ " by " ++ range.step.source

end Range

/-! ## Worksheets -/

/-- All that a user works on. -/
structure Worksheet where
  /-- The name of the worksheet. -/
  name : String
  /-- The declared variables. -/
  env : Environment
  /-- The formula of each coordinate. -/
  formulas : PerCoordinate Formula
  /-- The range that a plot sweeps. -/
  range : Range
  /-- The variable that parametric plots sweep. -/
  parameter : String
  /-- The variable that plots of the angle sweep. -/
  radius : String
  /-- The variable that plots of the radius sweep. -/
  angle : String
  /-- The number of places of printed points. -/
  precision : UInt8
  /-- What is plotted. -/
  mode : Mode

namespace Worksheet

/-- The worksheet to start with: every formula is the number one. -/
def initial : Worksheet where
  name := "New Equation"
  env := .initial
  formulas := .all (.ofFloat 1)
  range := .initial
  parameter := "t"
  radius := "r"
  angle := "t"
  precision := 3
  mode := .explicit

/-- The formula of a coordinate. -/
def formula (w : Worksheet) (c : Coordinate) : Formula :=
  w.formulas.get c

/-- The names that formulas may load. -/
def declared (w : Worksheet) : List String :=
  w.env.names

end Worksheet

end Grapher
