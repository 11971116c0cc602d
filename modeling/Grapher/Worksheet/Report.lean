import Grapher.Worksheet.Basic

set_option relaxedAutoImplicit false
set_option autoImplicit false

/-!
# Reports on a worksheet

## Main definitions

* `Worksheet.summary` — one line on what the current mode plots.
* `Worksheet.report` — the lines on everything in a worksheet.
* `Program.listing` — the lines of a program.
-/

namespace Grapher

/-- The lines of a program, one for each operation. -/
def Program.listing (program : Program) : List String :=
  if program.isEmpty then ["  (empty)"]
  else program.map fun operation => "  " ++ operation.action.text

namespace Worksheet

/-- The text of the formula of a coordinate. -/
def source (w : Worksheet) (c : Coordinate) : String :=
  (w.formula c).source

/-- One line on what the current mode plots. -/
def summary (w : Worksheet) : String :=
  match w.mode with
  | .explicit => "y = " ++ w.source .y
  | .parametric =>
    "(x, y) = (" ++ w.source .x ++ ", " ++ w.source .y ++ ") over " ++ w.parameter
  | .radial => w.radius ++ " = " ++ w.source .r ++ " over " ++ w.angle
  | .angular => w.angle ++ " = " ++ w.source .t ++ " over " ++ w.radius

/-- The numbers of the range. -/
def rangeValues (w : Worksheet) : String :=
  let values := Bound.Role.all.map fun role => Numeral.shortest (w.range.get role).value
  "(" ++ String.intercalate ", " values ++ ")"

/-- The lines on the variables. -/
def variableLines (w : Worksheet) : List String :=
  if w.env.entries.isEmpty then ["  (none)"]
  else w.env.entries.map fun entry =>
    "  " ++ entry.1 ++ " = " ++ Numeral.shortest entry.2

/-- The lines on everything in a worksheet. -/
def report (w : Worksheet) : List String :=
  ["name: " ++ w.name, "mode: " ++ w.mode.name] ++
    (Coordinate.all.map fun c => c.letter ++ " = " ++ w.source c) ++
    ["range: " ++ w.range.text ++ " " ++ w.rangeValues,
      "names: param = " ++ w.parameter ++ ", radius = " ++ w.radius ++ ", theta = " ++ w.angle,
      s!"precision: {w.precision.toNat}", "variables:"] ++
    w.variableLines

end Worksheet

end Grapher
