import Grapher.Worksheet.Change

set_option relaxedAutoImplicit false
set_option autoImplicit false

/-!
# Archives

An archive is a worksheet in source form. Restoring one reads every formula and computes every
bound anew, from the archived variables.

## Main definitions

* `Archive` — a worksheet in source form.
* `Worksheet.archive` — the archive of a worksheet.
* `Archive.restore` — the worksheet of an archive, or the first refusal.
-/

namespace Grapher

/-- A worksheet in source form. -/
structure Archive where
  /-- The name of the worksheet. -/
  name : String
  /-- The declared variables. -/
  env : Environment
  /-- The text of the formula of each coordinate. -/
  expressions : PerCoordinate String
  /-- The text of the start of the range. -/
  start : String
  /-- The text of the end of the range. -/
  finish : String
  /-- The text of the step of the range. -/
  step : String
  /-- The variable that parametric plots sweep. -/
  parameter : String
  /-- The variable that plots of the angle sweep. -/
  radius : String
  /-- The variable that plots of the radius sweep. -/
  angle : String
  /-- The number of places of printed points. -/
  precision : UInt8
  /-- What is plotted. -/
  mode : Mode

/-- The worksheet in source form. -/
def Worksheet.archive (w : Worksheet) : Archive where
  name := w.name
  env := w.env
  expressions := w.formulas.map (·.source)
  start := w.range.start.source
  finish := w.range.finish.source
  step := w.range.step.source
  parameter := w.parameter
  radius := w.radius
  angle := w.angle
  precision := w.precision
  mode := w.mode

namespace Archive

/-- The text of a bound of the range. -/
def boundText (archive : Archive) : Bound.Role → String
  | .start => archive.start
  | .finish => archive.finish
  | .step => archive.step

/-- The archived worksheet before its formulas are read and its range is computed. -/
def blank (archive : Archive) : Worksheet :=
  { Worksheet.initial with
    name := archive.name
    env := archive.env
    parameter := archive.parameter
    radius := archive.radius
    angle := archive.angle
    precision := archive.precision
    mode := archive.mode }

/-- The formula of one coordinate is read. -/
def readFormula (archive : Archive) (w : Worksheet) (c : Coordinate) :
    Except Refusal Worksheet :=
  match w.express c (archive.expressions.get c) with
  | .error refusal => .error (.about (.expression c) refusal)
  | .ok w => .ok w

/-- One bound of the range is computed. -/
def readBound (archive : Archive) (w : Worksheet) (role : Bound.Role) :
    Except Refusal Worksheet :=
  w.setBound role (archive.boundText role)

/-- The archived worksheet: its formulas are read and its bounds computed, in this order, until
one is refused. -/
def restore (archive : Archive) : Except Refusal Worksheet :=
  Coordinate.all.foldlM archive.readFormula archive.blank >>= fun w =>
    Bound.Role.all.foldlM archive.readBound w

end Archive

end Grapher
