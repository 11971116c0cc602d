import Grapher.Worksheet.Refusal

set_option relaxedAutoImplicit false
set_option autoImplicit false

/-!
# Changes of a worksheet

A text becomes a formula or a bound of the range. A formula is read against the variables that are
declared at the time and stays as it is when they change; a bound is computed once. A change that
is refused leaves the worksheet as it was.

## Main definitions

* `Worksheet.evaluate` — the value of a text in the variables of a worksheet.
* `Worksheet.express`, `Worksheet.setBound` — a new formula, and a new bound.
* `Worksheet.declare`, `Worksheet.undeclare` — changes of the variables.

## Main results

* `Worksheet.formula_set`, `Worksheet.range_set` — a new formula and a new bound leave the others
  alone.
* `Worksheet.get?_declare`, `Worksheet.get?_undeclare` — the variables after a change of one.
-/

namespace Grapher

namespace Worksheet

/-- The value of a text in the variables of a worksheet. -/
def evaluate (w : Worksheet) (source : String) : Except Refusal Float :=
  match Formula.ofSource w.declared source with
  | .error rejection => .error (.formula rejection)
  | .ok formula =>
    match formula.value w.env with
    | .error fault => .error (.value fault.cause)
    | .ok value => .ok value

/-- Whether a text is a formula in the variables of a worksheet. -/
def acceptsFormula (w : Worksheet) (source : String) : Bool :=
  (Formula.ofSource w.declared source).isOk

/-- Whether a text has a value in the variables of a worksheet. -/
def acceptsValue (w : Worksheet) (source : String) : Bool :=
  (w.evaluate source).isOk

/-- A text becomes the formula of a coordinate. -/
def express (w : Worksheet) (c : Coordinate) (source : String) : Except Refusal Worksheet :=
  match Formula.ofSource w.declared source with
  | .error rejection => .error (.formula rejection)
  | .ok formula => .ok { w with formulas := w.formulas.set c formula }

/-- The bound that a text without blanks around it gives. A bound is finite, and a step is
positive. -/
def boundOf (w : Worksheet) (role : Bound.Role) (source : String) : Except Refusal Bound :=
  match w.evaluate source with
  | .error refusal => .error refusal
  | .ok value =>
    if !value.isFinite then .error (.infinite source)
    else if role = .step ∧ value ≤ 0 then .error (.notPositive source)
    else .ok ⟨value, source⟩

/-- A text becomes a bound of the range, without the blanks around it. -/
def setBound (w : Worksheet) (role : Bound.Role) (source : String) : Except Refusal Worksheet :=
  match w.boundOf role (Text.trimmed source) with
  | .error refusal => .error (.about (.bound role) refusal)
  | .ok bound => .ok { w with range := w.range.set role bound }

/-- A variable is declared or changed. Any text can be its name. -/
def declare (w : Worksheet) (name : String) (value : Float) : Worksheet :=
  { w with env := w.env.set name value }

/-- A variable is removed. Formulas that load it stay and have no value. -/
def undeclare (w : Worksheet) (name : String) : Worksheet :=
  { w with env := w.env.remove name }

/-! ## What the changes leave alone -/

theorem formula_set (w : Worksheet) (c d : Coordinate) (formula : Formula) :
    Worksheet.formula { w with formulas := w.formulas.set c formula } d =
      if d = c then formula else w.formula d :=
  PerCoordinate.get_set w.formulas c d formula

theorem range_set (w : Worksheet) (role other : Bound.Role) (bound : Bound) :
    ({ w with range := w.range.set role bound } : Worksheet).range.get other =
      if other = role then bound else w.range.get other :=
  Range.get_set w.range role other bound

theorem get?_declare (w : Worksheet) (name other : String) (value : Float) :
    (w.declare name value).env.get? other =
      if other = name then some value else w.env.get? other :=
  Environment.get?_set w.env name other value

theorem get?_undeclare (w : Worksheet) (name other : String) :
    (w.undeclare name).env.get? other = if other = name then none else w.env.get? other :=
  Environment.get?_remove w.env name other

end Worksheet

end Grapher
