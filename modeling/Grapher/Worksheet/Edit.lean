import Grapher.Worksheet.Archive

set_option relaxedAutoImplicit false
set_option autoImplicit false

/-!
# Edits of a worksheet

Everything that can happen to a worksheet, as data. An edit changes one part of it, or it is
refused and changes nothing; only restoring an archive replaces all of it.

## Main definitions

* `Edit` — the edits.
* `Edit.apply` — the worksheet after an edit, or why the edit is refused.
-/

namespace Grapher

/-- An edit of a worksheet. -/
inductive Edit
  | express (c : Coordinate) (source : String)
  | bound (role : Bound.Role) (source : String)
  | declare (name : String) (value : Float)
  | undeclare (name : String)
  | rename (name : String)
  | parameter (name : String)
  | radius (name : String)
  | angle (name : String)
  | precision (places : UInt8)
  | mode (text : String)
  | restore (archive : Archive)
  | reopen
  | plot (mode : Mode)

/-- The worksheet after an edit, or why the edit is refused. -/
def Edit.apply (w : Worksheet) : Edit → Except Refusal Worksheet
  | .express c source => w.express c source
  | .bound role source => w.setBound role source
  | .declare name value => .ok (w.declare name value)
  | .undeclare name => .ok (w.undeclare name)
  | .rename name => .ok { w with name := name }
  | .parameter name => .ok { w with parameter := name }
  | .radius name => .ok { w with radius := name }
  | .angle name => .ok { w with angle := name }
  | .precision places => .ok { w with precision := places }
  | .mode text =>
    match Mode.ofText? text with
    | some chosen => .ok { w with mode := chosen }
    | none => .error (.unknownMode text)
  | .restore archive => archive.restore
  | .reopen => w.archive.restore
  | .plot chosen =>
    match w.startSweep chosen with
    | .ok (started, _) => .ok started
    | .error what => .error (.missing what)

end Grapher
