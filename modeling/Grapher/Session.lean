import Grapher.Worksheet.Edit

set_option relaxedAutoImplicit false
set_option autoImplicit false

/-!
# Sessions

A session is a worksheet with the sweeps that have been opened on it, each under a key. A step
edits the worksheet, opens a sweep, copies one with its position, or takes points from one. A
refused step changes nothing.

## Main definitions

* `Session`, `Session.initial` — a session, and the one to start with.
* `Session.Step` — the steps.
* `Session.perform` — the session after a step, with the points that the step gives.

## Main results

* `Session.sweep?_keep` — keeping a sweep under a key leaves the sweeps of other keys alone.
-/

namespace Grapher

/-- A worksheet with open sweeps. -/
structure Session where
  /-- The worksheet. -/
  worksheet : Worksheet
  /-- The open sweeps with their keys, the latest first. -/
  sweeps : List (String × Sweep)

namespace Session

/-- The session to start with. -/
def initial : Session :=
  ⟨.initial, []⟩

/-- The open sweep of a key. -/
def sweep? (s : Session) (key : String) : Option Sweep :=
  s.sweeps.lookup key

/-- A sweep is kept under a key. -/
def keep (s : Session) (key : String) (sweep : Sweep) : Session :=
  { s with sweeps := (key, sweep) :: s.sweeps.filter (·.1 != key) }

/-- A step of a session. -/
inductive Step
  | edit (edit : Edit)
  | start (key : String) (mode : Mode)
  | copy (source target : String)
  | advance (key : String) (count : Nat)

/-- Why a step is refused. -/
inductive Trouble
  | refused (refusal : Refusal)
  | noSweep (key : String)

/-- The session after a step and the points that the step gives, or why the step is refused. -/
def perform (s : Session) : Step → Except Trouble (Session × List Point)
  | .edit edit =>
    match edit.apply s.worksheet with
    | .ok worksheet => .ok ({ s with worksheet := worksheet }, [])
    | .error refusal => .error (.refused refusal)
  | .start key mode =>
    match s.worksheet.startSweep mode with
    | .ok (worksheet, sweep) => .ok ({ s with worksheet := worksheet }.keep key sweep, [])
    | .error missing => .error (.refused (.missing missing))
  | .copy source target =>
    match s.sweep? source with
    | some sweep => .ok (s.keep target sweep, [])
    | none => .error (.noSweep source)
  | .advance key count =>
    match s.sweep? key with
    | some sweep =>
      let (points, later) := sweep.take count
      .ok (s.keep key later, points)
    | none => .error (.noSweep key)

/-- Keeping a sweep under a key leaves the sweeps of other keys alone. -/
theorem sweep?_keep (s : Session) (key other : String) (sweep : Sweep) :
    (s.keep key sweep).sweep? other = if other = key then some sweep else s.sweep? other := by
  simp only [sweep?, keep, Environment.lookup_entry, Environment.lookup_filter_ne]
  split <;> rfl

end Session

end Grapher
