import Grapher.Proofs.InPlace
import Grapher.Proofs.Invariant
import Grapher.Proofs.Points

set_option relaxedAutoImplicit false
set_option autoImplicit false

/-!
# When a sweep starts

A sweep starts exactly if the worksheet declares every variable that the formulas of its mode load.
The swept variable is no exception: it is bound only while the sweep runs, and a formula that loads
it needs its declaration as that of any other. If a sweep does not start, this is for the first
undeclared variable of the first formula that loads one, and the worksheet stays as it is.

A sweep that has started keeps what is declared, so its formulas have values wherever it stands and
whatever its stack holds.

## Main definitions

* `Mode.coordinates` — the coordinates whose formulas a mode plots.
* `Worksheet.Supplies`, `Worksheet.FirstMissing` — a formula whose variables are all declared, and
  the first variable of a mode that is not.
* `InPlace.startCurrent` — a sweep of the current mode starts.
* `Worksheet.Starting` — when a sweep starts, what it is refused for, and what this leaves.

## Main results

* `Worksheet.missing?_eq_some_iff` — what is found to be missing is what is missing first.
* `Worksheet.Reachable.isOk_evaluate` — a sweep that has started meets no undeclared variable.
* `Worksheet.Reachable.starting` — a sweep starts if and only if what it loads is declared.
-/

namespace Grapher

/-- The coordinates whose formulas a mode plots, in the order in which they are examined. -/
def Mode.coordinates : Mode → List Coordinate
  | .explicit => [.y]
  | .parametric => [.x, .y]
  | .radial => [.r]
  | .angular => [.t]

namespace Worksheet

/-- All variables that the formula of a coordinate loads are declared. -/
def Supplies (w : Worksheet) (c : Coordinate) : Prop :=
  ∀ operation ∈ (w.formula c).program, ∀ name,
    operation.action = .load name → w.env.contains name

/-- A variable is missing first in a mode: an operation of the program of some coordinate loads it
and it is not declared, but whatever the operations before load is declared, and so is whatever the
formulas of the coordinates before load. -/
def FirstMissing (w : Worksheet) (mode : Mode) (missing : Missing) : Prop :=
  (∃ front back, mode.coordinates = front ++ missing.coordinate :: back ∧
    ∀ c ∈ front, w.Supplies c) ∧
  missing.source = (w.formula missing.coordinate).source ∧
  ∃ before operation after,
    (w.formula missing.coordinate).program = before ++ operation :: after ∧
      operation.action = .load missing.name ∧ w.env.contains missing.name = false ∧
      ∀ other ∈ before, ∀ earlier, other.action = .load earlier → w.env.contains earlier

end Worksheet

/-- A sweep of the current mode starts. -/
def InPlace.startCurrent : InPlace Refusal Worksheet Sweep := do
  startSweep (← get).mode

namespace Worksheet

/-- How a sweep of a mode starts in a worksheet. -/
structure Starting (w : Worksheet) (mode : Mode) : Prop where
  /-- A sweep starts exactly if all variables that the formulas of its mode load are declared. -/
  starts : (∃ later sweep, w.startSweep mode = .ok (later, sweep)) ↔
    ∀ c ∈ mode.coordinates, w.Supplies c
  /-- It is refused for the variable that is missing first. -/
  refused : ∀ missing, w.startSweep mode = .error missing ↔ w.FirstMissing mode missing
  /-- A sweep that has started evaluates its formulas wherever it stands, at all numbers and on all
  stacks. -/
  supplied : ∀ later sweep, w.startSweep mode = .ok (later, sweep) →
    ∀ asked, ∀ entry ∈ (sweep.after asked).curve.formulas, ∀ number stack, ∃ value,
      ((entry.2.program.evaluate ((sweep.after asked).env.set (sweep.after asked).swept
        number)).run.run stack).1 = .ok value
  /-- A sweep that starts leaves the mode. -/
  kept : ∀ later sweep, w.startSweep mode = .ok (later, sweep) →
    later = { w with mode := mode } ∧
      (InPlace.startSweep mode).run.run w = (.ok sweep, { w with mode := mode })
  /-- A sweep that is refused leaves the worksheet alone. -/
  untouched : ∀ missing, w.startSweep mode = .error missing →
    (InPlace.startSweep mode).run.run w = (.error (.missing missing), w)
  /-- A sweep of the current mode is one of this mode, and it leaves the worksheet alone. -/
  current : InPlace.startCurrent.run.run w = (InPlace.startSweep w.mode).run.run w ∧
    (InPlace.startCurrent.run.run w).2 = w

/-! ## Missing variables -/

variable {w : Worksheet} {mode : Mode} {c : Coordinate}

/-- The formulas of a curve are those of the coordinates of the mode. -/
theorem formulas_curve (w : Worksheet) (mode : Mode) :
    (w.curve mode).formulas = mode.coordinates.map fun c => (c, w.formula c) := by
  cases mode <;> rfl

/-- No variable is missing where all are declared. -/
theorem supplies_iff : w.Supplies c ↔ (w.formula c).firstUndeclared? w.env = none := by
  unfold Formula.firstUndeclared? Program.firstUndeclared?
  simp only [List.find?_eq_none, Program.mem_names, Bool.not_eq_true', Bool.not_eq_false]
  constructor
  · rintro h name ⟨operation, hoperation, hload⟩
    exact h operation hoperation name hload
  · exact fun h operation hoperation name hload => h name ⟨operation, hoperation, hload⟩

/-- Nothing is missing in a mode whose formulas all have their variables declared. -/
theorem missing?_eq_none_iff :
    (w.curve mode).missing? w.env = none ↔ ∀ c ∈ mode.coordinates, w.Supplies c := by
  simp only [Curve.missing?, formulas_curve, List.findSome?_eq_none_iff, List.forall_mem_map,
    Option.map_eq_none_iff, supplies_iff]

/-- **What is found to be missing is what is missing first.** -/
theorem missing?_eq_some_iff {missing : Missing} :
    (w.curve mode).missing? w.env = some missing ↔ w.FirstMissing mode missing := by
  obtain ⟨c, source, name⟩ := missing
  unfold FirstMissing
  rw [Curve.missing?, formulas_curve, List.findSome?_map, List.findSome?_eq_some_iff]
  simp only [Function.comp_apply, Option.map_eq_some_iff, Option.map_eq_none_iff, ← supplies_iff,
    ← Program.firstUndeclared?_eq_some_iff]
  constructor
  · rintro ⟨front, d, back, hsplit, ⟨other, hother, heq⟩, hfront⟩
    obtain ⟨rfl, rfl, rfl⟩ := Missing.mk.inj heq
    exact ⟨⟨front, back, hsplit, hfront⟩, rfl, hother⟩
  · rintro ⟨⟨front, back, hsplit, hfront⟩, rfl, hother⟩
    exact ⟨front, c, back, hsplit, ⟨name, hother, rfl⟩, hfront⟩

/-! ## Sweeps that have started -/

/-- **A sweep that has started meets no undeclared variable**, nor any other fault: wherever it
stands, its formulas have values at all numbers and on all stacks. -/
theorem Reachable.isOk_evaluate (h : w.Reachable) (hsupplies : ∀ c ∈ mode.coordinates, w.Supplies c)
    (asked : Nat) {entry : Coordinate × Formula}
    (hentry : entry ∈ ((w.sweep mode).after asked).curve.formulas) (number : Float)
    (stack : List Float) :
    ∃ value, ((entry.2.program.evaluate (((w.sweep mode).after asked).env.set
      ((w.sweep mode).after asked).swept number)).run.run stack).1 = .ok value := by
  have hat := (Sweep.at_start rfl rfl : Sweep.At (w.sweep mode) 0 (w.sweep mode)).after asked
  rw [hat.curve] at hentry
  have hentry : entry ∈ (w.curve mode).formulas := hentry
  rw [formulas_curve] at hentry
  obtain ⟨c, hc, rfl⟩ := List.mem_map.1 hentry
  have hvalue := h.valueOf_eq_ok (supplies_iff.1 (hsupplies c hc)) (w.swept mode) number
  refine ⟨Curve.valueOf (w.formula c) (w.env.set (w.swept mode) number), ?_⟩
  -- with the swept variable bound anew the variables are those of the start
  rw [hat.swept, hat.env, ← hvalue]
  exact Program.outcome_eq_run (w.formula c).program _ stack

/-- A sweep of the current mode leaves the worksheet alone, whether it starts or not. -/
theorem run_startCurrent (w : Worksheet) :
    InPlace.startCurrent.run.run w = (InPlace.startSweep w.mode).run.run w ∧
      (InPlace.startCurrent.run.run w).2 = w := by
  have hrun : InPlace.startCurrent.run.run w = (InPlace.startSweep w.mode).run.run w := by
    rw [InPlace.startCurrent, run_bind, run_get]
  refine ⟨hrun, ?_⟩
  rw [hrun, InPlace.run_startSweep, Worksheet.startSweep]
  cases (w.curve w.mode).missing? w.env <;> rfl

/-- **A sweep starts if and only if what it loads is declared.** It is refused for the variable that
is missing first, and then nothing changes. If it starts, the worksheet keeps the mode, and the
formulas of the sweep have values for ever, whatever becomes of the worksheet.

**Proof sketch.** What the search finds is what is missing first (`missing?_eq_some_iff`). A sweep
keeps the variables of its start but for the swept one, which is bound anew (`Sweep.At.after`), so
what its formulas load stays declared, and their programs are sound. -/
theorem Reachable.starting (h : w.Reachable) (mode : Mode) : w.Starting mode := by
  have hok : (∃ later sweep, w.startSweep mode = .ok (later, sweep)) ↔
      (w.curve mode).missing? w.env = none := by
    unfold Worksheet.startSweep
    cases (w.curve mode).missing? w.env <;> simp
  have herror : ∀ missing, w.startSweep mode = .error missing ↔
      (w.curve mode).missing? w.env = some missing := fun missing => by
    unfold Worksheet.startSweep
    cases (w.curve mode).missing? w.env <;> simp
  refine ⟨hok.trans missing?_eq_none_iff,
    fun missing => (herror missing).trans missing?_eq_some_iff,
    fun later sweep hstart asked entry hentry number stack => ?_, fun later sweep hstart => ?_,
    fun missing hstart => ?_, run_startCurrent w⟩
  · obtain ⟨hmissing, -, rfl⟩ := startSweep_eq_ok hstart
    exact h.isOk_evaluate (missing?_eq_none_iff.1 hmissing) asked hentry number stack
  · obtain ⟨-, rfl, rfl⟩ := startSweep_eq_ok hstart
    exact ⟨rfl, by rw [InPlace.run_startSweep, hstart]; rfl⟩
  · rw [InPlace.run_startSweep, hstart]
    rfl

/-- A worksheet that has forgotten the variable `k`, which the formulas of `y` and `r` load. The
parameter and the angle have this name. -/
def forgetful : Worksheet :=
  initial.after [.declare "k" 2, .express .x "t t", .express .y "a k + t k c", .express .r "k",
    .express .t "a", .undeclare "k", .parameter "k", .angle "k"]

/-- The forgetful worksheet does not start a parametric plot, although its parameter has the name of
the variable that is missing, nor a radial one, but it starts one whose angle depends on the
radius. -/
theorem starting_forgetful :
    forgetful.Reachable ∧
      forgetful.FirstMissing .parametric ⟨.y, "a k + t k c", "k"⟩ ∧
      forgetful.FirstMissing .radial ⟨.r, "k", "k"⟩ ∧
      ∃ sweep, (InPlace.startSweep .angular).run.run forgetful =
          (.ok sweep, { forgetful with mode := .angular }) ∧
        ∀ entry ∈ (sweep.after 2).curve.formulas, ∃ value, ((entry.2.program.evaluate
          ((sweep.after 2).env.set (sweep.after 2).swept 5)).run.run [1, 2]).1 = .ok value := by
  have hreachable : forgetful.Reachable := Reachable.initial.after _
  have hmissing : (forgetful.curve .parametric).missing? forgetful.env =
        some ⟨.y, "a k + t k c", "k"⟩ ∧
      (forgetful.curve .radial).missing? forgetful.env = some ⟨.r, "k", "k"⟩ ∧
      (forgetful.curve .angular).missing? forgetful.env = none := by
    decide +kernel
  obtain ⟨hparametric, hradial, hangular⟩ := hmissing
  have hstart : forgetful.startSweep .angular =
      .ok ({ forgetful with mode := .angular }, forgetful.sweep .angular) := by
    simp only [startSweep, hangular]
  refine ⟨hreachable, ((hreachable.starting .parametric).refused _).1 ?_,
    ((hreachable.starting .radial).refused _).1 ?_, forgetful.sweep .angular, ?_, ?_⟩
  · simp only [startSweep, hparametric]
  · simp only [startSweep, hradial]
  · exact ((hreachable.starting .angular).kept _ _ hstart).2
  · exact fun entry hentry =>
      (hreachable.starting .angular).supplied _ _ hstart 2 entry hentry 5 [1, 2]

end Worksheet

end Grapher
