import Grapher.Proofs.Environments
import Grapher.Proofs.Reachable
import Grapher.Proofs.Redeclare

set_option relaxedAutoImplicit false
set_option autoImplicit false

/-!
# Reopened worksheets

A worksheet that is archived and restored reads its formulas and computes its bounds again, in the
variables of the present. A worksheet whose formulas load declared variables only gets the same
formulas back, but for the constants in them that have become variables since, and the same
range, but for the bounds whose texts have another value now.

## Main definitions

* `Formula.Unshadowed` — no constant that a formula uses is declared.
* `Worksheet.RangeKept` — every bound still is the value of its text.

## Main results

* `Worksheet.restore_archive` — what restoring the archive of a reachable worksheet gives.
-/

namespace Grapher

/-- No constant that a formula uses is declared. -/
def Formula.Unshadowed (formula : Formula) (env : Environment) : Prop :=
  ∀ name ∈ formula.constants, name ∉ env.names

namespace Worksheet

/-- Every bound still is the value of its text. -/
def RangeKept (w : Worksheet) : Prop :=
  ∀ role, w.evaluate (w.range.get role).source = .ok (w.range.get role).value

variable {w restored : Worksheet}

/-- The formula that a sound worksheet gets back. -/
theorem Sound.ofSource_formula (h : w.Sound)
    (hload : ∀ c, ∀ name ∈ (w.formula c).names, name ∈ w.env.names) (c : Coordinate) :
    Formula.ofSource w.env.names (w.formula c).source =
      .ok ⟨(w.formula c).source,
        (w.formula c).program.map (Operation.redeclare w.env.names)⟩ := by
  obtain ⟨declared, hdeclared⟩ := h.formulas c
  exact Formula.ofSource_redeclare hdeclared (hload c)

/-- The text of a formula that loads declared variables only is read as the same formula exactly if
no constant that it uses is declared. -/
theorem Sound.ofSource_formula_at_iff (h : w.Sound) {c : Coordinate}
    (hload : ∀ name ∈ (w.formula c).names, name ∈ w.env.names) :
    Formula.ofSource w.env.names (w.formula c).source = .ok (w.formula c) ↔
      (w.formula c).Unshadowed w.env := by
  obtain ⟨declared, hdeclared⟩ := h.formulas c
  rw [Formula.ofSource_redeclare hdeclared hload, Except.ok.injEq]
  refine Iff.trans ⟨fun heq => ?_, fun heq => ?_⟩ (Formula.redeclare_eq_iff hdeclared hload)
  · exact congrArg Formula.program heq
  · rw [heq]

/-- It is the same formula exactly if no constant that it uses is declared. -/
theorem Sound.ofSource_formula_eq_iff (h : w.Sound)
    (hload : ∀ c, ∀ name ∈ (w.formula c).names, name ∈ w.env.names) (c : Coordinate) :
    Formula.ofSource w.env.names (w.formula c).source = .ok (w.formula c) ↔
      (w.formula c).Unshadowed w.env :=
  h.ofSource_formula_at_iff (hload c)

/-- The bound of the text of a bound is the same exactly if it still is the value of the text. -/
theorem Sound.boundOf_source_iff (h : w.Sound) (role : Bound.Role) :
    w.boundOf role (w.range.get role).source = .ok (w.range.get role) ↔
      w.evaluate (w.range.get role).source = .ok (w.range.get role).value := by
  obtain ⟨-, hfinite, hpositive⟩ := h.bound role
  rw [boundOf_eq_ok_iff]
  exact ⟨fun hbound => hbound.1, fun hvalue => ⟨hvalue, rfl, hfinite, hpositive⟩⟩

/-- What a sound worksheet is restored to: the formulas of its texts and the bounds of its
texts. -/
theorem Sound.restore_archive_iff (h : w.Sound) :
    w.archive.restore = .ok restored ↔
      (∀ c, Formula.ofSource w.env.names (w.formula c).source = .ok (restored.formula c)) ∧
        (∀ role, w.boundOf role (w.range.get role).source = .ok (restored.range.get role)) ∧
        restored = { w with formulas := restored.formulas, range := restored.range } := by
  have hformula : ∀ c, w.archive.expressions.get c = (w.formula c).source := fun c =>
    PerCoordinate.get_map _ _ c
  have hbound : ∀ role, Text.trimmed (w.archive.boundText role) = (w.range.get role).source := by
    intro role
    have htext : w.archive.boundText role = (w.range.get role).source := by cases role <;> rfl
    rw [htext, (h.bound role).1]
  rw [Archive.restore_eq_ok_iff]
  simp only [hformula, hbound]
  exact Iff.rfl

/-- Whatever bounds the texts of the bounds can be, a sound worksheet is restored with them. -/
theorem Sound.exists_restored (h : w.Sound)
    (hload : ∀ c, ∀ name ∈ (w.formula c).names, name ∈ w.env.names)
    {bound : Bound.Role → Bound}
    (hbound : ∀ role, w.boundOf role (w.range.get role).source = .ok (bound role)) :
    ∃ restored, w.archive.restore = .ok restored ∧
      ∀ role, restored.range.get role = bound role := by
  set read := w.formulas.map fun formula =>
    (⟨formula.source, formula.program.map (Operation.redeclare w.env.names)⟩ : Formula)
  have hget : ∀ c, read.get c = ⟨(w.formula c).source,
      (w.formula c).program.map (Operation.redeclare w.env.names)⟩ := fun c =>
    PerCoordinate.get_map _ _ c
  have hrange : ∀ role, (⟨bound .start, bound .finish, bound .step⟩ : Range).get role =
      bound role := by
    rintro (_ | _ | _) <;> rfl
  refine ⟨{ w with
      formulas := read
      range := ⟨bound .start, bound .finish, bound .step⟩ },
    h.restore_archive_iff.2 ⟨fun c => ?_, fun role => ?_, rfl⟩, hrange⟩
  · exact (h.ofSource_formula hload c).trans (congrArg Except.ok (hget c).symm)
  · rw [hrange]
    exact hbound role

/-- Nothing is missing where the formulas load declared variables only. -/
theorem missing?_of_names (hload : ∀ c, ∀ name ∈ (w.formula c).names, name ∈ w.env.names)
    (mode : Mode) : (w.curve mode).missing? w.env = none := by
  have hformula : ∀ c, (w.formula c).firstUndeclared? w.env = none := by
    intro c
    refine List.find?_eq_none.2 fun name hname => ?_
    simpa using Environment.mem_names_iff.1 (hload c name hname)
  cases mode <;> simp [curve, Curve.missing?, Curve.formulas, hformula]

/-- A sweep starts where the formulas load declared variables only. -/
theorem startSweep_of_names (hload : ∀ c, ∀ name ∈ (w.formula c).names, name ∈ w.env.names)
    (mode : Mode) : w.startSweep mode = .ok ({ w with mode := mode }, w.sweep mode) := by
  rw [startSweep, missing?_of_names hload mode]

/-- The formulas of a curve are those of its coordinates. -/
theorem formula_of_mem_curve {mode : Mode} {entry : Coordinate × Formula}
    (h : entry ∈ (w.curve mode).formulas) : entry.2 = w.formula entry.1 := by
  cases mode <;> simp only [curve, Curve.formulas, List.mem_cons, List.not_mem_nil, or_false] at h
  · rw [h]
  · rcases h with h | h <;> rw [h]
  · rw [h]
  · rw [h]

/-- Worksheets whose formulas agree on a curve plot the same curve. -/
theorem curve_eq {mode : Mode}
    (h : ∀ entry ∈ (w.curve mode).formulas, restored.formula entry.1 = w.formula entry.1) :
    restored.curve mode = w.curve mode := by
  cases mode with
  | explicit =>
    exact congrArg Curve.explicit (h (.y, w.formula .y) (by simp [curve, Curve.formulas]))
  | parametric =>
    exact congrArg₂ Curve.parametric (h (.x, w.formula .x) (by simp [curve, Curve.formulas]))
      (h (.y, w.formula .y) (by simp [curve, Curve.formulas]))
  | radial => exact congrArg Curve.radial (h (.r, w.formula .r) (by simp [curve, Curve.formulas]))
  | angular => exact congrArg Curve.angular (h (.t, w.formula .t) (by simp [curve, Curve.formulas]))

/-- A mode whose formulas are the same has the same sweep over the same range. -/
theorem startSweep_of_curve_eq {mode : Mode}
    (hload : ∀ c, ∀ name ∈ (w.formula c).names, name ∈ w.env.names)
    (heq : restored = { w with formulas := restored.formulas, range := restored.range })
    (hrange : restored.range = w.range) (hcurve : restored.curve mode = w.curve mode) :
    restored.startSweep mode = .ok ({ restored with mode := mode }, w.sweep mode) := by
  obtain ⟨formulas, range, rfl⟩ : ∃ formulas range,
      restored = { w with formulas := formulas, range := range } := ⟨_, _, heq⟩
  obtain rfl : range = w.range := hrange
  have hsweep : sweep { w with formulas := formulas } mode = w.sweep mode := by
    unfold sweep
    rw [hcurve]
    rfl
  rw [startSweep, hcurve, missing?_of_names hload mode, hsweep]

/-- **What restoring the archive of a reachable worksheet gives**, if its formulas load declared
variables only. It gives a worksheet exactly if the text of every bound still can be that bound, a
worksheet with the same range exactly if every bound still is the value of its text, and the same
worksheet exactly if, moreover, no constant that a formula uses is declared. Whatever it gives, all
but the formulas and the range is the same, their texts are the same, and the bounds have the
values of their texts. A formula is the same exactly if no constant that it uses is declared, and a
mode whose formulas are the same has the same sweep over the same range.

**Proof sketch.** Every formula was read from its text under some declarations
(`Worksheet.Reachable.sound`), so reading it again changes it only at the names of constants
(`Formula.ofSource_redeclare`), and every bound is a number that the range can have, so it is
computed again exactly if its text has its value. -/
theorem restore_archive (w : Worksheet) (h : Reachable w)
    (hload : ∀ c, ∀ name ∈ (w.formula c).names, name ∈ w.env.names) :
    ((∃ restored, w.archive.restore = .ok restored) ↔
        ∀ role, ∃ bound, w.boundOf role (w.range.get role).source = .ok bound) ∧
      ((∃ restored, w.archive.restore = .ok restored ∧ restored.range = w.range) ↔
        w.RangeKept) ∧
      (w.archive.restore = .ok w ↔ (∀ c, (w.formula c).Unshadowed w.env) ∧ w.RangeKept) ∧
      ∀ restored, w.archive.restore = .ok restored →
        restored = { w with formulas := restored.formulas, range := restored.range } ∧
        (∀ role, (restored.range.get role).source = (w.range.get role).source ∧
          w.evaluate (w.range.get role).source = .ok (restored.range.get role).value) ∧
        (∀ c, (restored.formula c).source = (w.formula c).source ∧
          (restored.formula c = w.formula c ↔ (w.formula c).Unshadowed w.env)) ∧
        (restored.range = w.range → ∀ mode,
          (∀ entry ∈ (w.curve mode).formulas, entry.2.Unshadowed w.env) →
            w.startSweep mode = .ok ({ w with mode := mode }, w.sweep mode) ∧
              restored.startSweep mode =
                .ok ({ restored with mode := mode }, w.sweep mode)) := by
  have hsound := h.sound
  have hformula := hsound.ofSource_formula_eq_iff hload
  refine ⟨⟨?_, fun hbounds => ?_⟩, ⟨?_, fun hkept => ?_⟩, ?_, ?_⟩
  · rintro ⟨restored, hrestore⟩ role
    exact ⟨_, (hsound.restore_archive_iff.1 hrestore).2.1 role⟩
  · choose bound hbound using hbounds
    obtain ⟨restored, hrestored, -⟩ := hsound.exists_restored hload hbound
    exact ⟨restored, hrestored⟩
  · rintro ⟨restored, hrestore, hrange⟩ role
    have hbound := (hsound.restore_archive_iff.1 hrestore).2.1 role
    rw [hrange] at hbound
    exact (hsound.boundOf_source_iff role).1 hbound
  · obtain ⟨restored, hrestored, hrange⟩ :=
      hsound.exists_restored hload fun role => (hsound.boundOf_source_iff role).2 (hkept role)
    exact ⟨restored, hrestored, Range.eq_of_get hrange⟩
  · rw [hsound.restore_archive_iff, forall_congr' hformula,
      forall_congr' hsound.boundOf_source_iff]
    exact and_congr_right fun _ => and_iff_left rfl
  · intro restored hrestore
    obtain ⟨hformulas, hbounds, heq⟩ := hsound.restore_archive_iff.1 hrestore
    have hsame : ∀ c, restored.formula c = w.formula c ↔ (w.formula c).Unshadowed w.env := by
      intro c
      rw [← hformula c, hformulas c, Except.ok.injEq]
    refine ⟨heq, fun role => ?_, fun c => ⟨?_, hsame c⟩, fun hrange mode hunshadowed => ?_⟩
    · obtain ⟨hvalue, hsource, -⟩ := boundOf_eq_ok_iff.1 (hbounds role)
      exact ⟨hsource, hvalue⟩
    · exact (Formula.ofSource_eq_ok_iff.1 (hformulas c)).1
    · have hcurve : restored.curve mode = w.curve mode :=
        curve_eq fun entry hentry => (hsame entry.1).2 (by
          rw [← formula_of_mem_curve hentry]
          exact hunshadowed entry hentry)
      exact ⟨startSweep_of_names hload mode, startSweep_of_curve_eq hload heq hrange hcurve⟩

/-- The worksheet after a row of edits, from the one to start with. -/
def afterEdits (edits : List Edit) : Except Refusal Worksheet :=
  edits.foldlM (fun w edit => Edit.apply w edit) initial

/-- The edits lead to a reachable worksheet. -/
theorem reachable_of_afterEdits {edits : List Edit} (h : afterEdits edits = .ok w) :
    Reachable w :=
  Reachable.initial.foldlM h

/-- A worksheet with a formula that uses both a variable and a constant, and with a bound that
uses a variable, is reachable and is restored as it is. -/
theorem restore_archive_kept :
    ∃ w, Reachable w ∧ (∀ c, ∀ name ∈ (w.formula c).names, name ∈ w.env.names) ∧
      (w.formula .y).source = "k x + e" ∧ (w.range.get .finish).source = "2k" ∧
      w.archive.restore = .ok w := by
  obtain ⟨w, hafter, hload, hunshadowed, hkept, htexts⟩ :
      ∃ w ∈ (afterEdits [.declare "k" 2, .express .y "k x + e", .bound .finish "2k",
          .declare "a" 7]).toOption,
        (∀ c ∈ Coordinate.all, ∀ name ∈ (w.formula c).names, name ∈ w.env.names) ∧
        (∀ c ∈ Coordinate.all, ∀ name ∈ (w.formula c).constants, name ∉ w.env.names) ∧
        (∀ role ∈ Bound.Role.all,
          (w.evaluate (w.range.get role).source).toOption = some (w.range.get role).value) ∧
        (w.formula .y).source = "k x + e" ∧ (w.range.get .finish).source = "2k" := by
    decide +kernel
  have hreachable : Reachable w := reachable_of_afterEdits (eq_ok_of_toOption hafter)
  have hload : ∀ c, ∀ name ∈ (w.formula c).names, name ∈ w.env.names := fun c =>
    hload c (Coordinate.mem_all c)
  have hkept : w.RangeKept := fun role =>
    eq_ok_of_toOption (hkept role (by cases role <;> decide))
  exact ⟨w, hreachable, hload, htexts.1, htexts.2, (restore_archive w hreachable hload).2.2.1.2
    ⟨fun c => hunshadowed c (Coordinate.mem_all c), hkept⟩⟩

/-- **Restoring can change a worksheet whose formulas and bounds use declared variables only**: a
variable in a bound has another value since, or a constant in a formula has become a variable. It
can also be refused: a variable in the step has become zero. -/
theorem restore_archive_changes :
    (∃ w restored, Reachable w ∧ w.archive.restore = .ok restored ∧
      (∀ c ∈ Coordinate.all, ∀ name ∈ (w.formula c).names, name ∈ w.env.names) ∧
      (∀ role ∈ Bound.Role.all, w.acceptsFormula (w.range.get role).source) ∧
      restored.range.finish.value ≠ w.range.finish.value) ∧
    (∃ w restored, Reachable w ∧ w.archive.restore = .ok restored ∧
      (∀ c ∈ Coordinate.all, ∀ name ∈ (w.formula c).names, name ∈ w.env.names) ∧
      (∀ role ∈ Bound.Role.all, w.acceptsFormula (w.range.get role).source) ∧
      (restored.sweep .explicit).point 0 ≠ (w.sweep .explicit).point 0) ∧
    ∃ w, Reachable w ∧
      (∀ c ∈ Coordinate.all, ∀ name ∈ (w.formula c).names, name ∈ w.env.names) ∧
      (∀ role ∈ Bound.Role.all, w.acceptsFormula (w.range.get role).source) ∧
      w.archive.restore.isOk = false := by
  refine ⟨?_, ?_, ?_⟩
  · obtain ⟨w, hafter, hload, haccepts, restored, hrestored, hchanged⟩ :
        ∃ w ∈ (afterEdits [.declare "a" 2, .bound .finish "a", .declare "a" 5]).toOption,
          (∀ c ∈ Coordinate.all, ∀ name ∈ (w.formula c).names, name ∈ w.env.names) ∧
          (∀ role ∈ Bound.Role.all, w.acceptsFormula (w.range.get role).source) ∧
          ∃ restored ∈ w.archive.restore.toOption,
            restored.range.finish.value ≠ w.range.finish.value := by
      decide +kernel
    exact ⟨w, restored, reachable_of_afterEdits (eq_ok_of_toOption hafter),
      eq_ok_of_toOption hrestored, hload, haccepts, hchanged⟩
  · obtain ⟨w, hafter, hload, haccepts, restored, hrestored, hchanged⟩ :
        ∃ w ∈ (afterEdits [.express .y "e", .declare "e" 5]).toOption,
          (∀ c ∈ Coordinate.all, ∀ name ∈ (w.formula c).names, name ∈ w.env.names) ∧
          (∀ role ∈ Bound.Role.all, w.acceptsFormula (w.range.get role).source) ∧
          ∃ restored ∈ w.archive.restore.toOption,
            (restored.sweep .explicit).point 0 ≠ (w.sweep .explicit).point 0 := by
      decide +kernel
    exact ⟨w, restored, reachable_of_afterEdits (eq_ok_of_toOption hafter),
      eq_ok_of_toOption hrestored, hload, haccepts, hchanged⟩
  · obtain ⟨w, hafter, hw⟩ :
        ∃ w ∈ (afterEdits [.declare "a" 2, .bound .step "a", .declare "a" 0]).toOption,
          (∀ c ∈ Coordinate.all, ∀ name ∈ (w.formula c).names, name ∈ w.env.names) ∧
          (∀ role ∈ Bound.Role.all, w.acceptsFormula (w.range.get role).source) ∧
          w.archive.restore.isOk = false := by
      decide +kernel
    exact ⟨w, reachable_of_afterEdits (eq_ok_of_toOption hafter), hw⟩

end Worksheet

end Grapher
