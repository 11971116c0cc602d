import Grapher.Proofs.Tree
import Grapher.Worksheet.Edit

set_option relaxedAutoImplicit false
set_option autoImplicit false

/-!
# What restoring an archive gives

Restoring an archive reads its formulas and computes its bounds one after the other. No step looks
at what the steps before it gave, only at the archived variables, so all of them can be described
at once.

## Main results

* `Worksheet.boundOf_eq_ok_iff` — what makes a text a bound.
* `Archive.restore_eq_ok_iff` — what makes a worksheet the one of an archive.
-/

namespace Grapher

/-! ## Changes -/

namespace Worksheet

variable {w later : Worksheet} {source : String}

/-- A text becomes a bound when it has a finite value, which is positive for a step. -/
theorem boundOf_eq_ok_iff {role : Bound.Role} {bound : Bound} :
    w.boundOf role source = .ok bound ↔
      w.evaluate source = .ok bound.value ∧ bound.source = source ∧ bound.value.isFinite ∧
        ¬ (role = .step ∧ bound.value ≤ 0) := by
  obtain ⟨number, text⟩ := bound
  unfold boundOf
  cases w.evaluate source with
  | error refusal => simp
  | ok value =>
    simp only [Except.ok.injEq]
    constructor
    · intro h
      split at h
      · cases h
      · next hfinite =>
        split at h
        · cases h
        · next hpositive =>
          cases h
          exact ⟨rfl, rfl, by simpa using hfinite, hpositive⟩
    · rintro ⟨rfl, rfl, hfinite, hpositive⟩
      rw [if_neg (by simp [hfinite]), if_neg hpositive]

/-- The formula of a coordinate is replaced by the formula of a text. -/
theorem express_eq_ok_iff {c : Coordinate} :
    w.express c source = .ok later ↔
      ∃ formula, Formula.ofSource w.declared source = .ok formula ∧
        later = { w with formulas := w.formulas.set c formula } := by
  unfold express
  cases Formula.ofSource w.declared source <;> simp [eq_comm]

/-- A bound is replaced by the bound of a text. -/
theorem setBound_eq_ok_iff {role : Bound.Role} :
    w.setBound role source = .ok later ↔
      ∃ bound, w.boundOf role (Text.trimmed source) = .ok bound ∧
        later = { w with range := w.range.set role bound } := by
  unfold setBound
  cases w.boundOf role (Text.trimmed source) <;> simp [eq_comm]

end Worksheet

/-! ## Archives -/

namespace Archive

variable {archive : Archive} {w later : Worksheet}

/-- Reading all formulas. -/
theorem foldlM_readFormula_eq_ok_iff :
    Coordinate.all.foldlM archive.readFormula w = .ok later ↔
      ∃ formulas : PerCoordinate Formula,
        (∀ c, Formula.ofSource w.declared (archive.expressions.get c) = .ok (formulas.get c)) ∧
          later = { w with formulas := formulas } := by
  have hread : ∀ {w later : Worksheet} {c : Coordinate},
      archive.readFormula w c = .ok later ↔
        ∃ formula, Formula.ofSource w.declared (archive.expressions.get c) = .ok formula ∧
          later = { w with formulas := w.formulas.set c formula } := by
    intro w later c
    rw [← Worksheet.express_eq_ok_iff, readFormula]
    cases w.express c (archive.expressions.get c) <;> simp
  simp only [Coordinate.all, foldlM_cons_eq_ok_iff, hread, List.foldlM_nil]
  constructor
  · rintro ⟨_, ⟨x, hx, rfl⟩, _, ⟨y, hy, rfl⟩, _, ⟨r, hr, rfl⟩, _, ⟨t, ht, rfl⟩, h⟩
    refine ⟨⟨x, y, r, t⟩, ?_, ?_⟩
    · rintro (_ | _ | _ | _)
      exacts [hx, hy, hr, ht]
    · cases h
      rfl
  · rintro ⟨formulas, h, rfl⟩
    exact ⟨_, ⟨_, h .x, rfl⟩, _, ⟨_, h .y, rfl⟩, _, ⟨_, h .r, rfl⟩, _, ⟨_, h .t, rfl⟩, rfl⟩

/-- Computing all bounds. -/
theorem foldlM_readBound_eq_ok_iff :
    Bound.Role.all.foldlM archive.readBound w = .ok later ↔
      ∃ range : Range,
        (∀ role, w.boundOf role (Text.trimmed (archive.boundText role)) = .ok (range.get role)) ∧
          later = { w with range := range } := by
  simp only [Bound.Role.all, foldlM_cons_eq_ok_iff, readBound, Worksheet.setBound_eq_ok_iff,
    List.foldlM_nil]
  constructor
  · rintro ⟨_, ⟨start, hstart, rfl⟩, _, ⟨finish, hfinish, rfl⟩, _, ⟨step, hstep, rfl⟩, h⟩
    refine ⟨⟨start, finish, step⟩, ?_, ?_⟩
    · rintro (_ | _ | _)
      exacts [hstart, hfinish, hstep]
    · cases h
      rfl
  · rintro ⟨range, h, rfl⟩
    exact ⟨_, ⟨_, h .start, rfl⟩, _, ⟨_, h .finish, rfl⟩, _, ⟨_, h .step, rfl⟩, rfl⟩

/-- **What makes a worksheet the one of an archive**: its formulas are those of the archived texts
and its bounds are computed from them, in the archived variables, and all else is archived as it
is. -/
theorem restore_eq_ok_iff {restored : Worksheet} :
    archive.restore = .ok restored ↔
      (∀ c, Formula.ofSource archive.env.names (archive.expressions.get c) =
          .ok (restored.formula c)) ∧
        (∀ role, archive.blank.boundOf role (Text.trimmed (archive.boundText role)) =
          .ok (restored.range.get role)) ∧
        restored =
          { archive.blank with formulas := restored.formulas, range := restored.range } := by
  unfold restore
  rw [bind_eq_ok_iff]
  simp only [foldlM_readFormula_eq_ok_iff, foldlM_readBound_eq_ok_iff]
  constructor
  · rintro ⟨_, ⟨formulas, hformulas, rfl⟩, range, hrange, rfl⟩
    exact ⟨hformulas, hrange, rfl⟩
  · rintro ⟨hformulas, hrange, heq⟩
    exact ⟨_, ⟨restored.formulas, hformulas, rfl⟩, restored.range, hrange, heq⟩

end Archive

end Grapher
