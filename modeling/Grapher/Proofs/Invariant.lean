import Grapher.Proofs.Places
import Grapher.Proofs.Reachable

set_option relaxedAutoImplicit false
set_option autoImplicit false

/-!
# What edits keep

Whatever edits are made, and however many of them are refused, the range of a worksheet has finite
bounds and a positive step, each written down as a formula without blanks around it, and its
formulas are sound: their programs pass the check and stand in their texts, and they load nothing
but names that are free for variables. The names of the declared variables do not matter for this;
any text can be one of them.

## Main definitions

* `Worksheet.attempt`, `Worksheet.after` — the worksheet after an edit that may be refused, and
  after a row of them.
* `Formula.Valid`, `Bound.Valid` — what is true of the formulas and the bounds of a worksheet.

## Main results

* `Worksheet.reachable_after` — edits, refused ones among them, lead to reachable worksheets.
* `Worksheet.Sound.formula_valid`, `Worksheet.Sound.bound_valid` — what a worksheet owes to where
  its formulas and bounds come from.
* `Worksheet.valid_after` — what edits keep.
-/

namespace Grapher

/-! ## Positive numbers -/

namespace Arithmetic

open Float.Model (UnpackedFloat)

theorem unpack_zero : (0 : Float).toModel.unpack = .zero .positive := rfl

/-- A finite number that is neither below zero nor zero is above it. What is no number would be
neither. -/
theorem pos_of_not_le {x : Float} (hfinite : x.isFinite) (h : ¬ x ≤ 0) : 0 < x := by
  have hle : ¬ x.toModel.unpack.le (.zero .positive) := by
    rw [← unpack_zero]
    exact fun hle => h (decide_eq_true (p := x.toModel ≤ (0 : Float).toModel) hle)
  have hlt : UnpackedFloat.lt (.zero .positive) x.toModel.unpack := by
    have hfinite : x.toModel.unpack.isFinite := hfinite
    revert hle hfinite
    cases x.toModel.unpack with
    | infinity | notANumber => exact fun _ h => Bool.noConfusion h
    | zero => exact fun h => absurd rfl h
    | finite sign =>
      cases sign with
      | negative => exact fun h => absurd rfl h
      | positive => exact fun _ _ => rfl
  rw [← unpack_zero] at hlt
  exact decide_eq_true (p := (0 : Float).toModel < x.toModel) hlt

end Arithmetic

/-! ## Formulas -/

namespace Formula

/-- What is true of the formulas of a worksheet. -/
structure Valid (formula : Formula) : Prop where
  /-- The program passes the check. -/
  check : formula.program.check = .ok ()
  /-- Every operation stands in the text. -/
  place : ∀ operation ∈ formula.program,
    Text.slice? formula.source operation.place.start operation.place.size =
      some operation.place.text
  /-- Every loaded variable is named where it is loaded, and its name is free for variables. -/
  load : ∀ operation ∈ formula.program, ∀ name, operation.action = .load name →
    operation.place.text = name ∧ isName name ∧ ∀ f ∈ Builtin.functions, f.name ≠ name

/-- **A formula that is read from its text is valid.** -/
theorem valid_of_ofSource {declared : List String} {formula : Formula}
    (h : ofSource declared formula.source = .ok formula) : formula.Valid := by
  have hread := readFrom_of_ofSource h
  refine ⟨(ofSource_eq_ok_iff.1 h).2.2, fun operation hoperation => ?_,
    fun operation hoperation name hload => ?_⟩
  · exact Excerpt.slice?_eq_some_iff.2 (hread operation hoperation).place
  · obtain ⟨htext, hname, hfree⟩ := (hread operation hoperation).load name hload
    refine ⟨htext, hname, ?_⟩
    rintro f hf rfl
    exact hfree f (Builtin.find?_name hf)

/-- An empty text is no formula. -/
theorem ofSource_empty_ne_ok (declared : List String) (formula : Formula) :
    ofSource declared "" ≠ .ok formula := by
  have hprogram : Reading.program declared "" = .ok [] := by
    rw [Reading.program, Token.scan_empty]
    rfl
  intro h
  obtain ⟨-, hread, hcheck⟩ := ofSource_eq_ok_iff.1 h
  rw [hprogram] at hread
  obtain heq : [] = formula.program := Except.ok.inj hread
  rw [← heq] at hcheck
  cases hcheck

end Formula

/-! ## Bounds -/

/-- What is true of the bounds of a worksheet. -/
structure Bound.Valid (role : Bound.Role) (bound : Bound) : Prop where
  /-- The number is finite. -/
  finite : bound.value.isFinite
  /-- A step is positive. -/
  positive : role = .step → 0 < bound.value
  /-- The text is not empty. -/
  nonempty : bound.source ≠ ""
  /-- There are no blanks around the text. -/
  trimmed : Text.trimmed bound.source = bound.source
  /-- The text is a formula under some declarations. -/
  compiles : ∃ declared formula, Formula.ofSource declared bound.source = .ok formula

namespace Worksheet

variable {w : Worksheet}

/-- A text with a value is a formula. -/
theorem exists_formula_of_evaluate {source : String} {value : Float}
    (h : w.evaluate source = .ok value) :
    ∃ formula, Formula.ofSource w.declared source = .ok formula := by
  unfold evaluate at h
  cases hformula : Formula.ofSource w.declared source with
  | error rejection => simp [hformula] at h
  | ok formula => exact ⟨formula, rfl⟩

/-- **The formulas of a sound worksheet are valid.** -/
theorem Sound.formula_valid (h : w.Sound) (c : Coordinate) : (w.formula c).Valid := by
  obtain ⟨declared, hformula⟩ := h.formulas c
  exact Formula.valid_of_ofSource hformula

/-- **The bounds of a sound worksheet are valid.** -/
theorem Sound.bound_valid (h : w.Sound) (role : Bound.Role) :
    (w.range.get role).Valid role := by
  obtain ⟨htrimmed, hfinite, hpositive⟩ := h.bound role
  obtain ⟨other, text, hbound⟩ := h.bounds role
  obtain ⟨hvalue, hsource, -⟩ := boundOf_eq_ok_iff.1 hbound
  obtain ⟨formula, hformula⟩ := exists_formula_of_evaluate hvalue
  rw [← hsource] at hformula
  refine ⟨hfinite, fun hrole => ?_, fun hempty => ?_, htrimmed, _, formula, hformula⟩
  · exact Arithmetic.pos_of_not_le hfinite fun hle => hpositive ⟨hrole, hle⟩
  · rw [hempty] at hformula
    exact Formula.ofSource_empty_ne_ok _ _ hformula

/-! ## Rows of edits -/

/-- The worksheet after an edit. A refused edit changes nothing. -/
def attempt (w : Worksheet) (edit : Edit) : Worksheet :=
  match edit.apply w with
  | .ok later => later
  | .error _ => w

/-- The worksheet after a row of edits, refused ones among them. -/
def after (w : Worksheet) (edits : List Edit) : Worksheet :=
  edits.foldl attempt w

/-- An edit, refused or not, leads from a reachable worksheet to a reachable one. -/
theorem Reachable.attempt (h : w.Reachable) (edit : Edit) : (w.attempt edit).Reachable := by
  unfold Worksheet.attempt
  split
  · next later hedit => exact h.edit hedit
  · exact h

/-- **Edits lead to reachable worksheets**, refused ones among them. -/
theorem Reachable.after (edits : List Edit) :
    ∀ {w : Worksheet}, w.Reachable → (w.after edits).Reachable := by
  induction edits with
  | nil => exact fun h => h
  | cons edit rest ih => exact fun h => ih (h.attempt edit)

/-- **What edits keep.** After any row of edits, refused ones among them, the bounds of the range
are finite numbers and the step is positive; each bound is written down as a formula that is not
empty and has no blanks around it; and the program of each coordinate passes the check, stands in
the text of the coordinate, and loads only variables that have a name, which no function has.

**Proof sketch.** Every reachable worksheet is sound (`Worksheet.Reachable.sound`): its formulas and
bounds were read from their texts under some declarations. The rest is what such a reading gives. -/
theorem valid_after (edits : List Edit) :
    (∀ role, ((initial.after edits).range.get role).Valid role) ∧
      ∀ c, ((initial.after edits).formula c).Valid :=
  have hsound := (Reachable.initial.after edits).sound
  ⟨hsound.bound_valid, hsound.formula_valid⟩

end Worksheet

end Grapher
