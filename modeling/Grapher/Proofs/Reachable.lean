import Grapher.Proofs.Contents
import Grapher.Proofs.Restore
import Mathlib.Data.List.DropRight

set_option relaxedAutoImplicit false
set_option autoImplicit false

/-!
# Reachable worksheets

Every worksheet that edits lead to is sound: each of its formulas was read from its own text, under
some declarations, and each of its bounds was computed from its own text, in some environment. What
was declared at the time may have changed since.

## Main definitions

* `Worksheet.Reachable` — the worksheets that edits lead to.
* `Worksheet.Sound` — where the formulas and the bounds of a worksheet come from.

## Main results

* `Worksheet.Sound.apply` — an edit keeps a worksheet sound.
* `Worksheet.Reachable.sound` — every reachable worksheet is sound.
-/

namespace Grapher

/-! ## Blanks -/

namespace Text

theorem trim_eq (text : List Char) : trim text = (text.dropWhile isBlank).rdropWhile isBlank := rfl

/-- A trimmed text does not start with a blank. -/
theorem not_isBlank_of_head? {text : List Char} {c : Char} (h : c ∈ (trim text).head?) :
    ¬ isBlank c := by
  obtain ⟨rest, hrest⟩ := List.head?_eq_some_iff.1 h
  obtain ⟨back, hback⟩ : trim text <+: text.dropWhile isBlank := List.rdropWhile_prefix _ _
  rw [hrest, List.cons_append] at hback
  have hne : text.dropWhile isBlank ≠ [] := by simp [← hback]
  have hhead := List.head_dropWhile_not isBlank hne
  simpa [← hback] using hhead

/-- A trimmed text does not end with a blank. -/
theorem not_isBlank_of_getLast? {text : List Char} {c : Char} (h : c ∈ (trim text).getLast?) :
    ¬ isBlank c := by
  have hne : trim text ≠ [] := by
    intro hnil
    simp [hnil] at h
  have hlast := List.rdropWhile_last_not isBlank (text.dropWhile isBlank) hne
  rw [List.getLast?_eq_some_getLast hne, Option.mem_some_iff] at h
  exact h ▸ hlast

/-- No blanks are left around a text. -/
theorem trim_trim (text : List Char) : trim (trim text) = trim text := by
  have hstart : (trim text).dropWhile isBlank = trim text := by
    cases htrim : trim text with
    | nil => rfl
    | cons c rest =>
      have hhead : c ∈ (trim text).head? := by simp [htrim]
      exact List.dropWhile_cons_of_neg (not_isBlank_of_head? hhead)
  rw [trim_eq (trim text), hstart, trim_eq text, List.rdropWhile_idempotent]

/-- No blanks are left around a string. -/
theorem trimmed_trimmed (text : String) : trimmed (trimmed text) = trimmed text := by
  rw [trimmed, trimmed, String.toList_ofList, trim_trim]

end Text

namespace Worksheet

/-! ## Soundness -/

/-- Where the formulas and the bounds of a worksheet come from. -/
structure Sound (w : Worksheet) : Prop where
  /-- Every formula was read from its text. -/
  formulas : ∀ c, ∃ declared, Formula.ofSource declared (w.formula c).source = .ok (w.formula c)
  /-- Every bound was computed from its text. -/
  bounds : ∀ role, ∃ (other : Worksheet) (text : String),
    other.boundOf role (Text.trimmed text) = .ok (w.range.get role)

namespace Sound

variable {w later : Worksheet}

/-- A bound has no blanks around its text, and it is a number that the range can have. -/
theorem bound (h : w.Sound) (role : Bound.Role) :
    Text.trimmed (w.range.get role).source = (w.range.get role).source ∧
      (w.range.get role).value.isFinite ∧ ¬ (role = .step ∧ (w.range.get role).value ≤ 0) := by
  obtain ⟨other, text, hbound⟩ := h.bounds role
  obtain ⟨-, hsource, hfinite, hpositive⟩ := boundOf_eq_ok_iff.1 hbound
  refine ⟨?_, hfinite, hpositive⟩
  rw [hsource, Text.trimmed_trimmed]

/-- All but the formulas and the range can be changed. -/
theorem of_eq (h : w.Sound) (hformulas : later.formulas = w.formulas)
    (hrange : later.range = w.range) : later.Sound := by
  refine ⟨fun c => ?_, fun role => ?_⟩
  · rw [formula, hformulas]
    exact h.formulas c
  · rw [hrange]
    exact h.bounds role

/-- A new formula. -/
theorem express (h : w.Sound) {c : Coordinate} {source : String}
    (hlater : w.express c source = .ok later) : later.Sound := by
  obtain ⟨formula, hformula, rfl⟩ := express_eq_ok_iff.1 hlater
  refine ⟨fun d => ?_, h.bounds⟩
  rw [formula_set]
  split
  · refine ⟨w.declared, ?_⟩
    rw [(Formula.ofSource_eq_ok_iff.1 hformula).1, hformula]
  · exact h.formulas d

/-- A new bound. -/
theorem setBound (h : w.Sound) {role : Bound.Role} {source : String}
    (hlater : w.setBound role source = .ok later) : later.Sound := by
  obtain ⟨bound, hbound, rfl⟩ := setBound_eq_ok_iff.1 hlater
  refine ⟨h.formulas, fun other => ?_⟩
  rw [range_set]
  split
  · next heq => exact ⟨w, source, heq ▸ hbound⟩
  · exact h.bounds other

/-- The worksheet of an archive. -/
theorem restore {archive : Archive} (h : archive.restore = .ok later) : later.Sound := by
  obtain ⟨hformulas, hbounds, -⟩ := Archive.restore_eq_ok_iff.1 h
  refine ⟨fun c => ⟨archive.env.names, ?_⟩, fun role => ⟨archive.blank, _, hbounds role⟩⟩
  rw [(Formula.ofSource_eq_ok_iff.1 (hformulas c)).1, hformulas c]

/-- **An edit keeps a worksheet sound.** -/
theorem apply (h : w.Sound) {edit : Edit} (hedit : edit.apply w = .ok later) : later.Sound := by
  cases edit with
  | express c source => exact h.express hedit
  | bound role source => exact h.setBound hedit
  | declare name value | undeclare name | rename name | parameter name | radius name | angle name
  | precision places =>
    cases hedit
    exact h.of_eq rfl rfl
  | mode text =>
    simp only [Edit.apply] at hedit
    split at hedit <;> cases hedit
    exact h.of_eq rfl rfl
  | restore archive => exact restore hedit
  | reopen => exact restore hedit
  | plot chosen =>
    simp only [Edit.apply, startSweep] at hedit
    split at hedit
    · next started sweep hstarted =>
      split at hstarted <;> cases hstarted
      cases hedit
      exact h.of_eq rfl rfl
    · cases hedit

end Sound

/-- The formula that is the number one is read from its text. -/
theorem ofSource_ofFloat_one :
    Formula.ofSource [] (Formula.ofFloat 1).source = .ok (.ofFloat 1) := by
  have hsource : Numeral.shortest 1 = "1" := by decide +kernel
  have htokens : (Token.scan "1").tokens = [⟨.number, .all "1"⟩] := by decide +kernel
  have hprogram : Reading.program [] "1" = .ok [⟨.push 1, .all "1"⟩] := by
    refine Reading.program_eq_ok_iff.2
      ⟨by decide +kernel, ⟨[⟨.push 1, .all "1"⟩], [], [], .number⟩, ?_, rfl⟩
    rw [htokens]
    rfl
  simp only [Formula.ofFloat, hsource]
  exact Formula.ofSource_eq_ok_iff.2 ⟨rfl, hprogram, rfl⟩

/-- The worksheet to start with is sound. -/
theorem initial_sound : initial.Sound := by
  have hevaluate : ∀ role ∈ Bound.Role.all,
      (initial.evaluate (Text.trimmed (Range.initial.get role).source)).toOption =
          some (Range.initial.get role).value ∧
        (Range.initial.get role).source = Text.trimmed (Range.initial.get role).source ∧
        (Range.initial.get role).value.isFinite ∧
        ¬ (role = .step ∧ (Range.initial.get role).value ≤ 0) := by
    decide +kernel
  refine ⟨fun c => ⟨[], ?_⟩, fun role => ⟨initial, (Range.initial.get role).source, ?_⟩⟩
  · have hformula : initial.formula c = .ofFloat 1 := PerCoordinate.get_all _ c
    rw [hformula]
    exact ofSource_ofFloat_one
  · have hrole : role ∈ Bound.Role.all := by cases role <;> decide
    obtain ⟨hvalue, hbound⟩ := hevaluate role hrole
    exact boundOf_eq_ok_iff.2 ⟨eq_ok_of_toOption hvalue, hbound⟩

/-! ## Reachable worksheets -/

/-- The worksheets that edits lead to, from the one to start with. A refused edit leads nowhere. -/
inductive Reachable : Worksheet → Prop
  | initial : Reachable .initial
  | edit {w later : Worksheet} {edit : Edit} (hw : Reachable w)
      (hedit : edit.apply w = .ok later) : Reachable later

/-- **Every reachable worksheet is sound.** -/
theorem Reachable.sound {w : Worksheet} (h : Reachable w) : w.Sound := by
  induction h with
  | initial => exact initial_sound
  | edit _ hedit ih => exact ih.apply hedit

/-- A row of edits leads from a reachable worksheet to another one. -/
theorem Reachable.foldlM {edits : List Edit} :
    ∀ {w later : Worksheet}, Reachable w →
      edits.foldlM (fun w edit => Edit.apply w edit) w = .ok later → Reachable later := by
  induction edits with
  | nil =>
    intro w later hw h
    obtain rfl := foldlM_nil_eq_ok_iff.1 h
    exact hw
  | cons edit rest ih =>
    intro w later hw h
    obtain ⟨middle, hedit, hrest⟩ := foldlM_cons_eq_ok_iff.1 h
    exact ih (hw.edit hedit) hrest

end Worksheet

end Grapher
