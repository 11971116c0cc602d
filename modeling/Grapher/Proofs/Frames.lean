import Grapher.Formula.EditDistance
import Grapher.Proofs.Environments
import Grapher.Proofs.InPlace

set_option relaxedAutoImplicit false
set_option autoImplicit false

/-!
# What edits and steps leave alone

A worksheet has parts that can be changed one by one, and nothing beside them. An edit is about one
of them, but for restoring, which is about all. What an edit does is told by what it achieves at its
part and by what it keeps: every other part. A step of a session makes at most one edit, and writes
the sweep of at most one key.

## Main definitions

* `Worksheet.Part`, `Worksheet.SameAt` — the parts, and worksheets that agree on one.
* `Edit.Addresses`, `Edit.Achieves`, `Edit.Makes` — what an edit is about, and what it does.
* `Session.Step.Makes` — what a step does.

## Main results

* `Worksheet.eq_of_sameAt` — worksheets that agree on all parts are the same.
* `Edit.apply_eq_ok_iff` — what an edit does.
* `Session.atomic_framed` — a refused step changes nothing, and a step that is made changes nothing
  but what it is about.
-/

namespace Grapher

/-! ## Parts of a worksheet -/

namespace Worksheet

/-- The parts of a worksheet. -/
inductive Part
  | name
  | value (name : String)
  | formula (c : Coordinate)
  | bound (role : Bound.Role)
  | parameter
  | radius
  | angle
  | precision
  | mode
deriving DecidableEq, Repr

/-- Two worksheets agree on a part. For a variable this is its value, and whether it is declared;
for a formula its text and its program; for a bound its number and its text. -/
def SameAt (w later : Worksheet) : Part → Prop
  | .name => later.name = w.name
  | .value name => later.env.get? name = w.env.get? name
  | .formula c => later.formula c = w.formula c
  | .bound role => later.range.get role = w.range.get role
  | .parameter => later.parameter = w.parameter
  | .radius => later.radius = w.radius
  | .angle => later.angle = w.angle
  | .precision => later.precision = w.precision
  | .mode => later.mode = w.mode

namespace SameAt

variable {w middle later : Worksheet} {part : Part}

/-- A worksheet agrees with itself. -/
theorem refl (w : Worksheet) (part : Part) : w.SameAt w part := by
  cases part <;> rfl

/-- Worksheets agree with each other. -/
theorem symm (h : w.SameAt later part) : later.SameAt w part := by
  cases part <;> exact Eq.symm h

/-- Worksheets that agree with a third one agree. -/
theorem trans (h : w.SameAt middle part) (h' : middle.SameAt later part) :
    w.SameAt later part := by
  cases part <;> exact Eq.trans h' h

end SameAt

variable {w later : Worksheet}

/-- **Worksheets that agree on all parts are the same.** -/
theorem eq_of_sameAt (h : ∀ part, w.SameAt later part) : later = w := by
  have henv : later.env = w.env := Environment.eq_of_get? fun name => h (.value name)
  have hformulas : later.formulas = w.formulas := PerCoordinate.eq_of_get fun c => h (.formula c)
  have hrange : later.range = w.range := Range.eq_of_get fun role => h (.bound role)
  obtain ⟨name, env, formulas, range, parameter, radius, angle, precision, mode⟩ := later
  obtain rfl := henv
  obtain rfl := hformulas
  obtain rfl := hrange
  obtain rfl : name = w.name := h .name
  obtain rfl : parameter = w.parameter := h .parameter
  obtain rfl : radius = w.radius := h .radius
  obtain rfl : angle = w.angle := h .angle
  obtain rfl : precision = w.precision := h .precision
  obtain rfl : mode = w.mode := h .mode
  rfl

end Worksheet

/-! ## Edits -/

namespace Edit

open Worksheet (Part)

/-- The parts that an edit is about: one, or all of them. -/
def Addresses (edit : Edit) (part : Part) : Prop :=
  match edit with
  | .express c _ => part = .formula c
  | .bound role _ => part = .bound role
  | .declare name _ | .undeclare name => part = .value name
  | .rename _ => part = .name
  | .parameter _ => part = .parameter
  | .radius _ => part = .radius
  | .angle _ => part = .angle
  | .precision _ => part = .precision
  | .mode _ | .plot _ => part = .mode
  | .restore _ | .reopen => True

/-- What an edit is to bring about in the parts that it is about. -/
def Achieves (edit : Edit) (w later : Worksheet) : Prop :=
  match edit with
  | .express c source => Formula.ofSource w.declared source = .ok (later.formula c)
  | .bound role source => w.boundOf role (Text.trimmed source) = .ok (later.range.get role)
  | .declare name value => later.env.get? name = some value
  | .undeclare name => later.env.get? name = none
  | .rename name => later.name = name
  | .parameter name => later.parameter = name
  | .radius name => later.radius = name
  | .angle name => later.angle = name
  | .precision places => later.precision = places
  | .mode text => Mode.ofText? text = some later.mode
  | .restore archive => archive.restore = .ok later
  | .reopen => w.archive.restore = .ok later
  | .plot chosen => (w.curve chosen).missing? w.env = none ∧ later.mode = chosen

/-- What an edit does. -/
structure Makes (edit : Edit) (w later : Worksheet) : Prop where
  /-- It brings about what it is for. -/
  achieved : edit.Achieves w later
  /-- It keeps every part that it is not about. -/
  kept : ∀ part, ¬ edit.Addresses part → w.SameAt later part

variable {edit : Edit} {w later : Worksheet}

/-- A text that is read as a mode changes the mode and nothing else. -/
theorem eq_of_apply_mode {text : String} (h : (Edit.mode text).apply w = .ok later) :
    ∃ chosen, Mode.ofText? text = some chosen ∧ later = { w with mode := chosen } := by
  simp only [apply] at h
  cases hmode : Mode.ofText? text with
  | none => simp [hmode] at h
  | some chosen =>
    simp only [hmode, Except.ok.injEq] at h
    exact ⟨chosen, rfl, h.symm⟩

/-- A sweep that starts changes the mode and nothing else. -/
theorem eq_of_apply_plot {chosen : Mode} (h : (Edit.plot chosen).apply w = .ok later) :
    (w.curve chosen).missing? w.env = none ∧ later = { w with mode := chosen } := by
  simp only [apply] at h
  cases hstart : w.startSweep chosen with
  | error missing => simp [hstart] at h
  | ok started =>
    obtain ⟨hmissing, hstarted, -⟩ := Worksheet.startSweep_eq_ok hstart
    simp only [hstart, Except.ok.injEq] at h
    exact ⟨hmissing, h.symm.trans hstarted⟩

/-- An edit that is not refused brings about what it is for. -/
theorem achieves_of_apply (h : edit.apply w = .ok later) : edit.Achieves w later := by
  cases edit with
  | express c source =>
    obtain ⟨formula, hformula, rfl⟩ := Worksheet.express_eq_ok_iff.1 h
    rw [Achieves, Worksheet.formula_set, if_pos rfl]
    exact hformula
  | bound role source =>
    obtain ⟨bound, hbound, rfl⟩ := Worksheet.setBound_eq_ok_iff.1 h
    rw [Achieves, Worksheet.range_set, if_pos rfl]
    exact hbound
  | declare name value =>
    cases h
    rw [Achieves, Worksheet.get?_declare, if_pos rfl]
  | undeclare name =>
    cases h
    rw [Achieves, Worksheet.get?_undeclare, if_pos rfl]
  | rename | parameter | radius | angle | precision =>
    cases h
    rfl
  | mode text =>
    obtain ⟨chosen, hmode, rfl⟩ := eq_of_apply_mode h
    exact hmode
  | restore archive => exact h
  | reopen => exact h
  | plot chosen =>
    obtain ⟨hmissing, rfl⟩ := eq_of_apply_plot h
    exact ⟨hmissing, rfl⟩

/-- **An edit keeps every part that it is not about.** -/
theorem sameAt_of_apply (h : edit.apply w = .ok later) {part : Part}
    (hpart : ¬ edit.Addresses part) : w.SameAt later part := by
  cases edit with
  | express c source =>
    obtain ⟨formula, -, rfl⟩ := Worksheet.express_eq_ok_iff.1 h
    cases part with
    | formula d =>
      have hne : d ≠ c := fun heq => hpart (congrArg Part.formula heq)
      rw [Worksheet.SameAt, Worksheet.formula_set, if_neg hne]
    | _ => rfl
  | bound role source =>
    obtain ⟨bound, -, rfl⟩ := Worksheet.setBound_eq_ok_iff.1 h
    cases part with
    | bound other =>
      have hne : other ≠ role := fun heq => hpart (congrArg Part.bound heq)
      rw [Worksheet.SameAt, Worksheet.range_set, if_neg hne]
    | _ => rfl
  | declare name value =>
    cases h
    cases part with
    | value other =>
      have hne : other ≠ name := fun heq => hpart (congrArg Part.value heq)
      rw [Worksheet.SameAt, Worksheet.get?_declare, if_neg hne]
    | _ => rfl
  | undeclare name =>
    cases h
    cases part with
    | value other =>
      have hne : other ≠ name := fun heq => hpart (congrArg Part.value heq)
      rw [Worksheet.SameAt, Worksheet.get?_undeclare, if_neg hne]
    | _ => rfl
  | rename | parameter | radius | angle | precision =>
    cases h
    cases part <;> first | rfl | exact absurd rfl hpart
  | mode text =>
    obtain ⟨chosen, -, rfl⟩ := eq_of_apply_mode h
    cases part <;> first | rfl | exact absurd rfl hpart
  | restore | reopen => exact absurd trivial hpart
  | plot chosen =>
    obtain ⟨-, rfl⟩ := eq_of_apply_plot h
    cases part <;> first | rfl | exact absurd rfl hpart

/-- What an edit is for can be brought about by the edit. -/
theorem exists_apply_of_achieves (h : edit.Achieves w later) :
    ∃ made, edit.apply w = .ok made ∧ ∀ part, edit.Addresses part → made.SameAt later part := by
  cases edit with
  | express c source =>
    refine ⟨_, Worksheet.express_eq_ok_iff.2 ⟨_, h, rfl⟩, ?_⟩
    rintro _ rfl
    rw [Worksheet.SameAt, Worksheet.formula_set, if_pos rfl]
  | bound role source =>
    refine ⟨_, Worksheet.setBound_eq_ok_iff.2 ⟨_, h, rfl⟩, ?_⟩
    rintro _ rfl
    rw [Worksheet.SameAt, Worksheet.range_set, if_pos rfl]
  | declare name value =>
    refine ⟨_, rfl, ?_⟩
    rintro _ rfl
    rw [Worksheet.SameAt, Worksheet.get?_declare, if_pos rfl]
    exact h
  | undeclare name =>
    refine ⟨_, rfl, ?_⟩
    rintro _ rfl
    rw [Worksheet.SameAt, Worksheet.get?_undeclare, if_pos rfl]
    exact h
  | rename | parameter | radius | angle | precision =>
    refine ⟨_, rfl, ?_⟩
    rintro _ rfl
    exact h
  | mode text =>
    have hmode : Mode.ofText? text = some later.mode := h
    refine ⟨{ w with mode := later.mode }, by simp only [apply, hmode], ?_⟩
    rintro _ rfl
    rfl
  | restore archive => exact ⟨later, h, fun part _ => .refl later part⟩
  | reopen => exact ⟨later, h, fun part _ => .refl later part⟩
  | plot chosen =>
    obtain ⟨hmissing, hmode⟩ := h
    refine ⟨{ w with mode := chosen }, by simp only [apply, Worksheet.startSweep, hmissing], ?_⟩
    rintro _ rfl
    exact hmode

/-- **What an edit does**: it leads to the one worksheet that has what the edit is for, and in all
else is as before. -/
theorem apply_eq_ok_iff : edit.apply w = .ok later ↔ edit.Makes w later := by
  refine ⟨fun h => ⟨achieves_of_apply h, fun part => sameAt_of_apply h⟩, fun h => ?_⟩
  obtain ⟨made, hmade, haddressed⟩ := exists_apply_of_achieves h.achieved
  -- both have what the edit is for where it is about something, and what `w` has elsewhere
  have heq : later = made := Worksheet.eq_of_sameAt fun part => by
    by_cases hpart : edit.Addresses part
    · exact haddressed part hpart
    · exact (sameAt_of_apply hmade hpart).symm.trans (h.kept part hpart)
  rw [heq, hmade]

end Edit

/-! ## Steps -/

namespace Session

namespace Step

/-- The edit that a step makes. Starting a sweep changes the mode of the worksheet. -/
def edit? : Step → Option Edit
  | .edit change => some change
  | .start _ mode => some (.plot mode)
  | .copy _ _ | .advance _ _ => none

/-- The key whose sweep a step writes. -/
def key? : Step → Option String
  | .edit _ => none
  | .start key _ | .copy _ key | .advance key _ => some key

/-- The parts of the worksheet that a step is about. -/
def Addresses (step : Step) (part : Worksheet.Part) : Prop :=
  ∃ edit, step.edit? = some edit ∧ edit.Addresses part

/-- What a step does. -/
structure Makes (step : Step) (s later : Session) : Prop where
  /-- It makes its edit, if it has one. -/
  edited : ∀ edit, step.edit? = some edit → edit.Makes s.worksheet later.worksheet
  /-- It leaves the worksheet alone if it has none. -/
  unedited : step.edit? = none → later.worksheet = s.worksheet
  /-- It leaves every sweep alone but that of its key. -/
  sweeps : ∀ key, step.key? ≠ some key → later.sweep? key = s.sweep? key

end Step

variable {s later : Session} {step : Step} {points : List Point}

/-- **A step changes nothing but what it is about.** -/
theorem Moves.makes (h : s.Moves step later points) : step.Makes s later := by
  cases h with
  | edit hedit =>
    refine ⟨?_, by simp [Step.edit?], fun key _ => rfl⟩
    rintro _ ⟨⟩
    exact Edit.apply_eq_ok_iff.1 hedit
  | @start key mode worksheet sweep hstart =>
    refine ⟨?_, by simp [Step.edit?], fun other hother => ?_⟩
    · rintro _ ⟨⟩
      exact Edit.apply_eq_ok_iff.1 (by simp only [Edit.apply, hstart]; rfl)
    · have hne : other ≠ key := fun heq => hother (congrArg some heq.symm)
      rw [sweep?_keep, if_neg hne]
      rfl
  | @copy source target sweep =>
    refine ⟨by simp [Step.edit?], fun _ => rfl, fun other hother => ?_⟩
    have hne : other ≠ target := fun heq => hother (congrArg some heq.symm)
    rw [sweep?_keep, if_neg hne]
  | @advance key count sweep =>
    refine ⟨by simp [Step.edit?], fun _ => rfl, fun other hother => ?_⟩
    have hne : other ≠ key := fun heq => hother (congrArg some heq.symm)
    rw [sweep?_keep, if_neg hne]

namespace Step.Makes

/-- A step that is not about a part of the worksheet leaves it as it is. -/
theorem sameAt (h : step.Makes s later) {part : Worksheet.Part} (hpart : ¬ step.Addresses part) :
    s.worksheet.SameAt later.worksheet part := by
  cases hedit : step.edit? with
  | some edit =>
    exact (h.edited edit hedit).kept part fun haddresses => hpart ⟨edit, hedit, haddresses⟩
  | none =>
    rw [h.unedited hedit]
    exact .refl s.worksheet part

end Step.Makes

/-! ## Rows of steps -/

/-- **A part that no step of a row is about stays as it is.** -/
theorem sameAt_after {part : Worksheet.Part} {steps : List Step} :
    ∀ {s : Session}, (∀ step ∈ steps, ¬ step.Addresses part) →
      s.worksheet.SameAt (s.after steps).worksheet part := by
  induction steps with
  | nil => exact fun _ => .refl _ part
  | cons step rest ih =>
    intro s h
    have hrest := ih (s := s.attempt step) fun other hother => h other (by simp [hother])
    refine Worksheet.SameAt.trans ?_ hrest
    rcases s.attempt_cases step with ⟨points, hmoves⟩ | ⟨-, heq⟩
    · exact hmoves.makes.sameAt (h step (by simp))
    · rw [heq]
      exact .refl s.worksheet part

/-- **The sweep of a key that no step of a row writes stays as it is.** -/
theorem sweep?_after {key : String} {steps : List Step} :
    ∀ {s : Session}, (∀ step ∈ steps, step.key? ≠ some key) →
      (s.after steps).sweep? key = s.sweep? key := by
  induction steps with
  | nil => exact fun _ => rfl
  | cons step rest ih =>
    intro s h
    have hrest := ih (s := s.attempt step) fun other hother => h other (by simp [hother])
    refine hrest.trans ?_
    rcases s.attempt_cases step with ⟨points, hmoves⟩ | ⟨-, heq⟩
    · exact hmoves.makes.sweeps key (h step (by simp))
    · rw [heq]

/-- **An edit is made exactly if what it is for can be brought about**, and then it does this and
nothing else. -/
theorem run_perform_edit_iff {edit : Edit} :
    (InPlace.perform (.edit edit)).run.run s = (.ok [], later) ↔
      edit.Makes s.worksheet later.worksheet ∧ later.sweeps = s.sweeps := by
  rw [InPlace.run_perform, perform, ← Edit.apply_eq_ok_iff]
  cases edit.apply s.worksheet with
  | error refusal =>
    constructor
    · rintro ⟨⟩
    · rintro ⟨⟨⟩, -⟩
  | ok worksheet =>
    obtain ⟨changed, sweeps⟩ := later
    constructor
    · rintro ⟨⟩
      exact ⟨rfl, rfl⟩
    · rintro ⟨⟨⟩, rfl⟩
      rfl

/-- **A refused step changes nothing, and a step that is made changes nothing but what it is
about.** A step in place does what a step does, be it made or refused. Where it is refused, the
session is as before, and the refusal has a message. Where it is made, the worksheet has what the
edit of the step is for and in all else is as before, or is as before where the step has no edit,
and every open sweep is as before but that of the key that the step writes. An edit is made exactly
if what it is for can be brought about. So what none of a row of steps is about stays as it is,
however many of them are refused.

**Proof sketch.** Edits in place test before they write, or write aside (`InPlace.run_perform`). The
parts that an edit is not about can be read off what it does (`Edit.apply_eq_ok_iff`), and a row of
steps keeps what each of them keeps. -/
theorem atomic_framed (s : Session) :
    (∀ step, (InPlace.perform step).run.run s = settled s (s.perform step)) ∧
    (∀ step trouble later, (InPlace.perform step).run.run s = (.error trouble, later) →
      later = s ∧ ∀ refusal, trouble = .refused refusal → ∀ advice, refusal.messages advice ≠ []) ∧
    (∀ step points later, (InPlace.perform step).run.run s = (.ok points, later) →
      step.Makes s later) ∧
    (∀ edit later, (InPlace.perform (.edit edit)).run.run s = (.ok [], later) ↔
      edit.Makes s.worksheet later.worksheet ∧ later.sweeps = s.sweeps) ∧
    ∀ steps,
      (∀ part, (∀ step ∈ steps, ¬ step.Addresses part) →
        s.worksheet.SameAt ((InPlace.performAll steps).run s).2.worksheet part) ∧
      ∀ key, (∀ step ∈ steps, step.key? ≠ some key) →
        ((InPlace.performAll steps).run s).2.sweep? key = s.sweep? key := by
  refine ⟨fun step => InPlace.run_perform step s, fun step trouble later h => ?_,
    fun step points later h => ?_, fun edit later => run_perform_edit_iff, fun steps => ?_⟩
  · rw [InPlace.run_perform] at h
    cases hperform : s.perform step with
    | error first =>
      rw [hperform] at h
      cases h
      exact ⟨rfl, fun refusal _ advice => refusal.messages_ne_nil advice⟩
    | ok made =>
      rw [hperform] at h
      cases h
  · rw [InPlace.run_perform] at h
    cases hperform : s.perform step with
    | error first =>
      rw [hperform] at h
      cases h
    | ok made =>
      rw [hperform] at h
      cases h
      exact (moves_of_perform hperform).makes
  · rw [InPlace.run_performAll]
    exact ⟨fun part => sameAt_after, fun key => sweep?_after⟩

/-- A session with a variable that is zero and an open sweep. -/
def working : Session :=
  initial.after [.edit (.declare "k" 0), .start "p" .explicit]

/-- An archive that is refused for its last text. -/
def halfway : Archive :=
  { working.worksheet.archive with expressions := .all "k", step := "k" }

/-- The reports of a step that is refused. -/
def reports (s : Session) (step : Step) : List String :=
  match s.perform step with
  | .error (.refused refusal) => refusal.messages .byEdits
  | _ => []

/-- The frames at two refused steps, of which the second one has read all but the last text of an
archive before it is refused, at a new formula and at a new sweep. -/
theorem atomic_framed_working :
    (∃ trouble later,
      (InPlace.perform (.edit (.bound .step "k"))).run.run working = (.error trouble, later) ∧
        later = working ∧ working.reports (.edit (.bound .step "k")) =
          ["invalid range step: \"k\" must be greater than zero"]) ∧
    (∃ trouble later,
      (InPlace.perform (.edit (.restore halfway))).run.run working = (.error trouble, later) ∧
        later = working ∧
        (((InPlace.readAll halfway).run.run halfway.blank).2.formula .t).source = "k") ∧
    (∃ later, (InPlace.perform (.edit (.express .y "k x"))).run.run working = (.ok [], later) ∧
      (later.worksheet.formula .y).source = "k x" ∧
      later.worksheet.formula .x = working.worksheet.formula .x ∧
      later.sweep? "p" = working.sweep? "p" ∧ (working.sweep? "p").isSome) ∧
    ∃ later, (InPlace.perform (.start "q" .radial)).run.run working = (.ok [], later) ∧
      later.worksheet.mode = .radial ∧
      later.worksheet.env.get? "k" = working.worksheet.env.get? "k" ∧
      later.sweep? "p" = working.sweep? "p" := by
  obtain ⟨hperform, hrefused, hmade, -, -⟩ := atomic_framed working
  have hrefuse : ∀ step, (working.perform step).isOk = false → ∃ trouble later,
      (InPlace.perform step).run.run working = (.error trouble, later) ∧ later = working := by
    intro step hstep
    have hrun := hperform step
    cases htrouble : working.perform step with
    | ok made => simp [htrouble, Except.isOk, Except.toBool] at hstep
    | error trouble =>
      rw [htrouble] at hrun
      exact ⟨trouble, _, hrun, (hrefused step trouble _ hrun).1⟩
  have hmake : ∀ step, (working.perform step).toOption.any (·.2.isEmpty) → ∃ later,
      (InPlace.perform step).run.run working = (.ok [], later) ∧ step.Makes working later := by
    intro step hstep
    have hrun := hperform step
    cases hmoved : working.perform step with
    | error trouble => simp [hmoved, Except.toOption] at hstep
    | ok made =>
      obtain ⟨later, points⟩ := made
      obtain rfl : points = [] := by simpa [hmoved, Except.toOption] using hstep
      rw [hmoved] at hrun
      exact ⟨later, hrun, hmade step [] later hrun⟩
  refine ⟨?_, ?_, ?_, ?_⟩
  · obtain ⟨trouble, later, hrun, hsame⟩ :=
      hrefuse (.edit (.bound .step "k")) (by decide +kernel)
    exact ⟨trouble, later, hrun, hsame, by decide +kernel⟩
  · obtain ⟨trouble, later, hrun, hsame⟩ :=
      hrefuse (.edit (.restore halfway)) (by decide +kernel)
    exact ⟨trouble, later, hrun, hsame, by decide +kernel⟩
  · obtain ⟨later, hrun, hedited, -, hsweeps⟩ :=
      hmake (.edit (.express .y "k x")) (by decide +kernel)
    obtain ⟨hachieved, hkept⟩ := hedited _ rfl
    exact ⟨later, hrun, (Formula.ofSource_eq_ok_iff.1 hachieved).1,
      hkept (.formula .x) (by simp [Edit.Addresses]), hsweeps "p" (by simp [Step.key?]),
      by decide +kernel⟩
  · obtain ⟨later, hrun, hedited, -, hsweeps⟩ := hmake (.start "q" .radial) (by decide +kernel)
    obtain ⟨⟨-, hmode⟩, hkept⟩ := hedited _ rfl
    exact ⟨later, hrun, hmode, hkept (.value "k") (by simp [Edit.Addresses]),
      hsweeps "p" (by simp [Step.key?])⟩

end Session

end Grapher
