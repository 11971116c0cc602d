import Grapher.Formula.EditDistance
import Grapher.Proofs.Reachable

set_option relaxedAutoImplicit false
set_option autoImplicit false

/-!
# Archives and what is restored from them

Restoring an archive and archiving a worksheet undo each other. An archive keeps the texts that
formulas were read from and bounds were computed from, so the archive of a restored worksheet is
the one that it came from, but for the blanks around the texts of the range, and it is restored to
the same worksheet.

What is read for one subject neither depends on what the subjects before it gave nor disturbs it:
all of them are read in the archived variables. So an archive that is refused is refused for its
first text that is refused by itself.

## Main definitions

* `Subject.all` — the subjects in the order in which an archive is read.
* `Archive.trimmed` — an archive without blanks around the texts of its range.
* `Archive.refusal?` — why the text of one subject is refused by itself.

## Main results

* `Archive.restore_trimmed` — the blanks around the texts of the range do not matter.
* `Archive.restore_eq_error_iff` — why an archive is refused.
* `Archive.restore_inverse` — restoring and archiving undo each other.
-/

namespace Grapher

/-! ## Changes that are refused -/

namespace Worksheet

variable {w other : Worksheet} {source : String}

/-- The value of a text depends on nothing but the variables. -/
theorem evaluate_congr (h : w.env = other.env) : w.evaluate source = other.evaluate source := by
  unfold evaluate declared
  rw [h]

/-- The bound of a text depends on nothing but the variables. -/
theorem boundOf_congr (h : w.env = other.env) (role : Bound.Role) :
    w.boundOf role source = other.boundOf role source := by
  unfold boundOf
  rw [evaluate_congr h]

/-- Blanks around the text of a bound do not matter. -/
theorem setBound_trimmed (w : Worksheet) (role : Bound.Role) (source : String) :
    w.setBound role (Text.trimmed source) = w.setBound role source := by
  unfold setBound
  rw [Text.trimmed_trimmed]

end Worksheet

/-! ## Subjects -/

/-- All subjects, in the order in which an archive is read: the formulas of `x`, `y`, `r` and `t`,
then the start, the end and the step of the range. -/
def Subject.all : List Subject :=
  Coordinate.all.map .expression ++ Bound.Role.all.map .bound

namespace Archive

variable (archive : Archive)

/-- The archive without blanks around the texts of its range. -/
def trimmed : Archive :=
  { archive with
    start := Text.trimmed archive.start
    finish := Text.trimmed archive.finish
    step := Text.trimmed archive.step }

/-- What is archived for one subject is read. -/
def read (w : Worksheet) : Subject → Except Refusal Worksheet
  | .expression c => archive.readFormula w c
  | .bound role => archive.readBound w role

/-- Why the text of one subject is refused by itself, in the archived variables, if it is. -/
def refusal? : Subject → Option Refusal
  | .expression c =>
    match Formula.ofSource archive.env.names (archive.expressions.get c) with
    | .error rejection => some (.about (.expression c) (.formula rejection))
    | .ok _ => none
  | .bound role =>
    match archive.blank.boundOf role (Text.trimmed (archive.boundText role)) with
    | .error refusal => some (.about (.bound role) refusal)
    | .ok _ => none

/-! ## Reading one subject after the other -/

/-- An archive is restored by reading what it has for each subject. -/
theorem restore_eq_foldlM : archive.restore = Subject.all.foldlM archive.read archive.blank := by
  rw [Subject.all, List.foldlM_append, List.foldlM_map]
  simp only [List.foldlM_map]
  rfl

variable {archive} {w later : Worksheet} {subject : Subject} {refusal : Refusal}

/-- Reading keeps the variables. -/
theorem env_of_read (h : archive.read w subject = .ok later) : later.env = w.env := by
  cases subject with
  | expression c =>
    simp only [read, readFormula] at h
    cases hexpress : w.express c (archive.expressions.get c) with
    | error refusal => simp [hexpress] at h
    | ok expressed =>
      obtain ⟨formula, -, rfl⟩ := Worksheet.express_eq_ok_iff.1 hexpress
      simp only [hexpress, Except.ok.injEq] at h
      exact h ▸ rfl
  | bound role =>
    obtain ⟨bound, -, rfl⟩ := Worksheet.setBound_eq_ok_iff.1 h
    rfl

/-- **A text is refused for what is wrong with it by itself**, whatever was read before it. -/
theorem read_eq_error_iff (henv : w.env = archive.env) :
    archive.read w subject = .error refusal ↔ archive.refusal? subject = some refusal := by
  cases subject with
  | expression c =>
    have hdeclared : w.declared = archive.env.names := congrArg Environment.names henv
    simp only [read, readFormula, refusal?, Worksheet.express, hdeclared]
    cases Formula.ofSource archive.env.names (archive.expressions.get c) <;> simp
  | bound role =>
    have hbound : ∀ text, w.boundOf role text = archive.blank.boundOf role text := fun _ =>
      Worksheet.boundOf_congr henv role
    simp only [read, readBound, refusal?, Worksheet.setBound, hbound]
    cases archive.blank.boundOf role (Text.trimmed (archive.boundText role)) <;> simp

/-- **An archive is refused for its first text that is refused by itself.** -/
theorem restore_eq_error_iff :
    archive.restore = .error refusal ↔
      Subject.all.findSome? archive.refusal? = some refusal := by
  rw [restore_eq_foldlM]
  have hkeeps : ∀ w subject later, w.env = archive.env → archive.read w subject = .ok later →
      later.env = archive.env := fun w subject later henv hread =>
    (env_of_read hread).trans henv
  have hblank : archive.blank.env = archive.env := rfl
  exact foldlM_eq_error_iff _ hkeeps (fun w subject refusal henv => read_eq_error_iff henv) hblank

/-! ## Archives of restored worksheets -/

/-- **The blanks around the texts of the range do not matter** for what is restored. -/
theorem restore_trimmed (archive : Archive) : archive.trimmed.restore = archive.restore := by
  have hbound : archive.trimmed.readBound = archive.readBound := by
    funext w role
    have htext : archive.trimmed.boundText role = Text.trimmed (archive.boundText role) := by
      cases role <;> rfl
    rw [readBound, htext, Worksheet.setBound_trimmed, readBound]
  unfold restore
  rw [hbound]
  rfl

/-- The archive of a restored worksheet is the one that it was restored from, without the blanks
around the texts of the range. -/
theorem archive_of_restore {restored : Worksheet} (h : archive.restore = .ok restored) :
    restored.archive = archive.trimmed := by
  obtain ⟨hformulas, hbounds, heq⟩ := restore_eq_ok_iff.1 h
  have hexpressions : restored.formulas.map Formula.source = archive.expressions := by
    ext c : 1
    rw [PerCoordinate.get_map]
    exact (Formula.ofSource_eq_ok_iff.1 (hformulas c)).1
  have hsource : ∀ role,
      (restored.range.get role).source = Text.trimmed (archive.boundText role) := fun role =>
    (Worksheet.boundOf_eq_ok_iff.1 (hbounds role)).2.1
  calc restored.archive
      = { archive with
          expressions := restored.formulas.map Formula.source
          start := (restored.range.get .start).source
          finish := (restored.range.get .finish).source
          step := (restored.range.get .step).source } := by rw [heq]; rfl
    _ = archive.trimmed := by simp only [hexpressions, hsource]; rfl

/-- **Restoring and archiving undo each other.** The archive of a restored worksheet is the one that
it was restored from, without the blanks around the texts of the range, and it is restored to the
same worksheet. An archive is refused exactly for the first of its texts, in the order of
`Subject.all`, that is refused by itself.

**Proof sketch.** A restored worksheet has the texts of the archive (`archive_of_restore`), where
blanks around the texts of the range make no difference (`restore_trimmed`). No text is read in
other variables than the archived ones, whatever was read before it (`read_eq_error_iff`), so the
first refusal of the whole is the first one of the parts (`foldlM_eq_error_iff`). -/
theorem restore_inverse (archive : Archive) :
    (∀ restored, archive.restore = .ok restored →
      restored.archive = archive.trimmed ∧ restored.archive.restore = .ok restored) ∧
    ∀ refusal, archive.restore = .error refusal ↔
      Subject.all.findSome? archive.refusal? = some refusal := by
  refine ⟨fun restored h => ⟨archive_of_restore h, ?_⟩, fun refusal => restore_eq_error_iff⟩
  rw [archive_of_restore h, restore_trimmed, h]

/-- An archive with a variable that is no number, one that is infinite, and blanks around the texts
of its range. -/
def blanks : Archive where
  name := " k "
  env := .ofList [("k", Arithmetic.notANumber), ("big", 1 / 0), ("2 x", 3)]
  expressions := ⟨" k", "k ^ 2", "big", "1"⟩
  start := " -pi\t"
  finish := "pi "
  step := "\n1/2"
  parameter := ""
  radius := "r"
  angle := " t"
  precision := 7
  mode := .angular

/-- An archive with two texts that are refused by themselves, of which the first one is that of the
end of the range. -/
def refusedTwice : Archive :=
  { blanks with finish := " big ", step := "0" }

/-- The inverse at an archive that is restored and at one that is refused. -/
theorem restore_inverse_blanks :
    (∃ restored, blanks.restore = .ok restored ∧ restored.archive = blanks.trimmed ∧
      restored.archive.restore = .ok restored ∧ blanks.trimmed.start = "-pi") ∧
    ∃ refusal, refusedTwice.restore = .error refusal ∧
      refusal.messages .byEdits = ["invalid range end: \"big\" is not a finite number"] ∧
      (refusedTwice.refusal? (.bound .step)).isSome := by
  constructor
  · have haccepted : blanks.restore.toOption.isSome := by decide +kernel
    obtain ⟨restored, hrestored⟩ := Option.isSome_iff_exists.1 haccepted
    have hok : blanks.restore = .ok restored := eq_ok_of_toOption hrestored
    obtain ⟨harchive, hagain⟩ := (restore_inverse blanks).1 restored hok
    exact ⟨restored, hok, harchive, hagain, by decide +kernel⟩
  · obtain ⟨refusal, hrefusal, hmessages⟩ :
        ∃ refusal ∈ Subject.all.findSome? refusedTwice.refusal?,
          refusal.messages .byEdits = ["invalid range end: \"big\" is not a finite number"] := by
      decide +kernel
    exact ⟨refusal, ((restore_inverse refusedTwice).2 refusal).2 hrefusal, hmessages,
      by decide +kernel⟩

end Archive

end Grapher
