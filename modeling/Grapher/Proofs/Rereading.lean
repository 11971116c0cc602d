import Grapher.Proofs.Evaluation
import Grapher.Proofs.Frames
import Grapher.Proofs.Invariant
import Grapher.Proofs.Reopen

set_option relaxedAutoImplicit false
set_option autoImplicit false

/-!
# Reading the text of a formula again

A formula is read once, against the variables that are declared at the time, and is kept as it is
when they change. The text that is shown with it still means the same, as long as the names of the
builtin constants are left alone: other names can be declared, removed and declared again, and
reading the text against what is declared now gives the formula that is kept. For a name in the text
that is neither a function nor a constant is a variable that the formula loads, whenever it was
read.

## Main definitions

* `Edit.declares`, `Worksheet.declaredAlong` — the names that an edit and a row of edits declare.

## Main results

* `Worksheet.mem_declared_of_apply`, `Worksheet.mem_declared_after` — nothing else is declared.
* `Worksheet.ofSource_after` — the text of a formula is read as the formula, and has its value.
-/

namespace Grapher

/-- The names that an edit declares, if it is not refused. -/
def Edit.declares : Edit → List String
  | .declare name _ => [name]
  | .restore archive => archive.env.names
  | _ => []

/-- What a name means as a constant is the entry of the constant. -/
theorem Builtin.mem_constants_of_find? {text name : String} {value : Float}
    (h : Builtin.find? text = some (.constant name value)) :
    (text, value) ∈ Builtin.constants := by
  have hmem := List.mem_of_find?_eq_some h
  have hname : name = text := by simpa [Builtin.name] using List.find?_some h
  subst hname
  simpa [Builtin.table] using hmem

namespace Worksheet

/-- The names that a row of edits declares, one edit after the other. A refused edit declares
nothing. -/
def declaredAlong (w : Worksheet) : List Edit → List String
  | [] => []
  | edit :: rest =>
    match edit.apply w with
    | .ok later => edit.declares ++ later.declaredAlong rest
    | .error _ => w.declaredAlong rest

variable {w later : Worksheet}

/-! ## Declared names -/

/-- An archive that is restored has the variables of the worksheet. -/
theorem env_of_restore {archive : Archive} (h : archive.restore = .ok later) :
    later.env = archive.env := by
  rw [(Archive.restore_eq_ok_iff.1 h).2.2]
  rfl

/-- **A name that is declared after an edit** was declared before, or the edit declares it. -/
theorem mem_declared_of_apply {edit : Edit} (h : edit.apply w = .ok later) {name : String}
    (hname : name ∈ later.declared) : name ∈ w.declared ∨ name ∈ edit.declares := by
  have hkept : w.SameAt later (.value name) → name ∈ w.declared := fun hsame => by
    have hget : later.env.get? name = w.env.get? name := hsame
    rwa [declared, Environment.mem_names_iff, Environment.contains, ← hget, ← Environment.contains,
      ← Environment.mem_names_iff]
  by_cases haddressed : edit.Addresses (.value name)
  · cases edit with
    | declare key value =>
      obtain rfl := Part.value.inj haddressed
      exact .inr (List.mem_singleton_self name)
    | restore archive =>
      have henv : later.env = archive.env := env_of_restore h
      rw [declared, henv] at hname
      exact .inr hname
    | reopen =>
      have henv : later.env = w.env := env_of_restore h
      rw [declared, henv] at hname
      exact .inl hname
    | undeclare key =>
      obtain rfl := Part.value.inj haddressed
      have hnone : later.env.get? name = none := Edit.achieves_of_apply h
      simp [declared, Environment.mem_names_iff, Environment.contains, hnone] at hname
    | _ => cases haddressed
  · exact .inl (hkept (Edit.sameAt_of_apply h haddressed))

/-- **A name that is declared after a row of edits** was declared before, or one of them that is not
refused declares it. -/
theorem mem_declared_after (edits : List Edit) {name : String} :
    ∀ {w : Worksheet}, name ∈ (w.after edits).declared →
      name ∈ w.declared ∨ name ∈ w.declaredAlong edits := by
  induction edits with
  | nil => exact .inl
  | cons edit rest ih =>
    intro w hname
    rw [after, List.foldl_cons, ← after, attempt] at hname
    rw [declaredAlong]
    cases hedit : edit.apply w with
    | error refusal =>
      simp only [hedit] at hname
      exact ih hname
    | ok later =>
      simp only [hedit] at hname
      rcases ih hname with hlater | hrest
      · exact (mem_declared_of_apply hedit hlater).imp_right (List.mem_append_left _)
      · exact .inr (List.mem_append_right _ hrest)

/-! ## Constants -/

/-- A formula uses no declared constant where no name of a constant is declared. -/
theorem unshadowed_of_constants {env : Environment}
    (h : ∀ constant ∈ Builtin.constants, constant.1 ∉ env.names) (formula : Formula) :
    formula.Unshadowed env := by
  intro text htext
  obtain ⟨-, -, -, -, name, value, hconstant⟩ := Formula.mem_constants.1 htext
  exact h _ (Builtin.mem_constants_of_find? hconstant)

/-- No name of a constant is declared after edits that declare none. -/
theorem constants_undeclared_after {edits : List Edit}
    (h : ∀ constant ∈ Builtin.constants, constant.1 ∉ initial.declaredAlong edits) :
    ∀ constant ∈ Builtin.constants, constant.1 ∉ (initial.after edits).declared := by
  have hinitial : ∀ constant ∈ Builtin.constants, constant.1 ∉ initial.declared := by decide +kernel
  intro constant hconstant hdeclared
  rcases mem_declared_after edits hdeclared with hbefore | halong
  · exact hinitial constant hconstant hbefore
  · exact h constant hconstant halong

/-! ## The text of a formula -/

/-- **The text of a formula is read as the formula, and has its value.** After any row of edits,
refused ones among them, of which none declares a variable with the name of a builtin constant, a
formula that loads declared variables only is what its text becomes where these variables are
declared. It has a value, and evaluating the text gives this value, whatever has been declared,
changed and removed since the formula was read.

**Proof sketch.** Every formula was read from its text under some declarations
(`Worksheet.Reachable.sound`). Under others it is the same formula exactly if no constant that it
uses is declared (`Worksheet.Sound.ofSource_formula_at_iff`), and no edit has declared one
(`Worksheet.mem_declared_after`). -/
theorem ofSource_after (edits : List Edit)
    (hconstants : ∀ constant ∈ Builtin.constants, constant.1 ∉ initial.declaredAlong edits)
    (c : Coordinate)
    (hload : ∀ name ∈ ((initial.after edits).formula c).names,
      name ∈ (initial.after edits).declared) :
    Formula.ofSource (initial.after edits).declared ((initial.after edits).formula c).source =
        .ok ((initial.after edits).formula c) ∧
      ∃ value, ((initial.after edits).formula c).value (initial.after edits).env = .ok value ∧
        (initial.after edits).evaluate ((initial.after edits).formula c).source = .ok value := by
  set w := initial.after edits
  have hsound : w.Sound := (Reachable.initial.after edits).sound
  have hread : Formula.ofSource w.declared (w.formula c).source = .ok (w.formula c) :=
    (hsound.ofSource_formula_at_iff hload).2
      (unshadowed_of_constants (constants_undeclared_after hconstants) _)
  obtain ⟨value, hvalue⟩ := Formula.exists_value_of_ofSource hread w.declares_declared
  exact ⟨hread, value, hvalue, by simp only [evaluate, hread, hvalue]⟩

/-- Edits that read a formula with a variable and a constant, forget the variable and declare
others, among them one with the name of a function, and declare the variable again with another
value. The second formula and the archive with the name of a constant are refused. -/
def disturbed : List Edit :=
  [.declare "k" 2, .express .y "k(x + 1) + e - e", .undeclare "k", .declare "q" 9,
    .express .y "k + 1", .declare "sin" 3,
    .restore { initial.archive with
      env := initial.env.set "pi" 3
      step := "0" },
    .reopen, .declare "k" 5, .declare "x" 1]

/-- The formula that was read before all this still is what its text says, with the value that the
variables have now. -/
theorem ofSource_after_disturbed :
    (∀ constant ∈ Builtin.constants, constant.1 ∉ initial.declaredAlong disturbed) ∧
      (∀ name ∈ ((initial.after disturbed).formula .y).names,
        name ∈ (initial.after disturbed).declared) ∧
      ((initial.after disturbed).formula .y).source = "k(x + 1) + e - e" ∧
      Formula.ofSource (initial.after disturbed).declared "k(x + 1) + e - e" =
        .ok ((initial.after disturbed).formula .y) ∧
      (initial.after disturbed).evaluate "k(x + 1) + e - e" = .ok 10 := by
  have hconstants : ∀ constant ∈ Builtin.constants,
      constant.1 ∉ initial.declaredAlong disturbed := by decide +kernel
  have hload : ∀ name ∈ ((initial.after disturbed).formula .y).names,
      name ∈ (initial.after disturbed).declared := by decide +kernel
  have hsource : ((initial.after disturbed).formula .y).source = "k(x + 1) + e - e" := by
    decide +kernel
  obtain ⟨hread, value, hvalue, heval⟩ := ofSource_after disturbed hconstants .y hload
  have hten : ((initial.after disturbed).formula .y).value (initial.after disturbed).env =
      .ok 10 := eq_ok_of_toOption (by decide +kernel)
  obtain rfl : 10 = value := by simpa [hten] using hvalue
  rw [hsource] at hread heval
  exact ⟨hconstants, hload, hsource, hread, heval⟩

end Worksheet

end Grapher
