import Grapher.Proofs.Environments
import Grapher.Proofs.GuardedRun
import Grapher.Worksheet.Change

set_option relaxedAutoImplicit false
set_option autoImplicit false

/-!
# Formulas have values

Whatever becomes a formula has a value. A formula loads none but declared variables, and its program
has passed the check, so no operation of a run is at fault, in any environment that declares these
variables, whatever their values. A run finds a variable under the name that stands in the text, not
under one that was kept, and this is the same name.

So a worksheet refuses to evaluate a text only if the text is no formula, and two worksheets that
declare the same variables refuse the same texts for the same reasons.

## Main definitions

* `Environment.Declares` — the environments in which formulas can be evaluated.

## Main results

* `Formula.mem_declared_of_ofSource` — a formula loads none but declared variables.
* `Formula.exists_value_of_ofSource` — a formula has a value where they are declared.
* `Worksheet.evaluate_total` — what is evaluated is what is read.
-/

namespace Grapher

/-- An environment declares all of some names. -/
def Environment.Declares (env : Environment) (declared : List String) : Prop :=
  ∀ name ∈ declared, env.contains name

/-! ## Loaded variables -/

/-- A token that loads a variable is the name of a declared one. -/
theorem Token.mem_declared_of_operations {token : Token} {declared : List String}
    {operation : Operation} (h : operation ∈ token.operations declared) {name : String}
    (hload : operation.action = .load name) : name ∈ declared := by
  unfold operations at h
  cases hkind : token.kind with
  | number =>
    rw [hkind] at h
    obtain ⟨decimal, -, rfl⟩ := List.mem_map.1 h
    cases hload
  | name =>
    rw [hkind] at h
    rcases hmeaning : meaning? declared token.excerpt.text with _ | f | _ | value
    · simp [hmeaning] at h
    · obtain rfl : operation = ⟨.call f, token.excerpt⟩ := by simpa [hmeaning] using h
      cases hload
    · obtain rfl : operation = ⟨.load token.excerpt.text, token.excerpt⟩ := by
        simpa [hmeaning] using h
      cases hload
      exact (meaning?_eq_variable_iff.1 hmeaning).2
    · obtain rfl : operation = ⟨.push value, token.excerpt⟩ := by simpa [hmeaning] using h
      cases hload
  | operator op =>
    obtain rfl : operation = ⟨.apply op, token.excerpt⟩ := by simpa [hkind] using h
    cases hload
  | comma | opening | closing => simp [hkind] at h

namespace Formula

variable {declared : List String} {source : String} {formula : Formula} {env : Environment}

/-- **A formula loads none but declared variables.** -/
theorem mem_declared_of_ofSource (h : ofSource declared source = .ok formula) {name : String}
    (hname : name ∈ formula.names) : name ∈ declared := by
  obtain ⟨operation, hoperation, hload⟩ := Program.mem_names.1 hname
  obtain ⟨-, reading, hfold, hfinish⟩ :=
    Reading.program_eq_ok_iff.1 (ofSource_eq_ok_iff.1 h).2.1
  have hmem : operation ∈ reading.contents := by
    rw [← Reading.coe_program hfinish]
    exact hoperation
  rcases Reading.exists_token_of_mem_contents hfold hmem with hstart | ⟨token, -, htoken | rfl⟩
  · simp at hstart
  · exact Token.mem_declared_of_operations htoken hload
  · -- a product that is meant between two tokens loads nothing
    cases hload

/-- **A formula has a value where its variables are declared**, whatever their values. -/
theorem exists_value_of_ofSource (h : ofSource declared source = .ok formula)
    (henv : env.Declares declared) : ∃ value, formula.value env = .ok value :=
  Program.exists_run (ofSource_eq_ok_iff.1 h).2.2 fun _ hname =>
    henv _ (mem_declared_of_ofSource h hname)

/-- The value is found on any kept stack, with the variables taken from the text, and nothing
lapses. -/
theorem run_evaluate_of_ofSource (h : ofSource declared source = .ok formula) {value : Float}
    (hvalue : formula.value env = .ok value) (stack : List Float) :
    ∃ later, (Guarded.evaluate formula.source formula.program env).run.run stack =
      .ok (.ok value, later) := by
  have hread := readFrom_of_ofSource h
  rw [← (ofSource_eq_ok_iff.1 h).1] at hread
  have houtcome : ((formula.program.evaluate env).run.run stack).1 = .ok value :=
    (Program.outcome_eq_run formula.program env stack).trans hvalue
  refine ⟨((formula.program.evaluate env).run.run stack).2, ?_⟩
  exact (Guarded.evaluate_follows hread env stack).trans
    (congrArg Except.ok (Prod.ext houtcome rfl))

end Formula

/-! ## Values of texts -/

namespace Worksheet

variable {w other : Worksheet} {source : String}

theorem declares_declared (w : Worksheet) : w.env.Declares w.declared := fun _ hname =>
  Environment.mem_names_iff.1 hname

/-- A text that is no formula is refused as such. -/
theorem evaluate_of_error {rejection : Rejection}
    (h : Formula.ofSource w.declared source = .error rejection) :
    w.evaluate source = .error (.formula rejection) := by
  rw [evaluate, h]

/-- A text that is a formula has a value. -/
theorem exists_value_of_ok {formula : Formula}
    (h : Formula.ofSource w.declared source = .ok formula) :
    ∃ value, w.evaluate source = .ok value := by
  obtain ⟨value, hvalue⟩ := Formula.exists_value_of_ofSource h w.declares_declared
  exact ⟨value, by simp only [evaluate, h, hvalue]⟩

/-- **A worksheet refuses to evaluate exactly what it cannot read**, and for that reason. -/
theorem evaluate_eq_error_iff {refusal : Refusal} :
    w.evaluate source = .error refusal ↔
      ∃ rejection, Formula.ofSource w.declared source = .error rejection ∧
        refusal = .formula rejection := by
  cases hread : Formula.ofSource w.declared source with
  | error rejection => simp [evaluate_of_error hread, eq_comm]
  | ok formula =>
    obtain ⟨value, hvalue⟩ := exists_value_of_ok hread
    simp [hvalue]

/-- A text has a value exactly if it is a formula. -/
theorem acceptsValue_iff (w : Worksheet) (source : String) :
    w.acceptsValue source ↔ w.acceptsFormula source := by
  unfold acceptsValue acceptsFormula
  cases hread : Formula.ofSource w.declared source with
  | error rejection => simp [evaluate_of_error hread, Except.isOk, Except.toBool]
  | ok formula =>
    obtain ⟨value, hvalue⟩ := exists_value_of_ok hread
    simp [hvalue, Except.isOk, Except.toBool]

/-- Worksheets that declare the same variables evaluate the same texts and refuse the others for the
same reasons. -/
theorem evaluate_alike (h : ∀ name, w.env.contains name = other.env.contains name)
    (source : String) :
    (∃ value value', w.evaluate source = .ok value ∧ other.evaluate source = .ok value') ∨
      ∃ refusal, w.evaluate source = .error refusal ∧ other.evaluate source = .error refusal := by
  have hdeclared : w.declared = other.declared := Environment.names_eq_of_contains h
  cases hread : Formula.ofSource w.declared source with
  | error rejection =>
    exact .inr ⟨_, evaluate_of_error hread, evaluate_of_error (hdeclared ▸ hread)⟩
  | ok formula =>
    obtain ⟨value, hvalue⟩ := exists_value_of_ok hread
    obtain ⟨value', hvalue'⟩ := exists_value_of_ok (w := other) (hdeclared ▸ hread)
    exact .inl ⟨value, value', hvalue, hvalue'⟩

/-- **What is evaluated is what is read.** A text has a value in a worksheet exactly if it is a
formula there, and it is refused only as no formula, never for a fault of its run. Worksheets that
declare the same variables agree on what has a value, and refuse the rest for the same reasons,
whatever the values of the variables. More generally, a formula that was read where some names were
declared has a value in every environment that declares them, and has it on any stack, with its
variables looked up under the names that stand in its text.

**Proof sketch.** The name of every variable that a formula loads is a token of its text that was
declared (`Formula.mem_declared_of_ofSource`), and its program has passed the check, so no operation
of a run is at fault (`Program.exists_run`). The operations stand in the text under the names that
they load, so the run that takes the names from there is the same (`Guarded.evaluate_follows`). -/
theorem evaluate_total :
    (∀ (w : Worksheet) (source : String), w.acceptsValue source ↔ w.acceptsFormula source) ∧
    (∀ (w : Worksheet) (source : String) (refusal : Refusal),
      w.evaluate source = .error refusal ↔
        ∃ rejection, Formula.ofSource w.declared source = .error rejection ∧
          refusal = .formula rejection) ∧
    (∀ w other : Worksheet, (∀ name, w.env.contains name = other.env.contains name) →
      ∀ source : String,
        (∃ value value', w.evaluate source = .ok value ∧ other.evaluate source = .ok value') ∨
          ∃ refusal, w.evaluate source = .error refusal ∧
            other.evaluate source = .error refusal) ∧
    ∀ (declared : List String) (source : String) (formula : Formula),
      Formula.ofSource declared source = .ok formula →
        ∀ env : Environment, env.Declares declared →
          ∃ value, formula.value env = .ok value ∧ ∀ stack, ∃ later,
            (Guarded.evaluate formula.source formula.program env).run.run stack =
              .ok (.ok value, later) := by
  refine ⟨acceptsValue_iff, fun w source refusal => evaluate_eq_error_iff,
    fun w other h source => evaluate_alike h source,
    fun declared source formula hread env henv => ?_⟩
  obtain ⟨value, hvalue⟩ := Formula.exists_value_of_ofSource hread henv
  exact ⟨value, hvalue, Formula.run_evaluate_of_ofSource hread hvalue⟩

/-- The worksheet to start with and one more variable. -/
def withK (value : Float) : Worksheet :=
  initial.declare "k" value

/-- The totality at worksheets with a variable that is no number and that is infinite, at a text
that both evaluate and one that both refuse, and at a formula that is evaluated where more is
declared than it was read with. -/
theorem evaluate_total_withK :
    (∀ name, (withK Arithmetic.notANumber).env.contains name = (withK (1 / 0)).env.contains name) ∧
    (∃ value value', (withK Arithmetic.notANumber).evaluate "2k + pi" = .ok value ∧
      (withK (1 / 0)).evaluate "2k + pi" = .ok value' ∧ value.isNaN ∧ ¬ value'.isNaN) ∧
    (∃ refusal, (withK Arithmetic.notANumber).evaluate "2k +" = .error refusal ∧
      (withK (1 / 0)).evaluate "2k +" = .error refusal) ∧
    ∃ formula, Formula.ofSource ["k"] "sin(k)k" = .ok formula ∧
      (withK (1 / 0)).env.Declares ["k"] ∧ ∃ value, formula.value (withK (1 / 0)).env = .ok value ∧
        ∀ stack, ∃ later, (Guarded.evaluate formula.source formula.program
          (withK (1 / 0)).env).run.run stack = .ok (.ok value, later) := by
  obtain ⟨-, -, halike, htotal⟩ := evaluate_total
  have hcontains : ∀ name,
      (withK Arithmetic.notANumber).env.contains name = (withK (1 / 0)).env.contains name := by
    intro name
    simp only [withK, Environment.contains, get?_declare]
    split <;> rfl
  have haccepted : ((withK Arithmetic.notANumber).evaluate "2k + pi").toOption.any Float.isNaN ∧
      ((withK (1 / 0)).evaluate "2k + pi").toOption.any (!·.isNaN) := by
    decide +kernel
  have hrefused : ((withK Arithmetic.notANumber).evaluate "2k +").isOk = false := by
    decide +kernel
  have hread : (Formula.ofSource ["k"] "sin(k)k").toOption.isSome := by
    decide +kernel
  have hdeclares : (withK (1 / 0)).env.Declares ["k"] := by
    simp only [Environment.Declares, List.forall_mem_singleton]
    decide +kernel
  refine ⟨hcontains, ?_, ?_, ?_⟩
  · rcases halike _ _ hcontains "2k + pi" with ⟨value, value', h, h'⟩ | ⟨refusal, h, -⟩
    · rw [h, h'] at haccepted
      exact ⟨value, value', h, h', by simpa [Except.toOption] using haccepted⟩
    · rw [h] at haccepted
      cases haccepted.1
  · rcases halike _ _ hcontains "2k +" with ⟨value, -, h, -⟩ | hrefusal
    · rw [h] at hrefused
      cases hrefused
    · exact hrefusal
  · obtain ⟨formula, hformula⟩ := Option.isSome_iff_exists.1 hread
    have hok : Formula.ofSource ["k"] "sin(k)k" = .ok formula := eq_ok_of_toOption hformula
    exact ⟨formula, hok, hdeclares, htotal _ _ _ hok _ hdeclares⟩

end Worksheet

end Grapher
