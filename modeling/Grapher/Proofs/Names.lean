import Grapher.Proofs.Environments
import Grapher.Proofs.Places
import Grapher.Worksheet.Change

set_option relaxedAutoImplicit false
set_option autoImplicit false

/-!
# Names as formulas

A text that can name a variable is one token, so as a formula it is the name. Where it is declared
and no function has it, the formula loads the variable and its value is that of the variable, also
where a constant has the name. No other text is a single name, and no other text becomes a formula
that does nothing but load the variable of this name.

## Main results

* `Token.scan_name` — a name is scanned as one token.
* `Formula.ofSource_name` — the formula of the name of a variable.
* `Worksheet.evaluate_name` — the name of a variable has the value of the variable.
* `Formula.wholeName_iff` — which texts are scanned as one name, and which become a formula that
  loads the variable of this name.
-/

namespace Grapher

namespace Token

variable {c : Char}

/-! ## Characters that start a name -/

/-- A name starts with a letter of the basic alphabet or an underscore. -/
theorem toNat_of_isNameStart (h : isNameStart c) : 65 ≤ c.toNat ∧ c.toNat ≤ 122 := by
  have hranges : (decide (65 ≤ c.toNat ∧ c.toNat ≤ 90) ||
      (decide (97 ≤ c.toNat) && decide (c.toNat ≤ 122)) || c == '_') = true := h
  simp only [Bool.or_eq_true, Bool.and_eq_true, decide_eq_true_eq, beq_iff_eq] at hranges
  rcases hranges with (hupper | hlower) | rfl
  · omega
  · omega
  · decide

/-- No name starts with a blank. -/
theorem isBlank_of_isNameStart (h : isNameStart c) : Text.isBlank c = false := by
  obtain ⟨hlow, hhigh⟩ := toNat_of_isNameStart h
  simp only [Text.isBlank, Text.blankRanges, List.any_cons, List.any_nil, Bool.or_eq_false_iff,
    Bool.and_eq_false_iff, decide_eq_false_iff_not, and_true]
  omega

/-- No name starts with an operator, a comma or a parenthesis. -/
theorem symbol?_of_isNameStart (h : isNameStart c) (due : Bool) : symbol? due c = none := by
  unfold symbol?
  split <;> first | rfl | exact absurd h (by decide)

/-- No name starts with a character of another notation. -/
theorem Reserved.ofChar?_of_isNameStart (h : isNameStart c) : Reserved.ofChar? c = none := by
  unfold Reserved.ofChar?
  split <;> first | rfl | exact absurd h (by decide)

/-- What starts like a name is a name, as far as it goes on like one. -/
theorem lexeme?_of_isNameStart (h : isNameStart c) (due : Bool) (rest : List Char) :
    lexeme? due c rest = .ok (.name, (rest.takeWhile isNameRest).length) := by
  simp only [lexeme?, symbol?_of_isNameStart h, Reserved.ofChar?_of_isNameStart h, if_pos h]

/-! ## Names -/

/-- **A name is scanned as one token.** -/
theorem scan_name {name : String} (h : isName name) : scan name = ⟨[⟨.name, .all name⟩], none⟩ := by
  unfold isName at h
  cases htext : name.toList with
  | nil => simp [htext] at h
  | cons c rest =>
    obtain ⟨hstart, hrest⟩ : isNameStart c ∧ rest.all isNameRest := by simpa [htext] using h
    have htake : rest.takeWhile isNameRest = rest :=
      List.takeWhile_eq_self_iff.2 (List.all_eq_true.1 hrest)
    have hname : String.ofList (c :: rest) = name := by rw [← htext, String.ofList_toList]
    rw [scan, htext, scanFrom, if_neg (by simp [isBlank_of_isNameStart hstart]),
      lexeme?_of_isNameStart hstart, htake]
    simp only [List.take_length, List.drop_length, hname, scanFrom]
    rfl

/-- The texts that are scanned as one name are the names. -/
theorem scan_eq_name_iff {text : String} :
    scan text = ⟨[⟨.name, .all text⟩], none⟩ ↔ isName text := by
  refine ⟨fun h => ?_, scan_name⟩
  have hmem : (⟨.name, .all text⟩ : Token) ∈ (scan text).tokens := by simp [h]
  exact isName_of_mem_scan hmem rfl

end Token

variable {name : String} {declared : List String}

/-- The program of the name of a variable loads the variable. -/
theorem Reading.program_name (h : isName name)
    (hmeaning : meaning? declared name = some .variable) :
    Reading.program declared name = .ok [⟨.load name, .all name⟩] := by
  have hread : start.name declared (.all name) =
      .ok ((start.emit (.load name) (.all name)).ending .operand) := by
    simp only [Reading.name, Excerpt.all, hmeaning]
  rw [Reading.program, Token.scan_name h, ofScan]
  simp only [List.foldlM_cons, List.foldlM_nil]
  have hstep : step declared start ⟨.name, .all name⟩ = start.name declared (.all name) := rfl
  rw [hstep, hread]
  rfl

/-- **The formula of the name of a variable** loads the variable. -/
theorem Formula.ofSource_name (h : isName name)
    (hmeaning : meaning? declared name = some .variable) :
    Formula.ofSource declared name = .ok ⟨name, [⟨.load name, .all name⟩]⟩ :=
  ofSource_eq_ok_iff.2 ⟨rfl, Reading.program_name h hmeaning, rfl⟩

/-- A declared text becomes a formula that loads the variable of this name exactly if the text is a
name that no function has. -/
theorem Formula.ofSource_eq_load_iff (hdeclared : name ∈ declared) :
    Formula.ofSource declared name = .ok ⟨name, [⟨.load name, .all name⟩]⟩ ↔
      isName name ∧ ∀ f ∈ Builtin.functions, f.name ≠ name := by
  constructor
  · intro h
    obtain ⟨-, hname, hfree⟩ := (readFrom_of_ofSource h _ (List.mem_singleton_self _)).load name rfl
    refine ⟨hname, ?_⟩
    rintro f hf rfl
    exact hfree f (Builtin.find?_name hf)
  · rintro ⟨hname, hfree⟩
    refine ofSource_name hname (meaning?_eq_variable_iff.2 ⟨fun f hf => ?_, hdeclared⟩)
    obtain ⟨hmem, hsame⟩ := Builtin.mem_functions_of_find? hf
    exact hfree f hmem hsame

/-- **Texts that are one name.** A text is scanned as one token, which is a name and all of the
text, exactly if it can name a variable. Where it is declared, it becomes the formula that only
loads the variable of this name exactly if it can name a variable and no function has the name. -/
theorem Formula.wholeName_iff (name : String) :
    (isName name ↔ Token.scan name = ⟨[⟨.name, .all name⟩], none⟩) ∧
      ∀ declared, name ∈ declared →
        (Formula.ofSource declared name = .ok ⟨name, [⟨.load name, .all name⟩]⟩ ↔
          isName name ∧ ∀ f ∈ Builtin.functions, f.name ≠ name) :=
  ⟨Token.scan_eq_name_iff.symm, fun _ => ofSource_eq_load_iff⟩

/-- The name of the circle constant can be a variable, and the name of a function cannot. -/
theorem Formula.wholeName_iff_pi_sin :
    "pi" ∈ ["sin", "pi"] ∧ "sin" ∈ ["sin", "pi"] ∧
      Formula.ofSource ["sin", "pi"] "pi" = .ok ⟨"pi", [⟨.load "pi", .all "pi"⟩]⟩ ∧
      Formula.ofSource ["sin", "pi"] "sin" ≠ .ok ⟨"sin", [⟨.load "sin", .all "sin"⟩]⟩ := by
  have hpi : "pi" ∈ ["sin", "pi"] := by decide
  have hsin : "sin" ∈ ["sin", "pi"] := by decide
  refine ⟨hpi, hsin, ((wholeName_iff "pi").2 _ hpi).2 ⟨by decide, by decide⟩, fun h => ?_⟩
  exact absurd (((wholeName_iff "sin").2 _ hsin).1 h).2 (by decide)

/-- **The name of a variable has the value of the variable**, unless a function has the name. -/
theorem Worksheet.evaluate_name {w : Worksheet} (h : isName name) {value : Float}
    (hvalue : w.env.get? name = some value) (hfree : ∀ f ∈ Builtin.functions, f.name ≠ name) :
    w.evaluate name = .ok value := by
  have hdeclared : name ∈ w.declared :=
    Environment.mem_names_iff.2 (by rw [Environment.contains, hvalue]; rfl)
  have hmeaning : meaning? w.declared name = some .variable :=
    meaning?_eq_variable_iff.2 ⟨fun f hf =>
      hfree f (Builtin.mem_functions_of_find? hf).1 (Builtin.mem_functions_of_find? hf).2,
      hdeclared⟩
  have hrun : Formula.value ⟨name, [⟨.load name, .all name⟩]⟩ w.env = .ok value := by
    rw [Formula.value, Program.run, if_neg (by simp), List.foldlM_cons, Program.runStep]
    simp only [hvalue]
    rfl
  simp only [evaluate, Formula.ofSource_name h hmeaning, hrun]

end Grapher
