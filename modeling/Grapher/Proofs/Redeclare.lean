import Grapher.Proofs.Contents
import Grapher.Proofs.Scan

set_option relaxedAutoImplicit false
set_option autoImplicit false

/-!
# Formulas under other declarations

The declared variables enter a formula in one way only: a name that is the name of a constant as
well is loaded where it is declared and pushed where it is not. So a text that became a formula
becomes one again under all declarations that keep the variables it loads, and its program is the
same, but for the operations at the names of constants.

## Main definitions

* `Operation.redeclare`, `Reading.redeclare` — operations under other declarations.
* `Formula.constants` — the constants that a formula uses.

## Main results

* `Formula.ofSource_redeclare` — the formula of the same text under other declarations.
* `Formula.redeclare_eq_iff` — it is the same formula exactly if no constant that it uses is
  declared.
-/

namespace Grapher

/-! ## Operations -/

/-- The operation at the same place under other declarations: the name of a constant is loaded
exactly if it is declared. -/
def Operation.redeclare (declared : List String) (operation : Operation) : Operation :=
  match operation.action with
  | .apply _ | .call _ => operation
  | .push _ | .load _ =>
    match Builtin.find? operation.place.text with
    | some (.constant _ value) =>
      if operation.place.text ∈ declared then
        ⟨.load operation.place.text, operation.place⟩
      else ⟨.push value, operation.place⟩
    | _ => operation

namespace Operation

variable (declared : List String)

/-- The name of a constant under other declarations. -/
theorem redeclare_constant {place : Excerpt} {action : Action} {name : String} {value : Float}
    (haction : (∃ number, action = .push number) ∨ ∃ other, action = .load other)
    (hconstant : Builtin.find? place.text = some (.constant name value)) :
    redeclare declared ⟨action, place⟩ =
      if place.text ∈ declared then ⟨.load place.text, place⟩ else ⟨.push value, place⟩ := by
  rcases haction with ⟨number, rfl⟩ | ⟨other, rfl⟩ <;> simp [redeclare, hconstant]

/-- What is not at the name of a constant is the same. -/
theorem redeclare_of_ne {operation : Operation}
    (h : ∀ name value, Builtin.find? operation.place.text ≠ some (.constant name value)) :
    operation.redeclare declared = operation := by
  unfold redeclare
  split
  · rfl
  · rfl
  · split
    · next hconstant => exact absurd hconstant (h _ _)
    · rfl
  · split
    · next hconstant => exact absurd hconstant (h _ _)
    · rfl

/-- What an operation takes is the same under other declarations. -/
theorem arity_redeclare (operation : Operation) :
    (operation.redeclare declared).action.arity = operation.action.arity := by
  by_cases hconstant : ∃ name value,
      Builtin.find? operation.place.text = some (.constant name value)
  · obtain ⟨name, value, hconstant⟩ := hconstant
    obtain ⟨action, place⟩ := operation
    cases action with
    | apply op => rfl
    | call f => rfl
    | push number =>
      rw [redeclare_constant declared (.inl ⟨number, rfl⟩) hconstant]
      split <;> rfl
    | load other =>
      rw [redeclare_constant declared (.inr ⟨other, rfl⟩) hconstant]
      split <;> rfl
  · rw [redeclare_of_ne declared fun name value h => hconstant ⟨name, value, h⟩]

/-- What waits is no name of a constant. -/
theorem redeclare_waiting (waiting : Waiting) :
    waiting.operation.redeclare declared = waiting.operation := by
  cases waiting <;> rfl

end Operation

/-! ## Readings -/

namespace Reading

variable (others : List String)

/-- A reading under other declarations. -/
def redeclare (reading : Reading) : Reading :=
  { reading with output := reading.output.map (Operation.redeclare others) }

theorem redeclare_ending (reading : Reading) (last : Last) :
    (reading.ending last).redeclare others = (reading.redeclare others).ending last := rfl

theorem redeclare_emit (reading : Reading) (action : Action) (place : Excerpt) :
    (reading.emit action place).redeclare others =
      { reading.redeclare others with
        output := Operation.redeclare others ⟨action, place⟩ ::
          reading.output.map (Operation.redeclare others) } := rfl

/-- Operations that waited stay as they are. -/
theorem map_redeclare_waiting (complete : List Waiting) :
    ((complete.map Waiting.operation).reverse).map (Operation.redeclare others) =
      (complete.map Waiting.operation).reverse := by
  rw [List.map_reverse, List.map_map]
  congr 1
  exact List.map_congr_left fun waiting _ => Operation.redeclare_waiting others waiting

theorem redeclare_arrive (reading : Reading) (op : Operator) (place : Excerpt) :
    (reading.arrive op place).redeclare others = (reading.redeclare others).arrive op place := by
  simp only [arrive, redeclare, List.map_append, map_redeclare_waiting]

theorem redeclare_settle (reading : Reading) :
    reading.settle.redeclare others = (reading.redeclare others).settle := by
  simp only [settle, redeclare, List.map_append, map_redeclare_waiting]

theorem redeclare_multiply (reading : Reading) (token : Token) :
    (reading.multiply token).redeclare others = (reading.redeclare others).multiply token := by
  unfold multiply
  rw [← redeclare_arrive]
  exact apply_ite (redeclare others) _ _ _

theorem redeclare_close (reading : Reading) (level : Level) (outer : List Level) :
    (reading.close level outer).redeclare others =
      (reading.redeclare others).close level outer := by
  unfold close
  rw [← redeclare_settle]
  split <;> rfl

variable {declared : List String} {reading later : Reading} {token : Token}

/-- An operand that is read under other declarations. -/
theorem emit_redeclare {action action' : Action} {place : Excerpt} (last : Last)
    (h : Operation.redeclare others ⟨action, place⟩ = ⟨action', place⟩) :
    ((reading.redeclare others).emit action' place).ending last =
      ((reading.emit action place).ending last).redeclare others := by
  rw [redeclare_ending, redeclare_emit, h]
  rfl

/-- A name under other declarations. -/
theorem name_redeclare (h : reading.name declared token.excerpt = .ok later)
    (hload : meaning? declared token.excerpt.text = some .variable → token.excerpt.text ∈ others) :
    (reading.redeclare others).name others token.excerpt = .ok (later.redeclare others) := by
  unfold name at h
  rcases hmeaning : meaning? declared token.excerpt.text with _ | f | _ | value
  · simp [hmeaning] at h
  · simp only [hmeaning, Except.ok.injEq] at h
    have hother : meaning? others token.excerpt.text = some (.function f) :=
      meaning?_eq_function_iff.2 (meaning?_eq_function_iff.1 hmeaning)
    rw [name, hother, ← h]
    rfl
  · simp only [hmeaning, Except.ok.injEq] at h
    have hmem := hload hmeaning
    have hother : meaning? others token.excerpt.text = some .variable :=
      meaning?_eq_variable_iff.2 ⟨(meaning?_eq_variable_iff.1 hmeaning).1, hmem⟩
    have hsame : Operation.redeclare others ⟨.load token.excerpt.text, token.excerpt⟩ =
        ⟨.load token.excerpt.text, token.excerpt⟩ := by
      by_cases hconstant : ∃ name value,
          Builtin.find? token.excerpt.text = some (.constant name value)
      · obtain ⟨name, value, hconstant⟩ := hconstant
        rw [Operation.redeclare_constant others (.inr ⟨_, rfl⟩) hconstant, if_pos hmem]
      · exact Operation.redeclare_of_ne others fun name value h => hconstant ⟨name, value, h⟩
    rw [name, hother, ← h]
    exact congrArg _ (emit_redeclare others _ hsame)
  · simp only [hmeaning, Except.ok.injEq] at h
    obtain ⟨⟨constant, hconstant⟩, -⟩ := meaning?_eq_constant_iff.1 hmeaning
    have hredeclare := Operation.redeclare_constant others (.inl ⟨value, rfl⟩) hconstant
    rw [← h]
    by_cases hmem : token.excerpt.text ∈ others
    · have hother : meaning? others token.excerpt.text = some .variable :=
        meaning?_eq_variable_iff.2 ⟨by simp [hconstant], hmem⟩
      rw [if_pos hmem] at hredeclare
      rw [name, hother]
      exact congrArg _ (emit_redeclare others _ hredeclare)
    · have hother : meaning? others token.excerpt.text = some (.constant value) :=
        meaning?_eq_constant_iff.2 ⟨⟨constant, hconstant⟩, hmem⟩
      rw [if_neg hmem] at hredeclare
      rw [name, hother]
      exact congrArg _ (emit_redeclare others _ hredeclare)

/-- **A step under other declarations**, as long as the variables that it loads are declared. -/
theorem step_redeclare (h : step declared reading token = .ok later)
    (hnumber : token.kind = .number →
      ∀ name value, Builtin.find? token.excerpt.text ≠ some (.constant name value))
    (hload : token.kind = .name → meaning? declared token.excerpt.text = some .variable →
      token.excerpt.text ∈ others) :
    step others (reading.redeclare others) token = .ok (later.redeclare others) := by
  unfold step at h ⊢
  rw [← redeclare_multiply]
  cases hkind : token.kind with
  | number =>
    simp only [hkind, number] at h ⊢
    cases hread : Decimal.read? token.excerpt.text.toList with
    | none => simp [hread] at h
    | some decimal =>
      simp only [hread, Except.ok.injEq] at h ⊢
      rw [← h]
      exact emit_redeclare others _ (Operation.redeclare_of_ne others (hnumber hkind))
  | name =>
    simp only [hkind] at h ⊢
    exact name_redeclare others h (hload hkind)
  | operator op =>
    simp only [hkind, Except.ok.injEq] at h ⊢
    rw [← redeclare_arrive, ← h, redeclare_ending]
  | comma =>
    simp only [hkind, Except.ok.injEq] at h ⊢
    rw [← redeclare_settle, ← h, redeclare_ending]
  | opening =>
    simp only [hkind, Except.ok.injEq] at h ⊢
    rw [← h]
    rfl
  | closing =>
    simp only [hkind] at h ⊢
    cases hlevels : (reading.multiply token).levels with
    | nil => simp [hlevels] at h
    | cons level outer =>
      have hlevels' : ((reading.multiply token).redeclare others).levels = level :: outer := hlevels
      simp only [hlevels, Except.ok.injEq] at h
      simp only [hlevels', Except.ok.injEq]
      rw [← redeclare_close, ← h, redeclare_ending]

/-- **A run under other declarations**, as long as the variables that it loads are declared.

**Proof sketch.** Induction on the tokens. A variable that a token loads is among the operations
of the last reading, for no operation is lost on the way. -/
theorem foldlM_redeclare {tokens : List Token}
    (hnumber : ∀ token ∈ tokens, token.kind = .number →
      ∀ name value, Builtin.find? token.excerpt.text ≠ some (.constant name value)) :
    ∀ {reading later : Reading}, tokens.foldlM (step declared) reading = .ok later →
      (∀ operation ∈ later.contents, ∀ name, operation.action = .load name → name ∈ others) →
      tokens.foldlM (step others) (reading.redeclare others) = .ok (later.redeclare others) := by
  induction tokens with
  | nil =>
    intro reading later h _
    obtain rfl := foldlM_nil_eq_ok_iff.1 h
    rfl
  | cons token rest ih =>
    intro reading later h hload
    obtain ⟨middle, hstep, hrest⟩ := foldlM_cons_eq_ok_iff.1 h
    have hvariable : token.kind = .name → meaning? declared token.excerpt.text = some .variable →
        token.excerpt.text ∈ others := by
      intro hkind hmeaning
      refine hload ⟨.load token.excerpt.text, token.excerpt⟩ ?_ _ rfl
      refine mem_contents_of_foldlM hrest ?_
      rw [(step_eq_ok hstep).1]
      simp [Token.operations, hkind, hmeaning]
    rw [List.foldlM_cons, step_redeclare others hstep (hnumber token (by simp)) hvariable]
    exact ih (fun other hother => hnumber other (by simp [hother])) hrest hload

/-- The program under other declarations. -/
theorem finish_redeclare {program : Program} (h : reading.finish = .ok program) :
    (reading.redeclare others).finish = .ok (program.map (Operation.redeclare others)) := by
  unfold finish at h ⊢
  cases hlevels : reading.levels with
  | nil =>
    have hlevels' : (reading.redeclare others).levels = [] := hlevels
    simp only [hlevels, Except.ok.injEq] at h
    simp only [hlevels', Except.ok.injEq]
    rw [← redeclare_settle, ← h, List.map_reverse]
    rfl
  | cons level outer => simp [hlevels] at h

end Reading

/-! ## Formulas -/

namespace Formula

variable {declared : List String} {source : String} {formula : Formula}

/-- The constants that a formula uses, in the order of its program. -/
def constants (formula : Formula) : List String :=
  formula.program.filterMap fun operation =>
    match operation.action, Builtin.find? operation.place.text with
    | .push _, some (.constant _ _) => some operation.place.text
    | _, _ => none

/-- **The formula of the same text under other declarations**, as long as the variables that it
loads are declared. -/
theorem ofSource_redeclare (h : ofSource declared source = .ok formula) {others : List String}
    (hload : ∀ name ∈ formula.names, name ∈ others) :
    ofSource others source =
      .ok ⟨source, formula.program.map (Operation.redeclare others)⟩ := by
  obtain ⟨-, hprogram, hcheck⟩ := ofSource_eq_ok_iff.1 h
  obtain ⟨hstop, reading, hfold, hfinish⟩ := Reading.program_eq_ok_iff.1 hprogram
  refine ofSource_eq_ok_iff.2 ⟨rfl, Reading.program_eq_ok_iff.2
    ⟨hstop, reading.redeclare others, ?_, Reading.finish_redeclare others hfinish⟩, ?_⟩
  · refine Reading.foldlM_redeclare others (fun token htoken hkind name value => ?_) hfold ?_
    · simp [Token.find?_number htoken hkind]
    · intro operation hoperation name hname
      refine hload name (Program.mem_names.2 ⟨operation, ?_, hname⟩)
      rwa [← Reading.coe_program hfinish, Multiset.mem_coe] at hoperation
  · exact Program.check_eq_ok_iff.2 (Program.foldlM_checkStep_map
      (Operation.arity_redeclare others) (Program.check_eq_ok_iff.1 hcheck))

/-- At the name of a constant a formula loads the variable of that name, or it pushes the value of
the constant, because the text has the name there and it is not declared. -/
theorem at_constant (h : ofSource declared source = .ok formula) {operation : Operation}
    (hoperation : operation ∈ formula.program) {name : String} {value : Float}
    (hconstant : Builtin.find? operation.place.text = some (.constant name value)) :
    (∀ number, operation.action = .push number → number = value ∧
      operation.place.text ∉ declared ∧ ∃ token ∈ (Token.scan source).tokens,
        token.kind = .name ∧ token.excerpt = operation.place) ∧
      ∀ other, operation.action = .load other → other = operation.place.text := by
  obtain ⟨-, hprogram, -⟩ := ofSource_eq_ok_iff.1 h
  obtain ⟨-, reading, hfold, hfinish⟩ := Reading.program_eq_ok_iff.1 hprogram
  have hmem : operation ∈ reading.contents := by
    rwa [← Reading.coe_program hfinish, Multiset.mem_coe]
  rcases Reading.exists_token_of_mem_contents hfold hmem with hnone | ⟨token, htoken, h | rfl⟩
  · simp at hnone
  · unfold Token.operations at h
    cases hkind : token.kind with
    | number =>
      simp only [hkind, List.mem_map] at h
      obtain ⟨decimal, -, rfl⟩ := h
      simp [Token.find?_number htoken hkind] at hconstant
    | name =>
      rcases hmeaning : meaning? declared token.excerpt.text with _ | f | _ | number
      · simp [hkind, hmeaning] at h
      · obtain rfl : operation = ⟨.call f, token.excerpt⟩ := by simpa [hkind, hmeaning] using h
        simp
      · obtain rfl : operation = ⟨.load token.excerpt.text, token.excerpt⟩ := by
          simpa [hkind, hmeaning] using h
        simp
      · obtain rfl : operation = ⟨.push number, token.excerpt⟩ := by
          simpa [hkind, hmeaning] using h
        obtain ⟨⟨other, hother⟩, hundeclared⟩ := meaning?_eq_constant_iff.1 hmeaning
        rw [hconstant, Option.some_inj, Builtin.constant.injEq] at hother
        refine ⟨fun pushed hpushed => ?_, nofun⟩
        obtain rfl := Action.push.inj hpushed
        exact ⟨hother.2.symm, hundeclared, token, htoken, hkind, rfl⟩
    | operator op =>
      obtain rfl : operation = ⟨.apply op, token.excerpt⟩ := by simpa [hkind] using h
      simp
    | comma | opening | closing => simp [hkind] at h
  · simp

/-- A formula uses a constant when it pushes a number at the name of one. -/
theorem mem_constants {formula : Formula} {text : String} :
    text ∈ formula.constants ↔ ∃ operation ∈ formula.program, operation.place.text = text ∧
      (∃ number, operation.action = .push number) ∧
        ∃ name value, Builtin.find? text = some (.constant name value) := by
  simp only [constants, List.mem_filterMap]
  refine exists_congr fun operation => and_congr_right fun _ => ?_
  constructor
  · intro h
    split at h
    · next number name value haction hconstant =>
      obtain rfl := Option.some_inj.1 h
      exact ⟨rfl, ⟨number, haction⟩, name, value, hconstant⟩
    · cases h
  · rintro ⟨rfl, ⟨number, haction⟩, name, value, hconstant⟩
    rw [haction, hconstant]

/-- **It is the same formula** exactly if no constant that it uses is declared.

**Proof sketch.** Only the operations at the names of constants can change. One that pushes the
constant changes if the name is declared, and one that loads the variable stays, for the variable
is still declared. -/
theorem redeclare_eq_iff (h : ofSource declared source = .ok formula) {others : List String}
    (hload : ∀ name ∈ formula.names, name ∈ others) :
    formula.program.map (Operation.redeclare others) = formula.program ↔
      ∀ name ∈ formula.constants, name ∉ others := by
  have hforall : formula.program.map (Operation.redeclare others) = formula.program ↔
      ∀ operation ∈ formula.program, operation.redeclare others = operation := by
    conv_lhs => rw [← List.map_id formula.program]
    rw [List.map_map]
    exact List.map_inj_left
  rw [hforall]
  constructor
  · intro hsame text htext hmem
    obtain ⟨⟨action, place⟩, hoperation, rfl, ⟨number, haction⟩, name, value, hconstant⟩ :=
      mem_constants.1 htext
    obtain rfl : action = .push number := haction
    have hoperation' := hsame _ hoperation
    rw [Operation.redeclare_constant others (.inl ⟨number, rfl⟩) hconstant, if_pos hmem]
      at hoperation'
    cases congrArg Operation.action hoperation'
  · rintro hapart ⟨action, place⟩ hoperation
    by_cases hconstant : ∃ name value, Builtin.find? place.text = some (.constant name value)
    · obtain ⟨name, value, hconstant⟩ := hconstant
      obtain ⟨hpush, hvariable⟩ := at_constant h hoperation hconstant
      cases action with
      | apply op => rfl
      | call f => rfl
      | push number =>
        have hmem : place.text ∈ formula.constants :=
          mem_constants.2 ⟨_, hoperation, rfl, ⟨number, rfl⟩, name, value, hconstant⟩
        rw [Operation.redeclare_constant others (.inl ⟨number, rfl⟩) hconstant,
          if_neg (hapart _ hmem), (hpush number rfl).1]
      | load other =>
        have hmem : other ∈ others :=
          hload other (Program.mem_names.2 ⟨_, hoperation, rfl⟩)
        obtain rfl : other = place.text := hvariable other rfl
        rw [Operation.redeclare_constant others (.inr ⟨_, rfl⟩) hconstant, if_pos hmem]
    · exact Operation.redeclare_of_ne others fun name value h => hconstant ⟨name, value, h⟩

end Formula

end Grapher
