import Grapher.Formula.Basic
import Grapher.Proofs.Grammar
import Mathlib.Algebra.BigOperators.Group.Multiset.Basic
import Mathlib.Algebra.Order.Ring.Int

set_option relaxedAutoImplicit false
set_option autoImplicit false

/-!
# What a reading holds

No step of a reading loses an operation or makes one up: what arrives with a token, and the
product that may be meant before it, is all that a step adds to the operations of the program and
to those that wait. So the program at the end has exactly the operations of the tokens, in an
order of its own. Its balance, the height that it adds to the stack, is therefore a sum over the
tokens.

## Main definitions

* `Token.function?`, `Token.last`, `Last.due` — what a token is to the token behind it.
* `Reading.contents` — the operations of the program and those that wait.
* `Reading.product`, `Token.operations` — what a step adds to them.
* `Operation.gain`, `Reading.balance` — by how much operations raise the stack.

## Main results

* `Reading.step_eq_ok` — what a step adds and what it remembers.
* `Reading.coe_program` — the program has the operations of the last reading.
* `Reading.exists_token_of_mem_contents` — every operation belongs to a token.
* `Reading.program_eq_ok_iff`, `Formula.ofSource_eq_ok_iff` — what makes a text a formula.
* `Program.gain_of_check` — the operations of a program that passes the check raise the stack by
  one.
-/

namespace Grapher

/-! ## Tokens -/

/-- The function that a token names. -/
def Token.function? (token : Token) : Option Callable :=
  match token.kind, Builtin.find? token.excerpt.text with
  | .name, some (.function f) => some f
  | _, _ => none

theorem Token.function?_eq_some_iff {token : Token} {f : Callable} :
    token.function? = some f ↔
      token.kind = .name ∧ Builtin.find? token.excerpt.text = some (.function f) := by
  unfold function?
  split
  · next g hkind hfind => simp [hkind, hfind]
  · next hother =>
    refine iff_of_false (by simp) fun ⟨hkind, hfind⟩ => hother f hkind hfind

/-- A token that is no name names no function. -/
theorem Token.function?_eq_none {token : Token} (h : token.kind ≠ .name) :
    token.function? = none := by
  rw [Option.eq_none_iff_forall_ne_some]
  exact fun f hf => h (function?_eq_some_iff.1 hf).1

/-- Whether an operand is due, so that no product is meant. -/
def Last.due : Last → Bool
  | .nothing | .other => true
  | .number | .operand => false

/-- What the last token was, behind the given one. -/
def Token.last (token : Token) : Last :=
  match token.kind with
  | .number => .number
  | .name => if token.function?.isSome then .other else .operand
  | .closing => .operand
  | .operator _ | .comma | .opening => .other

/-- The operations that a token stands for, where the given variables are declared. -/
def Token.operations (declared : List String) (token : Token) : List Operation :=
  match token.kind with
  | .number =>
    (Decimal.read? token.excerpt.text.toList).toList.map fun decimal =>
      ⟨.push decimal.toFloat, token.excerpt⟩
  | .name =>
    match meaning? declared token.excerpt.text with
    | some (.function f) => [⟨.call f, token.excerpt⟩]
    | some .variable => [⟨.load token.excerpt.text, token.excerpt⟩]
    | some (.constant value) => [⟨.push value, token.excerpt⟩]
    | none => []
  | .operator op => [⟨.apply op, token.excerpt⟩]
  | .comma | .opening | .closing => []

/-- Whether a token can be read: a number writes one, and a name has a meaning. -/
def Token.Readable (declared : List String) (token : Token) : Prop :=
  (token.kind = .number → (Decimal.read? token.excerpt.text.toList).isSome) ∧
    (token.kind = .name → (meaning? declared token.excerpt.text).isSome)

/-! ## Contents -/

namespace Reading

/-- The product that is meant before a token. -/
def product (last : Last) (token : Token) : List Operation :=
  if juxtaposed last token.kind then [⟨.apply .mul, token.excerpt.opening⟩] else []

/-- All operations of what has been read: those of the program and those that wait. -/
def contents (reading : Reading) : Multiset Operation :=
  (reading.output : Multiset Operation) + (reading.waiting.map Waiting.operation : List Operation) +
    ((reading.levels.flatMap Level.around).map Waiting.operation : List Operation)

@[simp]
theorem contents_start : start.contents = 0 := rfl

@[simp]
theorem contents_ending (reading : Reading) (last : Last) :
    (reading.ending last).contents = reading.contents := rfl

@[simp]
theorem contents_emit (reading : Reading) (action : Action) (place : Excerpt) :
    (reading.emit action place).contents = ⟨action, place⟩ ::ₘ reading.contents := by
  simp only [contents, emit, ← Multiset.cons_coe, Multiset.cons_add]

@[simp]
theorem contents_settle (reading : Reading) : reading.settle.contents = reading.contents := by
  simp only [contents, settle, ← Multiset.coe_add, Multiset.coe_reverse, List.map_nil,
    Multiset.coe_nil, add_zero]
  rw [add_comm (reading.output : Multiset Operation)]

/-- What yields to an operator goes from the one part to the other, and the operator is added. -/
@[simp]
theorem contents_arrive (reading : Reading) (op : Operator) (place : Excerpt) :
    (reading.arrive op place).contents = ⟨.apply op, place⟩ ::ₘ reading.contents := by
  set complete := if op.standsBefore then []
    else reading.waiting.takeWhile fun waiting => waiting.yieldsTo op with hcomplete
  have hprefix : complete <+: reading.waiting := by
    rw [hcomplete]
    split
    · exact List.nil_prefix
    · exact List.takeWhile_prefix _
  obtain ⟨rest, hrest⟩ := hprefix
  have hdrop : reading.waiting.drop complete.length = rest := by
    rw [← hrest, List.drop_left]
  have harrive : reading.arrive op place =
      { reading with
        output := (complete.map Waiting.operation).reverse ++ reading.output
        waiting := .operator op place :: rest } := by
    rw [← hdrop]
    rfl
  rw [harrive, contents, contents, ← hrest, List.map_append, List.map_cons,
    ← Multiset.coe_add, ← Multiset.coe_add, Multiset.coe_reverse, ← Multiset.cons_coe,
    Multiset.add_cons, Multiset.cons_add, Waiting.operation]
  congr 1
  ac_rfl

/-- What waits around a parenthesis is kept. -/
theorem contents_opening (reading : Reading) (opened : Excerpt) :
    reading.contents =
      contents { reading with
        waiting := []
        levels := ⟨opened, reading.waiting⟩ :: reading.levels } := by
  simp [contents, ← Multiset.coe_add, add_assoc]

/-- A function that is put to wait. -/
theorem contents_function (reading : Reading) (f : Callable) (place : Excerpt) :
    contents { reading with waiting := .function f place :: reading.waiting } =
      ⟨.call f, place⟩ ::ₘ reading.contents := by
  simp only [contents, List.map_cons, ← Multiset.cons_coe, Multiset.add_cons, Multiset.cons_add,
    Waiting.operation]

/-- A closed parenthesis gives back what waits around it; a function before it is called. -/
theorem contents_close {reading : Reading} {level : Level} {outer : List Level}
    (hlevels : reading.levels = level :: outer) :
    (reading.close level outer).contents = reading.contents := by
  rw [← contents_settle reading]
  unfold close
  split
  · next f place around haround =>
    simp only [contents, emit, settle, hlevels, haround, List.flatMap_cons, List.map_append,
      List.map_cons, List.cons_append, Waiting.operation, ← Multiset.cons_coe, ← Multiset.coe_add,
      List.map_nil, Multiset.coe_nil, add_zero, Multiset.cons_add, Multiset.add_cons]
    congr 1
    ac_rfl
  · simp only [contents, settle, hlevels, List.flatMap_cons, List.map_append, ← Multiset.coe_add,
      List.map_nil, Multiset.coe_nil, add_zero]
    ac_rfl

@[simp]
theorem contents_multiply (reading : Reading) (token : Token) :
    (reading.multiply token).contents = ↑(product reading.last token) + reading.contents := by
  unfold multiply product
  split
  · rw [contents_arrive]
    exact (Multiset.singleton_add _ _).symm
  · simp

section Step

variable {declared : List String} {reading later : Reading} {token : Token}

/-- What the reading of a number does. -/
theorem number_eq_ok (hkind : token.kind = .number) (h : reading.number token.excerpt = .ok later) :
    later.contents = ↑(token.operations declared) + reading.contents ∧
      later.last = token.last ∧ token.Readable declared := by
  unfold number at h
  unfold Token.operations Token.last Token.Readable
  rw [hkind]
  cases hread : Decimal.read? token.excerpt.text.toList with
  | none => simp [hread] at h
  | some decimal =>
    simp only [hread, Except.ok.injEq] at h
    subst h
    refine ⟨?_, rfl, by simp⟩
    rw [contents_ending, contents_emit, ← Multiset.singleton_add]
    simp

/-- What the reading of a name does, for each meaning of the name. -/
theorem name_eq_ok (hkind : token.kind = .name)
    (h : reading.name declared token.excerpt = .ok later) :
    later.contents = ↑(token.operations declared) + reading.contents ∧
      later.last = token.last ∧ token.Readable declared := by
  have hfunction : ∀ f, token.function? = some f ↔
      meaning? declared token.excerpt.text = some (.function f) := fun f => by
    rw [Token.function?_eq_some_iff, meaning?_eq_function_iff]
    simp [hkind]
  have hnone : (∀ f, meaning? declared token.excerpt.text ≠ some (.function f)) →
      token.function? = none := fun hother =>
    Option.eq_none_iff_forall_ne_some.2 fun f hf => hother f ((hfunction f).1 hf)
  unfold name at h
  unfold Token.operations Token.last Token.Readable
  rw [hkind]
  rcases hmeaning : meaning? declared token.excerpt.text with _ | f | _ | value
  · simp [hmeaning] at h
  · simp only [hmeaning, Except.ok.injEq] at h
    subst h
    rw [contents_ending, contents_function, (hfunction f).2 hmeaning]
    exact ⟨rfl, rfl, by simp⟩
  · simp only [hmeaning, Except.ok.injEq] at h
    subst h
    rw [contents_ending, contents_emit, hnone (by simp [hmeaning])]
    exact ⟨rfl, rfl, by simp⟩
  · simp only [hmeaning, Except.ok.injEq] at h
    subst h
    rw [contents_ending, contents_emit, hnone (by simp [hmeaning])]
    exact ⟨rfl, rfl, by simp⟩

/-- **What a step does**: it adds the product that may be meant and the operations of the token,
it remembers what the token was, and the token can be read.

**Proof sketch.** The product is added first. Then there is a case for each kind of token. -/
theorem step_eq_ok (h : step declared reading token = .ok later) :
    later.contents = ↑(product reading.last token) + ↑(token.operations declared) +
        reading.contents ∧
      later.last = token.last ∧ token.Readable declared := by
  set multiplied := reading.multiply token with hmultiplied
  have hcontents : multiplied.contents = ↑(product reading.last token) + reading.contents :=
    contents_multiply reading token
  suffices hadds : later.contents = ↑(token.operations declared) + multiplied.contents ∧
      later.last = token.last ∧ token.Readable declared by
    refine ⟨?_, hadds.2⟩
    rw [hadds.1, hcontents]
    ac_rfl
  unfold step at h
  simp only [← hmultiplied] at h
  cases hkind : token.kind with
  | number =>
    rw [hkind] at h
    exact number_eq_ok hkind h
  | name =>
    rw [hkind] at h
    exact name_eq_ok hkind h
  | operator op =>
    simp only [hkind, Except.ok.injEq] at h
    subst h
    rw [contents_ending, contents_arrive, Token.operations, Token.last, Token.Readable, hkind]
    exact ⟨rfl, rfl, by simp⟩
  | comma =>
    simp only [hkind, Except.ok.injEq] at h
    subst h
    rw [contents_ending, contents_settle, Token.operations, Token.last, Token.Readable, hkind]
    exact ⟨by simp, rfl, by simp⟩
  | opening =>
    simp only [hkind, Except.ok.injEq] at h
    subst h
    rw [contents_ending, ← contents_opening, Token.operations, Token.last, Token.Readable, hkind]
    exact ⟨by simp, rfl, by simp⟩
  | closing =>
    rw [hkind] at h
    cases hlevels : multiplied.levels with
    | nil => simp [hlevels] at h
    | cons level outer =>
      simp only [hlevels, Except.ok.injEq] at h
      subst h
      rw [contents_ending, contents_close hlevels, Token.operations, Token.last, Token.Readable,
        hkind]
      exact ⟨by simp, rfl, by simp⟩

end Step

section Run

variable {declared : List String}

/-- All tokens that were read can be read. -/
theorem readable_of_foldlM {tokens : List Token} :
    ∀ {reading later : Reading}, tokens.foldlM (step declared) reading = .ok later →
      ∀ token ∈ tokens, token.Readable declared := by
  induction tokens with
  | nil => simp
  | cons token rest ih =>
    intro reading later h other hother
    obtain ⟨middle, hstep, hrest⟩ := foldlM_cons_eq_ok_iff.1 h
    rcases List.mem_cons.1 hother with rfl | hother
    · exact (step_eq_ok hstep).2.2
    · exact ih hrest other hother

/-- No operation is lost. -/
theorem mem_contents_of_foldlM {tokens : List Token} {operation : Operation} :
    ∀ {reading later : Reading}, tokens.foldlM (step declared) reading = .ok later →
      operation ∈ reading.contents → operation ∈ later.contents := by
  induction tokens with
  | nil =>
    intro reading later h hmem
    obtain rfl := foldlM_nil_eq_ok_iff.1 h
    exact hmem
  | cons token rest ih =>
    intro reading later h hmem
    obtain ⟨middle, hstep, hrest⟩ := foldlM_cons_eq_ok_iff.1 h
    refine ih hrest ?_
    rw [(step_eq_ok hstep).1]
    exact Multiset.mem_add.2 (.inr hmem)

/-- No operation is made up: each belongs to a token or is a product that is meant before one. -/
theorem exists_token_of_mem_contents {tokens : List Token} {operation : Operation} :
    ∀ {reading later : Reading}, tokens.foldlM (step declared) reading = .ok later →
      operation ∈ later.contents → operation ∈ reading.contents ∨
        ∃ token ∈ tokens, operation ∈ token.operations declared ∨
          operation = ⟨.apply .mul, token.excerpt.opening⟩ := by
  induction tokens with
  | nil =>
    intro reading later h hmem
    obtain rfl := foldlM_nil_eq_ok_iff.1 h
    exact .inl hmem
  | cons token rest ih =>
    intro reading later h hmem
    obtain ⟨middle, hstep, hrest⟩ := foldlM_cons_eq_ok_iff.1 h
    rcases ih hrest hmem with hmiddle | ⟨other, hother, h⟩
    · rw [(step_eq_ok hstep).1, Multiset.mem_add, Multiset.mem_add] at hmiddle
      rcases hmiddle with (hproduct | htoken) | hreading
      · refine .inr ⟨token, by simp, .inr ?_⟩
        unfold product at hproduct
        split at hproduct
        · simpa using hproduct
        · simp at hproduct
      · exact .inr ⟨token, by simp, .inl htoken⟩
      · exact .inl hreading
    · exact .inr ⟨other, by simp [hother], h⟩

end Run

/-- The program has the operations of the last reading. -/
theorem coe_program {reading : Reading} {program : Program} (h : reading.finish = .ok program) :
    (program : Multiset Operation) = reading.contents := by
  unfold finish at h
  cases hlevels : reading.levels with
  | nil =>
    simp only [hlevels, Except.ok.injEq] at h
    rw [← h, Multiset.coe_reverse, ← contents_settle reading]
    have hsettle : reading.settle.levels = [] := hlevels
    rw [contents, hsettle]
    simp [settle]
  | cons level outer => simp [hlevels] at h

end Reading

/-! ## Balance -/

/-- By how much an operation raises the stack: it takes its arguments and leaves a value. -/
def Operation.gain (operation : Operation) : Int :=
  1 - operation.action.arity

/-- By how much the operations of a reading raise the stack. -/
def Reading.balance (reading : Reading) : Int :=
  (reading.contents.map Operation.gain).sum

/-- A check follows what the operations gain. -/
theorem Program.gain_of_foldlM_checkStep {program : Program} :
    ∀ {height later : Nat}, program.foldlM checkStep height = .ok later →
      (later : Int) = height + (program.map Operation.gain).sum := by
  induction program with
  | nil =>
    intro height later h
    obtain rfl := foldlM_nil_eq_ok_iff.1 h
    simp
  | cons operation rest ih =>
    intro height later h
    obtain ⟨middle, hstep, hrest⟩ := foldlM_cons_eq_ok_iff.1 h
    obtain ⟨harity, rfl⟩ := checkStep_eq_ok_iff.1 hstep
    have hlater := ih hrest
    rw [List.map_cons, List.sum_cons, Operation.gain]
    omega

/-- The operations of a program that passes the check raise the stack by one. -/
theorem Program.gain_of_check {program : Program} (h : program.check = .ok ()) :
    (program.map Operation.gain).sum = 1 := by
  have hgain := gain_of_foldlM_checkStep (check_eq_ok_iff.1 h)
  omega

/-! ## Formulas -/

/-- The program of a text comes from a scan to the end and a reading that can be finished. -/
theorem Reading.program_eq_ok_iff {declared : List String} {source : String} {program : Program} :
    Reading.program declared source = .ok program ↔
      (Token.scan source).stop = none ∧
        ∃ reading, (Token.scan source).tokens.foldlM (step declared) start = .ok reading ∧
          reading.finish = .ok program := by
  unfold Reading.program ofScan
  cases (Token.scan source).tokens.foldlM (step declared) start with
  | error misreading => simp [bind, Except.bind]
  | ok reading => cases (Token.scan source).stop <;> simp [bind, Except.bind]

/-- A text becomes a formula when its program passes the check. -/
theorem Formula.ofSource_eq_ok_iff {declared : List String} {source : String}
    {formula : Formula} :
    Formula.ofSource declared source = .ok formula ↔
      formula.source = source ∧ Reading.program declared source = .ok formula.program ∧
        formula.program.check = .ok () := by
  obtain ⟨text, other⟩ := formula
  unfold ofSource
  cases Reading.program declared source with
  | error misreading => simp
  | ok program =>
    cases hcheck : program.check with
    | error fault =>
      simp only [hcheck, reduceCtorEq, Except.ok.injEq, false_iff]
      rintro ⟨-, rfl, hother⟩
      cases hcheck.symm.trans hother
    | ok _ =>
      simp only [hcheck, Except.ok.injEq, Formula.mk.injEq]
      constructor
      · rintro ⟨rfl, rfl⟩
        exact ⟨rfl, rfl, hcheck⟩
      · rintro ⟨rfl, rfl, -⟩
        exact ⟨rfl, rfl⟩

end Grapher
