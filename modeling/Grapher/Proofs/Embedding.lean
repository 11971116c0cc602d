import Grapher.Proofs.Sentences
import Grapher.Proofs.Shifts

set_option relaxedAutoImplicit false
set_option autoImplicit false

/-!
# Readings within readings

A text that can be read on its own is read alike within another text, on top of what has been read
there, from any place where an operand is due and nothing waits since the last open parenthesis. No
step of the reading reaches below what was there at its start: what waits around an open parenthesis
is left alone, and no parenthesis is closed that the text has not opened.

So what is read of a text can be put into parentheses, behind a comma and into the arguments of a
function, and the program goes along, only further on.

## Main definitions

* `Reading.within` — a reading that stands further on, on top of another one.
* `Reading.Embeds` — a row of tokens is read into a program wherever it stands.

## Main results

* `Reading.step_within` — a step on top of another reading.
* `Reading.embeds_of_program` — what is read on its own is read wherever it stands.
* `Reading.Embeds.comma`, `Reading.Embeds.group`, `Reading.Embeds.call`, `Reading.Embeds.sign`,
  `Reading.Embeds.operator` — the rows of tokens that are made of others.
-/

namespace Grapher

/-- The same wait, further on. -/
def Waiting.shift (bytes : Nat) : Waiting → Waiting
  | .operator op place => .operator op (place.shift bytes)
  | .function f place => .function f (place.shift bytes)

@[simp]
theorem Waiting.operation_shift (bytes : Nat) (waiting : Waiting) :
    (waiting.shift bytes).operation = waiting.operation.shift bytes := by
  cases waiting <;> rfl

@[simp]
theorem Waiting.yieldsTo_shift (bytes : Nat) (waiting : Waiting) (op : Operator) :
    (waiting.shift bytes).yieldsTo op = waiting.yieldsTo op := by
  cases waiting <;> rfl

/-- The same open parenthesis, further on. -/
def Level.shift (bytes : Nat) (level : Level) : Level :=
  ⟨level.opened.shift bytes, level.around.map (Waiting.shift bytes)⟩

namespace Reading

variable {declared : List String}

/-- What has been read within another text: it stands further on, and the reading of the other text
lies below. Nothing waits in the other text since its last open parenthesis. -/
def within (reading : Reading) (bytes : Nat) (base : Reading) : Reading where
  output := reading.output.map (Operation.shift bytes) ++ base.output
  waiting := reading.waiting.map (Waiting.shift bytes)
  levels := reading.levels.map (Level.shift bytes) ++ base.levels
  last := reading.last

/-! ## Steps -/

section Within

variable (bytes : Nat) (base reading : Reading)

theorem ending_within (last : Last) :
    (reading.within bytes base).ending last = (reading.ending last).within bytes base := rfl

theorem settle_within :
    (reading.within bytes base).settle = reading.settle.within bytes base := by
  simp [within, settle, Function.comp_def]

theorem arrive_within (op : Operator) (place : Excerpt) :
    (reading.within bytes base).arrive op (place.shift bytes) =
      (reading.arrive op place).within bytes base := by
  have hcomplete :
      (reading.within bytes base).waiting.takeWhile (fun waiting => waiting.yieldsTo op) =
        (reading.waiting.takeWhile fun waiting => waiting.yieldsTo op).map
          (Waiting.shift bytes) := by
    simp [within, List.takeWhile_map, Function.comp_def]
  unfold arrive
  rw [hcomplete]
  cases hop : op.standsBefore with
  | true => rfl
  | false =>
    simp [within, Function.comp_def]
    rfl

theorem multiply_within (token : Token) :
    (reading.within bytes base).multiply (token.shift bytes) =
      (reading.multiply token).within bytes base := by
  have hkind : (token.shift bytes).kind = token.kind := rfl
  have hlast : (reading.within bytes base).last = reading.last := rfl
  unfold multiply
  rw [hkind, hlast]
  split
  · exact arrive_within bytes base reading .mul token.excerpt.opening
  · rfl

theorem close_within (level : Level) (outer : List Level) :
    (reading.within bytes base).close (level.shift bytes)
        (outer.map (Level.shift bytes) ++ base.levels) =
      (reading.close level outer).within bytes base := by
  obtain ⟨opened, around⟩ := level
  have hsettle := settle_within bytes base reading
  unfold close
  rcases around with _ | ⟨⟨op, place⟩ | ⟨f, place⟩, around⟩
  · rw [hsettle]
    rfl
  · rw [hsettle]
    rfl
  · rw [hsettle]
    rfl

variable {bytes base reading}

/-- **A step on top of another reading** is the step on its own, further on. -/
theorem step_within {later : Reading} {token : Token}
    (h : step declared reading token = .ok later) :
    step declared (reading.within bytes base) (token.shift bytes) =
      .ok (later.within bytes base) := by
  have hmultiply := multiply_within bytes base reading token
  set multiplied := reading.multiply token with hmultiplied
  unfold step at h ⊢
  rw [hmultiply]
  simp only [← hmultiplied, Token.shift] at h ⊢
  cases hkind : token.kind with
  | number =>
    simp only [hkind, number, Excerpt.shift] at h ⊢
    cases hread : Decimal.read? token.excerpt.text.toList with
    | none => simp [hread] at h
    | some decimal =>
      simp only [hread, Except.ok.injEq] at h ⊢
      subst h
      rfl
  | name =>
    simp only [hkind, name, Excerpt.shift] at h ⊢
    rcases hmeaning : meaning? declared token.excerpt.text with _ | f | _ | value
    · simp [hmeaning] at h
    all_goals
      simp only [hmeaning, Except.ok.injEq] at h ⊢
      subst h
      rfl
  | operator op =>
    simp only [hkind, Except.ok.injEq] at h ⊢
    subst h
    rw [arrive_within, ending_within]
  | comma =>
    simp only [hkind, Except.ok.injEq] at h ⊢
    subst h
    rw [settle_within, ending_within]
  | opening =>
    simp only [hkind, Except.ok.injEq] at h ⊢
    subst h
    rfl
  | closing =>
    simp only [hkind] at h ⊢
    cases hlevels : multiplied.levels with
    | nil => simp [hlevels] at h
    | cons level outer =>
      have hwithin : (multiplied.within bytes base).levels =
          level.shift bytes :: (outer.map (Level.shift bytes) ++ base.levels) := by
        simp [within, hlevels]
      simp only [hlevels, hwithin, Except.ok.injEq] at h ⊢
      subst h
      rw [close_within, ending_within]

/-- A run on top of another reading. -/
theorem foldlM_within {tokens : List Token} :
    ∀ {reading later : Reading}, tokens.foldlM (step declared) reading = .ok later →
      (tokens.map (Token.shift bytes)).foldlM (step declared) (reading.within bytes base) =
        .ok (later.within bytes base) := by
  induction tokens with
  | nil =>
    intro reading later h
    obtain rfl := foldlM_nil_eq_ok_iff.1 h
    rfl
  | cons token rest ih =>
    intro reading later h
    obtain ⟨middle, hstep, hrest⟩ := foldlM_cons_eq_ok_iff.1 h
    exact foldlM_cons_eq_ok_iff.2 ⟨middle.within bytes base, step_within hstep, ih hrest⟩

end Within

/-! ## Texts -/

/-- Behind the product that may be meant, what the last token was does not matter. -/
theorem step_of_multiply {reading other : Reading} {last : Last} {token : Token}
    (h : other.multiply token = (reading.multiply token).ending last) :
    step declared other token = step declared reading token := by
  unfold step
  rw [h]
  cases hkind : token.kind with
  | number => exact number_ending _ _ _
  | name => exact name_ending _ _ _
  | closing =>
    have hlevels : ((reading.multiply token).ending last).levels =
        (reading.multiply token).levels := rfl
    simp only [hlevels]
    rcases (reading.multiply token).levels with _ | ⟨⟨opened, _ | ⟨_ | _, around⟩⟩, outer⟩ <;> rfl
  | _ => rfl

/-- What the last token was matters only in so far as an operand is due. -/
theorem step_ending_of_due {reading : Reading} {last : Last} (hlast : last.due)
    (hdue : reading.last.due) (token : Token) :
    step declared (reading.ending last) token = step declared reading token := by
  have hmultiply : (reading.ending last).multiply token = (reading.multiply token).ending last := by
    rw [multiply_of_due hdue]
    exact multiply_of_due hlast token
  exact step_of_multiply hmultiply

/-- **A row of tokens is read into a program wherever it stands**: behind what was read before,
where an operand is due and nothing waits since the last open parenthesis, the operations of the
program are done or wait, and nothing else changes. -/
def Embeds (declared : List String) (tokens : List Token) (program : Program) : Prop :=
  ∀ base : Reading, base.last.due → base.waiting = [] →
    ∃ done pending last,
      tokens.foldlM (step declared) base = .ok (base.after done pending last) ∧
      done ++ pending.map Waiting.operation = program

/-- What is read on its own is read on top of another reading, up to what the last token was. -/
theorem exists_foldlM_shift {tokens : List Token} {reading : Reading}
    (hfold : tokens.foldlM (step declared) start = .ok reading) (bytes : Nat) {base : Reading}
    (hdue : base.last.due) (hwaiting : base.waiting = []) :
    ∃ last, (tokens.map (Token.shift bytes)).foldlM (step declared) base =
      .ok ((reading.within bytes base).ending last) := by
  have hbase : base = (start.within bytes base).ending base.last := by
    obtain ⟨output, waiting, levels, last⟩ := base
    obtain rfl : waiting = [] := hwaiting
    rfl
  cases tokens with
  | nil =>
    obtain rfl := foldlM_nil_eq_ok_iff.1 hfold
    exact ⟨base.last, congrArg Except.ok hbase⟩
  | cons first rest =>
    refine ⟨reading.last, ?_⟩
    have hwithin := @foldlM_within declared bytes base _ _ _ hfold
    rw [List.map_cons, List.foldlM_cons] at hwithin ⊢
    rw [hbase, step_ending_of_due hdue rfl]
    exact hwithin

/-- **What is read on its own is read wherever it stands**, further on. -/
theorem embeds_of_program {source : String} {program : Program}
    (h : Reading.program declared source = .ok program) (bytes : Nat) :
    Embeds declared ((Token.scan source).tokens.map (Token.shift bytes)) (program.shift bytes) := by
  intro base hdue hwaiting
  obtain ⟨-, reading, hfold, hfinish⟩ := program_eq_ok_iff.1 h
  obtain ⟨last, hrun⟩ := exists_foldlM_shift hfold bytes hdue hwaiting
  unfold finish at hfinish
  cases hlevels : reading.levels with
  | cons level outer => simp [hlevels] at hfinish
  | nil =>
    simp only [hlevels, Except.ok.injEq] at hfinish
    subst hfinish
    refine ⟨(reading.output.map (Operation.shift bytes)).reverse,
      reading.waiting.map (Waiting.shift bytes), last, hrun.trans ?_, ?_⟩
    · simp [within, after, ending, hlevels, hwaiting]
    · simp [settle, Program.shift, Function.comp_def]

/-! ## Rows of tokens that are made of others -/

namespace Embeds

variable {tokens others : List Token} {program otherProgram : Program}
  {opening closing opening' closing' : Token}

/-- A text whose tokens are read wherever they stand is read on its own. -/
theorem program_eq_ok (h : Embeds declared tokens program) {source : String}
    (hscan : Token.scan source = ⟨tokens, none⟩) :
    Reading.program declared source = .ok program := by
  obtain ⟨done, pending, last, hfold, hprogram⟩ := h start rfl rfl
  rw [program_eq_ok_iff, hscan]
  refine ⟨rfl, _, hfold, ?_⟩
  simp [finish, after, settle, start, hprogram]

/-- A comma between two rows. -/
theorem comma (h : Embeds declared tokens program) {token : Token} (hkind : token.kind = .comma)
    (h' : Embeds declared others otherProgram) :
    Embeds declared (tokens ++ token :: others) (program ++ otherProgram) := by
  intro base hdue hwaiting
  obtain ⟨done, pending, last, hfold, rfl⟩ := h base hdue hwaiting
  have hsettle : (base.after done pending last).settle.ending .other =
      base.after (done ++ pending.map Waiting.operation) [] .other := by
    simp [after, settle, ending, hwaiting]
  obtain ⟨done', pending', last', hfold', rfl⟩ :=
    h' (base.after (done ++ pending.map Waiting.operation) [] .other) rfl hwaiting
  refine ⟨done ++ pending.map Waiting.operation ++ done', pending', last', ?_, by simp⟩
  rw [List.foldlM_append, hfold]
  refine foldlM_cons_eq_ok_iff.2 ⟨_, step_comma hkind, ?_⟩
  rw [hsettle, hfold', after_after, List.append_nil]

section Parentheses

variable (hopening : opening.kind = .opening) (hclosing : closing.kind = .closing)

include hopening hclosing

/-- A row in parentheses is complete, unless they belong to a function. -/
theorem enclosed (h : Embeds declared tokens program) {base : Reading} (hdue : base.last.due)
    (hhead : ∀ f place, base.waiting.head? ≠ some (.function f place)) :
    (opening :: (tokens ++ [closing])).foldlM (step declared) base =
      .ok (base.after program [] .operand) := by
  obtain ⟨done, pending, last, hfold, rfl⟩ :=
    h ⟨base.output, [], ⟨opening.excerpt, base.waiting⟩ :: base.levels, .other⟩ rfl rfl
  rw [foldlM_enclose base hopening hclosing hdue hfold, close_after hhead]

/-- A row in parentheses. -/
theorem group (h : Embeds declared tokens program) :
    Embeds declared (opening :: (tokens ++ [closing])) program := by
  intro base hdue hwaiting
  refine ⟨program, [], .operand, h.enclosed hopening hclosing hdue ?_, by simp⟩
  simp [hwaiting]

/-- A row in parentheses behind a function, which is called. -/
theorem call (h : Embeds declared tokens program) {token : Token} {f : Callable}
    (hkind : token.kind = .name)
    (hfunction : Builtin.find? token.excerpt.text = some (.function f)) :
    Embeds declared (token :: opening :: (tokens ++ [closing]))
      (program ++ [⟨.call f, token.excerpt⟩]) := by
  intro base hdue hwaiting
  set called := base.after [] [.function f token.excerpt] .other
  obtain ⟨done, pending, last, hfold, rfl⟩ :=
    h ⟨called.output, [], ⟨opening.excerpt, called.waiting⟩ :: called.levels, .other⟩ rfl rfl
  refine ⟨done ++ pending.map Waiting.operation ++ [⟨.call f, token.excerpt⟩], [], .operand, ?_,
    by simp⟩
  refine foldlM_cons_eq_ok_iff.2 ⟨called, step_function hkind hdue hfunction, ?_⟩
  rw [foldlM_enclose called hopening hclosing rfl hfold]
  exact congrArg Except.ok (close_after_function base)

/-- A row in parentheses behind a sign, which waits. -/
theorem sign (h : Embeds declared tokens program) {token : Token} {op : Operator}
    (hkind : token.kind = .operator op) (hop : op.standsBefore) :
    Embeds declared (token :: opening :: (tokens ++ [closing]))
      (program ++ [⟨.apply op, token.excerpt⟩]) := by
  intro base hdue hwaiting
  have hstep : step declared base token =
      .ok (base.after [] [.operator op token.excerpt] .other) := by
    rw [step_operator hkind]
    simp [arrive, after, ending, hop]
  refine ⟨program, [.operator op token.excerpt], .operand, ?_, rfl⟩
  refine foldlM_cons_eq_ok_iff.2 ⟨_, hstep, ?_⟩
  rw [h.enclosed hopening hclosing rfl (by simp [after]), after_after]
  rfl

/-- An operator between two rows in parentheses, which waits. -/
theorem operator (h : Embeds declared tokens program) {token : Token} {op : Operator}
    (hkind : token.kind = .operator op) (hop : op.standsBefore = false)
    (hopening' : opening'.kind = .opening) (hclosing' : closing'.kind = .closing)
    (h' : Embeds declared others otherProgram) :
    Embeds declared
      ((opening :: (tokens ++ [closing])) ++ token :: opening' :: (others ++ [closing']))
      (program ++ otherProgram ++ [⟨.apply op, token.excerpt⟩]) := by
  intro base hdue hwaiting
  have harrive : ((base.after program [] .operand).arrive op token.excerpt).ending .other =
      base.after program [.operator op token.excerpt] .other := by
    rw [arrive_after program .operand hop (by simp) (hwaiting ▸ blocks_nil _)]
    simp
  refine ⟨program ++ otherProgram, [.operator op token.excerpt], .operand, ?_, rfl⟩
  rw [List.foldlM_append, h.enclosed hopening hclosing hdue (by simp [hwaiting])]
  refine foldlM_cons_eq_ok_iff.2 ⟨_, step_operator hkind, ?_⟩
  rw [harrive, h'.enclosed hopening' hclosing' rfl (by simp [after]), after_after]
  rfl

end Parentheses

end Embeds

end Reading

end Grapher
