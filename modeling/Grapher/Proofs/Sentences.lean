import Grapher.Formula.Basic
import Grapher.Proofs.Contents
import Grapher.Proofs.Scan

set_option relaxedAutoImplicit false
set_option autoImplicit false

/-!
# Sentences are read

Every sentence of the grammar is read into the postorder listing of its tree, whatever stands
around it. The reading has no rules for phrases: it keeps operators waiting until their operands
are complete. What it keeps waiting behind a phrase yields to every operator that can follow the
phrase, and what waits before a phrase yields to no operator within it.

## Main definitions

* `Reading.after` — a reading once some operations are done and some more wait.
* `Reading.Blocks`, `Grammar.Ready` — what may wait before a phrase.
* `Grammar.Lists` — tokens are read into the listing of trees, up to what still waits.
* `Grammar.Phrase.level` — the operators to which a phrase yields.

## Main results

* `Grammar.Derives.lists` — reading a phrase lists its trees.
* `Formula.ofSource_of_derives` — a sentence becomes a formula with the value of its tree.
-/

namespace Grapher

/-! ## What a step does -/

/-- What the last token was, behind a phrase. -/
def Last.behind (tokens : List Token) : Last :=
  if tokens.getLast?.map Token.kind = some .number then .number else .operand

theorem Last.behind_append (tokens : List Token) {others : List Token} (h : others ≠ []) :
    behind (tokens ++ others) = behind others := by
  rw [behind, behind, List.getLast?_append, List.getLast?_eq_some_getLast h, Option.some_or]

/-- An operator yields to those that bind less tightly, and to its equals if they are grouped from
the left. -/
theorem Operator.yieldsTo_iff {op arriving : Operator} :
    op.yieldsTo arriving ↔
      arriving.precedence < op.precedence ∨
        arriving.precedence = op.precedence ∧ op.grouping = .left := by
  cases op <;> cases arriving <;> decide

/-- An operator yields to all that bind at most as tightly as a level below its own, or as its own
if it is grouped from the left. -/
theorem Operator.yieldsTo_of_le {op arriving : Operator} {level : Nat}
    (h : level < op.precedence ∨ level = op.precedence ∧ op.grouping = .left)
    (harriving : arriving.precedence ≤ level) : op.yieldsTo arriving := by
  rw [yieldsTo_iff]
  obtain hlt | ⟨heq, hleft⟩ := h
  · exact .inl (by omega)
  · exact (Nat.lt_or_ge arriving.precedence op.precedence).imp_right fun hge =>
      ⟨by omega, hleft⟩

namespace Reading

variable {declared : List String}

/-- The reading once the operations of `done` went to the program and `pending` waits. -/
def after (reading : Reading) (done : Program) (pending : List Waiting) (last : Last) : Reading :=
  { reading with
    output := done.reverse ++ reading.output
    waiting := pending ++ reading.waiting
    last := last }

theorem after_after (reading : Reading) (done done' : Program) (pending pending' : List Waiting)
    (last last' : Last) :
    (reading.after done pending last).after done' pending' last' =
      reading.after (done ++ done') (pending' ++ pending) last' := by
  simp [after]

/-- Nothing that waits yields to an operator that binds at least as tightly as told. -/
def Blocks (precedence : Nat) (waiting : List Waiting) : Prop :=
  ∀ first ∈ waiting.head?, ∀ op : Operator, op.standsBefore = false →
    precedence ≤ op.precedence → first.yieldsTo op = false

theorem Blocks.mono {precedence greater : Nat} {waiting : List Waiting}
    (h : Blocks precedence waiting) (hle : precedence ≤ greater) : Blocks greater waiting :=
  fun first hfirst op hop hprecedence => h first hfirst op hop (hle.trans hprecedence)

/-- An operator keeps what binds tighter apart from what waits before it; a power keeps another
one apart as well, for powers are grouped from the right. -/
theorem blocks_operator {op : Operator} {precedence : Nat}
    (h : op.precedence < precedence ∨ op.precedence = precedence ∧ op.grouping = .right)
    (place : Excerpt) (waiting : List Waiting) :
    Blocks precedence (.operator op place :: waiting) := by
  rintro _ ⟨⟩ arriving _ harriving
  have hyields : ¬ op.yieldsTo arriving := by
    rw [Operator.yieldsTo_iff]
    rintro (hlt | ⟨heq, hleft⟩)
    · omega
    · obtain hlt | ⟨-, hright⟩ := h
      · omega
      · exact absurd (hleft.symm.trans hright) (by decide)
  exact Bool.eq_false_iff.2 hyields

/-- A function that waits is kept apart from nothing. -/
theorem Blocks.head_ne_function {precedence : Nat} {waiting : List Waiting}
    (h : Blocks precedence waiting) (hle : precedence ≤ 5) (f : Callable) (place : Excerpt) :
    waiting.head? ≠ some (.function f place) := fun hhead =>
  Bool.noConfusion (h (.function f place) hhead .pow rfl hle)

/-- Where an operand is due, no product is meant. -/
theorem multiply_of_due {reading : Reading} (h : reading.last.due) (token : Token) :
    reading.multiply token = reading := by
  unfold multiply juxtaposed
  cases hlast : reading.last <;> simp_all [Last.due]

/-- What the last token was decides nothing but whether a product is meant. -/
theorem number_ending (reading : Reading) (last : Last) (place : Excerpt) :
    (reading.ending last).number place = reading.number place := by
  unfold number
  cases Decimal.read? place.text.toList <;> rfl

theorem name_ending (reading : Reading) (last : Last) (place : Excerpt) :
    (reading.ending last).name declared place = reading.name declared place := by
  unfold name
  rcases meaning? declared place.text with _ | _ | _ | _ <;> rfl

/-- Where two operands meet, the product comes before the second one. -/
theorem step_of_juxtaposed {reading : Reading} {token : Token}
    (h : juxtaposed reading.last token.kind) :
    step declared reading token =
      step declared ((reading.arrive .mul token.excerpt.opening).ending .other) token := by
  have hleft : reading.multiply token = reading.arrive .mul token.excerpt.opening := if_pos h
  have hright : ((reading.arrive .mul token.excerpt.opening).ending .other).multiply token =
      (reading.arrive .mul token.excerpt.opening).ending .other := multiply_of_due rfl token
  unfold step
  rw [hleft, hright]
  cases hkind : token.kind with
  | number => exact (number_ending _ _ _).symm
  | name => exact (name_ending _ _ _).symm
  | opening => rfl
  | operator op => cases hlast : reading.last <;> simp [juxtaposed, hlast, hkind] at h
  | comma => cases hlast : reading.last <;> simp [juxtaposed, hlast, hkind] at h
  | closing => cases hlast : reading.last <;> simp [juxtaposed, hlast, hkind] at h

theorem blocks_nil (precedence : Nat) : Blocks precedence [] := by
  simp [Blocks]

/-- An operator that arrives behind a phrase completes what the phrase left waiting. -/
theorem arrive_after {reading : Reading} {pending : List Waiting} {op : Operator}
    (done : Program) (last : Last) (hop : op.standsBefore = false)
    (hpending : ∀ waiting ∈ pending, waiting.yieldsTo op)
    (hblocks : Blocks op.precedence reading.waiting) (place : Excerpt) :
    ((reading.after done pending last).arrive op place).ending .other =
      reading.after (done ++ pending.map Waiting.operation) [.operator op place] .other := by
  have hrest : reading.waiting.takeWhile (fun waiting => waiting.yieldsTo op) = [] := by
    cases hwaiting : reading.waiting with
    | nil => rfl
    | cons first rest =>
      have hfirst : first.yieldsTo op = false := hblocks first (by simp [hwaiting]) op hop le_rfl
      simp [hfirst]
  have hcomplete : (pending ++ reading.waiting).takeWhile (fun waiting => waiting.yieldsTo op) =
      pending := by
    rw [List.takeWhile_append_of_pos hpending, hrest, List.append_nil]
  simp [arrive, after, ending, hop, hcomplete]

/-- Reading an operator between two operands. -/
theorem step_operator {reading : Reading} {token : Token} {op : Operator}
    (hkind : token.kind = .operator op) :
    step declared reading token = .ok ((reading.arrive op token.excerpt).ending .other) := by
  have hmultiply : reading.multiply token = reading := by
    unfold multiply juxtaposed
    cases hlast : reading.last <;> simp [hkind]
  unfold step
  rw [hmultiply, hkind]

/-- Reading a comma. -/
theorem step_comma {reading : Reading} {token : Token} (hkind : token.kind = .comma) :
    step declared reading token = .ok (reading.settle.ending .other) := by
  have hmultiply : reading.multiply token = reading := by
    unfold multiply juxtaposed
    cases hlast : reading.last <;> simp [hkind]
  unfold step
  rw [hmultiply, hkind]

/-- Reading an opening parenthesis where an operand is due. -/
theorem step_opening {reading : Reading} {token : Token} (hkind : token.kind = .opening)
    (hdue : reading.last.due) :
    step declared reading token =
      .ok ⟨reading.output, [], ⟨token.excerpt, reading.waiting⟩ :: reading.levels, .other⟩ := by
  unfold step
  rw [multiply_of_due hdue, hkind]
  rfl

/-- Reading a closing parenthesis. -/
theorem step_closing {reading : Reading} {token : Token} {level : Level} {outer : List Level}
    (hkind : token.kind = .closing) (hlevels : reading.levels = level :: outer) :
    step declared reading token = .ok ((reading.close level outer).ending .operand) := by
  have hmultiply : reading.multiply token = reading := by
    unfold multiply juxtaposed
    cases hlast : reading.last <;> simp [hkind]
  unfold step
  rw [hmultiply, hkind]
  simp only [hlevels]

/-- Reading a name where an operand is due. -/
theorem step_name {reading : Reading} {token : Token} (hkind : token.kind = .name)
    (hdue : reading.last.due) :
    step declared reading token = reading.name declared token.excerpt := by
  unfold step
  rw [multiply_of_due hdue, hkind]

/-- Reading the name of a function where an operand is due. -/
theorem step_function {reading : Reading} {token : Token} {f : Callable}
    (hkind : token.kind = .name) (hdue : reading.last.due)
    (hfunction : Builtin.find? token.excerpt.text = some (.function f)) :
    step declared reading token =
      .ok (reading.after [] [.function f token.excerpt] .other) := by
  rw [step_name hkind hdue, name, meaning?_eq_function_iff.2 hfunction]
  rfl

/-- Reading a number where an operand is due. -/
theorem step_number {reading : Reading} {token : Token} (hkind : token.kind = .number)
    (hdue : reading.last.due) :
    step declared reading token = reading.number token.excerpt := by
  unfold step
  rw [multiply_of_due hdue, hkind]

/-- A phrase in parentheses, with no function before them. -/
theorem close_after {outer : Reading} {opened : Excerpt} {done : Program} {pending : List Waiting}
    {last : Last} (h : ∀ f place, outer.waiting.head? ≠ some (.function f place)) :
    ((Reading.after ⟨outer.output, [], ⟨opened, outer.waiting⟩ :: outer.levels, .other⟩
        done pending last).close ⟨opened, outer.waiting⟩ outer.levels).ending .operand =
      outer.after (done ++ pending.map Waiting.operation) [] .operand := by
  unfold close
  split
  · next f place around haround =>
    have hhead : outer.waiting = .function f place :: around := haround
    exact absurd (congrArg List.head? hhead) (h f place)
  · simp [after, settle, ending]

/-- A phrase in parentheses that belong to a function. -/
theorem close_after_function (outer : Reading) {opened place : Excerpt} {f : Callable}
    {done : Program} {pending : List Waiting} {last : Last} :
    ((Reading.after ⟨outer.output, [], ⟨opened, .function f place :: outer.waiting⟩ :: outer.levels,
        .other⟩ done pending last).close ⟨opened, .function f place :: outer.waiting⟩
        outer.levels).ending .operand =
      outer.after (done ++ pending.map Waiting.operation ++ [⟨.call f, place⟩]) [] .operand := by
  simp [close, after, settle, emit, ending]

/-- Reading tokens in parentheses where an operand is due. -/
theorem foldlM_enclose (reading : Reading) {opening closing : Token} {tokens : List Token}
    {done : Program} {pending : List Waiting} {last : Last} (hopening : opening.kind = .opening)
    (hclosing : closing.kind = .closing) (hdue : reading.last.due)
    (h : tokens.foldlM (step declared)
        ⟨reading.output, [], ⟨opening.excerpt, reading.waiting⟩ :: reading.levels, .other⟩ =
      .ok (after ⟨reading.output, [], ⟨opening.excerpt, reading.waiting⟩ :: reading.levels, .other⟩
        done pending last)) :
    (opening :: (tokens ++ [closing])).foldlM (step declared) reading =
      .ok (((after
        ⟨reading.output, [], ⟨opening.excerpt, reading.waiting⟩ :: reading.levels, .other⟩ done
        pending last).close ⟨opening.excerpt, reading.waiting⟩ reading.levels).ending
          .operand) := by
  refine foldlM_cons_eq_ok_iff.2 ⟨_, step_opening hopening hdue, ?_⟩
  rw [List.foldlM_append, h]
  exact foldlM_cons_eq_ok_iff.2 ⟨_, step_closing hclosing rfl, rfl⟩

end Reading

/-! ## Phrases -/

namespace Grammar

variable {declared : List String}

/-- The operators to which a complete phrase yields are those that bind at most as tightly. -/
def Phrase.level : Phrase → Nat
  | .sum | .arguments => 2
  | .product | .signed | .power => 3
  | .primary => 5

/-- What may wait before a phrase: nothing that yields to an operator of the phrase, and no
function before a parenthesis. -/
def Ready (waiting : List Waiting) (tokens : List Token) : Phrase → Prop
  | .sum | .arguments => waiting = []
  | .product => Reading.Blocks 3 waiting
  | .signed | .power => Reading.Blocks 5 waiting
  | .primary => (∃ first ∈ tokens.head?, first.kind = .opening) →
      ∀ f place, waiting.head? ≠ some (.function f place)

/-- Nothing waits before a sum. -/
theorem Ready.blocks {waiting : List Waiting} {tokens : List Token}
    (h : Ready waiting tokens .sum) (precedence : Nat) : Reading.Blocks precedence waiting := by
  rw [show waiting = [] from h]
  exact Reading.blocks_nil precedence

/-- A power starts with an operand. -/
theorem Derives.head_kind {phrase : Phrase} {tokens : List Token} {trees : List Tree}
    (h : Derives declared phrase tokens trees) (hphrase : phrase = .power ∨ phrase = .primary) :
    ∀ first ∈ tokens.head?,
      first.kind = .number ∨ first.kind = .name ∨ first.kind = .opening := by
  induction h with
  | number hliteral => simp [hliteral.1]
  | load hkind | constant hkind | call hkind | application hkind => simp [hkind]
  | group hopening => simp [hopening]
  | base _ ih => exact ih (.inr rfl)
  | raised hprimary _ _ ih _ =>
    rw [List.head?_append, List.head?_eq_some_head hprimary.ne_nil, Option.some_or,
      ← List.head?_eq_some_head]
    exact ih (.inr rfl)
  | _ => simp at hphrase

/-- A product is meant where a power meets what stands before it, unless both are numbers. -/
theorem juxtaposed_behind {tokens : List Token} {first : Token} (hne : tokens ≠ [])
    (hfirst : first.kind = .number ∨ first.kind = .name ∨ first.kind = .opening)
    (hapart : ∀ last ∈ tokens.getLast?, ¬ (last.kind = .number ∧ first.kind = .number)) :
    Reading.juxtaposed (.behind tokens) first.kind := by
  rw [List.getLast?_eq_some_getLast hne] at hapart
  have hkinds := hapart _ rfl
  simp only [Last.behind, List.getLast?_eq_some_getLast hne, Option.map_some, Option.some_inj]
  by_cases hlast : (tokens.getLast hne).kind = .number
  · rw [if_pos hlast]
    rcases hfirst with h | h | h
    · exact absurd ⟨hlast, h⟩ hkinds
    · rw [h]
      rfl
    · rw [h]
      rfl
  · rw [if_neg hlast]
    rcases hfirst with h | h | h <;> rw [h] <;> rfl

/-- Reading some tokens lists trees: some operations go to the program, the others wait to
complete the listing, and these yield to every operator up to the given precedence. -/
def Lists (declared : List String) (reading : Reading) (tokens : List Token) (trees : List Tree)
    (level : Nat) : Prop :=
  ∃ done pending,
    tokens.foldlM (Reading.step declared) reading =
      .ok (reading.after done pending (.behind tokens)) ∧
    done ++ pending.map Waiting.operation = Tree.postorders trees ∧
    ∀ waiting ∈ pending, ∀ op : Operator, op.standsBefore = false →
      op.precedence ≤ level → waiting.yieldsTo op

theorem Lists.mono {reading : Reading} {tokens : List Token} {trees : List Tree}
    {level lower : Nat} (h : Lists declared reading tokens trees level) (hle : lower ≤ level) :
    Lists declared reading tokens trees lower := by
  obtain ⟨done, pending, hfold, hlisting, hyields⟩ := h
  exact ⟨done, pending, hfold, hlisting, fun waiting hwaiting op hop hlevel =>
    hyields waiting hwaiting op hop (hlevel.trans hle)⟩

/-- A token that pushes a number or loads a variable. -/
theorem lists_leaf {reading : Reading} {token : Token} {action : Action}
    (h : Reading.step declared reading token =
      .ok ((reading.emit action token.excerpt).ending (.behind [token]))) (level : Nat) :
    Lists declared reading [token] [.leaf ⟨action, token.excerpt⟩] level := by
  refine ⟨[⟨action, token.excerpt⟩], [], ?_, rfl, by simp⟩
  rw [List.foldlM_cons, h]
  rfl

/-- An operator, written or meant, between a phrase and what it is joined to. -/
theorem Lists.join {reading : Reading} {tokens suffix : List Token} {tree other : Tree}
    {op : Operator} {place : Excerpt} {level level' : Nat} (others : List Token)
    (h : Lists declared reading tokens [tree] level) (hop : op.standsBefore = false)
    (hlevel : op.precedence ≤ level) (hblocks : Reading.Blocks op.precedence reading.waiting)
    (hyields : ∀ arriving : Operator, arriving.standsBefore = false →
      arriving.precedence ≤ level' → op.yieldsTo arriving)
    (hsuffix : ∀ between : Reading, between.last = .behind tokens →
      suffix.foldlM (Reading.step declared) between =
        others.foldlM (Reading.step declared) ((between.arrive op place).ending .other))
    (hbehind : Last.behind (tokens ++ suffix) = .behind others)
    (h' : ∀ later : Reading, later.last.due →
      later.waiting = .operator op place :: reading.waiting →
        Lists declared later others [other] level') :
    Lists declared reading (tokens ++ suffix) [.node ⟨.apply op, place⟩ [tree, other]] level' := by
  obtain ⟨done, pending, hfold, hlisting, hpending⟩ := h
  have harrive := Reading.arrive_after done (.behind tokens) hop
    (fun waiting hwaiting => hpending waiting hwaiting op hop hlevel) hblocks place
  obtain ⟨done', pending', hfold', hlisting', hpending'⟩ :=
    h' (reading.after (done ++ pending.map Waiting.operation) [.operator op place] .other) rfl rfl
  refine ⟨done ++ pending.map Waiting.operation ++ done', pending' ++ [.operator op place],
    ?_, ?_, ?_⟩
  · rw [List.foldlM_append, hfold]
    simp only [bind, Except.bind]
    rw [hsuffix _ rfl, harrive, hfold', Reading.after_after, hbehind]
  · rw [hlisting, List.map_append, ← List.append_assoc, List.append_assoc _ done', hlisting']
    simp [Tree.postorders, Tree.postorder, Waiting.operation]
  · intro waiting hwaiting
    rcases List.mem_append.1 hwaiting with hmem | hmem
    · exact hpending' waiting hmem
    · rw [List.mem_singleton.1 hmem]
      exact hyields

/-- What stands behind an operator ends as it does by itself. -/
theorem behind_operator {tokens others : List Token} {token : Token} (h : others ≠ []) :
    Last.behind (tokens ++ token :: others) = .behind others := by
  rw [Last.behind_append _ (List.cons_ne_nil _ _), ← List.singleton_append, Last.behind_append _ h]

/-- A written operator between two phrases. -/
theorem Lists.between {reading : Reading} {tokens others : List Token} {tree other : Tree}
    {token : Token} {op : Operator} {level level' : Nat}
    (h : Lists declared reading tokens [tree] level) (hkind : token.kind = .operator op)
    (hop : op.standsBefore = false) (hlevel : op.precedence ≤ level)
    (hblocks : Reading.Blocks op.precedence reading.waiting)
    (hyields : level' < op.precedence ∨ level' = op.precedence ∧ op.grouping = .left)
    (hne : others ≠ [])
    (h' : ∀ later : Reading, later.last.due →
      later.waiting = .operator op token.excerpt :: reading.waiting →
        Lists declared later others [other] level') :
    Lists declared reading (tokens ++ token :: others)
      [.node ⟨.apply op, token.excerpt⟩ [tree, other]] level' := by
  refine h.join others hop hlevel hblocks (fun _ _ => Operator.yieldsTo_of_le hyields) ?_
    (behind_operator hne) h'
  intro between _
  rw [List.foldlM_cons, Reading.step_operator hkind]
  rfl

/-- A token that puts an operation of one argument to wait, before its argument. -/
theorem Lists.before {reading : Reading} {token : Token} {tokens : List Token} {tree : Tree}
    {level level' : Nat} (waiting : Waiting) (hne : tokens ≠ [])
    (hstep : Reading.step declared reading token = .ok (reading.after [] [waiting] .other))
    (hyields : ∀ op : Operator, op.standsBefore = false → op.precedence ≤ level' →
      waiting.yieldsTo op)
    (hle : level' ≤ level)
    (h : Lists declared (reading.after [] [waiting] .other) tokens [tree] level) :
    Lists declared reading (token :: tokens) [.node waiting.operation [tree]] level' := by
  obtain ⟨done, pending, hfold, hlisting, hpending⟩ := h
  refine ⟨done, pending ++ [waiting], ?_, ?_, ?_⟩
  · rw [List.foldlM_cons, hstep]
    simp only [bind, Except.bind]
    rw [hfold, Reading.after_after, List.nil_append, ← Last.behind_append [token] hne,
      List.singleton_append]
  · rw [List.map_append, ← List.append_assoc, hlisting]
    simp [Tree.postorders, Tree.postorder]
  · intro other hother op hop hlevel
    rcases List.mem_append.1 hother with hmem | hmem
    · exact hpending other hmem op hop (hlevel.trans hle)
    · rw [List.mem_singleton.1 hmem]
      exact hyields op hop hlevel

/-- Parentheses list what is between them, up to what closes them. -/
theorem Lists.enclose (reading : Reading) {opening closing : Token} {tokens : List Token}
    {trees : List Tree} {level : Nat} (hopening : opening.kind = .opening)
    (hclosing : closing.kind = .closing) (hdue : reading.last.due)
    (h : Lists declared ⟨reading.output, [], ⟨opening.excerpt, reading.waiting⟩ :: reading.levels,
      .other⟩ tokens trees level) :
    ∃ done pending last,
      (opening :: (tokens ++ [closing])).foldlM (Reading.step declared) reading =
        .ok (((Reading.after ⟨reading.output, [],
          ⟨opening.excerpt, reading.waiting⟩ :: reading.levels, .other⟩ done pending last).close
            ⟨opening.excerpt, reading.waiting⟩ reading.levels).ending .operand) ∧
      done ++ pending.map Waiting.operation = Tree.postorders trees := by
  obtain ⟨done, pending, hfold, hlisting, -⟩ := h
  exact ⟨done, pending, .behind tokens, Reading.foldlM_enclose reading hopening hclosing hdue hfold,
    hlisting⟩

/-- What ends with a parenthesis ends with an operand. -/
theorem behind_closing {closing : Token} (hclosing : closing.kind = .closing)
    (tokens : List Token) : Last.behind (tokens ++ [closing]) = .operand := by
  rw [Last.behind_append _ (by simp)]
  simp [Last.behind, hclosing]

/-- A function whose arguments are in parentheses. -/
theorem Lists.call (reading : Reading) {token opening closing : Token} {f : Callable}
    {tokens : List Token} {trees : List Tree} {level : Nat} (hkind : token.kind = .name)
    (hfunction : Builtin.find? token.excerpt.text = some (.function f))
    (hopening : opening.kind = .opening) (hclosing : closing.kind = .closing)
    (hdue : reading.last.due)
    (h : Lists declared ⟨reading.output, [], ⟨opening.excerpt,
      .function f token.excerpt :: reading.waiting⟩ :: reading.levels, .other⟩ tokens trees level)
    (level' : Nat) :
    Lists declared reading (token :: opening :: (tokens ++ [closing]))
      [.node ⟨.call f, token.excerpt⟩ trees] level' := by
  set called : Reading :=
    ⟨reading.output, .function f token.excerpt :: reading.waiting, reading.levels, .other⟩
  obtain ⟨done, pending, last, hfold, hlisting⟩ :=
    Lists.enclose called hopening hclosing rfl h
  refine ⟨done ++ pending.map Waiting.operation ++ [⟨.call f, token.excerpt⟩], [], ?_, ?_,
    by simp⟩
  · rw [List.foldlM_cons, Reading.step_function hkind hdue hfunction]
    refine hfold.trans ?_
    rw [← List.cons_append, ← List.cons_append, behind_closing hclosing]
    exact congrArg _ (Reading.close_after_function reading)
  · rw [hlisting]
    simp [Tree.postorders, Tree.postorder]

/-- A comma between arguments, where nothing waits before the first one. -/
theorem Lists.comma {reading : Reading} {tokens argument : List Token} {trees : List Tree}
    {tree : Tree} {token : Token} {level level' : Nat}
    (h : Lists declared reading tokens trees level) (hwaiting : reading.waiting = [])
    (hkind : token.kind = .comma) (hne : argument ≠ [])
    (h' : ∀ later : Reading, later.last.due → later.waiting = [] →
      Lists declared later argument [tree] level') :
    Lists declared reading (tokens ++ token :: argument) (trees ++ [tree]) level' := by
  obtain ⟨done, pending, hfold, hlisting, -⟩ := h
  obtain ⟨done', pending', hfold', hlisting', hpending'⟩ :=
    h' (reading.after (done ++ pending.map Waiting.operation) [] .other) rfl hwaiting
  have hsettle : (reading.after done pending (.behind tokens)).settle.ending .other =
      reading.after (done ++ pending.map Waiting.operation) [] .other := by
    simp [Reading.after, Reading.settle, Reading.ending, hwaiting]
  refine ⟨done ++ pending.map Waiting.operation ++ done', pending', ?_, ?_, hpending'⟩
  · rw [List.foldlM_append, hfold]
    simp only [bind, Except.bind, List.foldlM_cons]
    rw [Reading.step_comma hkind]
    simp only [hsettle]
    rw [hfold', Reading.after_after, behind_operator hne, List.append_nil]
  · rw [List.append_assoc, hlisting', hlisting, Tree.postorders_append]

/-- **Reading a phrase lists its trees.** What stays waiting completes the listing, and it yields
to every operator that may follow.

**Proof sketch.** Induction on the derivation. An operator that arrives behind a phrase finds the
operations of the phrase waiting, which yield to it, and below them what waited before the phrase,
which does not. A closing parenthesis or a comma completes all that waits since the parenthesis. -/
theorem Derives.lists {phrase : Phrase} {tokens : List Token} {trees : List Tree}
    (h : Derives declared phrase tokens trees)
    (hread : ∀ token ∈ tokens, token.IsLiteral →
      (Decimal.read? token.excerpt.text.toList).isSome) :
    ∀ reading : Reading, reading.last.due → Ready reading.waiting tokens phrase →
      Lists declared reading tokens trees phrase.level := by
  induction h with
  | @number token hliteral =>
    intro reading hdue _
    obtain ⟨decimal, hdecimal⟩ :=
      Option.isSome_iff_exists.1 (hread token (by simp) hliteral)
    refine lists_leaf ?_ _
    rw [Reading.step_number hliteral.1 hdue, Reading.number, hdecimal]
    simp [Token.literal, hdecimal, Last.behind, hliteral.1]
  | @load token hkind hfunction hdeclared =>
    intro reading hdue _
    refine lists_leaf ?_ _
    rw [Reading.step_name hkind hdue, Reading.name,
      meaning?_eq_variable_iff.2 ⟨hfunction, hdeclared⟩]
    simp [Last.behind, hkind]
  | @constant token name value hkind hconstant hdeclared =>
    intro reading hdue _
    refine lists_leaf ?_ _
    rw [Reading.step_name hkind hdue, Reading.name,
      meaning?_eq_constant_iff.2 ⟨⟨name, hconstant⟩, hdeclared⟩]
    simp [Last.behind, hkind]
  | @group opening closing tokens tree hopening hclosing hsum ih =>
    intro reading hdue hready
    obtain ⟨done, pending, last, hfold, hlisting⟩ := Lists.enclose reading hopening hclosing hdue
      (ih (fun token htoken => hread token (by simp [htoken])) _ rfl rfl)
    refine ⟨done ++ pending.map Waiting.operation, [], ?_, by simpa using hlisting, by simp⟩
    rw [hfold, Reading.close_after (hready ⟨opening, rfl, hopening⟩), ← List.cons_append,
      behind_closing hclosing]
  | @call token opening closing f tokens trees hkind hfunction hopening hclosing harguments harity
      ih =>
    intro reading hdue _
    exact Lists.call reading hkind hfunction hopening hclosing hdue
      (ih (fun token htoken => hread token (by simp [htoken])) _ rfl rfl) _
  | @application token f tokens tree hkind hfunction harity hprimary hopening ih =>
    intro reading hdue _
    have hready : Ready (.function f token.excerpt :: reading.waiting) tokens .primary := by
      rintro ⟨first, hfirst, hparenthesis⟩
      exact absurd hparenthesis (hopening first hfirst)
    exact Lists.before (.function f token.excerpt) hprimary.ne_nil
      (Reading.step_function hkind hdue hfunction) (fun _ _ _ => rfl) le_rfl
      (ih (fun token htoken => hread token (by simp [htoken])) _ rfl hready)
  | base hprimary ih =>
    intro reading hdue hready
    exact (ih hread reading hdue fun _ => hready.head_ne_function le_rfl).mono (by decide)
  | @raised token tokens exponent tree other hprimary hkind hexponent ih ih' =>
    intro reading hdue hready
    refine (ih (fun token htoken => hread token (by simp [htoken])) reading hdue
      fun _ => hready.head_ne_function le_rfl).between hkind rfl le_rfl hready (.inl (by decide))
        hexponent.ne_nil fun later hlater hwaiting => ?_
    refine ih' (fun token htoken => hread token (by simp [htoken])) later hlater ?_
    rw [hwaiting]
    exact Reading.blocks_operator (.inr ⟨rfl, rfl⟩) _ _
  | unsigned hpower ih => exact fun reading hdue hready => ih hread reading hdue hready
  | @sign token op tokens tree hkind hsign hsigned ih =>
    intro reading hdue hready
    simp only [List.mem_cons, List.not_mem_nil, or_false] at hsign
    have hop : op.standsBefore ∧ op.precedence = 4 := by
      rcases hsign with rfl | rfl <;> decide
    have hstep : Reading.step declared reading token =
        .ok (reading.after [] [.operator op token.excerpt] .other) := by
      rw [Reading.step_operator hkind]
      simp [Reading.arrive, Reading.after, Reading.ending, hop]
    refine Lists.before (.operator op token.excerpt) hsigned.ne_nil hstep
      (fun _ _ => Operator.yieldsTo_of_le (.inl hop.2.ge)) le_rfl
      (ih (fun token htoken => hread token (by simp [htoken])) _ rfl ?_)
    exact Reading.blocks_operator (.inl (by omega)) _ _
  | factor hsigned ih =>
    exact fun reading hdue hready => ih hread reading hdue (hready.mono (by decide))
  | @times token op tokens factor tree other hproduct hkind htimes hfactor ih ih' =>
    intro reading hdue hready
    simp only [List.mem_cons, List.not_mem_nil, or_false] at htimes
    obtain ⟨hbetween, hprecedence, hleft⟩ :
        op.standsBefore = false ∧ op.precedence = 3 ∧ op.grouping = .left := by
      rcases htimes with rfl | rfl | rfl <;> decide
    refine (ih (fun token htoken => hread token (by simp [htoken])) reading hdue hready).between
      hkind hbetween hprecedence.le (hprecedence ▸ hready) (.inr ⟨hprecedence.symm, hleft⟩)
      hfactor.ne_nil fun later hlater hwaiting => ?_
    refine ih' (fun token htoken => hread token (by simp [htoken])) later hlater ?_
    rw [hwaiting]
    exact Reading.blocks_operator (.inl (by omega)) _ _
  | @juxtaposed first tokens factor tree other hproduct hfactor hapart ih ih' =>
    intro reading hdue hready
    refine Lists.join (first :: factor)
      (ih (fun token htoken => hread token (by simp [htoken])) reading hdue hready)
      rfl le_rfl hready (fun _ _ => Operator.yieldsTo_of_le (.inr ⟨rfl, rfl⟩)) ?_ ?_ ?_
    · intro between hbetween
      rw [List.foldlM_cons, List.foldlM_cons, Reading.step_of_juxtaposed]
      rw [hbetween]
      exact juxtaposed_behind hproduct.ne_nil (hfactor.head_kind (.inl rfl) first rfl) hapart
    · exact Last.behind_append _ (by simp)
    · intro later hlater hwaiting
      refine ih' (fun token htoken => hread token (List.mem_append_right _ htoken)) later hlater ?_
      rw [hwaiting]
      exact Reading.blocks_operator (.inl (by decide)) _ _
  | term hproduct ih =>
    intro reading hdue hready
    exact (ih hread reading hdue (Ready.blocks hready _)).mono (by decide)
  | @plus token op tokens term tree other hsum hkind hplus hterm ih ih' =>
    intro reading hdue hready
    simp only [List.mem_cons, List.not_mem_nil, or_false] at hplus
    obtain ⟨hbetween, hprecedence, hleft⟩ :
        op.standsBefore = false ∧ op.precedence = 2 ∧ op.grouping = .left := by
      rcases hplus with rfl | rfl <;> decide
    refine (ih (fun token htoken => hread token (by simp [htoken])) reading hdue hready).between
      hkind hbetween hprecedence.le (Ready.blocks hready _) (.inr ⟨hprecedence.symm, hleft⟩)
      hterm.ne_nil fun later hlater hwaiting => ?_
    refine (ih' (fun token htoken => hread token (by simp [htoken])) later hlater ?_).mono
      (by decide)
    rw [hwaiting]
    exact Reading.blocks_operator (.inl (by omega)) _ _
  | argument hsum ih => exact fun reading hdue hready => ih hread reading hdue hready
  | @comma token tokens argument trees tree harguments hkind hargument ih ih' =>
    intro reading hdue hready
    exact (ih (fun token htoken => hread token (by simp [htoken])) reading hdue hready).comma
      hready hkind hargument.ne_nil fun later hlater hwaiting =>
        ih' (fun token htoken => hread token (by simp [htoken])) later hlater hwaiting

end Grammar

/-! ## Sentences -/

/-- A sentence is read into the listing of its tree. -/
theorem Reading.program_of_derives {declared : List String} {source : String} {tree : Tree}
    (hstop : (Token.scan source).stop = none)
    (hderives : Grammar.Derives declared .sum (Token.scan source).tokens [tree]) :
    Reading.program declared source = .ok tree.postorder := by
  obtain ⟨done, pending, hfold, hlisting, -⟩ :=
    hderives.lists (fun token htoken hliteral =>
      (Token.read?_isSome_iff htoken hliteral.1).2 hliteral) start rfl rfl
  rw [program, ofScan, hfold, hstop]
  rw [Tree.postorders_singleton] at hlisting
  rw [← hlisting]
  simp [bind, Except.bind, finish, after, settle, start]

/-- **A sentence is a formula.** A text whose tokens are a sentence of the grammar becomes a formula
whose program lists the tree of the sentence, and its value is the value of the tree in every
environment that declares the variables of the tree.

**Proof sketch.** The reading lists the tree (`Grammar.Derives.lists`), which is ranked
(`Grammar.Derives.ranked`), so the listing passes the check and runs to the value of the tree. -/
theorem Formula.ofSource_of_derives (declared : List String) (source : String) (tree : Tree)
    (hstop : (Token.scan source).stop = none)
    (hderives : Grammar.Derives declared .sum (Token.scan source).tokens [tree]) :
    Formula.ofSource declared source = .ok ⟨source, tree.postorder⟩ ∧
      ∀ env : Environment, (∀ name ∈ tree.postorder.names, env.contains name) →
        ∃ value, tree.value? env = some value ∧
          Formula.value ⟨source, tree.postorder⟩ env = .ok value := by
  have hranked : tree.Ranked := hderives.ranked tree (by simp)
  refine ⟨?_, fun env hload => hranked.run_postorder hload⟩
  rw [ofSource, Reading.program_of_derives hstop hderives]
  simp only [hranked.check_postorder]

/-- The tree of `6/2x - max(x, 1)`: the division comes before the product that no operator
writes, for both are grouped from the left. -/
def Tree.quotient : Tree :=
  .node ⟨.apply .sub, ⟨5, "-"⟩⟩
    [.node ⟨.apply .mul, ⟨3, ""⟩⟩
      [.node ⟨.apply .div, ⟨1, "/"⟩⟩
        [.leaf ⟨.push (Token.mk .number ⟨0, "6"⟩).literal, ⟨0, "6"⟩⟩,
          .leaf ⟨.push (Token.mk .number ⟨2, "2"⟩).literal, ⟨2, "2"⟩⟩],
        .leaf ⟨.load "x", ⟨3, "x"⟩⟩],
      .node ⟨.call ⟨"max", 2, .binary Arithmetic.greatest, Eq.refl 2⟩, ⟨7, "max"⟩⟩
        [.leaf ⟨.load "x", ⟨11, "x"⟩⟩,
          .leaf ⟨.push (Token.mk .number ⟨14, "1"⟩).literal, ⟨14, "1"⟩⟩]]

/-- The tokens of `6/2x - max(x, 1)`. -/
def Grammar.quotientTokens : List Token :=
  [⟨.number, ⟨0, "6"⟩⟩, ⟨.operator .div, ⟨1, "/"⟩⟩, ⟨.number, ⟨2, "2"⟩⟩, ⟨.name, ⟨3, "x"⟩⟩,
    ⟨.operator .sub, ⟨5, "-"⟩⟩, ⟨.name, ⟨7, "max"⟩⟩, ⟨.opening, ⟨10, "("⟩⟩, ⟨.name, ⟨11, "x"⟩⟩,
    ⟨.comma, ⟨12, ","⟩⟩, ⟨.number, ⟨14, "1"⟩⟩, ⟨.closing, ⟨15, ")"⟩⟩]

theorem Grammar.derives_quotient : Derives ["x"] .sum quotientTokens [.quotient] := by
  have hx : ∀ f, Builtin.find? "x" ≠ some (.function f) := fun f h =>
    Option.some_ne_none _ (h.symm.trans (by rfl))
  have hload : ∀ start, Derives ["x"] .power [⟨.name, ⟨start, "x"⟩⟩]
      [.leaf ⟨.load "x", ⟨start, "x"⟩⟩] := fun start => .base (.load rfl hx (by simp))
  have hnumber : ∀ token : Token, token.IsLiteral →
      Derives ["x"] .signed [token] [.leaf ⟨.push token.literal, token.excerpt⟩] :=
    fun token h => .unsigned (.base (.number h))
  have hsix : (Token.mk .number ⟨0, "6"⟩).IsLiteral := ⟨rfl, by decide, '6', by decide⟩
  have htwo : (Token.mk .number ⟨2, "2"⟩).IsLiteral := ⟨rfl, by decide, '2', by decide⟩
  have hone : (Token.mk .number ⟨14, "1"⟩).IsLiteral := ⟨rfl, by decide, '1', by decide⟩
  have hslash : (Token.mk (.operator .div) ⟨1, "/"⟩).kind = .operator .div := rfl
  have hproduct := Derives.juxtaposed
    (.times (.factor (hnumber _ hsix)) hslash (by decide) (hnumber _ htwo)) (hload 3) (by simp)
  have hcomma : (Token.mk .comma ⟨12, ","⟩).kind = .comma := rfl
  have harguments := Derives.comma (.argument (.term (.factor (.unsigned (hload 11))))) hcomma
    (.term (.factor (hnumber _ hone)))
  have hmax : Builtin.find? (Token.mk .name ⟨7, "max"⟩).excerpt.text =
      some (.function ⟨"max", 2, .binary Arithmetic.greatest, rfl⟩) := by
    rfl
  have hopening : (Token.mk .opening ⟨10, "("⟩).kind = .opening := rfl
  have hclosing : (Token.mk .closing ⟨15, ")"⟩).kind = .closing := rfl
  have hcall := Derives.call rfl hmax hopening hclosing harguments rfl
  have hminus : (Token.mk (.operator .sub) ⟨5, "-"⟩).kind = .operator .sub := rfl
  exact Derives.plus (.term hproduct) hminus (by decide) (.factor (.unsigned (.base hcall)))

/-- A sentence whose division comes before the product that no operator writes. -/
theorem Formula.ofSource_quotient :
    (Token.scan "6/2x - max(x, 1)").stop = none ∧
      Grammar.Derives ["x"] .sum (Token.scan "6/2x - max(x, 1)").tokens [.quotient] ∧
      Formula.ofSource ["x"] "6/2x - max(x, 1)" =
        .ok ⟨"6/2x - max(x, 1)", Tree.quotient.postorder⟩ ∧
      ∃ value, Tree.quotient.value? (Environment.empty.set "x" 2) = some value ∧
        Formula.value ⟨"6/2x - max(x, 1)", Tree.quotient.postorder⟩
          (Environment.empty.set "x" 2) = .ok value ∧ value = 4 := by
  have hstop : (Token.scan "6/2x - max(x, 1)").stop = none := by decide +kernel
  have htokens : (Token.scan "6/2x - max(x, 1)").tokens = Grammar.quotientTokens := by
    decide +kernel
  have hderives : Grammar.Derives ["x"] .sum (Token.scan "6/2x - max(x, 1)").tokens
      [.quotient] := htokens ▸ Grammar.derives_quotient
  obtain ⟨hformula, hvalue⟩ := Formula.ofSource_of_derives ["x"] _ _ hstop hderives
  obtain ⟨value, htree, hrun⟩ := hvalue (Environment.empty.set "x" 2) (by decide +kernel)
  have hfour : Tree.quotient.value? (Environment.empty.set "x" 2) = some 4 := by decide +kernel
  exact ⟨hstop, hderives, hformula, value, htree, hrun, Option.some.inj (htree.symm.trans hfour)⟩

end Grapher
