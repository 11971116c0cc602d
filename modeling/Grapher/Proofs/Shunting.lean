import Grapher.Proofs.GuardedScan

set_option relaxedAutoImplicit false
set_option autoImplicit false

/-!
# Reading on one stack

A reading keeps one level for every open parenthesis. This module reads a formula on a single stack
instead, on which the open parentheses lie between the operators and functions that wait, and it
knows of a name or a number only the place and takes the text from the source. Neither is possible
everywhere: an open parenthesis is no operation, and a place need not be in the source. No source
leads to such a lapse, and both ways of reading give the same program or the same misreading.

## Main definitions

* `Shunt`, `Shunt.step`, `Shunt.program` — the reading on one stack.
* `Reading.shunt` — the levels of a reading on one stack.

## Main results

* `Shunt.step_gives` — a token is read on one stack as on levels, without a lapse.
* `Shunt.program_gives` — a source is read on one stack as on levels, without a lapse.
-/

namespace Grapher

/-! ## The stack -/

/-- What lies on the stack. -/
inductive Entry
  | pending (waiting : Waiting)
  | opening (place : Excerpt)

namespace Entry

/-- The operation of an entry. An open parenthesis has none. -/
def operation : Entry → Except Lapse Operation
  | .pending waiting => .ok waiting.operation
  | .opening place => .error (.openParenthesis place)

/-- Whether an entry is no open parenthesis. -/
def waits : Entry → Bool
  | .pending _ => true
  | .opening _ => false

/-- Whether an entry goes to the program when an operator arrives. -/
def yieldsTo (arriving : Operator) : Entry → Bool
  | .pending waiting => waiting.yieldsTo arriving
  | .opening _ => false

end Entry

/-- What has been read of a formula, on one stack. -/
structure Shunt where
  /-- The program so far, the latest operation first. -/
  output : List Operation
  /-- What waits, with the open parentheses, the latest first. -/
  stack : List Entry
  /-- What the last token was. -/
  last : Last

namespace Shunt

/-- Nothing has been read. -/
def start : Shunt :=
  ⟨[], [], .nothing⟩

/-- The entries on top of a stack go to the program for as long as `goes` says. -/
def unwindFrom (goes : Entry → Bool) (output : List Operation) :
    List Entry → Except Lapse (List Operation × List Entry)
  | [] => .ok (output, [])
  | entry :: rest =>
    if goes entry then do
      let operation ← entry.operation
      unwindFrom goes (operation :: output) rest
    else .ok (output, entry :: rest)

/-- The topmost entries go to the program for as long as `goes` says. -/
def unwind (shunt : Shunt) (goes : Entry → Bool) : Except Lapse Shunt := do
  let (output, stack) ← unwindFrom goes shunt.output shunt.stack
  return { shunt with output := output, stack := stack }

/-- An entry is put on the stack. -/
def push (shunt : Shunt) (entry : Entry) : Shunt :=
  { shunt with stack := entry :: shunt.stack }

/-- An operation goes to the program. -/
def emit (shunt : Shunt) (action : Action) (place : Excerpt) : Shunt :=
  { shunt with output := ⟨action, place⟩ :: shunt.output }

/-- What has been read once the last token is known. -/
def ending (shunt : Shunt) (last : Last) : Shunt :=
  { shunt with last := last }

/-- An operator arrives. -/
def arrive (shunt : Shunt) (op : Operator) (place : Excerpt) : Except Lapse Shunt := do
  let settled ← if op.standsBefore then .ok shunt else shunt.unwind (Entry.yieldsTo op)
  return settled.push (.pending (.operator op place))

/-- A product without an operator is accounted for. -/
def multiply (shunt : Shunt) (token : Token) : Except Lapse Shunt :=
  if Reading.juxtaposed shunt.last token.kind then shunt.arrive .mul token.excerpt.opening
  else .ok shunt

/-- A parenthesis is closed: what waits goes to the program, the open parenthesis is taken from the
stack, and a function right below it goes to the program. -/
def close (shunt : Shunt) (place : Excerpt) : Guarded Misreading Shunt := do
  let settled ← shunt.unwind Entry.waits
  match settled.stack with
  | [] => throw ⟨.unmatchedParenthesis, place⟩
  | _ :: .pending (.function f place) :: below =>
    let operation ← (Entry.pending (.function f place)).operation
    return { settled with output := operation :: settled.output, stack := below }
  | _ :: below => return { settled with stack := below }

/-- A number is read. -/
def number (shunt : Shunt) (source : String) (place : Excerpt) : Guarded Misreading Shunt := do
  let text ← place.cut source
  match Decimal.read? text.toList with
  | some decimal => return (shunt.emit (.push decimal.toFloat) place).ending .number
  | none => throw ⟨.malformedNumber, place⟩

/-- A name is read. -/
def name (shunt : Shunt) (declared : List String) (source : String) (place : Excerpt) :
    Guarded Misreading Shunt := do
  let text ← place.cut source
  match meaning? declared text with
  | some (.function f) => return (shunt.push (.pending (.function f place))).ending .other
  | some .variable => return (shunt.emit (.load text) place).ending .operand
  | some (.constant value) => return (shunt.emit (.push value) place).ending .operand
  | none => throw ⟨.unknownName, place⟩

/-- What has been read after one more token. -/
def step (declared : List String) (source : String) (before : Shunt) (token : Token) :
    Guarded Misreading Shunt := do
  let shunt ← before.multiply token
  match token.kind with
  | .number => shunt.number source token.excerpt
  | .name => shunt.name declared source token.excerpt
  | .operator op => return (← shunt.arrive op token.excerpt).ending .other
  | .comma => return (← shunt.unwind Entry.waits).ending .other
  | .opening => return (shunt.push (.opening token.excerpt)).ending .other
  | .closing => return (← shunt.close token.excerpt).ending .operand

/-- The program, once all tokens are read: all that is left on the stack goes to it. -/
def finishFrom (output : List Operation) : List Entry → Guarded Misreading Program
  | [] => return output.reverse
  | .opening place :: _ => throw ⟨.unmatchedParenthesis, place⟩
  | entry :: rest => do
    let operation ← entry.operation
    finishFrom (operation :: output) rest

/-- The program of a source text, read on one stack. -/
def program (declared : List String) (source : String) : Guarded Misreading Program := do
  let scan ← Guarded.scan source
  let shunt ← scan.tokens.foldlM (step declared source) start
  match scan.stop with
  | some (obstacle, place) => throw ⟨.obstacle obstacle, place⟩
  | none => finishFrom shunt.output shunt.stack

end Shunt

/-! ## Levels on one stack -/

/-- The levels of a reading on one stack: on every open parenthesis lies what waits in it. -/
def Reading.shunt (reading : Reading) : Shunt where
  output := reading.output
  stack := reading.waiting.map .pending ++
    reading.levels.flatMap fun level => .opening level.opened :: level.around.map .pending
  last := reading.last

namespace Shunt

/-- What waits on top goes to the program for as long as `goes` says, up to a parenthesis. -/
theorem unwindFrom_map {goes : Entry → Bool} {below : List Entry}
    (hbelow : ∀ entry ∈ below.head?, goes entry = false) (waiting : List Waiting) :
    ∀ output : List Operation,
      unwindFrom goes output (waiting.map .pending ++ below) =
        .ok (((waiting.takeWhile (goes ∘ .pending)).map Waiting.operation).reverse ++ output,
          (waiting.drop (waiting.takeWhile (goes ∘ .pending)).length).map .pending ++ below) := by
  induction waiting with
  | nil =>
    intro output
    cases below with
    | nil => rfl
    | cons entry rest => simp [unwindFrom, hbelow entry rfl]
  | cons first rest ih =>
    intro output
    by_cases hfirst : goes (.pending first)
    · have hrest := ih (first.operation :: output)
      simp_all [unwindFrom, Entry.operation, bind, Except.bind]
    · simp [unwindFrom, hfirst]

/-- What waits in the innermost parenthesis goes to the program for as long as `goes` says. -/
theorem unwind_shunt (reading : Reading) (goes : Entry → Bool)
    (hgoes : ∀ place, goes (.opening place) = false) :
    reading.shunt.unwind goes =
      .ok (Reading.shunt { reading with
        output := ((reading.waiting.takeWhile (goes ∘ .pending)).map Waiting.operation).reverse ++
          reading.output
        waiting :=
          reading.waiting.drop (reading.waiting.takeWhile (goes ∘ .pending)).length }) := by
  have hbelow : ∀ entry ∈ (reading.levels.flatMap fun level =>
      Entry.opening level.opened :: level.around.map .pending).head?, goes entry = false := by
    cases reading.levels with
    | nil => simp
    | cons level outer => simp [hgoes]
  simp only [unwind, Reading.shunt, unwindFrom_map hbelow, bind, Except.bind, pure, Except.pure]

/-- An operator arrives on one stack as on levels. -/
theorem arrive_shunt (reading : Reading) (op : Operator) (place : Excerpt) :
    reading.shunt.arrive op place = .ok (reading.arrive op place).shunt := by
  unfold arrive
  cases hop : op.standsBefore with
  | true =>
    simp only [if_true, Reading.arrive, hop, List.length_nil, List.drop_zero]
    rfl
  | false =>
    simp only [Bool.false_eq_true, if_false, unwind_shunt reading (Entry.yieldsTo op) fun _ => rfl,
      Reading.arrive, hop]
    rfl

/-- All that waits in the innermost parenthesis goes to the program. -/
theorem unwind_waits_shunt (reading : Reading) :
    reading.shunt.unwind Entry.waits = .ok reading.settle.shunt := by
  have hall : reading.waiting.takeWhile (Entry.waits ∘ Entry.pending) = reading.waiting := by
    simp [Entry.waits]
  rw [unwind_shunt reading _ fun _ => rfl, hall, List.drop_length]
  rfl

/-- A product is accounted for on one stack as on levels. -/
theorem multiply_shunt (reading : Reading) (token : Token) :
    reading.shunt.multiply token = .ok (reading.multiply token).shunt := by
  unfold multiply Reading.multiply
  have hlast : reading.shunt.last = reading.last := rfl
  rw [hlast]
  split
  · exact arrive_shunt reading .mul token.excerpt.opening
  · rfl

/-- A parenthesis that was never opened cannot be closed. -/
theorem close_of_nil {reading : Reading} (hlevels : reading.levels = []) (place : Excerpt) :
    (reading.shunt.close place).Gives (.error ⟨.unmatchedParenthesis, place⟩) := by
  have hstack : reading.settle.shunt.stack = [] := by
    simp [Reading.shunt, Reading.settle, hlevels]
  refine Guarded.Gives.bind_ok (Guarded.gives_lift (unwind_waits_shunt reading)) ?_
  rw [hstack]
  rfl

/-- A parenthesis is closed on one stack as on levels. -/
theorem close_of_cons {reading : Reading} {level : Level} {outer : List Level}
    (hlevels : reading.levels = level :: outer) (place : Excerpt) :
    (reading.shunt.close place).Gives (.ok (reading.close level outer).shunt) := by
  obtain ⟨opened, around⟩ := level
  have hstack : reading.settle.shunt.stack = .opening opened :: (around.map .pending ++
      outer.flatMap fun level => .opening level.opened :: level.around.map .pending) := by
    simp [Reading.shunt, Reading.settle, hlevels]
  refine Guarded.Gives.bind_ok (Guarded.gives_lift (unwind_waits_shunt reading)) ?_
  rw [hstack]
  unfold Reading.close
  rcases around with _ | ⟨⟨op, place⟩ | ⟨f, place⟩, around⟩
  · cases outer <;> rfl
  · rfl
  · rfl

/-- A number is read on one stack as on levels. -/
theorem number_gives {source : String} {place : Excerpt} (h : place.In source)
    (reading : Reading) :
    (reading.shunt.number source place).Gives ((reading.number place).map Reading.shunt) := by
  refine Guarded.Gives.bind_ok (Guarded.gives_lift h.cut) ?_
  unfold Reading.number
  cases Decimal.read? place.text.toList <;> rfl

/-- A name is read on one stack as on levels. -/
theorem name_gives {source : String} {place : Excerpt} (h : place.In source)
    (reading : Reading) (declared : List String) :
    (reading.shunt.name declared source place).Gives
      ((reading.name declared place).map Reading.shunt) := by
  refine Guarded.Gives.bind_ok (Guarded.gives_lift h.cut) ?_
  unfold Reading.name
  rcases meaning? declared place.text with _ | _ | _ | _ <;> rfl

/-- **A token is read on one stack as on levels**, without a lapse. -/
theorem step_gives {source : String} {token : Token} (h : token.excerpt.In source)
    (declared : List String) (reading : Reading) :
    (step declared source reading.shunt token).Gives
      ((reading.step declared token).map Reading.shunt) := by
  refine Guarded.Gives.bind_ok (Guarded.gives_lift (multiply_shunt reading token)) ?_
  unfold Reading.step
  set multiplied := reading.multiply token
  dsimp only
  cases token.kind with
  | number => exact number_gives h multiplied
  | name => exact name_gives h multiplied declared
  | operator op =>
    exact Guarded.Gives.bind_ok (Guarded.gives_lift (arrive_shunt multiplied op _)) rfl
  | comma => exact Guarded.Gives.bind_ok (Guarded.gives_lift (unwind_waits_shunt multiplied)) rfl
  | opening => rfl
  | closing =>
    cases hlevels : multiplied.levels with
    | nil => exact (close_of_nil hlevels token.excerpt).bind_error
    | cons level outer => exact (close_of_cons hlevels token.excerpt).bind_ok rfl

/-- What is left at the end goes to the program, as on levels. -/
theorem finishFrom_map (waiting : List Waiting) (below : List Entry) :
    ∀ output : List Operation,
      (finishFrom output (waiting.map .pending ++ below)) =
        finishFrom ((waiting.map Waiting.operation).reverse ++ output) below := by
  induction waiting with
  | nil => exact fun _ => rfl
  | cons first rest ih =>
    intro output
    have hrest := ih (first.operation :: output)
    simp only [List.map_cons, List.reverse_cons, List.append_assoc, List.singleton_append]
    rw [← hrest]
    rfl

/-- A reading ends on one stack as on levels. -/
theorem finish_gives (reading : Reading) :
    (finishFrom reading.shunt.output reading.shunt.stack).Gives reading.finish := by
  unfold Reading.shunt Reading.finish
  rw [finishFrom_map]
  cases reading.levels with
  | nil => rfl
  | cons level outer => rfl

/-- A row of tokens is read on one stack as on levels. -/
theorem foldlM_gives {source : String} (declared : List String) {tokens : List Token} :
    (∀ token ∈ tokens, token.excerpt.In source) → ∀ reading : Reading,
      (tokens.foldlM (step declared source) reading.shunt).Gives
        ((tokens.foldlM (Reading.step declared) reading).map Reading.shunt) := by
  induction tokens with
  | nil => exact fun _ _ => rfl
  | cons token rest ih =>
    intro htokens reading
    have hstep := step_gives (htokens token (by simp)) declared reading
    rw [List.foldlM_cons, List.foldlM_cons]
    cases hread : reading.step declared token with
    | error misreading =>
      rw [hread] at hstep
      exact hstep.bind_error
    | ok later =>
      rw [hread] at hstep
      exact hstep.bind_ok (ih (fun other hother => htokens other (by simp [hother])) later)

/-- **A source is read on one stack as on levels**, without a lapse.

**Proof sketch.** The stack of a reading holds what waits in its levels, each above its open
parenthesis, and every token keeps it so (`Shunt.step_gives`): what goes to the program stops at an
open parenthesis. The tokens are excerpts of the source, so their texts can be cut out. -/
theorem program_gives (declared : List String) (source : String) :
    (program declared source).Gives (Reading.program declared source) := by
  have htokens : ∀ token ∈ (Token.scan source).tokens, token.excerpt.In source :=
    fun token => Token.in_of_mem_scan
  have hfold := foldlM_gives declared htokens Reading.start
  refine Guarded.Gives.bind_ok (Guarded.gives_lift (Guarded.scan_eq source)) ?_
  unfold Reading.program Reading.ofScan
  cases hread : (Token.scan source).tokens.foldlM (Reading.step declared) Reading.start with
  | error misreading =>
    rw [hread] at hfold
    exact hfold.bind_error
  | ok reading =>
    rw [hread] at hfold
    refine hfold.bind_ok ?_
    cases (Token.scan source).stop with
    | none => exact finish_gives reading
    | some stop => rfl

end Shunt

end Grapher
