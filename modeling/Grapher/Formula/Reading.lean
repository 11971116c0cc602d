import Grapher.Decimal.Reading
import Grapher.Program
import Grapher.Token

set_option relaxedAutoImplicit false
set_option autoImplicit false

/-!
# Reading formulas

A formula is read from left to right into a postfix program. Numbers, variables and constants go
to the program at once. Operators and functions wait until their operands are complete: an
operator that binds tighter than the one that arrives, a comma, a closing parenthesis and the end
of the formula complete what waits. Each open parenthesis starts afresh and leaves what waits
around it alone, so the reading keeps one level for every parenthesis that is still open.

Two operands side by side are multiplied, unless both are numbers.

## Main definitions

* `Meaning`, `meaning?` — what a name stands for: a function comes first, then a declared
  variable, then a constant.
* `Reading` — what has been read so far.
* `Reading.step` — the reading after one more token.
* `Reading.program` — the program of a source text, or the first problem with it.
-/

namespace Grapher

/-! ## Problems -/

/-- Why a text cannot be read as a formula. -/
inductive Problem
  | obstacle (obstacle : Token.Obstacle)
  | malformedNumber
  | unmatchedParenthesis
  | unknownName
deriving DecidableEq, Repr

/-- The description of a problem. -/
def Problem.message : Problem → String
  | .obstacle .stray => "invalid character"
  | .obstacle (.reserved _) => "unsupported character"
  | .malformedNumber => "invalid number: invalid float literal"
  | .unmatchedParenthesis => "mismatched parentheses"
  | .unknownName => "unknown identifier"

/-- A problem and the excerpt that shows it. -/
structure Misreading where
  /-- What is wrong. -/
  problem : Problem
  /-- Where it is wrong. -/
  place : Excerpt
deriving DecidableEq, Repr

/-! ## Names -/

/-- What a name stands for in a formula. -/
inductive Meaning
  | function (f : Callable)
  | variable
  | constant (value : Float)

/-- The meaning of a name where the given variables are declared. Functions cannot be hidden by a
variable; constants can. -/
def meaning? (declared : List String) (name : String) : Option Meaning :=
  match Builtin.find? name with
  | some (.function f) => some (.function f)
  | some (.constant _ value) =>
    some (if declared.contains name then .variable else .constant value)
  | none => if declared.contains name then some .variable else none

/-! ## What has been read -/

/-- An operator or a function whose operands are not complete yet. -/
inductive Waiting
  | operator (op : Operator) (place : Excerpt)
  | function (f : Callable) (place : Excerpt)

namespace Waiting

/-- The operation that is due once the operands are complete. -/
def operation : Waiting → Operation
  | .operator op place => ⟨.apply op, place⟩
  | .function f place => ⟨.call f, place⟩

/-- Whether the operands are complete when an operator arrives. A function binds tighter than
every operator. -/
def yieldsTo (waiting : Waiting) (arriving : Operator) : Bool :=
  match waiting with
  | .operator op _ => op.yieldsTo arriving
  | .function .. => true

end Waiting

/-- A parenthesis that is still open. -/
structure Level where
  /-- The parenthesis. -/
  opened : Excerpt
  /-- What waits around it, the latest first. -/
  around : List Waiting

/-- What the last token was, as far as it matters for a product without an operator. -/
inductive Last
  | nothing
  | number
  | operand
  | other
deriving DecidableEq, Repr

/-- What has been read of a formula. -/
structure Reading where
  /-- The program so far, the latest operation first. -/
  output : List Operation
  /-- What waits since the innermost open parenthesis, the latest first. -/
  waiting : List Waiting
  /-- The open parentheses, the innermost first. -/
  levels : List Level
  /-- What the last token was. -/
  last : Last

namespace Reading

/-- Nothing has been read. -/
def start : Reading :=
  ⟨[], [], [], .nothing⟩

/-- Whether two operands stand side by side and are multiplied: one ends with the last token and
one starts with the next, and they are not both numbers. -/
def juxtaposed (last : Last) (next : Token.Kind) : Bool :=
  match last, next with
  | .number, .name | .number, .opening => true
  | .operand, .number | .operand, .name | .operand, .opening => true
  | _, _ => false

/-- An operation goes to the program. -/
def emit (reading : Reading) (action : Action) (place : Excerpt) : Reading :=
  { reading with output := ⟨action, place⟩ :: reading.output }

/-- An operator arrives: what yields to it goes to the program, and the operator waits for its
right operand. A sign has no left operand, so nothing yields to it. -/
def arrive (reading : Reading) (op : Operator) (place : Excerpt) : Reading :=
  let complete :=
    if op.standsBefore then [] else reading.waiting.takeWhile fun waiting => waiting.yieldsTo op
  { reading with
    output := (complete.map Waiting.operation).reverse ++ reading.output
    waiting := .operator op place :: reading.waiting.drop complete.length }

/-- All that waits since the innermost open parenthesis is complete. -/
def settle (reading : Reading) : Reading :=
  { reading with
    output := (reading.waiting.map Waiting.operation).reverse ++ reading.output
    waiting := [] }

/-- The innermost parenthesis is closed. A function right before it has all its arguments. -/
def close (reading : Reading) (level : Level) (outer : List Level) : Reading :=
  let settled := reading.settle
  match level.around with
  | .function f place :: around =>
    { settled.emit (.call f) place with waiting := around, levels := outer }
  | around => { settled with waiting := around, levels := outer }

/-- What has been read once the last token is known. -/
def ending (reading : Reading) (last : Last) : Reading :=
  { reading with last := last }

/-- A number is read. -/
def number (reading : Reading) (place : Excerpt) : Except Misreading Reading :=
  match Decimal.read? place.text.toList with
  | some decimal => .ok ((reading.emit (.push decimal.toFloat) place).ending .number)
  | none => .error ⟨.malformedNumber, place⟩

/-- A name is read. -/
def name (reading : Reading) (declared : List String) (place : Excerpt) :
    Except Misreading Reading :=
  match meaning? declared place.text with
  | some (.function f) =>
    .ok ({ reading with waiting := .function f place :: reading.waiting }.ending .other)
  | some .variable => .ok ((reading.emit (.load place.text) place).ending .operand)
  | some (.constant value) => .ok ((reading.emit (.push value) place).ending .operand)
  | none => .error ⟨.unknownName, place⟩

/-- What has been read once a product without an operator is accounted for. -/
def multiply (reading : Reading) (token : Token) : Reading :=
  if juxtaposed reading.last token.kind then reading.arrive .mul token.excerpt.opening
  else reading

/-- What has been read after one more token. -/
def step (declared : List String) (before : Reading) (token : Token) :
    Except Misreading Reading :=
  let reading := before.multiply token
  match token.kind with
  | .number => reading.number token.excerpt
  | .name => reading.name declared token.excerpt
  | .operator op => .ok ((reading.arrive op token.excerpt).ending .other)
  | .comma => .ok (reading.settle.ending .other)
  | .opening =>
    .ok ({ reading with
      waiting := []
      levels := ⟨token.excerpt, reading.waiting⟩ :: reading.levels }.ending .other)
  | .closing =>
    match reading.levels with
    | [] => .error ⟨.unmatchedParenthesis, token.excerpt⟩
    | level :: outer => .ok ((reading.close level outer).ending .operand)

/-- The program, once all tokens are read. -/
def finish (reading : Reading) : Except Misreading Program :=
  match reading.levels with
  | [] => .ok reading.settle.output.reverse
  | level :: _ => .error ⟨.unmatchedParenthesis, level.opened⟩

/-- The program of scanned tokens. The obstacle that ended the scan comes after all tokens. -/
def ofScan (declared : List String) (scan : Token.Scan) : Except Misreading Program :=
  scan.tokens.foldlM (step declared) start >>= fun reading =>
    match scan.stop with
    | some (obstacle, place) => .error ⟨.obstacle obstacle, place⟩
    | none => reading.finish

/-- The program of a source text where the given variables are declared, or the first problem in
the order of the source. -/
def program (declared : List String) (source : String) : Except Misreading Program :=
  ofScan declared (Token.scan source)

end Reading

end Grapher
