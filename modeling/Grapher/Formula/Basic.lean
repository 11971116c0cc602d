import Grapher.Formula.Reading
import Grapher.Formula.Suggestion

set_option relaxedAutoImplicit false
set_option autoImplicit false

/-!
# Formulas

A formula is a source text together with the sound program that it was read into. The program
remembers only which variables it loads; their values come from the environment in which it is
evaluated.

## Main definitions

* `Formula` — a source text and its program.
* `Formula.ofSource` — the formula of a text, or why the text is rejected.
* `Formula.ofFloat` — the formula that is one number.
* `Rejection`, `Rejection.messages` — why a text is rejected, and how this is reported.
-/

namespace Grapher

/-- A source text and the program that it was read into. -/
structure Formula where
  /-- The text as the user wrote it. -/
  source : String
  /-- The program of the text. -/
  program : Program

/-! ## Rejections -/

/-- The two ways in which a text is no formula: it cannot be read, or its program is not sound. -/
inductive Rejection.Cause
  | misread (problem : Problem)
  | unsound (cause : Fault.Cause)
deriving DecidableEq, Repr

/-- Why a text is rejected. -/
structure Rejection where
  /-- What is wrong. -/
  cause : Rejection.Cause
  /-- The rejected text. -/
  source : String
  /-- Where it is wrong, if it is wrong somewhere. -/
  place : Option Excerpt
  /-- The variables that were declared. -/
  declared : List String

namespace Rejection

/-- The first line of a report. -/
def headline (rejection : Rejection) : String :=
  match rejection.cause with
  | .misread problem => s!"parse error: {problem.message}"
  | .unsound cause => s!"invalid expression: {cause.message}"

/-- The rejected text with carets below the place at fault. A fault without a place is shown at the
end of the text, unless the text is blank. -/
def illustration (rejection : Rejection) : List String :=
  match rejection.place with
  | some place => [rejection.source, place.underline]
  | none =>
    if (Text.trim rejection.source.toList).isEmpty then []
    else
      let ending : Excerpt := ⟨rejection.source.utf8ByteSize, ""⟩
      [rejection.source, ending.underline]

/-- A hint on how to mend an obstacle. -/
def obstacleHint? : Token.Obstacle → Option String
  | .stray => some "available tokens are numbers, identifiers, and symbols +-*/%^,()"
  | .reserved .greater | .reserved .less =>
    some "expected an expression but found an inequality"
  | .reserved .equal => some "expected an expression but found an equation"
  | .reserved .bar => some "use the 'abs' function to compute absolute value"
  | .reserved _ => none

/-- A hint that names the candidate for an unknown name. -/
def nameHint? (advice : Advice) (declared : List String) (name : String) : Option String :=
  (Candidate.suggest? advice.measure (advice.candidates declared) name).map fun candidate =>
    s!"{candidate.kind.word} '{candidate.name}' has a similar name"

/-- A hint on how to mend the text. -/
def hint? (advice : Advice) (rejection : Rejection) : Option String :=
  match rejection.cause with
  | .misread (.obstacle obstacle) => obstacleHint? obstacle
  | .misread .malformedNumber => some "parsing as floating point number"
  | .misread .unmatchedParenthesis => none
  | .misread .unknownName =>
    rejection.place.bind fun place => nameHint? advice rejection.declared place.text
  | .unsound (.leftover _) =>
    some "exactly 1 final value is expected, is an operator or comma misplaced?"
  | .unsound _ => none

/-- The report: the headline, the illustration and the hint. -/
def messages (advice : Advice) (rejection : Rejection) : List String :=
  rejection.headline :: rejection.illustration ++
    ((rejection.hint? advice).map fun hint => s!"note: {hint}").toList

end Rejection

/-! ## Compilation -/

namespace Formula

/-- The formula of a text where the given variables are declared. The text is kept as it is. -/
def ofSource (declared : List String) (source : String) : Except Rejection Formula :=
  match Reading.program declared source with
  | .error misreading =>
    .error ⟨.misread misreading.problem, source, some misreading.place, declared⟩
  | .ok program =>
    match Program.check program with
    | .error fault => .error ⟨.unsound fault.cause, source, fault.place?, declared⟩
    | .ok () => .ok ⟨source, program⟩

/-- The formula that is one number, written with the fewest digits. -/
def ofFloat (value : Float) : Formula :=
  let source := Numeral.shortest value
  ⟨source, [⟨.push value, .all source⟩]⟩

/-- The variables that a formula loads, in the order of first use. -/
def names (formula : Formula) : List String :=
  Program.names formula.program

/-- The first of them that an environment does not declare. -/
def firstUndeclared? (formula : Formula) (env : Environment) : Option String :=
  Program.firstUndeclared? formula.program env

/-- The value of a formula in an environment. -/
def value (formula : Formula) (env : Environment) : Except Fault Float :=
  Program.run formula.program env

end Formula

end Grapher
