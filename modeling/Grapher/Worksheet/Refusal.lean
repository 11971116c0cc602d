import Grapher.Worksheet.Sweep

set_option relaxedAutoImplicit false
set_option autoImplicit false

/-!
# Refusals

Why a worksheet refuses what a user asks for. A refusal is a cause; its report is a list of lines
and has at least one.

## Main definitions

* `Subject` — what a refused text was meant for.
* `Refusal`, `Refusal.messages` — why something is refused, and how this is reported.

## Main results

* `Refusal.messages_ne_nil` — every refusal is reported.
-/

namespace Grapher

/-- What a refused text was meant for. -/
inductive Subject
  | expression (c : Coordinate)
  | bound (role : Bound.Role)
deriving DecidableEq, Repr

/-- The words for a subject at the start of a report. -/
def Subject.words : Subject → String
  | .expression c => s!"{c.letter} expression"
  | .bound role => s!"invalid range {role.word}"

/-- Why an edit is refused. -/
inductive Refusal
  | formula (rejection : Rejection)
  | value (cause : Fault.Cause)
  | infinite (source : String)
  | notPositive (source : String)
  | about (subject : Subject) (refusal : Refusal)
  | unknownCoordinate (text : String)
  | unknownMode (text : String)
  | missing (what : Missing)

namespace Refusal

/-- The report of a refusal. A subject stands before the first line. Where an unknown name is to
blame, the hint depends on the advice. -/
def messages (advice : Advice) : Refusal → List String
  | .formula rejection => rejection.messages advice
  | .value cause => [cause.message]
  | .infinite source => [s!"\"{source}\" is not a finite number"]
  | .notPositive source => [s!"\"{source}\" must be greater than zero"]
  | .about subject refusal =>
    match refusal.messages advice with
    | [] => [subject.words]
    | first :: rest => s!"{subject.words}: {first}" :: rest
  | .unknownCoordinate text =>
    [s!"unknown expression '{Text.trimmed text}', expected one of x, y, r, t"]
  | .unknownMode text => [s!"unknown plot mode '{Text.trimmed text}'"]
  | .missing what => [what.message]

/-- **Every refusal is reported.** -/
theorem messages_ne_nil (advice : Advice) (refusal : Refusal) : refusal.messages advice ≠ [] := by
  cases refusal with
  | about subject refusal =>
    rw [messages]
    split <;> simp
  | _ => simp [messages, Rejection.messages]

end Refusal

end Grapher
