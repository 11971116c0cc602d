set_option relaxedAutoImplicit false
set_option autoImplicit false

/-!
# Operators

The eight operators of formulas. A sign is an operator of its own: it stands before its one
operand, binds tighter than multiplication and looser than a power, so `-2^2` is `-(2^2)` and
`-2x` is `(-2)x`.

## Main definitions

* `Operator` — the operators.
* `Operator.precedence`, `Operator.grouping` — how operators bind.
* `Operator.standsBefore` — whether an operator is a sign.
* `Operator.yieldsTo` — whether a waiting operator is done when another one arrives.
-/

namespace Grapher

/-- The operators of formulas. -/
inductive Operator
  | neg
  | pos
  | add
  | sub
  | mul
  | div
  | rem
  | pow
deriving DecidableEq, Repr

/-- The side from which operators of one precedence are grouped. -/
inductive Grouping
  | left
  | right
deriving DecidableEq, Repr

namespace Operator

/-- All operators, signs first. -/
def all : List Operator :=
  [.neg, .pos, .add, .sub, .mul, .div, .rem, .pow]

theorem mem_all (op : Operator) : op ∈ all := by
  cases op <;> decide

/-- How tightly an operator binds; a greater number binds tighter. -/
def precedence : Operator → Nat
  | .add | .sub => 2
  | .mul | .div | .rem => 3
  | .neg | .pos => 4
  | .pow => 5

/-- The side from which an operator is grouped with others of its precedence. -/
def grouping : Operator → Grouping
  | .neg | .pos | .pow => .right
  | .add | .sub | .mul | .div | .rem => .left

/-- Whether an operator is a sign, which stands before its one operand. -/
def standsBefore : Operator → Bool
  | .neg | .pos => true
  | _ => false

/-- Whether an operator that waits for its right operand has all of it when `arriving` is read. -/
def yieldsTo (waiting arriving : Operator) : Bool :=
  decide (arriving.precedence < waiting.precedence) ||
    (decide (waiting.precedence = arriving.precedence) && decide (arriving.grouping = .left))

end Operator

end Grapher
