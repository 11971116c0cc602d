import Grapher.Decimal.Basic

set_option relaxedAutoImplicit false
set_option autoImplicit false

/-!
# Reading decimals

A written number has digits with at most one point among them, and at least one digit. An
exponent may follow: the letter `e` or `E`, an optional sign, and at least one digit.

## Main definitions

* `Decimal.read?` — the decimal that a text writes, if it writes one.

## Main results

* `Decimal.read?_nil` — the empty text writes no number.
-/

namespace Grapher.Decimal

/-- The natural number that a row of digits writes; leading zeros do not matter. -/
def ofDigits (digits : List Char) : Nat :=
  digits.foldl (fun n c => 10 * n + (c.toNat - '0'.toNat)) 0

/-- The integer that an exponent writes, where no text at all writes zero. -/
def readExponent? : List Char → Option Int
  | [] => some 0
  | mark :: rest =>
    if mark = 'e' ∨ mark = 'E' then
      let (negative, digits) : Bool × List Char := match rest with
        | '-' :: digits => (true, digits)
        | '+' :: digits => (false, digits)
        | digits => (false, digits)
      if digits ≠ [] ∧ digits.all Char.isDigit then
        some (if negative then -(ofDigits digits : Int) else ofDigits digits)
      else none
    else none

/-- The decimal that a text without a sign writes, if it writes one. -/
def read? (text : List Char) : Option Decimal :=
  let whole := text.takeWhile Char.isDigit
  let afterWhole := text.dropWhile Char.isDigit
  let (fraction, rest) := match afterWhole with
    | '.' :: tail => (tail.takeWhile Char.isDigit, tail.dropWhile Char.isDigit)
    | tail => ([], tail)
  if whole = [] ∧ fraction = [] then none
  else (readExponent? rest).map fun exponent =>
    { coefficient := ofDigits (whole ++ fraction), exponent := exponent - fraction.length }

theorem read?_nil : read? [] = none := rfl

example : read? "1.50".toList = some ⟨150, -2⟩ := by decide
example : read? ".5e+3".toList = some ⟨5, 2⟩ := by decide
example : read? "1.2.3".toList = none := by decide
example : read? ".".toList = none := by decide
example : read? "2e".toList = none := by decide

end Grapher.Decimal
