set_option relaxedAutoImplicit false
set_option autoImplicit false

/-!
# Blank characters

A character is *blank* when it has the Unicode property `White_Space`. Blanks separate the
words of a formula, and a line or a range bound is read without the blanks around it.

## Main definitions

* `Text.isBlank` — the property, given by its ten ranges of code points.
* `Text.trim`, `Text.trimmed` — a text without the blanks at its two ends.

## Main results

* `Text.isBlank_of_isWhitespace` — every whitespace character of the core library is blank.
-/

namespace Grapher.Text

/-- The code points with the property `White_Space`, as inclusive ranges. -/
def blankRanges : List (Nat × Nat) :=
  [(0x09, 0x0D), (0x20, 0x20), (0x85, 0x85), (0xA0, 0xA0), (0x1680, 0x1680),
    (0x2000, 0x200A), (0x2028, 0x2029), (0x202F, 0x202F), (0x205F, 0x205F), (0x3000, 0x3000)]

/-- The property has twenty-five characters. -/
example : (blankRanges.map fun range => range.2 + 1 - range.1).sum = 25 := by decide

/-- Whether a character is blank. -/
def isBlank (c : Char) : Bool :=
  blankRanges.any fun range => decide (range.1 ≤ c.toNat) && decide (c.toNat ≤ range.2)

/-- Every whitespace character of the core library is blank. -/
theorem isBlank_of_isWhitespace (c : Char) (h : c.isWhitespace = true) : isBlank c = true := by
  simp only [Char.isWhitespace, Bool.or_eq_true, decide_eq_true_eq] at h
  rcases h with ((rfl | rfl) | rfl) | rfl <;> decide

/-- The text without its leading and trailing blanks. -/
def trim (text : List Char) : List Char :=
  ((text.dropWhile isBlank).reverse.dropWhile isBlank).reverse

/-- The string without its leading and trailing blanks. -/
def trimmed (text : String) : String :=
  String.ofList (trim text.toList)

end Grapher.Text
