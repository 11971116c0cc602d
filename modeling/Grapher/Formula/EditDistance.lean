import Grapher.Formula.Suggestion

set_option relaxedAutoImplicit false
set_option autoImplicit false

/-!
# Advice by edit distance

The program is run with one measure of similarity, and it enumerates builtins in the order of their
table and variables in the order in which they are listed.

Two words are compared by the least number of edits that turn one into the other. An edit
inserts, deletes or replaces one character, or exchanges two neighbours; characters may be
inserted between two that have been exchanged. The similarity of two words is one less the share
of edits in the length of the longer word.

The least number of edits is found row by row. Row `i` holds, for every `j`, the distance from
the first `i` characters of one word to the first `j` of the other. An exchange reaches back to
the last place where the two characters met in the opposite order.

## Main definitions

* `Text.distance` — the least number of edits between two words.
* `Text.similarity` — one for equal words, zero for words that share nothing.
* `Advice.byEdits` — the advice with which the program is run.
-/

namespace Grapher

namespace Text

/-- The entry of a table of rows, or zero outside it. -/
def entry (table : Array (Array Nat)) (i j : Nat) : Nat :=
  (table.getD i #[]).getD j 0

/-- Where each character of a word was last met, counted from one. -/
abbrev Latest := List (Char × Nat)

/-- Where a character was last met, or zero if it was not. -/
def Latest.find (latest : Latest) (c : Char) : Nat :=
  (latest.lookup c).getD 0

/-- A character is met at a place after all others. -/
def Latest.meet (latest : Latest) (c : Char) (place : Nat) : Latest :=
  (c, place) :: latest.filter (·.1 != c)

/-- The entry at row `i + 1` and column `j + 1`, where `a` and `b` are the characters there,
`table` holds the rows above and `left` is the entry before. The character `b` was last met at
`k` in the first word, and `a` at `l` in the second. -/
def nextEntry (table : Array (Array Nat)) (i j : Nat) (a b : Char) (left k l : Nat) : Nat :=
  let replaced := entry table i j + if a = b then 0 else 1
  let deleted := entry table i (j + 1) + 1
  let best := min replaced (min deleted (left + 1))
  if 0 < k ∧ 0 < l then min best (entry table (k - 1) (l - 1) + (i - k) + 1 + (j - l)) else best

/-- The row of `a`, whose entries before column `j + 1` are `row` with `left` as the last of
them, continued over the further characters of the second word. The character `a` was last met
there at `l`. -/
def extendRow (table : Array (Array Nat)) (latest : Latest) (i : Nat) (a : Char) :
    (j left l : Nat) → (row : Array Nat) → List Char → Array Nat
  | _, _, _, row, [] => row
  | j, left, l, row, b :: rest =>
    let next := nextEntry table i j a b left (latest.find b) l
    extendRow table latest i a (j + 1) next (if a = b then j + 1 else l) (row.push next) rest

/-- The table, continued over the characters of the first word that follow the first `i`. -/
def extendTable (other : List Char) :
    (i : Nat) → (latest : Latest) → (table : Array (Array Nat)) → List Char → Array (Array Nat)
  | _, _, table, [] => table
  | i, latest, table, a :: rest =>
    extendTable other (i + 1) (latest.meet a (i + 1))
      (table.push (extendRow table latest i a 0 (i + 1) 0 #[i + 1] other)) rest

/-- The least number of edits that turn one word into the other. -/
def distance (word other : List Char) : Nat :=
  entry (extendTable other 0 [] #[(List.range (other.length + 1)).toArray] word)
    word.length other.length

example : distance "sni".toList "sin".toList = 1 := by decide
example : distance "ca".toList "abc".toList = 2 := by decide
example : distance "kitten".toList "sitting".toList = 3 := by decide

/-- A count of characters or edits as a number. Counts are machine words of 64 bits, and no count
is taken for more than the greatest of them. -/
def countToFloat (count : Nat) : Float :=
  (min count (UInt64.size - 1)).toFloat

/-- The similarity of two words: one less the share of edits in the longer word's length. -/
def similarity (word other : List Char) : Float :=
  let longer := max word.length other.length
  if longer = 0 then 1
  else 1 - countToFloat (distance word other) / countToFloat longer

end Text

/-- The advice with which the program is run. -/
def Advice.byEdits : Advice where
  measure word other := Text.similarity word.toList other.toList
  builtins := Builtin.table
  names declared := declared
  mem_builtins _ := Iff.rfl
  mem_names _ _ := Iff.rfl

end Grapher
