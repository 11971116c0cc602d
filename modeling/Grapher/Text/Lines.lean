import Grapher.Text.Blank

set_option relaxedAutoImplicit false
set_option autoImplicit false

/-!
# Lines of a text

Every line break ends a line, and what follows the last break is one more line unless it is
empty. So a text has as many lines as breaks, and one more exactly when it is not empty and does
not end with a break. The same cut serves texts, which are lists of characters, and undecoded
input, which is a list of bytes.

## Main definitions

* `Text.segments` — the segments that a stop ends, and the unended last one if it is not empty.
* `Text.trimmedLines` — the lines of a string, each without the blanks around it.

## Main results

* `Text.segments_stop` — what stands before the first stop is the first segment.
* `Text.segments_of_not_mem` — a text without a stop is one segment, or none if it is empty.
-/

namespace Grapher.Text

section Segments

variable {α : Type} [DecidableEq α] (stop : α)

/-- The segments of a list whose first segment has already begun with `begun`, in reverse. -/
def segmentsFrom (begun : List α) : List α → List (List α)
  | [] => if begun.isEmpty then [] else [begun.reverse]
  | a :: rest =>
    if a = stop then begun.reverse :: segmentsFrom [] rest else segmentsFrom (a :: begun) rest

/-- The segments of a list: each `stop` ends one, and what follows the last `stop` is one more
unless it is empty. No segment holds a stop. -/
def segments (list : List α) : List (List α) :=
  segmentsFrom stop [] list

theorem segmentsFrom_append {part : List α} (h : stop ∉ part) (begun rest : List α) :
    segmentsFrom stop begun (part ++ rest) =
      segmentsFrom stop (part.reverse ++ begun) rest := by
  induction part generalizing begun with
  | nil => rfl
  | cons a part ih =>
    have ha : a ≠ stop := fun e => h (by simp [e])
    rw [List.cons_append, segmentsFrom, if_neg ha, ih (fun m => h (by simp [m]))]
    simp

/-- **What stands before the first stop is the first segment.** -/
theorem segments_stop {part : List α} (h : stop ∉ part) (rest : List α) :
    segments stop (part ++ stop :: rest) = part :: segments stop rest := by
  simp [segments, segmentsFrom_append stop h, segmentsFrom]

/-- **A list without a stop is one segment,** or none if it is empty. -/
theorem segments_of_not_mem {part : List α} (h : stop ∉ part) :
    segments stop part = if part.isEmpty then [] else [part] := by
  have := segmentsFrom_append stop h [] []
  simp only [List.append_nil] at this
  simp [segments, this, segmentsFrom]

end Segments

/-- The lines of a string, each without the blanks around it. -/
def trimmedLines (text : String) : List String :=
  (segments '\n' text.toList).map fun line => String.ofList (trim line)

end Grapher.Text
