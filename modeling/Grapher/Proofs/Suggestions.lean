import Grapher.Formula.Suggestion
import Mathlib.Data.Prod.Lex
import Mathlib.Order.Compare
import Mathlib.Data.Int.Order.Basic

set_option relaxedAutoImplicit false
set_option autoImplicit false

/-!
# What is suggested for an unknown name

The suggestion is the first of the most similar candidates. A candidate that comes behind another
one of the same name is no more similar than this one, so it is never suggested, and it does not
stand in the way of those behind it. In particular no variable is suggested that has the name of a
builtin.

Similarities are numbers with rounding, but they are compared as in any order: what is no number is
neither below nor above anything, and all other numbers are in a row.

## Main definitions

* `Arithmetic.rank` — where a number stands among the others.

## Main results

* `Arithmetic.lt_iff_rank` — numbers are compared by their ranks.
* `Arithmetic.le_iff_not_lt` — numbers that are no more than others.
* `Candidate.suggest?_insert` — a name that is there already is not suggested in a new meaning.
* `Candidate.suggest?_filter` — so variables with such names make no difference.
-/

namespace Grapher

/-! ## The order of numbers -/

namespace Arithmetic

open Float.Model (UnpackedFloat)

/-- Where a number stands among the others, unless it is no number: by its sign first, then by its
exponent, then by its digits. -/
def rank : UnpackedFloat → Option (Int ×ₗ Int ×ₗ Int)
  | .notANumber => none
  | .infinity .negative => some (toLex (-2, toLex (0, 0)))
  | .finite .negative mantissa exponent _ => some (toLex (-1, toLex (-exponent, -mantissa)))
  | .zero _ => some (toLex (0, toLex (0, 0)))
  | .finite .positive mantissa exponent _ => some (toLex (1, toLex (exponent, mantissa)))
  | .infinity .positive => some (toLex (2, toLex (0, 0)))

/-- Unpacked numbers are compared by their ranks. -/
theorem unpacked_lt_iff (a b : UnpackedFloat) :
    a.lt b ↔ ∃ i ∈ rank a, ∃ j ∈ rank b, i < j := by
  unfold UnpackedFloat.lt UnpackedFloat.compare rank
  rcases a with (_ | _) | _ | (_ | _) | ⟨_ | _, mantissa, exponent, hmantissa⟩ <;>
    rcases b with (_ | _) | _ | (_ | _) | ⟨_ | _, mantissa', exponent', hmantissa'⟩ <;>
    dsimp only <;>
    simp [Prod.Lex.lt_iff, Ordering.then_eq_lt, Ordering.then_eq_gt, compare_lt_iff_lt,
      compare_gt_iff_gt]
  rfl

/-- **Numbers are compared by their ranks.** -/
theorem lt_iff_rank {x y : Float} :
    x < y ↔ ∃ i ∈ rank x.toModel.unpack, ∃ j ∈ rank y.toModel.unpack, i < j := by
  rw [← unpacked_lt_iff]
  exact decide_eq_true_iff (p := x.toModel < y.toModel)

theorem lt_irrefl (x : Float) : ¬ x < x := by
  rw [lt_iff_rank]
  rintro ⟨i, hi, j, hj, hlt⟩
  obtain rfl := Option.mem_unique hi hj
  exact hlt.false

theorem lt_trans {x y z : Float} (h : x < y) (h' : y < z) : x < z := by
  obtain ⟨i, hi, j, hj, hlt⟩ := lt_iff_rank.1 h
  obtain ⟨j', hj', k, hk, hlt'⟩ := lt_iff_rank.1 h'
  obtain rfl := Option.mem_unique hj hj'
  exact lt_iff_rank.2 ⟨i, hi, k, hk, hlt.trans hlt'⟩

/-- Unpacked numbers are compared in both directions alike. -/
theorem unpacked_compare_swap (a b : UnpackedFloat) :
    b.compare a = (a.compare b).map Ordering.swap := by
  unfold UnpackedFloat.compare
  rcases a with (_ | _) | _ | (_ | _) | ⟨_ | _, mantissa, exponent, hmantissa⟩ <;>
    rcases b with (_ | _) | _ | (_ | _) | ⟨_ | _, mantissa', exponent', hmantissa'⟩ <;>
    try rfl
  case finite.negative.finite.negative | finite.positive.finite.positive =>
    simp only [Option.map_some, Ordering.swap_then, ← Std.OrientedOrd.eq_swap]

/-- Only what is no number is not compared. -/
theorem exists_unpacked_compare {a b : UnpackedFloat} (ha : a.isNaN = false)
    (hb : b.isNaN = false) : ∃ order, a.compare b = some order := by
  unfold UnpackedFloat.compare
  rcases a with (_ | _) | _ | (_ | _) | ⟨_ | _, mantissa, exponent, hmantissa⟩ <;>
    rcases b with (_ | _) | _ | (_ | _) | ⟨_ | _, mantissa', exponent', hmantissa'⟩ <;>
    first | exact ⟨_, rfl⟩ | exact absurd ha (by decide) | exact absurd hb (by decide)

/-- Of two numbers one is at most the other exactly if the other is not below it. -/
theorem le_iff_not_lt {x y : Float} (hx : x.isNaN = false) (hy : y.isNaN = false) :
    x ≤ y ↔ ¬ y < x := by
  have hle : x ≤ y ↔ x.toModel.unpack.le y.toModel.unpack :=
    decide_eq_true_iff (p := x.toModel ≤ y.toModel)
  have hlt : y < x ↔ y.toModel.unpack.lt x.toModel.unpack :=
    decide_eq_true_iff (p := y.toModel < x.toModel)
  obtain ⟨order, horder⟩ := exists_unpacked_compare (a := y.toModel.unpack) hy hx
  rw [hle, hlt, UnpackedFloat.le, UnpackedFloat.lt, unpacked_compare_swap, horder]
  cases order <;> decide

end Arithmetic

/-! ## The most similar candidate -/

namespace Candidate

variable (measure : String → String → Float) (name : String)

/-- The more similar one of two candidates, the first if they are equally similar. -/
def better (best next : Candidate) : Candidate :=
  if similarity measure name best < similarity measure name next then next else best

/-- No candidate is more similar than the better one of it and another. -/
theorem not_lt_better {best next other : Candidate}
    (h : ¬ similarity measure name best < similarity measure name other ∨ other = next) :
    ¬ similarity measure name (better measure name best next) < similarity measure name other := by
  unfold better
  split
  · next hlt =>
    rcases h with h | rfl
    · exact fun hother => h (Arithmetic.lt_trans hlt hother)
    · exact Arithmetic.lt_irrefl _
  · next hlt =>
    rcases h with h | rfl
    · exact h
    · exact hlt

/-- **No candidate is more similar than the best one.** -/
theorem not_lt_foldl {rest : List Candidate} :
    ∀ {first other : Candidate},
      (¬ similarity measure name first < similarity measure name other ∨ other ∈ rest) →
      ¬ similarity measure name (rest.foldl (better measure name) first) <
        similarity measure name other := by
  induction rest with
  | nil =>
    intro first other h
    exact h.resolve_right (List.not_mem_nil)
  | cons next rest ih =>
    intro first other h
    refine ih ?_
    rcases h with h | h
    · exact .inl (not_lt_better measure name (.inl h))
    · rcases List.mem_cons.1 h with rfl | h
      · exact .inl (not_lt_better measure name (.inr rfl))
      · exact .inr h

/-- A candidate that is no more similar than one before it is not the best one. -/
theorem best?_insert {front back : List Candidate} {other new : Candidate} (hother : other ∈ front)
    (hsame : similarity measure name new = similarity measure name other) :
    best? measure name (front ++ new :: back) = best? measure name (front ++ back) := by
  obtain ⟨first, rest, rfl⟩ := List.exists_cons_of_ne_nil (List.ne_nil_of_mem hother)
  have hbest : ∀ candidates, best? measure name (first :: candidates) =
      some (candidates.foldl (better measure name) first) := fun _ => rfl
  have hnew : better measure name (rest.foldl (better measure name) first) new =
      rest.foldl (better measure name) first := by
    refine if_neg ?_
    rw [hsame]
    refine not_lt_foldl measure name ?_
    rcases List.mem_cons.1 hother with rfl | hother
    · exact .inl (Arithmetic.lt_irrefl _)
    · exact .inr hother
  rw [List.cons_append, List.cons_append, hbest, hbest, List.foldl_append, List.foldl_append,
    List.foldl_cons, hnew]

/-- **A name that is there already is not suggested in a new meaning.** -/
theorem suggest?_insert {front back : List Candidate} {kind kind' : Kind} {other : String}
    (hother : ⟨kind, other⟩ ∈ front) :
    suggest? measure (front ++ ⟨kind', other⟩ :: back) name =
      suggest? measure (front ++ back) name := by
  have hsame :
      similarity measure name ⟨kind', other⟩ = similarity measure name ⟨kind, other⟩ := rfl
  rw [suggest?, suggest?, best?_insert measure name hother hsame]

/-- **Variables with names that are there already** make no difference to what is suggested.

**Proof sketch.** Induction on the variables. One with a new name joins those in front of the
others, and one without is not suggested. -/
theorem suggest?_filter (isNew : String → Bool) (names : List String) :
    ∀ {front : List Candidate},
      (∀ other ∈ names, isNew other = false → ∃ kind, ⟨kind, other⟩ ∈ front) →
      suggest? measure (front ++ names.map (⟨.variable, ·⟩)) name =
        suggest? measure (front ++ (names.filter isNew).map (⟨.variable, ·⟩)) name := by
  induction names with
  | nil => exact fun _ => rfl
  | cons first rest ih =>
    intro front h
    obtain ⟨hfirst, hrest⟩ := List.forall_mem_cons.1 h
    cases hnew : isNew first with
    | true =>
      rw [List.filter_cons_of_pos hnew, List.map_cons, List.map_cons, List.append_cons,
        List.append_cons _ _ ((rest.filter isNew).map _)]
      refine ih fun other hother hold => ?_
      obtain ⟨kind, hkind⟩ := hrest other hother hold
      exact ⟨kind, List.mem_append_left _ hkind⟩
    | false =>
      obtain ⟨kind, hkind⟩ := hfirst hnew
      rw [List.filter_cons_of_neg (by simp [hnew]), List.map_cons,
        suggest?_insert measure name hkind]
      exact ih hrest

end Candidate

end Grapher
