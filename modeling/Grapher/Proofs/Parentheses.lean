import Grapher.Token
import Mathlib.Algebra.BigOperators.Group.List.Basic
import Mathlib.Algebra.Order.Ring.Int

set_option relaxedAutoImplicit false
set_option autoImplicit false

/-!
# Parentheses in a row of tokens

Two parentheses match when what stands between them is balanced. The parentheses that a row of
tokens leaves open cut it into balanced rows, and every token behind the row changes them by one
at most: an opening parenthesis is left open, and a closing one closes the innermost of them, if
there is one.

## Main definitions

* `Token.Balanced` — rows of tokens in which every parenthesis has a match.
* `Token.Closed`, `Token.Matched` — whether a parenthesis has a match behind it, or before it.
* `Token.AllClosed`, `Token.LastUnclosed` — whether all opening parentheses are closed, and the last
  one that is not.
* `Token.Nested` — the parentheses that a row of tokens leaves open, the innermost first.

## Main results

* `Token.Nested.matched_iff` — a closing parenthesis has a match before it exactly if a
  parenthesis is open there.
* `Token.Nested.exists_lastUnclosed` — the innermost open parenthesis is the last one that is not
  closed.
-/

namespace Grapher.Token

/-- In a balanced row of tokens every parenthesis has a match. -/
inductive Balanced : List Token → Prop
  | nil : Balanced []
  | cons {token : Token} {rest : List Token}
      (hkind : token.kind ≠ .opening ∧ token.kind ≠ .closing) (hrest : Balanced rest) :
      Balanced (token :: rest)
  | group {opening closing : Token} {inner rest : List Token} (hopening : opening.kind = .opening)
      (hclosing : closing.kind = .closing) (hinner : Balanced inner) (hrest : Balanced rest) :
      Balanced (opening :: (inner ++ closing :: rest))

/-- An opening parenthesis is closed by what stands behind it. -/
def Closed (behind : List Token) : Prop :=
  ∃ inner closing rest, behind = inner ++ closing :: rest ∧ closing.kind = .closing ∧
    Balanced inner

/-- A closing parenthesis has a match in what stands before it. -/
def Matched (before : List Token) : Prop :=
  ∃ first opening inner, before = first ++ opening :: inner ∧ opening.kind = .opening ∧
    Balanced inner

/-- All opening parentheses of a row of tokens are closed in it. -/
def AllClosed (tokens : List Token) : Prop :=
  ∀ before opening behind, tokens = before ++ opening :: behind → opening.kind = .opening →
    Closed behind

/-- The last opening parenthesis of a row of tokens that is not closed in it. -/
def LastUnclosed (tokens : List Token) (opening : Token) : Prop :=
  ∃ before behind, tokens = before ++ opening :: behind ∧ opening.kind = .opening ∧
    ¬ Closed behind ∧ AllClosed behind

/-- There is one last parenthesis that is not closed. -/
theorem LastUnclosed.unique {tokens : List Token} {opening other : Token}
    (h : LastUnclosed tokens opening) (h' : LastUnclosed tokens other) : opening = other := by
  obtain ⟨before, behind, rfl, hopening, hunclosed, hlast⟩ := h
  obtain ⟨before', behind', heq, hother, hunclosed', hlast'⟩ := h'
  -- of two different ones the later would be closed, for it stands behind the other
  obtain ⟨more, -, hmore⟩ | ⟨more, -, hmore⟩ := List.append_eq_append_iff.1 heq
  · cases more with
    | nil => exact (List.cons.inj hmore).1
    | cons _ more =>
      exact absurd (hlast more other behind' (List.cons.inj hmore).2 hother) hunclosed'
  · cases more with
    | nil => exact (List.cons.inj hmore).1.symm
    | cons _ more =>
      exact absurd (hlast' more opening behind (List.cons.inj hmore).2 hopening) hunclosed

theorem LastUnclosed.not_allClosed {tokens : List Token} {opening : Token}
    (h : LastUnclosed tokens opening) : ¬ AllClosed tokens := by
  obtain ⟨before, behind, heq, hopening, hunclosed, -⟩ := h
  exact fun hall => hunclosed (hall before opening behind heq hopening)

/-! ## Depth -/

/-- By how much a token raises the number of open parentheses. -/
def lift (token : Token) : Int :=
  match token.kind with
  | .opening => 1
  | .closing => -1
  | _ => 0

/-- By how much a row of tokens raises the number of open parentheses. -/
def depth (tokens : List Token) : Int :=
  (tokens.map lift).sum

@[simp]
theorem depth_nil : depth [] = 0 := rfl

@[simp]
theorem depth_cons (token : Token) (rest : List Token) :
    depth (token :: rest) = token.lift + depth rest := by
  simp [depth]

@[simp]
theorem depth_append (tokens others : List Token) :
    depth (tokens ++ others) = depth tokens + depth others := by
  simp [depth]

theorem lift_opening {token : Token} (h : token.kind = .opening) : token.lift = 1 := by
  simp [lift, h]

theorem lift_closing {token : Token} (h : token.kind = .closing) : token.lift = -1 := by
  simp [lift, h]

theorem lift_other {token : Token} (h : token.kind ≠ .opening ∧ token.kind ≠ .closing) :
    token.lift = 0 := by
  unfold lift
  split
  · exact absurd ‹_› h.1
  · exact absurd ‹_› h.2
  · rfl

namespace Balanced

variable {tokens others : List Token}

/-- A balanced row leaves no parenthesis open. -/
theorem depth_eq_zero (h : Balanced tokens) : depth tokens = 0 := by
  induction h with
  | nil => rfl
  | cons hkind _ ih => simp [lift_other hkind, ih]
  | group hopening hclosing _ _ ih ih' =>
    simp [lift_opening hopening, lift_closing hclosing, ih, ih']

/-- Nowhere in a balanced row have more parentheses been closed than opened. -/
theorem depth_take_nonneg (h : Balanced tokens) : ∀ n, 0 ≤ depth (tokens.take n) := by
  induction h with
  | nil => simp
  | cons hkind _ ih =>
    intro n
    cases n with
    | zero => simp
    | succ n => simpa [lift_other hkind] using ih n
  | @group opening closing inner rest hopening hclosing hinner hrest ih ih' =>
    intro n
    cases n with
    | zero => simp
    | succ n =>
      have hdepth : depth inner = 0 := hinner.depth_eq_zero
      rw [List.take_succ_cons, depth_cons, lift_opening hopening, List.take_append, depth_append]
      have hleft := ih n
      cases hn : n - inner.length with
      | zero =>
        simp only [List.take_zero, depth_nil]
        omega
      | succ m =>
        have hright := ih' m
        rw [List.take_of_length_le (by omega), List.take_succ_cons, depth_cons,
          lift_closing hclosing]
        omega

/-- Two balanced rows, one behind the other. -/
theorem append (h : Balanced tokens) (h' : Balanced others) : Balanced (tokens ++ others) := by
  induction h with
  | nil => exact h'
  | cons hkind _ ih => exact .cons hkind ih
  | group hopening hclosing hinner _ _ ih' =>
    rw [List.cons_append, List.append_assoc, List.cons_append]
    exact .group hopening hclosing hinner ih'

/-- What is balanced closes no parenthesis before it. -/
theorem not_closed (h : Balanced tokens) : ¬ Closed tokens := by
  rintro ⟨inner, closing, rest, rfl, hclosing, hinner⟩
  have hnonneg := h.depth_take_nonneg (inner.length + 1)
  rw [← List.singleton_append, ← List.append_assoc,
    List.take_left' (by simp), depth_append, hinner.depth_eq_zero, depth_cons,
    lift_closing hclosing] at hnonneg
  simp at hnonneg

/-- What is balanced has no match for a parenthesis behind it. -/
theorem not_matched (h : Balanced tokens) : ¬ Matched tokens := by
  rintro ⟨first, opening, inner, rfl, hopening, hinner⟩
  have hnonneg := h.depth_take_nonneg first.length
  have hzero := h.depth_eq_zero
  rw [List.take_left] at hnonneg
  rw [depth_append, depth_cons, lift_opening hopening, hinner.depth_eq_zero] at hzero
  omega

/-- In a balanced row every opening parenthesis is closed.

**Proof sketch.** Induction on how the row is balanced. A parenthesis of the row is the first token,
or stands between the first two parentheses that match, or behind them. -/
theorem allClosed (h : Balanced tokens) : AllClosed tokens := by
  induction h with
  | nil =>
    intro before opening behind heq
    simp at heq
  | cons hkind _ ih =>
    intro before opening behind heq hopening
    cases before with
    | nil =>
      obtain ⟨rfl, -⟩ := List.cons.inj heq
      exact absurd hopening hkind.1
    | cons first before => exact ih before opening behind (List.cons.inj heq).2 hopening
  | @group first closing inner rest hfirst hclosing hinner hrest ih ih' =>
    intro before opening behind heq hopening
    have hne : opening ≠ closing := by
      rintro rfl
      exact absurd (hopening.symm.trans hclosing) (by decide)
    cases before with
    | nil => exact ⟨inner, closing, rest, (List.cons.inj heq).2.symm, hclosing, hinner⟩
    | cons _ before =>
      obtain ⟨more, rfl, hmore⟩ | ⟨more, rfl, hmore⟩ :=
        List.append_eq_append_iff.1 (List.cons.inj heq).2
      · cases more with
        | nil => exact absurd (List.cons.inj hmore).1.symm hne
        | cons _ more => exact ih' more opening behind (List.cons.inj hmore).2 hopening
      · cases more with
        | nil => exact absurd (List.cons.inj hmore).1 hne
        | cons _ more =>
          obtain ⟨rfl, rfl⟩ := List.cons.inj hmore
          obtain ⟨between, other, others, rfl, hother, hbetween⟩ :=
            ih before opening more rfl hopening
          exact ⟨between, other, others ++ closing :: rest, by simp, hother, hbetween⟩

end Balanced

/-! ## Open parentheses -/

/-- The parentheses that a row of tokens leaves open, the innermost first: between them and around
them the row is balanced. -/
inductive Nested : List Token → List Excerpt → Prop
  | outside {tokens : List Token} (h : Balanced tokens) : Nested tokens []
  | inside {tokens inner : List Token} {opening : Token} {places : List Excerpt}
      (h : Nested tokens places) (hopening : opening.kind = .opening) (hinner : Balanced inner) :
      Nested (tokens ++ opening :: inner) (opening.excerpt :: places)

namespace Nested

variable {tokens others : List Token} {token : Token} {place : Excerpt} {places : List Excerpt}

/-- A balanced row behind leaves the same parentheses open. -/
theorem append (h : Nested tokens places) (h' : Balanced others) :
    Nested (tokens ++ others) places := by
  cases h with
  | outside h => exact .outside (h.append h')
  | inside h hopening hinner =>
    rw [List.append_assoc, List.cons_append]
    exact .inside h hopening (hinner.append h')

/-- An opening parenthesis behind is left open. -/
theorem concat_opening (h : Nested tokens places) (hkind : token.kind = .opening) :
    Nested (tokens ++ [token]) (token.excerpt :: places) :=
  .inside h hkind .nil

/-- A closing parenthesis behind closes the innermost parenthesis that is open. -/
theorem concat_closing (h : Nested tokens (place :: places)) (hkind : token.kind = .closing) :
    Nested (tokens ++ [token]) places := by
  cases h with
  | inside h hopening hinner =>
    rw [List.append_assoc, List.cons_append]
    exact h.append (.group hopening hkind hinner .nil)

/-- **A closing parenthesis has a match** before it exactly if a parenthesis is open there. -/
theorem matched_iff (h : Nested tokens places) : Matched tokens ↔ places ≠ [] := by
  cases h with
  | outside h => simpa using h.not_matched
  | @inside tokens inner opening places h hopening hinner =>
    exact iff_of_true ⟨tokens, opening, inner, rfl, hopening, hinner⟩ (List.cons_ne_nil _ _)

/-- Where no parenthesis is left open, all are closed. -/
theorem allClosed (h : Nested tokens []) : AllClosed tokens := by
  cases h with
  | outside h => exact h.allClosed

/-- **The innermost open parenthesis is the last one that is not closed.** -/
theorem exists_lastUnclosed (h : Nested tokens (place :: places)) :
    ∃ opening, LastUnclosed tokens opening ∧ opening.excerpt = place := by
  cases h with
  | @inside tokens inner opening _ h hopening hinner =>
    exact ⟨opening, ⟨tokens, inner, rfl, hopening, hinner.not_closed, hinner.allClosed⟩, rfl⟩

end Nested

end Grapher.Token
