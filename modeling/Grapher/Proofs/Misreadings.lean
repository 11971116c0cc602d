import Grapher.Proofs.Parentheses
import Grapher.Proofs.Places

set_option relaxedAutoImplicit false
set_option autoImplicit false

/-!
# The first problem of a text

A reading stops at the first token that cannot be read: a number whose mantissa has more than one
point or no digit, a name without a meaning, or a closing parenthesis without a match before it.
If there is none, it stops where the scan has stopped, and if the scan has come to the end, at the
last opening parenthesis that is not closed. Only a text without any of these is read.

## Main definitions

* `Token.Stops`, `Token.Passes` — whether a reading stops at a token, or at none.
* `Token.Scan.Misread` — the first problem of a scan.

## Main results

* `Reading.step_of_stops`, `Reading.exists_step` — what a step does with a token.
* `Reading.program_error_iff_misread` — the misreading of a text is its first problem.
-/

namespace Grapher

/-! ## Problems -/

/-- A name has no meaning if it is neither builtin nor declared. -/
theorem meaning?_eq_none_iff {declared : List String} {name : String} :
    meaning? declared name = none ↔ Builtin.find? name = none ∧ name ∉ declared := by
  unfold meaning?
  cases Builtin.find? name with
  | none => by_cases h : name ∈ declared <;> simp [h]
  | some builtin => cases builtin <;> simp

namespace Token

variable {declared : List String}

/-- Why a reading stops at a token that stands behind the given tokens. -/
inductive Stops (declared : List String) (before : List Token) (token : Token) : Problem → Prop
  | number (hkind : token.kind = .number)
      (hmantissa : 1 < token.mantissa.count '.' ∨ ∀ c ∈ token.mantissa, ¬ c.isDigit) :
      Stops declared before token .malformedNumber
  | name (hkind : token.kind = .name) (hbuiltin : Builtin.find? token.excerpt.text = none)
      (hdeclared : token.excerpt.text ∉ declared) : Stops declared before token .unknownName
  | closing (hkind : token.kind = .closing) (hmatched : ¬ Matched before) :
      Stops declared before token .unmatchedParenthesis

/-- A reading stops at none of the given tokens. -/
def Passes (declared : List String) (tokens : List Token) : Prop :=
  ∀ before token behind, tokens = before ++ token :: behind →
    ∀ problem, ¬ Stops declared before token problem

/-- The first problem of a scan: the first token at which a reading stops, else the obstacle that
ended the scan, else the last opening parenthesis that is not closed. -/
inductive Scan.Misread (declared : List String) (scan : Scan) : Misreading → Prop
  | token {before behind : List Token} {token : Token} {problem : Problem}
      (hsplit : scan.tokens = before ++ token :: behind) (hbefore : Passes declared before)
      (hproblem : Stops declared before token problem) :
      Misread declared scan ⟨problem, token.excerpt⟩
  | stop {obstacle : Obstacle} {place : Excerpt} (htokens : Passes declared scan.tokens)
      (hstop : scan.stop = some (obstacle, place)) :
      Misread declared scan ⟨.obstacle obstacle, place⟩
  | unclosed {opening : Token} (htokens : Passes declared scan.tokens) (hstop : scan.stop = none)
      (hopening : LastUnclosed scan.tokens opening) :
      Misread declared scan ⟨.unmatchedParenthesis, opening.excerpt⟩

/-- A number token is no literal when a reading stops at it. -/
theorem not_isLiteral_iff {token : Token} (hkind : token.kind = .number) :
    ¬ token.IsLiteral ↔
      1 < token.mantissa.count '.' ∨ ∀ c ∈ token.mantissa, ¬ c.isDigit := by
  rw [IsLiteral, not_and, Classical.not_and_iff_not_or_not, Nat.not_le, not_exists]
  simp [hkind]

/-- Tokens that a reading passes, and one token more. -/
theorem passes_concat_iff {tokens : List Token} {token : Token} :
    Passes declared (tokens ++ [token]) ↔
      Passes declared tokens ∧ ∀ problem, ¬ Stops declared tokens token problem := by
  constructor
  · intro h
    refine ⟨fun before other behind heq => ?_, h tokens token [] rfl⟩
    exact h before other (behind ++ [token]) (by rw [heq]; simp)
  · rintro ⟨htokens, htoken⟩ before other behind heq
    rcases List.eq_nil_or_concat behind with rfl | ⟨behind, last, rfl⟩
    · obtain ⟨rfl, hlast⟩ := List.append_inj' heq rfl
      obtain rfl : token = other := by simpa using hlast
      exact htoken
    · have heq' : tokens ++ [token] = before ++ other :: behind ++ [last] := by simpa using heq
      exact htokens before other behind (List.append_inj' heq' rfl).1

/-- **A reading passes some tokens or there is a first one at which it stops.** -/
theorem passes_or_exists_stops (declared : List String) (tokens : List Token) :
    Passes declared tokens ∨
      ∃ before token behind problem, tokens = before ++ token :: behind ∧
        Passes declared before ∧ Stops declared before token problem := by
  induction tokens using List.reverseRecOn with
  | nil => exact .inl fun before token behind heq => by simp at heq
  | append_singleton tokens last ih =>
    rcases ih with htokens | ⟨before, token, behind, problem, rfl, hbefore, hproblem⟩
    · by_cases hlast : ∃ problem, Stops declared tokens last problem
      · obtain ⟨problem, hproblem⟩ := hlast
        exact .inr ⟨tokens, last, [], problem, rfl, htokens, hproblem⟩
      · exact .inl (passes_concat_iff.2 ⟨htokens, not_exists.1 hlast⟩)
    · exact .inr ⟨before, token, behind ++ [last], problem, by simp, hbefore, hproblem⟩

end Token

/-! ## Steps -/

namespace Reading

open Token (Stops Passes Nested)

variable {declared : List String}

/-- The open parentheses of a reading, the innermost first. -/
def opened (reading : Reading) : List Excerpt :=
  reading.levels.map Level.opened

theorem levels_close (reading : Reading) (level : Level) (outer : List Level) :
    (reading.close level outer).levels = outer := by
  unfold close
  split <;> rfl

/-- A number token can be read exactly if it is a literal. -/
def Faithful (token : Token) : Prop :=
  token.kind = .number → ((Decimal.read? token.excerpt.text.toList).isSome ↔ token.IsLiteral)

section Step

variable {reading : Reading} {before : List Token} {token : Token}

/-- **A step is refused** at a token at which the reading stops, for the problem that it has. -/
theorem step_of_stops (htoken : Faithful token) (h : Nested before reading.opened)
    {problem : Problem} (hproblem : Stops declared before token problem) :
    step declared reading token = .error ⟨problem, token.excerpt⟩ := by
  unfold step
  cases hproblem with
  | number hkind hmantissa =>
    have hread : Decimal.read? token.excerpt.text.toList = none := by
      rw [← Option.not_isSome_iff_eq_none, htoken hkind]
      exact (Token.not_isLiteral_iff hkind).2 hmantissa
    simp only [hkind, number, hread]
  | name hkind hbuiltin hdeclared =>
    have hmeaning := meaning?_eq_none_iff.2 ⟨hbuiltin, hdeclared⟩
    simp only [hkind, name, hmeaning]
  | closing hkind hmatched =>
    have hnone : reading.opened = [] := not_not.1 fun hne => hmatched (h.matched_iff.2 hne)
    have hlevels : (reading.multiply token).levels = [] := by
      rw [levels_multiply]
      exact List.map_eq_nil_iff.1 hnone
    simp only [hkind, hlevels]

/-- **A step is made** at every other token, and the reading knows which parentheses are open. -/
theorem exists_step (htoken : Faithful token) (h : Nested before reading.opened)
    (hpasses : ∀ problem, ¬ Stops declared before token problem) :
    ∃ later, step declared reading token = .ok later ∧
      Nested (before ++ [token]) later.opened := by
  have hmultiply : (reading.multiply token).opened = reading.opened := by
    rw [opened, levels_multiply, opened]
  have hother : token.kind ≠ .opening ∧ token.kind ≠ .closing →
      Nested (before ++ [token]) reading.opened := fun hkind => h.append (.cons hkind .nil)
  unfold step
  cases hkind : token.kind with
  | number =>
    have hread : (Decimal.read? token.excerpt.text.toList).isSome := by
      rw [htoken hkind]
      by_contra hliteral
      exact hpasses _ (.number hkind ((Token.not_isLiteral_iff hkind).1 hliteral))
    obtain ⟨decimal, hdecimal⟩ := Option.isSome_iff_exists.1 hread
    simp only [number, hdecimal]
    exact ⟨_, rfl, hmultiply ▸ hother (by simp [hkind])⟩
  | name =>
    have hnested := hmultiply ▸ hother (by simp [hkind])
    cases hmeaning : meaning? declared token.excerpt.text with
    | none =>
      obtain ⟨hbuiltin, hdeclared⟩ := meaning?_eq_none_iff.1 hmeaning
      exact absurd (.name hkind hbuiltin hdeclared) (hpasses _)
    | some meaning =>
      cases meaning <;> simp only [name, hmeaning] <;> exact ⟨_, rfl, hnested⟩
  | operator op => exact ⟨_, rfl, hmultiply ▸ hother (by simp [hkind])⟩
  | comma => exact ⟨_, rfl, hmultiply ▸ hother (by simp [hkind])⟩
  | opening => exact ⟨_, rfl, (hmultiply ▸ h).concat_opening hkind⟩
  | closing =>
    cases hlevels : (reading.multiply token).levels with
    | nil =>
      have hnone : reading.opened = [] := by rw [← hmultiply, opened, hlevels, List.map_nil]
      exact absurd (.closing hkind fun hmatched => h.matched_iff.1 hmatched hnone) (hpasses _)
    | cons level outer =>
      refine ⟨((reading.multiply token).close level outer).ending .operand,
        by simp only [hlevels], ?_⟩
      have hlater : (((reading.multiply token).close level outer).ending .operand).opened =
          outer.map Level.opened := congrArg (List.map Level.opened) (levels_close _ _ _)
      rw [← hmultiply, opened, hlevels] at h
      exact hlater ▸ h.concat_closing hkind

/-- A row of tokens that a reading passes is read, and the reading knows which parentheses are
open. -/
theorem exists_foldlM {tokens : List Token} :
    (∀ token ∈ tokens, Faithful token) → Passes declared tokens →
      ∃ reading, tokens.foldlM (step declared) start = .ok reading ∧
        Nested tokens reading.opened := by
  induction tokens using List.reverseRecOn with
  | nil => exact fun _ _ => ⟨start, rfl, .outside .nil⟩
  | append_singleton tokens last ih =>
    intro hfaithful hpasses
    obtain ⟨htokens, hlast⟩ := Token.passes_concat_iff.1 hpasses
    obtain ⟨reading, hfold, hnested⟩ := ih (fun token htoken => hfaithful token (by simp [htoken]))
      htokens
    obtain ⟨later, hstep, hlater⟩ := exists_step (hfaithful last (by simp)) hnested hlast
    refine ⟨later, ?_, hlater⟩
    rw [List.foldlM_append, hfold]
    exact foldlM_cons_eq_ok_iff.2 ⟨later, hstep, rfl⟩

/-- A reading stops at the first token at which it is refused. -/
theorem foldlM_of_stops {before behind : List Token} {token : Token} {problem : Problem}
    (hfaithful : ∀ other ∈ before ++ token :: behind, Faithful other)
    (hbefore : Passes declared before) (hproblem : Stops declared before token problem) :
    (before ++ token :: behind).foldlM (step declared) start =
      .error ⟨problem, token.excerpt⟩ := by
  obtain ⟨reading, hfold, hnested⟩ :=
    exists_foldlM (fun other hother => hfaithful other (by simp [hother])) hbefore
  rw [List.foldlM_append, hfold]
  change List.foldlM (step declared) reading (token :: behind) = _
  rw [List.foldlM_cons, step_of_stops (hfaithful token (by simp)) hnested hproblem]
  rfl

end Step

/-! ## Texts -/

section Text

variable (declared : List String) (source : String)

/-- The number tokens of a scan can be read exactly if they are literals. -/
theorem faithful_of_mem_scan {token : Token} (h : token ∈ (Token.scan source).tokens) :
    Faithful token :=
  Token.read?_isSome_iff h

/-- The program of a text that a reading passes is that of its last reading. -/
theorem program_of_passes {reading : Reading}
    (hfold : (Token.scan source).tokens.foldlM (step declared) start = .ok reading)
    (hstop : (Token.scan source).stop = none) :
    program declared source = reading.finish := by
  rw [program, ofScan, hfold, hstop]
  rfl

/-- The first problem of a text is its misreading. -/
theorem program_of_misread {misreading : Misreading}
    (h : (Token.scan source).Misread declared misreading) :
    program declared source = .error misreading := by
  have hfaithful : ∀ token ∈ (Token.scan source).tokens, Faithful token :=
    fun token => faithful_of_mem_scan source
  cases h with
  | token hsplit hbefore hproblem =>
    rw [hsplit] at hfaithful
    rw [program, ofScan, hsplit, foldlM_of_stops hfaithful hbefore hproblem]
    rfl
  | stop htokens hstop =>
    obtain ⟨reading, hfold, -⟩ := exists_foldlM hfaithful htokens
    rw [program, ofScan, hfold, hstop]
    rfl
  | @unclosed opening htokens hstop hopening =>
    obtain ⟨reading, hfold, hnested⟩ := exists_foldlM hfaithful htokens
    rw [program_of_passes declared source hfold hstop, finish]
    cases hlevels : reading.levels with
    | nil =>
      rw [opened, hlevels] at hnested
      exact absurd hnested.allClosed hopening.not_allClosed
    | cons level outer =>
      rw [opened, hlevels] at hnested
      obtain ⟨other, hother, hplace⟩ := hnested.exists_lastUnclosed
      obtain rfl := hopening.unique hother
      simp only [hplace]

/-- A text without a problem is read, and all its parentheses are closed. -/
theorem misread_or_exists_program :
    (∃ misreading, (Token.scan source).Misread declared misreading) ∨
      (∃ result, program declared source = .ok result) ∧
        Passes declared (Token.scan source).tokens ∧ (Token.scan source).stop = none ∧
        Token.AllClosed (Token.scan source).tokens := by
  rcases Token.passes_or_exists_stops declared (Token.scan source).tokens with
    htokens | ⟨before, token, behind, problem, hsplit, hbefore, hproblem⟩
  swap
  · exact .inl ⟨_, .token hsplit hbefore hproblem⟩
  cases hstop : (Token.scan source).stop with
  | some stop => exact .inl ⟨_, .stop htokens hstop⟩
  | none =>
    obtain ⟨reading, hfold, hnested⟩ :=
      exists_foldlM (fun token => faithful_of_mem_scan source) htokens
    cases hlevels : reading.levels with
    | nil =>
      rw [opened, hlevels] at hnested
      refine .inr ⟨⟨reading.settle.output.reverse, ?_⟩, htokens, rfl, hnested.allClosed⟩
      simp only [program_of_passes declared source hfold hstop, finish, hlevels]
    | cons level outer =>
      rw [opened, hlevels] at hnested
      obtain ⟨opening, hopening, -⟩ := hnested.exists_lastUnclosed
      exact .inl ⟨_, .unclosed htokens hstop hopening⟩

/-- The misreading of a text is its first problem, as it has no other one. -/
theorem misread_of_program_error {misreading : Misreading}
    (h : program declared source = .error misreading) :
    (Token.scan source).Misread declared misreading := by
  rcases misread_or_exists_program declared source with
    ⟨first, hfirst⟩ | ⟨⟨result, hresult⟩, -⟩
  · obtain rfl := Except.error.inj ((program_of_misread declared source hfirst).symm.trans h)
    exact hfirst
  · exact nomatch hresult.symm.trans h

/-- **The misreading of a text is its first problem.** From the left, the reading stops at the first
token that is a number with more than one point or no digit in its mantissa, a name that is neither
builtin nor declared, or a closing parenthesis without a match before it; else where the scan has
stopped; else at the last opening parenthesis that is not closed. What is wrong and where is told by
the problem, and a text without any of them is read.

**Proof sketch.** A reading knows the parentheses that are left open (`Reading.exists_step`), so a
step is refused exactly at a token at which the reading stops (`Reading.step_of_stops`). Every text
has a first problem or is read (`Reading.misread_or_exists_program`), and what has a first problem
is misread for it (`Reading.program_of_misread`). -/
theorem program_error_iff_misread :
    (∀ misreading, program declared source = .error misreading ↔
        (Token.scan source).Misread declared misreading) ∧
      ((∃ result, program declared source = .ok result) ↔
        Passes declared (Token.scan source).tokens ∧ (Token.scan source).stop = none ∧
        Token.AllClosed (Token.scan source).tokens) := by
  rcases misread_or_exists_program declared source with
    ⟨first, hfirst⟩ | ⟨⟨result, hresult⟩, htokens, hstop, hclosed⟩
  · have herror := program_of_misread declared source hfirst
    refine ⟨fun misreading => ⟨fun h => ?_, program_of_misread declared source⟩, ?_⟩
    · obtain rfl := Except.error.inj (herror.symm.trans h)
      exact hfirst
    · refine iff_of_false (fun ⟨result, h⟩ => nomatch herror.symm.trans h) ?_
      rintro ⟨htokens, hstop, hclosed⟩
      cases hfirst with
      | token hsplit _ hproblem => exact htokens _ _ _ hsplit _ hproblem
      | stop _ hobstacle => cases hstop.symm.trans hobstacle
      | unclosed _ _ hopening => exact hopening.not_allClosed hclosed
  · refine ⟨fun misreading => iff_of_false (fun h => nomatch hresult.symm.trans h) fun h => ?_,
      iff_of_true ⟨result, hresult⟩ ⟨htokens, hstop, hclosed⟩⟩
    exact nomatch hresult.symm.trans (program_of_misread declared source h)

end Text

end Reading

end Grapher
