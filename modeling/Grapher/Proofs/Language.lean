import Grapher.Proofs.Gaps
import Grapher.Proofs.Sentences

set_option relaxedAutoImplicit false
set_option autoImplicit false

/-!
# The accepted language

Not every text that becomes a formula is a sentence: `1 2 +` becomes the formula `1 + 2`. A check
that follows the height of the stack cannot tell the two apart. What is missing is little: a text
is a sentence exactly if it becomes a formula, no two numbers in it stand side by side, and its
commas fit. For in such a text no operand is missing, and a row of tokens without a gap can be
taken apart from the left, phrase by phrase.

## Main definitions

* `Grammar.Regular` — what is left of such a row of tokens.
* `Grammar.Starts` — a phrase at the start of some tokens, with a regular rest.

## Main results

* `Grammar.Regular.starts_sum` — a regular row that starts with an operand starts with a sum.
* `Formula.derives_iff_ofSource` — which of the accepted texts are sentences.
-/

namespace Grapher

namespace Grammar

variable {declared : List String}

/-! ## Longer sums -/

/-- What can be put before a factor can be put before a sum that starts with the factor. -/
theorem Derives.prepend (before : List Token) {first : Option Token}
    (hsigned : ∀ {tokens tree}, tokens.head? = first → Derives declared .signed tokens [tree] →
      ∃ other, Derives declared .product (before ++ tokens) [other])
    {phrase : Phrase} {tokens : List Token} {trees : List Tree}
    (h : Derives declared phrase tokens trees) :
    tokens.head? = first →
      (phrase = .product → ∃ other, Derives declared .product (before ++ tokens) [other]) ∧
        (phrase = .sum → ∃ other, Derives declared .sum (before ++ tokens) [other]) := by
  have hhead : ∀ {tokens others : List Token}, tokens ≠ [] → (tokens ++ others).head? = first →
      tokens.head? = first := by
    intro tokens others hne h
    rwa [List.head?_append, List.head?_eq_some_head hne, Option.some_or,
      ← List.head?_eq_some_head] at h
  induction h with
  | factor hfactor _ => exact fun h => ⟨fun _ => hsigned h hfactor, by simp⟩
  | times hproduct hkind htimes hfactor ih _ =>
    refine fun h => ⟨fun _ => ?_, by simp⟩
    obtain ⟨other, hother⟩ := (ih (hhead hproduct.ne_nil h)).1 rfl
    exact ⟨_, by simpa using hother.times hkind htimes hfactor⟩
  | juxtaposed hproduct hfactor hapart ih _ =>
    refine fun h => ⟨fun _ => ?_, by simp⟩
    obtain ⟨other, hother⟩ := (ih (hhead hproduct.ne_nil h)).1 rfl
    have hapart' := hapart
    rw [← getLast?_append_of_ne_nil hproduct.ne_nil] at hapart'
    exact ⟨_, by simpa using hother.juxtaposed hfactor hapart'⟩
  | term hproduct ih =>
    refine fun h => ⟨by simp, fun _ => ?_⟩
    obtain ⟨other, hother⟩ := (ih h).1 rfl
    exact ⟨other, hother.term⟩
  | plus hsum hkind hplus hterm ih _ =>
    refine fun h => ⟨by simp, fun _ => ?_⟩
    obtain ⟨other, hother⟩ := (ih (hhead hsum.ne_nil h)).2 rfl
    exact ⟨_, by simpa using hother.plus hkind hplus hterm⟩
  | _ => simp

/-- A sign before a sum. -/
theorem Derives.sign_sum {token : Token} {op : Operator} {tokens : List Token} {tree : Tree}
    (h : Derives declared .sum tokens [tree]) (hkind : token.kind = .operator op)
    (hsign : op.standsBefore) : ∃ other, Derives declared .sum (token :: tokens) [other] := by
  have hmem : op ∈ [Operator.neg, .pos] := by
    cases op <;> simp_all [Operator.standsBefore]
  exact (prepend [token] (fun _ hsigned => ⟨_, .factor (.sign hkind hmem hsigned)⟩) h rfl).2 rfl

/-- A sum and a plus or a minus before another sum. -/
theorem Derives.plus_sum {token : Token} {op : Operator} {tokens : List Token} {tree : Tree}
    (hsum : Derives declared .sum tokens [tree]) (hkind : token.kind = .operator op)
    (hplus : op ∈ [.add, .sub]) {phrase : Phrase} {others : List Token} {trees : List Tree}
    (h : Derives declared phrase others trees) :
    phrase = .sum → ∃ other, Derives declared .sum (tokens ++ token :: others) [other] := by
  induction h with
  | term hproduct _ => exact fun _ => ⟨_, hsum.plus hkind hplus hproduct⟩
  | plus _ hkind' hplus' hterm ih _ =>
    intro _
    obtain ⟨other, hother⟩ := ih rfl
    exact ⟨_, by simpa using hother.plus hkind' hplus' hterm⟩
  | _ => simp

/-- A primary and an operator before a sum. -/
theorem Derives.operator_sum {token : Token} {op : Operator} {tokens others : List Token}
    {tree other : Tree} (hprimary : Derives declared .primary tokens [tree])
    (hkind : token.kind = .operator op) (hbetween : op.standsBefore = false)
    (h : Derives declared .sum others [other]) :
    ∃ other, Derives declared .sum (tokens ++ token :: others) [other] := by
  have hfactor : Derives declared .product tokens [tree] := .factor (.unsigned (.base hprimary))
  have hcases : op = .pow ∨ op ∈ [Operator.mul, .div, .rem] ∨ op ∈ [Operator.add, .sub] := by
    cases op <;> simp_all [Operator.standsBefore]
  rcases hcases with rfl | htimes | hplus
  · have hlonger := (prepend (tokens ++ [token]) (fun _ hsigned => ⟨_, by
      simpa using Derives.factor (.unsigned (hprimary.raised hkind hsigned))⟩) h rfl).2 rfl
    simpa using hlonger
  · have hlonger := (prepend (tokens ++ [token]) (fun _ hsigned => ⟨_, by
      simpa using hfactor.times hkind htimes hsigned⟩) h rfl).2 rfl
    simpa using hlonger
  · exact plus_sum hfactor.term hkind hplus h rfl

/-- A primary right before a sum that starts without a sign. -/
theorem Derives.juxtaposed_sum {first : Token} {tokens others : List Token} {tree other : Tree}
    (hprimary : Derives declared .primary tokens [tree])
    (hunsigned : ∀ op, first.kind ≠ .operator op)
    (hapart : ∀ last ∈ tokens.getLast?, ¬ (last.kind = .number ∧ first.kind = .number))
    (h : Derives declared .sum (first :: others) [other]) :
    ∃ other, Derives declared .sum (tokens ++ first :: others) [other] := by
  have hfactor : Derives declared .product tokens [tree] := .factor (.unsigned (.base hprimary))
  have hsigned : ∀ {factor tree}, factor.head? = some first →
      Derives declared .signed factor [tree] →
      ∃ other, Derives declared .product (tokens ++ factor) [other] := by
    intro factor tree hhead hsigned
    obtain ⟨rest, rfl⟩ := List.head?_eq_some_iff.1 hhead
    cases hsigned with
    | unsigned hpower => exact ⟨_, hfactor.juxtaposed hpower hapart⟩
    | sign hkind _ _ => exact absurd hkind (hunsigned _)
  exact (prepend tokens hsigned h rfl).2 rfl

/-- One more argument before the others. -/
theorem Derives.cons_arguments {token : Token} {tokens : List Token} {tree : Tree}
    (hsum : Derives declared .sum tokens [tree]) (hkind : token.kind = .comma) {phrase : Phrase}
    {others : List Token} {trees : List Tree} (h : Derives declared phrase others trees) :
    phrase = .arguments →
      Derives declared .arguments (tokens ++ token :: others) (tree :: trees) := by
  induction h with
  | argument hargument _ => exact fun _ => hsum.argument.comma hkind hargument
  | comma _ hkind' hargument ih _ =>
    intro _
    have hlonger := (ih rfl).comma hkind' hargument
    simpa using hlonger
  | _ => simp

/-- A row of one argument is a sum. -/
theorem Derives.sum_of_length_eq_one {phrase : Phrase} {tokens : List Token} {trees : List Tree}
    (h : Derives declared phrase tokens trees) (hlength : trees.length = 1) :
    phrase = .arguments → ∃ tree, trees = [tree] ∧ Derives declared .sum tokens [tree] := by
  cases h with
  | argument hsum => exact fun _ => ⟨_, rfl, hsum⟩
  | comma harguments _ _ =>
    have hpositive := List.length_pos_of_ne_nil harguments.trees_ne_nil
    simp only [List.length_append, List.length_singleton] at hlength
    omega
  | _ => simp

/-! ## Regular rows -/

/-- What is left of a row of tokens in which no operand is missing, no two numbers stand side by
side and the commas fit, behind a token that may be given. -/
structure Regular (declared : List String) (previous : Option Token) (commas : List Nat)
    (tokens : List Token) : Prop where
  /-- No operand is missing. -/
  gapless : Gapless previous tokens
  /-- The commas fit. -/
  fit : commasFit previous commas tokens
  /-- Something is counted for the outermost level. -/
  levels : commas ≠ []
  /-- No two numbers stand side by side. -/
  apart : NumbersApart (previous.toList ++ tokens)
  /-- Signs stand where an operand is due. -/
  signs : Token.SignsPlaced (previous.map Token.kind) tokens
  /-- All tokens can be read. -/
  readable : ∀ token ∈ tokens, token.Readable declared
  /-- All numbers are literals. -/
  literal : ∀ token ∈ tokens, token.kind = .number → token.IsLiteral

namespace Regular

variable {previous : Option Token} {commas : List Nat} {token : Token} {rest : List Token}

/-- The row behind the first token. -/
theorem tail (h : Regular declared previous commas (token :: rest)) :
    ∃ later, commasAfter? previous commas token = some later ∧
      Regular declared (some token) later rest := by
  obtain ⟨later, hafter, hcommas⟩ := exists_of_commasFit_cons h.fit
  refine ⟨later, hafter, h.gapless.2, hcommas, ?_, h.apart.tail, h.signs.2, ?_, ?_⟩
  · exact commasAfter?_ne_nil h.levels hafter
  · exact fun other hother => h.readable other (List.mem_cons_of_mem _ hother)
  · exact fun other hother => h.literal other (List.mem_cons_of_mem _ hother)

/-- A token that is no comma and no parenthesis leaves the commas as they are. -/
theorem tail_same (h : Regular declared previous commas (token :: rest))
    (hkind : token.kind ≠ .opening ∧ token.kind ≠ .comma ∧ token.kind ≠ .closing) :
    Regular declared (some token) commas rest := by
  obtain ⟨later, hafter, htail⟩ := h.tail
  rw [commasAfter?_same _ _ hkind] at hafter
  rwa [← Option.some_inj.1 hafter] at htail

/-- An opening parenthesis takes the commas of the function before it. -/
theorem tail_opening (h : Regular declared previous commas (token :: rest))
    (hkind : token.kind = .opening) :
    Regular declared (some token) (Token.furtherOf previous :: commas) rest := by
  obtain ⟨later, hafter, htail⟩ := h.tail
  rw [commasAfter?_opening _ _ hkind] at hafter
  rwa [← Option.some_inj.1 hafter] at htail

/-- Where an operand is due there is one. -/
theorem exists_first {tokens : List Token} (h : Regular declared previous commas tokens)
    (hdue : (Token.lastOf previous).due) :
    ∃ first rest, tokens = first :: rest ∧ first.kind.startsOperand ∧
      (0 < Token.furtherOf previous → first.kind = .opening) := by
  cases tokens with
  | nil => exact absurd hdue (Bool.eq_false_iff.1 h.gapless)
  | cons first rest => exact ⟨first, rest, rfl, h.gapless.1 hdue⟩

/-- Behind a whole sum in parentheses the parenthesis is closed, or one more argument follows. -/
theorem closing_or_comma {due : Nat} {tokens : List Token}
    (h : Regular declared previous (due :: commas) tokens) (hcommas : commas ≠ [])
    (hnext : ∀ next ∈ tokens.head?, next.kind = .comma ∨ next.kind = .closing) :
    ∃ next others, tokens = next :: others ∧
      (next.kind = .closing ∧ due = 0 ∧ Regular declared (some next) commas others ∨
        ∃ less, next.kind = .comma ∧ due = less + 1 ∧
          Regular declared (some next) (less :: commas) others) := by
  cases tokens with
  | nil =>
    have hfit : due :: commas = [0] := by simpa [commasFit] using h.fit
    exact absurd (List.cons.inj hfit).2 hcommas
  | cons next others =>
    refine ⟨next, others, rfl, ?_⟩
    obtain ⟨later, hafter, htail⟩ := h.tail
    rcases hnext next rfl with hkind | hkind
    · right
      cases due with
      | zero => simp [commasAfter?, hkind] at hafter
      | succ less =>
        rw [commasAfter?_comma _ _ hkind] at hafter
        exact ⟨less, hkind, rfl, Option.some_inj.1 hafter ▸ htail⟩
    · left
      obtain ⟨outermost, outer, rfl⟩ := List.exists_cons_of_ne_nil hcommas
      cases due with
      | zero =>
        rw [commasAfter?_closing _ _ hkind] at hafter
        exact ⟨hkind, rfl, Option.some_inj.1 hafter ▸ htail⟩
      | succ less => simp [commasAfter?, hkind] at hafter

end Regular

/-- A phrase stands at the start of some tokens, and what is left is regular. -/
def Starts (declared : List String) (phrase : Phrase) (commas : List Nat)
    (tokens : List Token) : Prop :=
  ∃ first rest tree, tokens = first ++ rest ∧ Derives declared phrase first [tree] ∧
    Regular declared first.getLast? commas rest

/-- A sum stands at the start of some tokens, and what is left is regular and does not go on with
the sum. -/
def StartsSum (declared : List String) (commas : List Nat) (tokens : List Token) : Prop :=
  ∃ first rest tree, tokens = first ++ rest ∧ Derives declared .sum first [tree] ∧
    Regular declared first.getLast? commas rest ∧
    ∀ next ∈ rest.head?, next.kind = .comma ∨ next.kind = .closing

/-- A name that is no function stands for a variable or a constant. -/
theorem Regular.starts_name {previous : Option Token} {commas : List Nat} {token : Token}
    {rest : List Token} (h : Regular declared previous commas (token :: rest))
    (hkind : token.kind = .name) (hfunction : token.function? = none) :
    Starts declared .primary commas (token :: rest) := by
  have htail := h.tail_same (by simp [hkind])
  obtain ⟨meaning, hmeaning⟩ :=
    Option.isSome_iff_exists.1 ((h.readable token (by simp)).2 hkind)
  rcases meaning with f | _ | value
  · have hsome := Token.function?_eq_some_iff.2 ⟨hkind, meaning?_eq_function_iff.1 hmeaning⟩
    simp [hfunction] at hsome
  · obtain ⟨hnot, hdeclared⟩ := meaning?_eq_variable_iff.1 hmeaning
    exact ⟨[token], rest, _, rfl, .load hkind hnot hdeclared, htail⟩
  · obtain ⟨⟨name, hconstant⟩, hdeclared⟩ := meaning?_eq_constant_iff.1 hmeaning
    exact ⟨[token], rest, _, rfl, .constant hkind hconstant hdeclared, htail⟩

/-- A function right before its argument, which does not start with a parenthesis. -/
theorem Regular.starts_application {commas : List Nat} {token next : Token} {f : Callable}
    {others : List Token} (hfunction : token.function? = some f) (harity : f.arity = 1)
    (hopening : next.kind ≠ .opening) (h : Starts declared .primary commas (next :: others)) :
    Starts declared .primary commas (token :: next :: others) := by
  obtain ⟨hkind, hfind⟩ := Token.function?_eq_some_iff.1 hfunction
  obtain ⟨first, behind, tree, heq, hprimary, hregular⟩ := h
  have hhead : ∀ start ∈ first.head?, start.kind ≠ .opening := by
    intro start hstart
    have hfirst : (next :: others).head? = first.head? := by
      rw [heq, List.head?_append, List.head?_eq_some_head hprimary.ne_nil, Option.some_or]
    rw [← hfirst] at hstart
    obtain rfl := Option.some_inj.1 hstart
    exact hopening
  refine ⟨token :: first, behind, _, by rw [heq, List.cons_append],
    .application hkind hfind harity hprimary hhead, ?_⟩
  rwa [← List.singleton_append, getLast?_append_of_ne_nil hprimary.ne_nil]

section Descent

variable {size : Nat}
  (hsum : ∀ {tokens : List Token} {previous : Option Token} {commas : List Nat},
    tokens.length < size → Regular declared previous commas tokens →
    (∀ last ∈ previous, last.function? = none) →
    (∃ next ∈ tokens.head?, next.kind.startsOperand) → StartsSum declared commas tokens)
include hsum

/-- Behind a parenthesis stand as many arguments as commas are due, and the closing parenthesis. -/
theorem Regular.starts_arguments {due : Nat} {commas : List Nat} (hcommas : commas ≠ []) :
    ∀ {tokens : List Token} {previous : Option Token}, tokens.length < size →
      Regular declared previous (due :: commas) tokens → (Token.lastOf previous).due →
      (∀ last ∈ previous, last.function? = none) →
      ∃ first closing rest trees, tokens = first ++ closing :: rest ∧ closing.kind = .closing ∧
        Derives declared .arguments first trees ∧ trees.length = due + 1 ∧
        Regular declared (some closing) commas rest := by
  induction due with
  | zero =>
    intro tokens previous hsize h hdue hprevious
    obtain ⟨start, others, rfl, hstarts, -⟩ := h.exists_first hdue
    obtain ⟨first, rest, tree, heq, hderives, hrest, hnext⟩ :=
      hsum hsize h hprevious ⟨start, rfl, hstarts⟩
    obtain ⟨closing, behind, rfl, ⟨hkind, -, hbehind⟩ | ⟨less, -, hless, -⟩⟩ :=
      hrest.closing_or_comma hcommas hnext
    · exact ⟨first, closing, behind, [tree], heq, hkind, hderives.argument, rfl, hbehind⟩
    · cases hless
  | succ due ih =>
    intro tokens previous hsize h hdue hprevious
    obtain ⟨start, others, rfl, hstarts, -⟩ := h.exists_first hdue
    obtain ⟨first, rest, tree, heq, hderives, hrest, hnext⟩ :=
      hsum hsize h hprevious ⟨start, rfl, hstarts⟩
    obtain ⟨comma, behind, rfl, ⟨-, hnone, -⟩ | ⟨less, hkind, hless, hbehind⟩⟩ :=
      hrest.closing_or_comma hcommas hnext
    · cases hnone
    obtain rfl : due = less := Nat.succ_injective hless
    have hshorter : behind.length < size := by
      have hlength := congrArg List.length heq
      simp only [List.length_append, List.length_cons] at hlength hsize
      omega
    have hcomma : comma.last.due := by simp [Token.last, hkind, Last.due]
    have hfunction : ∀ last ∈ some comma, last.function? = none := by
      rintro _ ⟨⟩
      exact Token.function?_eq_none (by simp [hkind])
    obtain ⟨argument, closing, rest, trees, rfl, hclosing, harguments, hlength, hregular⟩ :=
      ih hshorter hbehind hcomma hfunction
    refine ⟨first ++ comma :: argument, closing, rest, tree :: trees, ?_, hclosing, ?_, ?_,
      hregular⟩
    · rw [heq, List.append_assoc, List.cons_append]
    · exact hderives.cons_arguments hkind harguments rfl
    · rw [List.length_cons, hlength]

/-- What an opening parenthesis starts, up to the closing one. -/
theorem Regular.starts_parenthesis {previous : Option Token} {commas : List Nat} {token : Token}
    {rest : List Token} (hsize : rest.length < size)
    (h : Regular declared previous commas (token :: rest)) (hkind : token.kind = .opening) :
    ∃ first closing behind trees, rest = first ++ closing :: behind ∧ closing.kind = .closing ∧
      Derives declared .arguments first trees ∧ trees.length = Token.furtherOf previous + 1 ∧
      Regular declared (some closing) commas behind := by
  have hdue : token.last.due := by simp [Token.last, hkind, Last.due]
  refine Regular.starts_arguments hsum h.levels hsize (h.tail_opening hkind) hdue ?_
  rintro _ ⟨⟩
  exact Token.function?_eq_none (by simp [hkind])

/-- A function and its parentheses. -/
theorem Regular.starts_call {commas : List Nat} {token next : Token} {f : Callable}
    {others : List Token} (hsize : others.length < size)
    (h : Regular declared (some token) commas (next :: others)) (hopening : next.kind = .opening)
    (hfunction : token.function? = some f) :
    Starts declared .primary commas (token :: next :: others) := by
  obtain ⟨hkind, hfind⟩ := Token.function?_eq_some_iff.1 hfunction
  obtain ⟨first, closing, behind, trees, rfl, hclosing, harguments, hlength, hregular⟩ :=
    h.starts_parenthesis hsum hsize hopening
  have harity : trees.length = f.arity := by
    have hfurther : Token.furtherOf (some token) = f.arity - 1 := Token.further_eq hfunction
    have hpositive := Builtin.arity_pos hfind
    omega
  refine ⟨token :: next :: (first ++ [closing]), behind, _, by simp,
    .call hkind hfind hopening hclosing harguments harity, ?_⟩
  rwa [← List.cons_append, ← List.cons_append, getLast?_append_of_ne_nil (by simp)]

/-- A sum in parentheses. -/
theorem Regular.starts_group {previous : Option Token} {commas : List Nat} {token : Token}
    {rest : List Token} (hsize : rest.length < size)
    (h : Regular declared previous commas (token :: rest)) (hkind : token.kind = .opening)
    (hprevious : ∀ last ∈ previous, last.function? = none) :
    Starts declared .primary commas (token :: rest) := by
  obtain ⟨first, closing, behind, trees, rfl, hclosing, harguments, hlength, hregular⟩ :=
    h.starts_parenthesis hsum hsize hkind
  have hfurther : Token.furtherOf previous = 0 := by
    cases previous with
    | none => rfl
    | some last => exact Token.further_eq_zero (hprevious last rfl)
  rw [hfurther] at hlength
  obtain ⟨tree, rfl, hgroup⟩ := harguments.sum_of_length_eq_one hlength rfl
  refine ⟨token :: (first ++ [closing]), behind, tree, by simp,
    .group hkind hclosing hgroup, ?_⟩
  rwa [← List.cons_append, getLast?_append_of_ne_nil (by simp)]

/-- **A primary stands where an operand starts without a sign.**

**Proof sketch.** Induction on the tokens: behind a function stand its parentheses or, if it takes
one argument, another primary. -/
theorem Regular.starts_primary {commas : List Nat} {tokens : List Token} :
    ∀ {previous : Option Token}, tokens.length ≤ size →
      Regular declared previous commas tokens →
      (∃ next ∈ tokens.head?, next.kind.startsOperand ∧ (∀ op, next.kind ≠ .operator op) ∧
        (next.kind = .opening → ∀ last ∈ previous, last.function? = none)) →
      Starts declared .primary commas tokens := by
  induction tokens with
  | nil =>
    rintro previous - - ⟨next, hnext, -⟩
    cases hnext
  | cons token rest ih =>
    rintro previous hsize h ⟨_, ⟨⟩, hstarts, hunsigned, hprevious⟩
    cases hkind : token.kind with
    | number =>
      exact ⟨[token], rest, _, rfl, .number (h.literal token (by simp) hkind),
        h.tail_same (by simp [hkind])⟩
    | opening => exact h.starts_group hsum hsize hkind (hprevious hkind)
    | operator op => exact absurd hkind (hunsigned op)
    | comma => simp [hkind, Token.Kind.startsOperand] at hstarts
    | closing => simp [hkind, Token.Kind.startsOperand] at hstarts
    | name =>
      cases hfunction : token.function? with
      | none => exact h.starts_name hkind hfunction
      | some f =>
        have hrest := h.tail_same (by simp [hkind])
        have hdue : token.last.due := by simp [Token.last, hkind, hfunction, Last.due]
        obtain ⟨next, others, rfl, hnext, hfurther⟩ := hrest.exists_first hdue
        have hlength : (next :: others).length ≤ size := Nat.le_of_succ_le hsize
        by_cases hopening : next.kind = .opening
        · exact hrest.starts_call hsum hlength hopening hfunction
        have hunsigned : ∀ op, next.kind ≠ .operator op := by
          intro op hop
          have hbefore : op.standsBefore := by simpa [hop, Token.Kind.startsOperand] using hnext
          simpa [Token.operandDue, hkind] using hrest.signs.1 op hop hbefore
        have harity : f.arity = 1 := by
          have hpositive := Builtin.arity_pos (Token.function?_eq_some_iff.1 hfunction).2
          have hfew : ¬ 0 < Token.furtherOf (some token) := fun h => hopening (hfurther h)
          have heq : Token.furtherOf (some token) = f.arity - 1 := Token.further_eq hfunction
          omega
        exact starts_application hfunction harity hopening
          (ih hlength hrest ⟨next, rfl, hnext, hunsigned, fun h => absurd h hopening⟩)

/-- Behind an operator stands a sum. -/
theorem Regular.starts_sum_behind {previous : Option Token} {commas : List Nat} {token : Token}
    {rest : List Token} (hsize : rest.length < size)
    (h : Regular declared previous commas (token :: rest)) {op : Operator}
    (hkind : token.kind = .operator op) : StartsSum declared commas rest := by
  have htail := h.tail_same (by simp [hkind])
  have hdue : token.last.due := by simp [Token.last, hkind, Last.due]
  obtain ⟨next, others, rfl, hnext, -⟩ := htail.exists_first hdue
  refine hsum hsize htail ?_ ⟨next, rfl, hnext⟩
  rintro _ ⟨⟩
  exact Token.function?_eq_none (by simp [hkind])

/-- Behind a primary the sum ends or goes on. -/
theorem Regular.starts_sum_of_primary {commas : List Nat} {first rest : List Token} {tree : Tree}
    (hprimary : Derives declared .primary first [tree]) (hsize : rest.length < size)
    (h : Regular declared first.getLast? commas rest) :
    StartsSum declared commas (first ++ rest) := by
  have hlast := List.getLast?_eq_some_getLast hprimary.ne_nil
  have hdue : (Token.lastOf first.getLast?).due = false := by
    rw [hlast]
    exact hprimary.due_last _ hlast
  have hends : (∀ next ∈ rest.head?, next.kind = .comma ∨ next.kind = .closing) →
      StartsSum declared commas (first ++ rest) := fun hnext =>
    ⟨first, rest, tree, rfl, .term (.factor (.unsigned (.base hprimary))), h, hnext⟩
  cases rest with
  | nil => exact hends (by simp)
  | cons next others =>
    cases hkind : next.kind with
    | comma | closing => exact hends (by simp [hkind])
    | operator op =>
      have hbetween : op.standsBefore = false := by
        rw [Bool.eq_false_iff]
        intro hbefore
        have hplaced := (Token.due_of_operandDue (h.signs.1 op hkind hbefore)).1
        rw [hdue] at hplaced
        cases hplaced
      obtain ⟨sum, behind, other, rfl, hderives, hregular, hnext⟩ :=
        h.starts_sum_behind hsum (Nat.lt_of_succ_lt hsize) hkind
      obtain ⟨longer, hlonger⟩ := hprimary.operator_sum hkind hbetween hderives
      refine ⟨first ++ next :: sum, behind, longer, by simp, hlonger, ?_, hnext⟩
      rwa [← List.singleton_append, ← List.append_assoc,
        getLast?_append_of_ne_nil hderives.ne_nil]
    | number | name | opening =>
      have hunsigned : ∀ op, next.kind ≠ .operator op := by simp [hkind]
      obtain ⟨sum, behind, other, heq, hderives, hregular, hnext⟩ :=
        hsum hsize h (fun last hmem => function?_eq_none_of_due (hprimary.due_last last hmem))
          ⟨next, rfl, by simp [hkind, Token.Kind.startsOperand]⟩
      obtain ⟨start, tail, rfl⟩ := List.exists_cons_of_ne_nil hderives.ne_nil
      obtain ⟨rfl, rfl⟩ := List.cons.inj heq
      have hapart : ∀ last ∈ first.getLast?, ¬ (last.kind = .number ∧ next.kind = .number) := by
        intro last hmem
        have hchain := h.apart
        rw [hmem] at hchain
        exact (List.isChain_cons_cons.1 hchain).1
      obtain ⟨longer, hlonger⟩ := hprimary.juxtaposed_sum hunsigned hapart hderives
      refine ⟨first ++ next :: tail, behind, longer, by simp, hlonger, ?_, hnext⟩
      rwa [getLast?_append_of_ne_nil (by simp)]

end Descent

/-- **A sum stands where an operand starts**, as long as the row of tokens goes on with it.

**Proof sketch.** Induction on the number of tokens. Behind a sign stands a sum, and behind a
primary stands an operator and a sum, or a sum without a sign, or what ends the sum; what stands
before that sum makes it a longer one. -/
theorem Regular.starts_sum (size : Nat) :
    ∀ {tokens : List Token} {previous : Option Token} {commas : List Nat},
      tokens.length < size → Regular declared previous commas tokens →
      (∀ last ∈ previous, last.function? = none) →
      (∃ next ∈ tokens.head?, next.kind.startsOperand) → StartsSum declared commas tokens := by
  induction size with
  | zero =>
    intro tokens previous commas hsize
    exact absurd hsize (Nat.not_lt_zero _)
  | succ size hsum =>
    rintro tokens previous commas hsize h hprevious ⟨next, hnext, hstarts⟩
    obtain ⟨rest, rfl⟩ := List.head?_eq_some_iff.1 hnext
    by_cases hunsigned : ∀ op, next.kind ≠ .operator op
    · obtain ⟨first, behind, tree, heq, hprimary, hregular⟩ :=
        h.starts_primary hsum (Nat.le_of_lt_succ hsize)
          ⟨next, rfl, hstarts, hunsigned, fun _ => hprevious⟩
      rw [heq]
      refine hregular.starts_sum_of_primary hsum hprimary ?_
      have hpositive := List.length_pos_of_ne_nil hprimary.ne_nil
      have hlength := congrArg List.length heq
      rw [List.length_append] at hlength
      omega
    · obtain ⟨op, hkind⟩ : ∃ op, next.kind = .operator op := by
        simpa using hunsigned
      have hbefore : op.standsBefore := by simpa [hkind, Token.Kind.startsOperand] using hstarts
      obtain ⟨sum, behind, tree, rfl, hderives, hregular, hends⟩ :=
        h.starts_sum_behind hsum (Nat.lt_of_succ_lt_succ hsize) hkind
      obtain ⟨other, hother⟩ := hderives.sign_sum hkind hbefore
      refine ⟨next :: sum, behind, other, by simp, hother, ?_, hends⟩
      rwa [← List.singleton_append, getLast?_append_of_ne_nil hderives.ne_nil]

/-- A row of tokens that starts as a formula does, with nothing missing, is a sentence. -/
theorem Regular.derives {tokens : List Token} (h : Regular declared none [0] tokens) :
    ∃ tree, Derives declared .sum tokens [tree] := by
  obtain ⟨first, rest, rfl, hstarts, -⟩ := h.exists_first rfl
  obtain ⟨sum, behind, tree, heq, hderives, hregular, hnext⟩ :=
    Regular.starts_sum _ (Nat.lt_succ_self _) h (by simp) ⟨first, rfl, hstarts⟩
  cases behind with
  | nil => exact ⟨tree, by rwa [heq, List.append_nil]⟩
  | cons next others =>
    obtain ⟨later, hafter, -⟩ := hregular.tail
    rcases hnext next rfl with hkind | hkind <;> simp [commasAfter?, hkind] at hafter

end Grammar

/-! ## The accepted language -/

/-- **Which of the accepted texts are sentences.** The tokens of a text are a sentence of the
grammar exactly if the text becomes a formula, no two numbers in it stand side by side, and its
commas fit.

**Proof sketch.** A sentence becomes the formula of its tree (`Reading.program_of_derives`), and
numbers and commas are in order in every phrase. Conversely, in the tokens of a formula whose
numbers and commas are in order no operand is missing (`Grammar.gapless_of_check`), and such a row
is taken apart from the left (`Grammar.Regular.starts_sum`). -/
theorem Formula.derives_iff_ofSource (declared : List String) (source : String) :
    ((Token.scan source).stop = none ∧
        ∃ tree, Grammar.Derives declared .sum (Token.scan source).tokens [tree]) ↔
      (∃ formula, Formula.ofSource declared source = .ok formula) ∧
        Grammar.NumbersApart (Token.scan source).tokens ∧
        Grammar.commasFit none [0] (Token.scan source).tokens := by
  constructor
  · rintro ⟨hstop, tree, hderives⟩
    have hprogram := Reading.program_of_derives hstop hderives
    have hcheck := (hderives.ranked tree (by simp)).check_postorder
    refine ⟨⟨⟨source, tree.postorder⟩, Formula.ofSource_eq_ok_iff.2 ⟨rfl, hprogram, hcheck⟩⟩,
      hderives.numbersApart, ?_⟩
    have hcommas := hderives.takesCommas none 0 [] [] (fun _ => rfl) rfl
    rwa [List.append_nil] at hcommas
  · rintro ⟨⟨formula, hformula⟩, hapart, hcommas⟩
    obtain ⟨-, hprogram, hcheck⟩ := Formula.ofSource_eq_ok_iff.1 hformula
    obtain ⟨hstop, reading, hfold, hfinish⟩ := Reading.program_eq_ok_iff.1 hprogram
    have hsigns : Token.SignsPlaced none (Token.scan source).tokens :=
      Token.signsPlaced_scanFrom none 0 source.toList
    have hreadable := Reading.readable_of_foldlM hfold
    have hregular : Grammar.Regular declared none [0] (Token.scan source).tokens :=
      { gapless := Grammar.gapless_of_check hfold hfinish hcheck hcommas hsigns hapart
        fit := hcommas
        levels := by simp
        apart := hapart
        signs := hsigns
        readable := hreadable
        literal := fun token htoken hkind =>
          (Token.read?_isSome_iff htoken hkind).1 ((hreadable token htoken).1 hkind) }
    exact ⟨hstop, hregular.derives⟩

/-- Two formulas that are no sentences: two numbers stand side by side in the first, and in the
second one function has an argument too many and another one too few. -/
theorem Formula.ofSource_outside_language :
    ((Formula.ofSource [] "1 2 +").isOk ∧
        ¬ ∃ tree, Grammar.Derives [] .sum (Token.scan "1 2 +").tokens [tree]) ∧
      (Formula.ofSource [] "sin(1, 2) + max(3)").isOk ∧
        ¬ ∃ tree, Grammar.Derives [] .sum (Token.scan "sin(1, 2) + max(3)").tokens [tree] := by
  refine ⟨⟨by decide +kernel, ?_⟩, by decide +kernel, ?_⟩
  · rintro ⟨tree, hderives⟩
    have hnot : ¬ Grammar.NumbersApart (Token.scan "1 2 +").tokens := by decide +kernel
    exact hnot hderives.numbersApart
  · rintro ⟨tree, hderives⟩
    have hnot : Grammar.commasFit none [0] (Token.scan "sin(1, 2) + max(3)").tokens = false := by
      decide +kernel
    have hcommas := hderives.takesCommas none 0 [] [] (fun _ => rfl) rfl
    rw [List.append_nil] at hcommas
    exact Bool.false_ne_true (hnot.symm.trans hcommas)

end Grapher
