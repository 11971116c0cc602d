import Grapher.Proofs.Contents

set_option relaxedAutoImplicit false
set_option autoImplicit false

/-!
# Numbers and commas in sentences

Two properties of a sentence that neither the reading of a formula nor the check of its program
looks at. No two numbers stand side by side. Commas stand only in the parentheses of a function,
and there are as many of them as separate the arguments that the function takes.

## Main definitions

* `Token.further` — how many arguments a function takes beyond the first.
* `Grammar.NumbersApart` — no two numbers stand side by side.
* `Grammar.commasFit` — the commas in all parentheses are as many as they should be.
* `Grammar.TakesCommas` — tokens that take some commas of the parenthesis around them.

## Main results

* `Grammar.Derives.numbersApart`, `Grammar.Derives.takesCommas` — both hold of phrases.
-/

namespace Grapher

/-! ## What stands before -/

namespace Token

/-- The arguments that a function takes beyond the first. A token that names no function takes
none. -/
def further (token : Token) : Nat :=
  (token.function?.map fun f => f.arity - 1).getD 0

/-- What the last token was, where a token may stand before. -/
def lastOf (previous : Option Token) : Last :=
  (previous.map last).getD .nothing

/-- The arguments beyond the first that are due behind what may stand before. -/
def furtherOf (previous : Option Token) : Nat :=
  (previous.map further).getD 0

theorem further_eq_zero {token : Token} (h : token.function? = none) : token.further = 0 := by
  rw [further, h]
  rfl

theorem further_eq {token : Token} {f : Callable} (h : token.function? = some f) :
    token.further = f.arity - 1 := by
  rw [further, h]
  rfl

end Token

namespace Grammar

variable {declared : List String}

/-! ## The last token of a phrase -/

theorem getLast?_append_of_ne_nil {tokens others : List Token} (h : others ≠ []) :
    (tokens ++ others).getLast? = others.getLast? := by
  rw [List.getLast?_append, List.getLast?_eq_some_getLast h, Option.some_or]

/-- A token behind which no operand is due names no function. -/
theorem function?_eq_none_of_due {token : Token} (h : token.last.due = false) :
    token.function? = none := by
  by_cases hkind : token.kind = .name
  · cases hfunction : token.function? with
    | none => rfl
    | some f => simp [Token.last, hkind, hfunction, Last.due] at h
  · exact Token.function?_eq_none hkind

/-- No operand is due behind a name that is no function. -/
theorem due_last_name {token : Token} (hkind : token.kind = .name)
    (h : ∀ f, Builtin.find? token.excerpt.text ≠ some (.function f)) :
    token.last.due = false := by
  have hnone : token.function? = none := Option.eq_none_iff_forall_ne_some.2 fun f hf =>
    h f (Token.function?_eq_some_iff.1 hf).2
  simp [Token.last, hkind, hnone, Last.due]

/-- A phrase ends with an operand. -/
theorem Derives.due_last {phrase : Phrase} {tokens : List Token} {trees : List Tree}
    (h : Derives declared phrase tokens trees) :
    ∀ last ∈ tokens.getLast?, last.last.due = false := by
  have hbehind : ∀ {tokens others : List Token}, others ≠ [] →
      (∀ last ∈ others.getLast?, last.last.due = false) →
      ∀ last ∈ (tokens ++ others).getLast?, last.last.due = false := by
    intro tokens others hne hothers
    rwa [List.getLast?_append, List.getLast?_eq_some_getLast hne, Option.some_or,
      ← List.getLast?_eq_some_getLast]
  have hoperator : ∀ {token : Token} {tokens others : List Token}, others ≠ [] →
      (∀ last ∈ others.getLast?, last.last.due = false) →
      ∀ last ∈ (tokens ++ token :: others).getLast?, last.last.due = false := by
    intro token tokens others hne hothers
    rw [← List.singleton_append, ← List.append_assoc]
    exact hbehind hne hothers
  have hclosed : ∀ {closing : Token} {tokens : List Token}, closing.kind = .closing →
      ∀ last ∈ (tokens ++ [closing]).getLast?, last.last.due = false := by
    intro closing tokens hclosing
    refine hbehind (by simp) ?_
    simp [Token.last, hclosing, Last.due]
  induction h with
  | number hliteral => simp [Token.last, hliteral.1, Last.due]
  | load hkind hfunction _ => simpa using due_last_name hkind hfunction
  | constant hkind hconstant _ =>
    simpa using due_last_name hkind fun f hf => by simp [hconstant] at hf
  | group _ hclosing _ _ =>
    rw [← List.cons_append]
    exact hclosed hclosing
  | call _ _ _ hclosing _ _ _ =>
    rw [← List.cons_append, ← List.cons_append]
    exact hclosed hclosing
  | application _ _ _ hprimary _ ih =>
    rw [← List.singleton_append]
    exact hbehind hprimary.ne_nil ih
  | sign _ _ hsigned ih =>
    rw [← List.singleton_append]
    exact hbehind hsigned.ne_nil ih
  | raised _ _ hexponent _ ih => exact hoperator hexponent.ne_nil ih
  | times _ _ _ hfactor _ ih => exact hoperator hfactor.ne_nil ih
  | juxtaposed _ hfactor _ _ ih => exact hbehind hfactor.ne_nil ih
  | plus _ _ _ hterm _ ih => exact hoperator hterm.ne_nil ih
  | comma _ _ hargument _ ih => exact hoperator hargument.ne_nil ih
  | base _ ih | unsigned _ ih | factor _ ih | term _ ih | argument _ ih => exact ih

/-- Behind a phrase no arguments are due. -/
theorem Derives.furtherOf_getLast? {phrase : Phrase} {tokens : List Token} {trees : List Tree}
    (h : Derives declared phrase tokens trees) : Token.furtherOf tokens.getLast? = 0 := by
  rw [List.getLast?_eq_some_getLast h.ne_nil]
  exact Token.further_eq_zero (function?_eq_none_of_due
    (h.due_last _ (List.getLast?_eq_some_getLast h.ne_nil)))

/-! ## Numbers -/

/-- No two numbers stand side by side in a row of tokens. -/
def NumbersApart (tokens : List Token) : Prop :=
  tokens.IsChain fun token next => ¬ (token.kind = .number ∧ next.kind = .number)

instance (tokens : List Token) : Decidable (NumbersApart tokens) :=
  inferInstanceAs (Decidable (List.IsChain _ tokens))

/-- The row behind the first token, which follows another one that may be given. -/
theorem NumbersApart.tail {previous : Option Token} {token : Token} {rest : List Token}
    (h : NumbersApart (previous.toList ++ token :: rest)) : NumbersApart (token :: rest) := by
  cases previous with
  | none => exact h
  | some last => exact (List.isChain_cons_cons.1 h).2

/-- A token that is no number keeps what stands on both sides of it apart. -/
theorem NumbersApart.append {tokens others : List Token} {token : Token} (h : NumbersApart tokens)
    (h' : NumbersApart others) (hkind : token.kind ≠ .number) :
    NumbersApart (tokens ++ token :: others) := by
  refine List.isChain_append.2 ⟨h, ?_, ?_⟩
  · exact List.isChain_cons.2 ⟨fun next _ hboth => hkind hboth.1, h'⟩
  · rintro last _ first hfirst ⟨-, hnumber⟩
    obtain rfl : token = first := by simpa using hfirst
    exact hkind hnumber

/-- **No two numbers stand side by side in a phrase.** -/
theorem Derives.numbersApart {phrase : Phrase} {tokens : List Token} {trees : List Tree}
    (h : Derives declared phrase tokens trees) : NumbersApart tokens := by
  have hnil : NumbersApart [] := List.isChain_nil
  induction h with
  | number | load | constant => exact List.isChain_singleton _
  | group hopening hclosing _ ih =>
    exact hnil.append (ih.append hnil (by simp [hclosing])) (by simp [hopening])
  | call hkind _ hopening hclosing _ _ ih =>
    exact hnil.append (hnil.append (ih.append hnil (by simp [hclosing])) (by simp [hopening]))
      (by simp [hkind])
  | application hkind _ _ _ _ ih => exact hnil.append ih (by simp [hkind])
  | sign hkind _ _ ih => exact hnil.append ih (by simp [hkind])
  | raised _ hkind _ ih ih' => exact ih.append ih' (by simp [hkind])
  | times _ hkind _ _ ih ih' => exact ih.append ih' (by simp [hkind])
  | plus _ hkind _ _ ih ih' => exact ih.append ih' (by simp [hkind])
  | comma _ hkind _ ih ih' => exact ih.append ih' (by simp [hkind])
  | juxtaposed _ _ hapart ih ih' =>
    refine List.isChain_append.2 ⟨ih, ih', fun last hlast first hfirst => ?_⟩
    obtain rfl := Option.some_inj.1 hfirst
    exact hapart last hlast
  | base _ ih | unsigned _ ih | factor _ ih | term _ ih | argument _ ih => exact ih

/-! ## Commas -/

/-- The commas that are still due in each open parenthesis, the innermost first, and last those
that are due outside. An opening parenthesis takes as many as separate the arguments of the
function before it, and it can be closed when they are all there. -/
def commasAfter? (previous : Option Token) (commas : List Nat) (token : Token) :
    Option (List Nat) :=
  match token.kind, commas with
  | .opening, commas => some (Token.furtherOf previous :: commas)
  | .comma, (due + 1) :: outer => some (due :: outer)
  | .closing, 0 :: due :: outer => some (due :: outer)
  | .comma, _ | .closing, _ => none
  | .name, commas | .number, commas | .operator _, commas => some commas

/-- Whether the commas of some tokens are as many as are due, and no parenthesis is left open. -/
def commasFit (previous : Option Token) (commas : List Nat) : List Token → Bool
  | [] => commas == [0]
  | token :: rest =>
    match commasAfter? previous commas token with
    | some later => commasFit (some token) later rest
    | none => false

theorem commasFit_cons {previous : Option Token} {commas later : List Nat} {token : Token}
    {rest : List Token} (h : commasAfter? previous commas token = some later)
    (hrest : commasFit (some token) later rest) : commasFit previous commas (token :: rest) := by
  rwa [commasFit, h]

theorem exists_of_commasFit_cons {previous : Option Token} {commas : List Nat} {token : Token}
    {rest : List Token} (h : commasFit previous commas (token :: rest)) :
    ∃ later, commasAfter? previous commas token = some later ∧
      commasFit (some token) later rest := by
  rw [commasFit] at h
  cases hafter : commasAfter? previous commas token with
  | none => simp [hafter] at h
  | some later => exact ⟨later, rfl, by simpa [hafter] using h⟩

/-- Something is counted for the outermost level. -/
theorem commasAfter?_ne_nil {previous : Option Token} {commas later : List Nat} {token : Token}
    (hne : commas ≠ []) (h : commasAfter? previous commas token = some later) : later ≠ [] := by
  unfold commasAfter? at h
  split at h <;> cases h
  all_goals simp [hne]

section Token

variable {token : Token} (previous : Option Token) (commas : List Nat)

theorem commasAfter?_opening (h : token.kind = .opening) :
    commasAfter? previous commas token = some (Token.furtherOf previous :: commas) := by
  simp [commasAfter?, h]

theorem commasAfter?_comma (h : token.kind = .comma) (due : Nat) :
    commasAfter? previous ((due + 1) :: commas) token = some (due :: commas) := by
  simp [commasAfter?, h]

theorem commasAfter?_closing (h : token.kind = .closing) (due : Nat) :
    commasAfter? previous (0 :: due :: commas) token = some (due :: commas) := by
  simp [commasAfter?, h]

/-- A token that is no comma and no parenthesis changes nothing. -/
theorem commasAfter?_same
    (h : token.kind ≠ .opening ∧ token.kind ≠ .comma ∧ token.kind ≠ .closing) :
    commasAfter? previous commas token = some commas := by
  unfold commasAfter?
  split <;> simp_all

end Token

/-- A token that names no function is no call. -/
theorem furtherOf_some {token : Token} (h : token.kind ≠ .name) :
    Token.furtherOf (some token) = 0 :=
  Token.further_eq_zero (Token.function?_eq_none h)

/-- Wherever some tokens stand, they take as many commas of the innermost parenthesis. They must
not start with the parenthesis of a function before them. -/
def TakesCommas (count : Nat) (tokens : List Token) : Prop :=
  ∀ (previous : Option Token) (due : Nat) (outer : List Nat) (rest : List Token),
    ((∃ first ∈ tokens.head?, first.kind = .opening) → Token.furtherOf previous = 0) →
    commasFit tokens.getLast? (due :: outer) rest →
    commasFit previous ((due + count) :: outer) (tokens ++ rest)

/-- A token on its own that is no comma and no parenthesis. -/
theorem takesCommas_singleton {token : Token}
    (hkind : token.kind ≠ .opening ∧ token.kind ≠ .comma ∧ token.kind ≠ .closing) :
    TakesCommas 0 [token] := by
  intro previous due outer rest _ hrest
  exact commasFit_cons (commasAfter?_same _ _ hkind) hrest

/-- Such a token before other tokens, unless it is a function and they start with a parenthesis. -/
theorem TakesCommas.before {token : Token} {tokens : List Token} {count : Nat}
    (h : TakesCommas count tokens) (hne : tokens ≠ [])
    (hkind : token.kind ≠ .opening ∧ token.kind ≠ .comma ∧ token.kind ≠ .closing)
    (hfunction : (∃ first ∈ tokens.head?, first.kind = .opening) →
      Token.furtherOf (some token) = 0) : TakesCommas count (token :: tokens) := by
  intro previous due outer rest _ hrest
  rw [← List.singleton_append, getLast?_append_of_ne_nil hne] at hrest
  exact commasFit_cons (commasAfter?_same _ _ hkind) (h (some token) due outer rest hfunction hrest)

/-- A pair of parentheses whose function takes the commas between them. -/
theorem TakesCommas.enclose {opening closing : Token} {tokens : List Token} {count : Nat}
    (h : TakesCommas count tokens) (hopening : opening.kind = .opening)
    (hclosing : closing.kind = .closing) {previous : Option Token}
    (hprevious : Token.furtherOf previous = count) {due : Nat} {outer : List Nat}
    {rest : List Token} (hrest : commasFit (some closing) (due :: outer) rest) :
    commasFit previous (due :: outer) (opening :: (tokens ++ [closing]) ++ rest) := by
  rw [List.cons_append, List.append_assoc]
  refine commasFit_cons (commasAfter?_opening _ _ hopening) ?_
  rw [hprevious, ← Nat.zero_add count]
  refine h (some opening) 0 (due :: outer) ([closing] ++ rest) ?_ ?_
  · exact fun _ => furtherOf_some (by simp [hopening])
  · exact commasFit_cons (commasAfter?_closing _ _ hclosing _) hrest

/-- An operator between two rows of tokens that take no comma. -/
theorem TakesCommas.operator {token : Token} {op : Operator} {tokens others : List Token}
    (h : TakesCommas 0 tokens) (h' : TakesCommas 0 others) (hkind : token.kind = .operator op)
    (hne : tokens ≠ []) (hne' : others ≠ []) : TakesCommas 0 (tokens ++ token :: others) := by
  intro previous due outer rest hprevious hrest
  rw [List.head?_append, List.head?_eq_some_head hne, Option.some_or,
    ← List.head?_eq_some_head] at hprevious
  rw [getLast?_append_of_ne_nil (List.cons_ne_nil _ _), ← List.singleton_append,
    getLast?_append_of_ne_nil hne'] at hrest
  rw [List.append_assoc, List.cons_append]
  refine h previous due outer _ hprevious ?_
  refine commasFit_cons (commasAfter?_same _ _ (by simp [hkind])) ?_
  exact h' (some token) due outer rest (fun _ => furtherOf_some (by simp [hkind])) hrest

/-- **The commas of a phrase fit.** A row of arguments takes one comma less than it has arguments,
and any other phrase takes none.

**Proof sketch.** Induction on the derivation. A phrase never starts with a parenthesis behind a
function, because these parentheses belong to a call. -/
theorem Derives.takesCommas {phrase : Phrase} {tokens : List Token} {trees : List Tree}
    (h : Derives declared phrase tokens trees) : TakesCommas (trees.length - 1) tokens := by
  induction h with
  | number hliteral => exact takesCommas_singleton (by simp [hliteral.1])
  | load hkind | constant hkind => exact takesCommas_singleton (by simp [hkind])
  | @group opening closing tokens tree hopening hclosing hsum ih =>
    intro previous due outer rest hprevious hrest
    refine ih.enclose hopening hclosing (hprevious ⟨opening, rfl, hopening⟩) ?_
    simpa [List.getLast?_cons] using hrest
  | @call token opening closing f tokens trees hkind hfunction hopening hclosing harguments
      harity ih =>
    intro previous due outer rest _ hrest
    have hfurther : Token.furtherOf (some token) = trees.length - 1 := by
      rw [harity]
      exact Token.further_eq (Token.function?_eq_some_iff.2 ⟨hkind, hfunction⟩)
    refine commasFit_cons (commasAfter?_same _ _ (by simp [hkind])) ?_
    refine ih.enclose hopening hclosing hfurther ?_
    simpa [List.getLast?_cons] using hrest
  | @application token f tokens tree hkind hfunction _ hprimary hopening ih =>
    refine ih.before hprimary.ne_nil (by simp [hkind]) ?_
    rintro ⟨first, hfirst, hparenthesis⟩
    exact absurd hparenthesis (hopening first hfirst)
  | sign hkind _ hsigned ih =>
    exact ih.before hsigned.ne_nil (by simp [hkind]) fun _ => furtherOf_some (by simp [hkind])
  | raised hprimary hkind hexponent ih ih' =>
    exact ih.operator ih' hkind hprimary.ne_nil hexponent.ne_nil
  | times hproduct hkind _ hfactor ih ih' =>
    exact ih.operator ih' hkind hproduct.ne_nil hfactor.ne_nil
  | plus hsum hkind _ hterm ih ih' =>
    exact ih.operator ih' hkind hsum.ne_nil hterm.ne_nil
  | @juxtaposed first tokens factor tree other hproduct hfactor _ ih ih' =>
    intro previous due outer rest hprevious hrest
    rw [List.append_assoc]
    rw [List.head?_append, List.head?_eq_some_head hproduct.ne_nil, Option.some_or,
      ← List.head?_eq_some_head] at hprevious
    rw [getLast?_append_of_ne_nil hfactor.ne_nil] at hrest
    exact ih previous due outer _ hprevious
      (ih' tokens.getLast? due outer rest (fun _ => hproduct.furtherOf_getLast?) hrest)
  | @comma token tokens argument trees tree harguments hkind hargument ih ih' =>
    intro previous due outer rest hprevious hrest
    rw [List.head?_append, List.head?_eq_some_head harguments.ne_nil, Option.some_or,
      ← List.head?_eq_some_head] at hprevious
    rw [getLast?_append_of_ne_nil (List.cons_ne_nil _ _), ← List.singleton_append,
      getLast?_append_of_ne_nil hargument.ne_nil] at hrest
    have hlength : due + ((trees ++ [tree]).length - 1) = due + 1 + (trees.length - 1) := by
      have hpositive : 0 < trees.length := List.length_pos_of_ne_nil harguments.trees_ne_nil
      simp only [List.length_append, List.length_singleton]
      omega
    rw [List.append_assoc, List.cons_append, hlength]
    refine ih previous (due + 1) outer _ hprevious ?_
    refine commasFit_cons (commasAfter?_comma _ _ hkind _) ?_
    exact ih' (some token) due outer rest (fun _ => furtherOf_some (by simp [hkind])) hrest
  | base _ ih | unsigned _ ih | factor _ ih | term _ ih | argument _ ih => exact ih

end Grammar

end Grapher
