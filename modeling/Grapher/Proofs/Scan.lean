import Grapher.Decimal.Reading
import Grapher.Proofs.Grammar
import Mathlib.Data.List.TakeWhile

set_option relaxedAutoImplicit false
set_option autoImplicit false

/-!
# What a scan finds

A scan makes its tokens as long as their kinds allow. So a number token is a row of digits and
points with a whole exponent, if any, after it, and it can be read exactly if it is a literal. A
plus or a minus is a sign exactly where an operand is due.

## Main definitions

* `Token.IsExponent` — the exponents of numbers.
* `Token.SignsPlaced` — rows of tokens whose signs stand where an operand is due.

## Main results

* `Token.isExponent_take` — an exponent has all its digits.
* `Token.read?_isSome_iff` — of the number tokens of a scan, the literals can be read.
* `Token.signsPlaced_scanFrom` — a scan reads a sign only where an operand is due.
-/

namespace Grapher

/-! ## Rows of characters -/

namespace Text

variable (p : Char → Bool) (text : List Char)

/-- The first characters of a class, by their number. -/
theorem take_takeWhile : text.take (text.takeWhile p).length = text.takeWhile p :=
  (List.prefix_iff_eq_take.1 (List.takeWhile_prefix p)).symm

/-- What follows the first characters of a class, by their number. -/
theorem drop_takeWhile : text.drop (text.takeWhile p).length = text.dropWhile p :=
  calc text.drop (text.takeWhile p).length
      = (text.takeWhile p ++ text.dropWhile p).drop (text.takeWhile p).length := by
        rw [List.takeWhile_append_dropWhile]
    _ = text.dropWhile p := List.drop_left

/-- What follows the first characters of a class does not start with one of the class. -/
theorem not_of_head?_drop_takeWhile :
    ∀ c ∈ (text.drop (text.takeWhile p).length).head?, ¬ p c := by
  intro c hc
  have hnot := List.head?_dropWhile_not p text
  rw [drop_takeWhile] at hc
  rw [Option.mem_def.1 hc] at hnot
  simp [hnot]

end Text

/-! ## Reading digits -/

namespace Decimal

/-- The digits at the start of a text are all of a row of digits that no digit follows. -/
theorem span_isDigit {digits rest : List Char} (hdigits : ∀ c ∈ digits, c.isDigit)
    (hrest : ∀ c ∈ rest.head?, ¬ c.isDigit) :
    (digits ++ rest).takeWhile Char.isDigit = digits ∧
      (digits ++ rest).dropWhile Char.isDigit = rest := by
  rw [List.takeWhile_append_of_pos hdigits, List.dropWhile_append_of_pos hdigits]
  cases rest with
  | nil => simp
  | cons c rest =>
    have hc : ¬ c.isDigit := hrest c rfl
    simp [hc]

/-- Reading digits without a point. -/
theorem read?_digits {whole rest : List Char} (hwhole : ∀ c ∈ whole, c.isDigit)
    (hrest : ∀ c ∈ rest.head?, ¬ c.isDigit ∧ c ≠ '.') :
    read? (whole ++ rest) =
      if whole = [] then none
      else (readExponent? rest).map fun exponent => ⟨ofDigits whole, exponent⟩ := by
  obtain ⟨htake, hdrop⟩ := span_isDigit hwhole fun c hc => (hrest c hc).1
  unfold read?
  rw [htake, hdrop]
  cases rest with
  | nil => simp
  | cons c rest =>
    have hpoint : c ≠ '.' := (hrest c rfl).2
    simp [hpoint]

/-- Reading digits with a point among them. -/
theorem read?_point {whole fraction rest : List Char} (hwhole : ∀ c ∈ whole, c.isDigit)
    (hfraction : ∀ c ∈ fraction, c.isDigit) (hrest : ∀ c ∈ rest.head?, ¬ c.isDigit) :
    read? (whole ++ '.' :: (fraction ++ rest)) =
      if whole = [] ∧ fraction = [] then none
      else (readExponent? rest).map fun exponent =>
        ⟨ofDigits (whole ++ fraction), exponent - fraction.length⟩ := by
  obtain ⟨htake, hdrop⟩ := span_isDigit hwhole
    (show ∀ c ∈ ('.' :: (fraction ++ rest)).head?, ¬ c.isDigit by simp)
  obtain ⟨htake', hdrop'⟩ := span_isDigit hfraction hrest
  unfold read?
  rw [htake, hdrop]
  simp only [htake', hdrop']

/-- A row of digits and points is a row of digits, or has a point behind one. -/
theorem mantissa_cases {mantissa : List Char} (h : ∀ c ∈ mantissa, Token.isMantissa c) :
    ∃ whole : List Char, (∀ c ∈ whole, c.isDigit) ∧
      (mantissa = whole ∨ ∃ rest, mantissa = whole ++ '.' :: rest) := by
  induction mantissa with
  | nil => exact ⟨[], by simp, .inl rfl⟩
  | cons c rest ih =>
    by_cases hc : c.isDigit
    · obtain ⟨whole, hwhole, hrest⟩ := ih fun d hd => h d (by simp [hd])
      refine ⟨c :: whole, fun d hd => ?_, hrest.imp (congrArg _) fun ⟨tail, htail⟩ => ⟨tail, ?_⟩⟩
      · rcases List.mem_cons.1 hd with rfl | hd
        · exact hc
        · exact hwhole d hd
      · rw [htail, List.cons_append]
    · have hpoint : c = '.' := by simpa [Token.isMantissa, hc] using h c (by simp)
      exact ⟨[], by simp, .inr ⟨rest, by rw [hpoint, List.nil_append]⟩⟩

/-- A row of digits has no point. -/
theorem count_point_digits {digits : List Char} (h : ∀ c ∈ digits, c.isDigit) :
    digits.count '.' = 0 :=
  List.count_eq_zero.2 fun hpoint => absurd (h '.' hpoint) (by decide)

/-- An exponent, if there is any, starts with its mark. -/
theorem head_of_readExponent? {text : List Char} (h : (readExponent? text).isSome) :
    ∀ c ∈ text.head?, c = 'e' ∨ c = 'E' := by
  cases text with
  | nil => simp
  | cons mark rest =>
    rintro c ⟨⟩
    by_contra hmark
    simp [readExponent?, hmark] at h

/-- **A mantissa and an exponent can be read** exactly if the mantissa has at most one point and at
least one digit. -/
theorem read?_append_isSome_iff {mantissa exponent : List Char}
    (hmantissa : ∀ c ∈ mantissa, Token.isMantissa c) (hexponent : (readExponent? exponent).isSome) :
    (read? (mantissa ++ exponent)).isSome ↔
      mantissa.count '.' ≤ 1 ∧ ∃ c ∈ mantissa, c.isDigit := by
  have hmark : ∀ c ∈ exponent.head?, ¬ c.isDigit ∧ c ≠ '.' := fun c hc => by
    rcases head_of_readExponent? hexponent c hc with rfl | rfl <;> decide
  have hfirst : ∀ digits : List Char, digits ≠ [] → (∀ c ∈ digits, c.isDigit) →
      ∃ c ∈ digits, c.isDigit := fun digits hne h =>
    (List.exists_mem_of_ne_nil digits hne).imp fun c hc => ⟨hc, h c hc⟩
  obtain ⟨whole, hwhole, rfl | ⟨rest, rfl⟩⟩ := mantissa_cases hmantissa
  · -- no point at all
    rw [read?_digits hwhole hmark, count_point_digits hwhole]
    by_cases hnil : mantissa = []
    · simp [hnil]
    · simp [hnil, hexponent, hfirst mantissa hnil hwhole]
  have hbehind : ∀ c ∈ rest, Token.isMantissa c := fun c hc => hmantissa c (by simp [hc])
  obtain ⟨fraction, hfraction, hrest | ⟨others, hrest⟩⟩ := mantissa_cases hbehind
  · -- one point
    subst hrest
    rw [List.append_assoc, List.cons_append,
      read?_point hwhole hfraction fun c hc => (hmark c hc).1, List.count_append, List.count_cons,
      count_point_digits hwhole, count_point_digits hfraction]
    by_cases hnil : whole = [] ∧ rest = []
    · simp [hnil.1, hnil.2]
    · have hdigit : ∃ c ∈ whole ++ '.' :: rest, c.isDigit := by
        rcases Classical.not_and_iff_not_or_not.1 hnil with hne | hne
        · obtain ⟨c, hc, hdigit⟩ := hfirst whole hne hwhole
          exact ⟨c, by simp [hc], hdigit⟩
        · obtain ⟨c, hc, hdigit⟩ := hfirst rest hne hfraction
          exact ⟨c, by simp [hc], hdigit⟩
      rw [if_neg hnil, Option.isSome_map, hexponent]
      exact ⟨fun _ => ⟨by simp, hdigit⟩, fun _ => rfl⟩
  · -- a second point cannot start an exponent
    have hnone : readExponent? ('.' :: (others ++ exponent)) = none := by
      simp [readExponent?]
    rw [hrest, show whole ++ '.' :: (fraction ++ '.' :: others) ++ exponent =
        whole ++ '.' :: (fraction ++ '.' :: (others ++ exponent)) by simp,
      read?_point hwhole hfraction (by simp), hnone]
    have htwo : ¬ (whole ++ '.' :: (fraction ++ '.' :: others)).count '.' ≤ 1 := by
      simp only [List.count_append, List.count_cons_self]
      omega
    exact iff_of_false (by split <;> simp) fun h => htwo h.1

end Decimal

/-! ## The tokens of a scan -/

namespace Token

/-- An exponent is a mark, an optional sign and at least one digit. -/
def IsExponent (text : List Char) : Prop :=
  ∃ mark ∈ ['e', 'E'], ∃ sign ∈ [[], ['+'], ['-']], ∃ digits : List Char,
    digits ≠ [] ∧ (∀ c ∈ digits, c.isDigit) ∧ text = mark :: (sign ++ digits)

/-- No digit is a sign. -/
theorem ne_sign_of_isDigit {c : Char} (h : c.isDigit) : c ≠ '+' ∧ c ≠ '-' :=
  ⟨fun hc => absurd (hc ▸ h) (by decide), fun hc => absurd (hc ▸ h) (by decide)⟩

/-- An exponent can be read. -/
theorem IsExponent.readExponent?_isSome {text : List Char} (h : IsExponent text) :
    (Decimal.readExponent? text).isSome := by
  obtain ⟨mark, hmark, sign, hsign, digits, hne, hdigits, rfl⟩ := h
  have hmark : mark = 'e' ∨ mark = 'E' := by simpa using hmark
  have hall : digits.all Char.isDigit := List.all_eq_true.2 hdigits
  simp only [List.mem_cons, List.not_mem_nil, or_false] at hsign
  rcases hsign with rfl | rfl | rfl
  · obtain ⟨c, rest, rfl⟩ := List.exists_cons_of_ne_nil hne
    obtain ⟨hplus, hminus⟩ := ne_sign_of_isDigit (hdigits c (by simp))
    simp_all [Decimal.readExponent?]
  · simp [Decimal.readExponent?, hmark, hne, hall]
  · simp [Decimal.readExponent?, hmark, hne, hall]

/-- The length of an exponent counts its mark, its sign and the digits behind them. -/
theorem exponentLength_cons {mark : Char} (hmark : mark = 'e' ∨ mark = 'E') (tail : List Char) :
    ∃ sign rest : List Char, sign ∈ [[], ['+'], ['-']] ∧ tail = sign ++ rest ∧
      exponentLength (mark :: tail) =
        if rest.takeWhile Char.isDigit = [] then 0
        else (mark :: sign).length + (rest.takeWhile Char.isDigit).length := by
  rcases tail with _ | ⟨c, tail⟩
  · exact ⟨[], [], by simp [exponentLength]⟩
  by_cases hc : c = '+' ∨ c = '-'
  · refine ⟨[c], tail, by rcases hc with rfl | rfl <;> simp, rfl, ?_⟩
    simp [exponentLength, hmark, hc, Nat.add_comm]
  · refine ⟨[], c :: tail, by simp, rfl, ?_⟩
    simp [exponentLength, hmark, hc, Nat.add_comm]

/-- **An exponent has all its digits.** What is counted of a text is an exponent within the text, if
anything is, and no digit follows. -/
theorem isExponent_take {text : List Char} (h : exponentLength text ≠ 0) :
    IsExponent (text.take (exponentLength text)) ∧ exponentLength text ≤ text.length ∧
      ∀ c ∈ (text.drop (exponentLength text)).head?, ¬ c.isDigit := by
  rcases text with _ | ⟨mark, tail⟩
  · exact absurd rfl h
  by_cases hmark : mark = 'e' ∨ mark = 'E'
  · obtain ⟨sign, rest, hsign, rfl, hlength⟩ := exponentLength_cons hmark tail
    have hne : rest.takeWhile Char.isDigit ≠ [] := fun hnil => h (by rw [hlength, if_pos hnil])
    have hle := (List.takeWhile_prefix (l := rest) Char.isDigit).length_le
    rw [hlength, if_neg hne, ← List.cons_append, List.take_length_add_append,
      List.drop_length_add_append, Text.take_takeWhile]
    refine ⟨⟨mark, by simpa using hmark, sign, hsign, _, hne,
      fun c hc => List.mem_takeWhile_imp hc, rfl⟩, ?_, Text.not_of_head?_drop_takeWhile _ rest⟩
    rw [List.length_append]
    omega
  · exact absurd (by simp [exponentLength, hmark]) h

/-- The exponent behind a mantissa is read as far as it belongs to the number. -/
theorem readExponent?_take_exponentLength (rest : List Char) :
    (Decimal.readExponent? (rest.take (exponentLength rest))).isSome := by
  by_cases hzero : exponentLength rest = 0
  · rw [hzero]
    rfl
  · exact (isExponent_take hzero).1.readExponent?_isSome

/-- What belongs to a number beyond its first character: the rest of its mantissa, and then its
exponent. -/
theorem take_numberRest (rest : List Char) :
    rest.take (numberRest rest) = rest.takeWhile isMantissa ++
      (rest.drop (rest.takeWhile isMantissa).length).take
        (exponentLength (rest.drop (rest.takeWhile isMantissa).length)) := by
  rw [numberRest, List.take_add, Text.take_takeWhile]

/-- Every token of a scan is as long as its kind allows. -/
theorem lexeme?_of_mem_scanFrom {previous : Option Kind} {start : Nat} {text : List Char}
    {token : Token} (h : token ∈ (scanFrom previous start text).tokens) :
    ∃ due c rest more, lexeme? due c rest = .ok (token.kind, more) ∧
      token.excerpt.text = String.ofList (c :: rest.take more) := by
  fun_induction scanFrom previous start text with
  | case1 => simp at h
  | case2 previous start c rest hblank ih => exact ih h
  | case3 => simp at h
  | case4 previous start c rest hblank kind more hlexeme excerpt next ih =>
    rcases List.mem_cons.1 h with rfl | h
    · exact ⟨_, c, rest, more, hlexeme, rfl⟩
    · exact ih h

/-- A number token is a digit or a point and all that belongs to the number behind it. -/
theorem lexeme?_eq_number {due : Bool} {c : Char} {rest : List Char} {more : Nat}
    (h : lexeme? due c rest = .ok (.number, more)) : isMantissa c ∧ more = numberRest rest := by
  unfold lexeme? at h
  split at h
  · next kind hsymbol =>
    obtain ⟨rfl, -⟩ : kind = .number ∧ 0 = more := by simpa using h
    revert hsymbol
    unfold symbol?
    split <;> simp
  · split at h
    · cases h
    · split at h
      · simp at h
      · split at h
        · next hmantissa => exact ⟨hmantissa, by simpa using h.symm⟩
        · cases h

/-- A token that is neither a name nor a number is a symbol, a single character. -/
theorem lexeme?_eq_symbol {due : Bool} {c : Char} {rest : List Char} {kind : Kind} {more : Nat}
    (h : lexeme? due c rest = .ok (kind, more)) (hname : kind ≠ .name) (hnumber : kind ≠ .number) :
    symbol? due c = some kind ∧ more = 0 := by
  unfold lexeme? at h
  split at h
  · next other hsymbol =>
    obtain ⟨rfl, hmore⟩ := Prod.mk.inj (Except.ok.inj h)
    exact ⟨hsymbol, hmore.symm⟩
  · split at h
    · cases h
    · split at h
      · exact absurd (Prod.mk.inj (Except.ok.inj h)).1.symm hname
      · split at h
        · exact absurd (Prod.mk.inj (Except.ok.inj h)).1.symm hnumber
        · cases h

/-- **Of the number tokens of a scan, the literals can be read.** -/
theorem read?_isSome_iff {source : String} {token : Token} (h : token ∈ (scan source).tokens)
    (hkind : token.kind = .number) :
    (Decimal.read? token.excerpt.text.toList).isSome ↔ token.IsLiteral := by
  obtain ⟨due, c, rest, more, hlexeme, htext⟩ := lexeme?_of_mem_scanFrom h
  rw [hkind] at hlexeme
  obtain ⟨hc, rfl⟩ := lexeme?_eq_number hlexeme
  set digits := rest.takeWhile isMantissa
  set exponent := (rest.drop digits.length).take (exponentLength (rest.drop digits.length))
  have hexponent : (Decimal.readExponent? exponent).isSome := readExponent?_take_exponentLength _
  have hmantissa : ∀ d ∈ c :: digits, isMantissa d := by
    intro d hd
    rcases List.mem_cons.1 hd with rfl | hd
    · exact hc
    · exact List.mem_takeWhile_imp hd
  have hlist : token.excerpt.text.toList = c :: digits ++ exponent := by
    rw [htext, String.toList_ofList, take_numberRest]
    rfl
  have hspan : token.mantissa = c :: digits := by
    rw [mantissa, hlist, List.takeWhile_append_of_pos hmantissa]
    rcases hlist' : exponent with _ | ⟨mark, tail⟩
    · simp
    · rw [hlist'] at hexponent
      have hmark : isMantissa mark = false := by
        rcases Decimal.head_of_readExponent? hexponent mark rfl with rfl | rfl <;> decide
      simp [hmark]
  rw [IsLiteral, hspan, hlist, Decimal.read?_append_isSome_iff hmantissa hexponent]
  simp [hkind]

/-- No number token is the name of a builtin: names start like a name. -/
theorem find?_number {source : String} {token : Token} (h : token ∈ (scan source).tokens)
    (hkind : token.kind = .number) : Builtin.find? token.excerpt.text = none := by
  obtain ⟨due, c, rest, more, hlexeme, htext⟩ := lexeme?_of_mem_scanFrom h
  rw [hkind] at hlexeme
  have hstart : isMantissa c := (lexeme?_eq_number hlexeme).1
  have hnames : ∀ builtin ∈ Builtin.table,
      builtin.name.toList.head?.any isMantissa = false := by
    decide
  refine List.find?_eq_none.2 fun builtin hbuiltin hname => ?_
  have heq : builtin.name = token.excerpt.text := by simpa using hname
  have hhead : builtin.name.toList.head? = some c := by
    rw [heq, htext, String.toList_ofList]
    rfl
  have hnone := hnames builtin hbuiltin
  rw [hhead, Option.any_some, hstart] at hnone
  exact absurd hnone (by decide)

/-! ## Signs -/

/-- In a row of tokens behind a token of kind `previous`, signs stand only where an operand is
due. -/
def SignsPlaced : Option Kind → List Token → Prop
  | _, [] => True
  | previous, token :: rest =>
    (∀ op : Operator, token.kind = .operator op → op.standsBefore → operandDue previous) ∧
      SignsPlaced (some token.kind) rest

/-- A sign token is read only where an operand is due. -/
theorem due_of_lexeme?_sign {due : Bool} {c : Char} {rest : List Char} {more : Nat} {op : Operator}
    (h : lexeme? due c rest = .ok (.operator op, more)) (hop : op.standsBefore) : due := by
  obtain ⟨hsymbol, -⟩ := lexeme?_eq_symbol h (by simp) (by simp)
  by_contra hdue
  unfold symbol? at hsymbol
  split at hsymbol <;> simp [hdue] at hsymbol <;> subst hsymbol <;> cases hop

/-- **A scan reads a sign only where an operand is due.** -/
theorem signsPlaced_scanFrom (previous : Option Kind) (start : Nat) (text : List Char) :
    SignsPlaced previous (scanFrom previous start text).tokens := by
  fun_induction scanFrom previous start text with
  | case1 => trivial
  | case2 previous start c rest hblank ih => exact ih
  | case3 => trivial
  | case4 previous start c rest hblank kind more hlexeme excerpt next ih =>
    refine ⟨fun op hkind hop => ?_, ih⟩
    obtain rfl : kind = .operator op := hkind
    exact due_of_lexeme?_sign hlexeme hop

end Token

end Grapher
