import Grapher.Proofs.Contents
import Grapher.Proofs.ShortestDigits
import Grapher.Proofs.Stars

set_option relaxedAutoImplicit false
set_option autoImplicit false

/-!
# Numbers as formulas

A finite number that is written with the fewest digits is read back as the same number, in every
environment and where any variables are declared. The text is a row of digits with at most one point
among them, so it is one token without an exponent; a minus before it is a sign. The digits have the
value of the shortest decimal, which is read as the number without its sign. Zero keeps its sign.

## Main definitions

* `Numeral.Digits` — the digits of a number, and the sign before them.

## Main results

* `Decimal.read?_positional` — what the digits of a decimal write.
* `Token.scan_numeral`, `Token.scan_minus_numeral` — the tokens of a number, and of one with a
  minus.
* `Numeral.exists_digits` — the text of a number is its sign and digits that are read as its
  magnitude.
* `Formula.ofSource_ofFloat` — the text of a number becomes a formula with this number as its value.
-/

namespace Grapher

/-! ## Digits -/

namespace Decimal

theorem isDigit_of_mem_digits {n : ℕ} {c : Char} (h : c ∈ digits n) : c.isDigit :=
  Nat.isDigit_of_mem_toDigits (by norm_num) (by norm_num) h

theorem isDigit_of_mem_zeros {n : ℕ} {c : Char} (h : c ∈ zeros n) : c.isDigit :=
  List.eq_of_mem_replicate h ▸ rfl

/-- The digits of a number write it. -/
theorem ofDigits_digits (n : ℕ) : ofDigits (digits n) = n :=
  Nat.ofDigitChars_eq_foldl.symm.trans Nat.ofDigitChars_ten_toDigits

/-- Zeros behind digits write a power of ten. -/
theorem ofDigits_append_zeros (text : List Char) (k : ℕ) :
    ofDigits (text ++ zeros k) = ofDigits text * 10 ^ k := by
  simp only [ofDigits, ← Nat.ofDigitChars_eq_foldl]
  rw [Nat.ofDigitChars_append, zeros, Nat.ofDigitChars_replicate_zero, mul_comm]

/-- Zeros before digits write nothing. -/
theorem ofDigits_zeros_append (k : ℕ) (text : List Char) :
    ofDigits (zeros k ++ text) = ofDigits text := by
  simp only [ofDigits, ← Nat.ofDigitChars_eq_foldl]
  rw [Nat.ofDigitChars_append, zeros, Nat.ofDigitChars_replicate_zero, mul_zero]

/-- A decimal is written in digits and points. -/
theorem isMantissa_of_mem_positional {d : Decimal} {c : Char} (h : c ∈ positional d) :
    Token.isMantissa c := by
  have hdigit : c ∈ digits d.coefficient → Token.isMantissa c := fun hc => by
    simp [Token.isMantissa, isDigit_of_mem_digits hc]
  have hzero : ∀ k, c ∈ zeros k → Token.isMantissa c := fun k hc => by
    simp [Token.isMantissa, isDigit_of_mem_zeros hc]
  unfold positional at h
  dsimp only at h
  split at h
  · exact (List.mem_append.1 h).elim hdigit (hzero _)
  · split at h
    · rcases List.mem_append.1 h with h | h
      · exact hdigit (List.mem_of_mem_take h)
      · rcases List.mem_cons.1 h with rfl | h
        · rfl
        · exact hdigit (List.mem_of_mem_drop h)
    · rcases List.mem_cons.1 h with rfl | h
      · rfl
      · rcases List.mem_cons.1 h with rfl | h
        · rfl
        · exact (List.mem_append.1 h).elim (hzero _) hdigit

/-- Digits without a point. -/
theorem read?_whole {whole : List Char} (hwhole : ∀ c ∈ whole, c.isDigit) (hne : whole ≠ []) :
    read? whole = some ⟨ofDigits whole, 0⟩ := by
  have hread : read? (whole ++ []) = _ := read?_digits hwhole (by simp)
  rw [List.append_nil, if_neg hne] at hread
  exact hread

/-- Digits with a point before some of them. -/
theorem read?_fraction {whole fraction : List Char} (hwhole : ∀ c ∈ whole, c.isDigit)
    (hfraction : ∀ c ∈ fraction, c.isDigit) (hne : fraction ≠ []) :
    read? (whole ++ '.' :: fraction) =
      some ⟨ofDigits (whole ++ fraction), -(fraction.length : ℤ)⟩ := by
  have hread : read? (whole ++ '.' :: (fraction ++ [])) = _ :=
    read?_point hwhole hfraction (by simp)
  rw [List.append_nil, if_neg fun h => hne h.2] at hread
  rw [hread, ← zero_sub]
  rfl

/-- **What the digits of a decimal write**: the decimal, with a coefficient in which the zeros
before the point count. -/
theorem read?_positional (d : Decimal) :
    read? (positional d) = some ⟨d.coefficient * 10 ^ d.exponent.toNat, min d.exponent 0⟩ := by
  obtain ⟨n, e⟩ := d
  have hdigits : ∀ c ∈ digits n, c.isDigit := fun c => isDigit_of_mem_digits
  unfold positional
  dsimp only
  split
  · next hnonneg =>
    -- zeros behind the digits, no point
    have hne : digits n ++ zeros e.toNat ≠ [] := fun h =>
      Nat.toDigits_ne_nil (List.append_eq_nil_iff.1 h).1
    rw [read?_whole (List.forall_mem_append.2 ⟨hdigits, fun c => isDigit_of_mem_zeros⟩) hne,
      ofDigits_append_zeros, ofDigits_digits, min_eq_right hnonneg]
  · next hneg =>
    obtain ⟨k, hk, rfl⟩ : ∃ k : ℕ, 0 < k ∧ e = -k := ⟨e.natAbs, by omega, by omega⟩
    rw [min_eq_left (not_le.1 hneg).le, Int.toNat_of_nonpos (not_le.1 hneg).le, pow_zero, mul_one,
      neg_neg, Int.toNat_natCast]
    have hne : ∀ fraction : List Char, fraction.length = k → fraction ≠ [] := by
      rintro _ hlength rfl
      exact hk.ne hlength
    split
    · next hplaces =>
      -- a point among the digits
      have hlength : ((digits n).drop ((digits n).length - k)).length = k := by
        rw [List.length_drop]
        omega
      rw [read?_fraction (fun c hc => hdigits c (List.mem_of_mem_take hc))
        (fun c hc => hdigits c (List.mem_of_mem_drop hc)) (hne _ hlength), List.take_append_drop,
        ofDigits_digits, hlength]
    · next hplaces =>
      -- a zero, a point, and zeros before the digits
      have hlength : (zeros (k - (digits n).length) ++ digits n).length = k := by
        rw [List.length_append, zeros, List.length_replicate]
        omega
      have hread : read? (zeros 1 ++ '.' :: (zeros (k - (digits n).length) ++ digits n)) = _ :=
        read?_fraction (fun c => isDigit_of_mem_zeros)
          (List.forall_mem_append.2 ⟨fun c => isDigit_of_mem_zeros, hdigits⟩) (hne _ hlength)
      rw [ofDigits_zeros_append, ofDigits_zeros_append, ofDigits_digits, hlength] at hread
      exact hread

/-- The coefficient in which the zeros before the point count gives the same value. -/
theorem amount_positional (d : Decimal) :
    amount ⟨d.coefficient * 10 ^ d.exponent.toNat, min d.exponent 0⟩ = d.amount := by
  obtain ⟨n, e⟩ := d
  rcases le_or_gt 0 e with hnonneg | hneg
  · obtain ⟨k, rfl⟩ := Int.eq_ofNat_of_zero_le hnonneg
    simp [amount]
  · simp [amount, min_eq_left hneg.le, Int.toNat_of_nonpos hneg.le]

end Decimal

/-! ## Tokens -/

namespace Token

variable {text : List Char}

/-- Digits and points up to the end of a text are one number. -/
theorem reads_numeral (due : Prop) (hne : text ≠ []) (htext : ∀ c ∈ text, isMantissa c) :
    Reads due [] .number text := by
  refine .plain hne htext (by simp) fun exponent hexponent hprefix => ?_
  obtain ⟨mark, -, sign, -, digits, -, -, rfl⟩ := hexponent
  cases List.prefix_nil.1 hprefix

/-- Digits and points up to the end of a text are scanned as one number. -/
theorem scans_numeral (previous : Option Kind) (start : ℕ) (hne : text ≠ [])
    (htext : ∀ c ∈ text, isMantissa c) :
    Scans previous start text ⟨[⟨.number, ⟨start, String.ofList text⟩⟩], none⟩ := by
  have hscans : Scans previous start (text ++ []) _ := .token hne (reads_numeral _ hne htext) .nil
  rwa [List.append_nil] at hscans

/-- **Digits and points are one token.** -/
theorem scan_numeral (hne : text ≠ []) (htext : ∀ c ∈ text, isMantissa c) :
    scan (String.ofList text) = ⟨[⟨.number, .all (String.ofList text)⟩], none⟩ := by
  rw [scan, String.toList_ofList]
  exact scanFrom_eq (scans_numeral none 0 hne htext)

/-- **A minus before digits and points is a sign.** -/
theorem scan_minus_numeral (hne : text ≠ []) (htext : ∀ c ∈ text, isMantissa c) :
    scan ("-" ++ String.ofList text) =
      ⟨[⟨.operator .neg, ⟨0, "-"⟩⟩, ⟨.number, ⟨1, String.ofList text⟩⟩], none⟩ := by
  have hsign : Reads (operandDue none) text (.operator .neg) ['-'] := .operator (by decide)
  have hscans : Scans none 0 (['-'] ++ text) _ :=
    .token (by simp) hsign (scans_numeral _ _ hne htext)
  rw [scan, String.toList_append, String.toList_ofList, String.toList_ofList]
  exact scanFrom_eq hscans

end Token

/-! ## The digits of a number -/

namespace Numeral

open Binary64
open Float.Model (UnpackedFloat)
open Float.Model.UnpackedFloat (Sign)

/-- Digits that are read as the magnitude of a number, and the sign before them. -/
structure Digits (x : Float) (text : List Char) (d : Decimal) : Prop where
  /-- They are digits and points. -/
  mantissa : ∀ c ∈ text, Token.isMantissa c
  /-- They write a decimal. -/
  read : Decimal.read? text = some d
  /-- The number is the one that the decimal is read as, or its opposite. -/
  signed : (shortest x = String.ofList text ∧ x = d.toFloat) ∨
    (shortest x = "-" ++ String.ofList text ∧ x = -d.toFloat)

/-- A number behind a sign has the digits that are read as the number of positive sign. -/
theorem Digits.of_unpack {x : Float} {text : List Char} {d : Decimal} {u : UnpackedFloat}
    (sign : Sign) (hx : x.isFinite) (hmantissa : ∀ c ∈ text, Token.isMantissa c)
    (hread : Decimal.read? text = some d) (htext : shortest x = mark sign ++ String.ofList text)
    (hu : u.isFinite) (hmagnitude : d.toFloat.toModel.unpack = u)
    (hunpack : x.toModel.unpack = match sign with
      | .positive => u
      | .negative => u.neg) : Digits x text d := by
  refine ⟨hmantissa, hread, ?_⟩
  subst hmagnitude
  cases sign with
  | positive =>
    exact .inl ⟨by rw [htext, mark, String.empty_append], eq_of_unpack hx hunpack⟩
  | negative =>
    exact .inr ⟨htext, eq_of_unpack hx (hunpack.trans (unpack_neg hu).symm)⟩

/-- **The text of a finite number is its sign and digits that are read as its magnitude.** -/
theorem exists_digits {x : Float} (hx : x.isFinite) : ∃ text d, Digits x text d := by
  rcases unpack_of_isFinite hx with ⟨sign, hunpack⟩ | ⟨sign, m, e, hm, hunpack, he, -, htop⟩
  · -- zero is no `m · 2 ^ e` with a positive `m`, and its digit is not searched for
    have hmantissa : ∀ c ∈ ['0'], Token.isMantissa c := List.forall_mem_singleton.2 rfl
    have hread : Decimal.read? ['0'] = some ⟨0, 0⟩ := by decide
    have hfloat : Decimal.toFloat ⟨0, 0⟩ = 0 := by decide +kernel
    have htext : shortest x = mark sign ++ String.ofList ['0'] := by
      rw [shortest, written, hunpack]
    refine ⟨['0'], _, .of_unpack sign hx hmantissa hread htext rfl
      (congrArg (fun y : Float => y.toModel.unpack) hfloat) (hunpack.trans ?_)⟩
    cases sign <;> rfl
  · have hfloat := Decimal.unpack_toFloat hm he htop (Decimal.amount_positional _)
    have htext : shortest x = mark sign ++ String.ofList (Decimal.shortest m e).positional := by
      rw [shortest, written, hunpack]
    refine ⟨_, _, .of_unpack sign hx (fun c => Decimal.isMantissa_of_mem_positional)
      (Decimal.read?_positional _) htext rfl hfloat (hunpack.trans ?_)⟩
    cases sign <;> rfl

end Numeral

/-! ## The formula of a number -/

section Formula

variable {declared : List String} {text : List Char} {d : Decimal}

/-- Digits that write a number are not the empty text. -/
theorem Decimal.ne_nil_of_read? (hread : Decimal.read? text = some d) : text ≠ [] := by
  rintro rfl
  rw [Decimal.read?_nil] at hread
  cases hread

/-- A number goes to the program, whatever waits. -/
theorem Reading.number_numeral (hread : Decimal.read? text = some d) (reading : Reading)
    (start : ℕ) :
    reading.number ⟨start, String.ofList text⟩ =
      .ok ((reading.emit (.push d.toFloat) ⟨start, String.ofList text⟩).ending .number) := by
  simp only [Reading.number, String.toList_ofList, hread]

/-- The formula of digits and points pushes the number that they write. -/
theorem Formula.ofSource_numeral (htext : ∀ c ∈ text, Token.isMantissa c)
    (hread : Decimal.read? text = some d) :
    Formula.ofSource declared (String.ofList text) =
      .ok ⟨String.ofList text, [⟨.push d.toFloat, .all (String.ofList text)⟩]⟩ := by
  have hscan := Token.scan_numeral (Decimal.ne_nil_of_read? hread) htext
  have hfold : (Token.scan (String.ofList text)).tokens.foldlM (Reading.step declared) .start =
      .ok ⟨[⟨.push d.toFloat, .all (String.ofList text)⟩], [], [], .number⟩ := by
    rw [hscan]
    exact congrArg (· >>= pure) (Reading.number_numeral hread .start 0)
  have hprogram := Reading.program_eq_ok_iff.2 ⟨by rw [hscan], _, hfold, rfl⟩
  exact ofSource_eq_ok_iff.2 ⟨rfl, hprogram, rfl⟩

/-- The formula of a minus before digits and points pushes the number that they write and takes its
opposite. -/
theorem Formula.ofSource_minus_numeral (htext : ∀ c ∈ text, Token.isMantissa c)
    (hread : Decimal.read? text = some d) :
    Formula.ofSource declared ("-" ++ String.ofList text) =
      .ok ⟨"-" ++ String.ofList text,
        [⟨.push d.toFloat, ⟨1, String.ofList text⟩⟩, ⟨.apply .neg, ⟨0, "-"⟩⟩]⟩ := by
  have hscan := Token.scan_minus_numeral (Decimal.ne_nil_of_read? hread) htext
  have hfold : (Token.scan ("-" ++ String.ofList text)).tokens.foldlM (Reading.step declared)
      .start = .ok ⟨[⟨.push d.toFloat, ⟨1, String.ofList text⟩⟩], [.operator .neg ⟨0, "-"⟩], [],
        .number⟩ := by
    rw [hscan]
    exact congrArg (· >>= pure)
      (Reading.number_numeral hread ⟨[], [.operator .neg ⟨0, "-"⟩], [], .other⟩ 1)
  have hprogram := Reading.program_eq_ok_iff.2 ⟨by rw [hscan], _, hfold, rfl⟩
  exact ofSource_eq_ok_iff.2 ⟨rfl, hprogram, rfl⟩

/-- **The text of a finite number becomes a formula with this number as its value.** The formula
loads no variable, whichever variables are declared, and in every environment its value is that of
the formula of the number itself.

**Proof sketch.** The text is digits and points that are read as the magnitude, and a minus before
them for a negative number and for a negative zero. Without the minus the text is one token, and its
formula pushes the magnitude, which is the number. With the minus it is a sign and a token, and the
formula takes the opposite of the magnitude, which is the number, bit for bit. -/
theorem Formula.ofSource_ofFloat {value : Float} (h : value.isFinite) (declared : List String) :
    ∃ formula, Formula.ofSource declared (ofFloat value).source = .ok formula ∧
      formula.names = [] ∧
        ∀ env, formula.value env = .ok value ∧ (ofFloat value).value env = .ok value := by
  obtain ⟨text, d, hdigits⟩ := Numeral.exists_digits h
  have hsource : (ofFloat value).source = Numeral.shortest value := rfl
  rcases hdigits.signed with ⟨htext, rfl⟩ | ⟨htext, rfl⟩
  · rw [hsource, htext]
    exact ⟨_, ofSource_numeral hdigits.mantissa hdigits.read, rfl, fun env => ⟨rfl, rfl⟩⟩
  · rw [hsource, htext]
    exact ⟨_, ofSource_minus_numeral hdigits.mantissa hdigits.read, rfl, fun env => ⟨rfl, rfl⟩⟩

/-- Zero with a minus is read back as itself, which is not zero without a minus. -/
theorem Formula.ofSource_ofFloat_minus_zero :
    (-0 : Float).isFinite ∧ (-0 : Float) ≠ 0 ∧ (Formula.ofFloat (-0)).source = "-0" ∧
      ∃ formula, Formula.ofSource ["x"] "-0" = .ok formula ∧ formula.names = [] ∧
        formula.value (Environment.empty.set "x" 5) = .ok (-0) := by
  have hfinite : (-0 : Float).isFinite := by decide +kernel
  have hsource : (Formula.ofFloat (-0)).source = "-0" := by decide +kernel
  obtain ⟨formula, hformula, hnames, hvalue⟩ := ofSource_ofFloat hfinite ["x"]
  exact ⟨hfinite, by decide +kernel, hsource, formula, hsource ▸ hformula, hnames, (hvalue _).1⟩

end Formula

end Grapher
