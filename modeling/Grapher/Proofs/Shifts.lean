import Grapher.Proofs.GuardedScan
import Grapher.Proofs.Names

set_option relaxedAutoImplicit false
set_option autoImplicit false

/-!
# Texts within texts

A text has the same tokens where it stands within another text, only further on, if an operand is
due before it and a comma or a parenthesis follows. The tokens before it matter only in so far as an
operand is due, and no token of the text goes on into a separator.

## Main definitions

* `Excerpt.shift`, `Token.shift`, `Operation.shift`, `Program.shift` — what stands further on.
* `Operator.symbol` — the character that writes an operator.
* `Token.Separator` — the commas and the parentheses.
* `Token.enclosed` — the tokens of a text in parentheses.

## Main results

* `Token.scanFrom_shift` — a text that stands further on has the same tokens further on.
* `Token.scanFrom_append` — the scan of a text does not depend on what follows from a separator on.
* `Token.scan_comma`, `Token.scan_group`, `Token.scan_call`, `Token.scan_sign`,
  `Token.scan_operator` — the scans of texts that are made of others.
-/

namespace Grapher

/-! ## What stands further on -/

/-- The same text, a number of bytes further on. -/
def Excerpt.shift (bytes : Nat) (e : Excerpt) : Excerpt :=
  ⟨bytes + e.start, e.text⟩

/-- The same operation, asked for further on. -/
def Operation.shift (bytes : Nat) (operation : Operation) : Operation :=
  ⟨operation.action, operation.place.shift bytes⟩

/-- The same operations, asked for further on. -/
def Program.shift (bytes : Nat) (program : Program) : Program :=
  program.map (Operation.shift bytes)

@[simp]
theorem Program.shift_zero (program : Program) : program.shift 0 = program := by
  have hsame : ∀ operation : Operation, operation.shift 0 = operation := fun operation => by
    simp [Operation.shift, Excerpt.shift]
  exact List.map_id'' hsame program

/-- The character that writes an operator. -/
def Operator.symbol : Operator → Char
  | .neg | .sub => '-'
  | .pos | .add => '+'
  | .mul => '*'
  | .div => '/'
  | .rem => '%'
  | .pow => '^'

namespace Token

/-- The same token, further on. -/
def shift (bytes : Nat) (token : Token) : Token :=
  ⟨token.kind, token.excerpt.shift bytes⟩

theorem map_shift_zero (tokens : List Token) : tokens.map (shift 0) = tokens := by
  have hsame : ∀ token : Token, token.shift 0 = token := fun token => by
    simp [shift, Excerpt.shift]
  exact List.map_id'' hsame tokens

/-- The same tokens and the same obstacle, further on. -/
def Scan.shift (bytes : Nat) (scan : Scan) : Scan :=
  ⟨scan.tokens.map (Token.shift bytes), scan.stop.map fun stop => (stop.1, stop.2.shift bytes)⟩

/-- **A text that stands further on has the same tokens further on**, provided that an operand is
due before it in both places or in neither. -/
theorem scanFrom_shift (bytes : Nat) {previous : Option Kind} {start : Nat} {text : List Char} :
    ∀ {other : Option Kind}, operandDue other = operandDue previous →
      scanFrom other (bytes + start) text = (scanFrom previous start text).shift bytes := by
  fun_induction scanFrom previous start text with
  | case1 => simp [scanFrom, Scan.shift]
  | case2 previous start c rest hblank ih =>
    intro other hdue
    rw [scanFrom, if_pos hblank, Nat.add_assoc, ih hdue]
  | case3 previous start c rest hblank obstacle hlexeme =>
    intro other hdue
    rw [scanFrom, if_neg hblank, hdue, hlexeme]
    rfl
  | case4 previous start c rest hblank kind more hlexeme excerpt next =>
    rename_i ih
    intro other hdue
    have hnext : scanFrom (some kind) (bytes + start + excerpt.size) (rest.drop more) =
        next.shift bytes := by
      rw [Nat.add_assoc]
      exact ih rfl
    rw [scanFrom, if_neg hblank, hdue, hlexeme]
    change Scan.mk (_ :: (scanFrom (some kind) (bytes + start + excerpt.size) _).tokens)
      (scanFrom (some kind) (bytes + start + excerpt.size) _).stop = _
    rw [hnext]
    rfl

/-! ## Symbols -/

/-- A symbol is no blank and has one byte. -/
theorem isBlank_of_symbol? {due : Bool} {c : Char} {kind : Kind} (h : symbol? due c = some kind) :
    Text.isBlank c = false ∧ c.utf8Size = 1 := by
  unfold symbol? at h
  split at h
  all_goals first | cases h; done | decide

/-- A symbol is a token, whatever follows. -/
theorem scanFrom_cons_symbol {previous : Option Kind} {c : Char} {kind : Kind}
    (h : symbol? (operandDue previous) c = some kind) (start : Nat) (rest : List Char) :
    scanFrom previous start (c :: rest) =
      ⟨⟨kind, ⟨start, String.singleton c⟩⟩ :: (scanFrom (some kind) (start + 1) rest).tokens,
        (scanFrom (some kind) (start + 1) rest).stop⟩ := by
  obtain ⟨hblank, hsize⟩ := isBlank_of_symbol? h
  have hlexeme : lexeme? (operandDue previous) c rest = .ok (kind, 0) := by
    simp only [lexeme?, h]
  rw [scanFrom, if_neg (by simp [hblank]), hlexeme]
  simp only [List.take_zero, List.drop_zero, ← String.singleton_eq_ofList, Excerpt.size,
    String.utf8ByteSize_singleton, hsize]

/-! ## Separators -/

/-- The commas and the parentheses, each with the kind of the token that it is. -/
inductive Separator : Char → Kind → Prop
  | comma : Separator ',' .comma
  | opening : Separator '(' .opening
  | closing : Separator ')' .closing

section Separator

variable {c : Char} {kind : Kind} (h : Separator c kind)

include h

theorem Separator.symbol? (due : Bool) : Token.symbol? due c = some kind := by
  cases h <;> rfl

/-- No name goes on into a separator, nor a number, nor its exponent. -/
theorem Separator.ends :
    isNameRest c = false ∧ isMantissa c = false ∧ c.isDigit = false ∧ ¬ (c = 'e' ∨ c = 'E') ∧
      ¬ (c = '+' ∨ c = '-') := by
  cases h <;> decide

omit h in
/-- A row of characters of a class ends before a character outside of the class. -/
theorem takeWhile_append_cons {p : Char → Bool} (hc : p c = false) (text rest : List Char) :
    (text ++ c :: rest).takeWhile p = text.takeWhile p := by
  induction text with
  | nil => simp [hc]
  | cons d text ih => simp only [List.cons_append, List.takeWhile_cons, ih]

theorem exponentLength_append (text rest : List Char) :
    exponentLength (text ++ c :: rest) = exponentLength text := by
  obtain ⟨-, -, hdigit, hmark, hsign⟩ := h.ends
  rcases text with _ | ⟨mark, _ | ⟨sign, text⟩⟩
  · simp [exponentLength, hmark]
  · simp [exponentLength, hsign, hdigit]
  · have hdrop : ∀ length ≤ 1, ((sign :: text ++ c :: rest).drop length).takeWhile Char.isDigit =
        ((sign :: text).drop length).takeWhile Char.isDigit := by
      intro length hlength
      rw [List.drop_append_of_le_length (hlength.trans (by simp)), takeWhile_append_cons hdigit]
    have hlength : (if sign = '+' ∨ sign = '-' then 1 else 0) ≤ 1 := by split <;> simp
    simp only [exponentLength, List.cons_append] at hdrop ⊢
    rw [hdrop _ hlength]

theorem numberRest_append (text rest : List Char) :
    numberRest (text ++ c :: rest) = numberRest text := by
  simp only [numberRest, takeWhile_append_cons h.ends.2.1]
  rw [List.drop_append_of_le_length (List.takeWhile_prefix _).length_le, exponentLength_append h]

/-- A token ends before a separator. -/
theorem lexeme?_append (due : Bool) (d : Char) (text rest : List Char) :
    lexeme? due d (text ++ c :: rest) = lexeme? due d text := by
  simp only [lexeme?, takeWhile_append_cons h.ends.1, numberRest_append h]

omit h

theorem exponentLength_le (text : List Char) : exponentLength text ≤ text.length := by
  by_cases hzero : exponentLength text = 0
  · rw [hzero]
    exact Nat.zero_le _
  · exact (isExponent_take hzero).2.1

/-- A token ends in its text. -/
theorem le_length_of_lexeme? {due : Bool} {d : Char} {text : List Char} {kind : Kind} {more : Nat}
    (hlexeme : lexeme? due d text = .ok (kind, more)) : more ≤ text.length := by
  have hwhile : ∀ p : Char → Bool, (text.takeWhile p).length ≤ text.length :=
    fun p => (List.takeWhile_prefix p).length_le
  cases kind with
  | name =>
    obtain ⟨-, rfl⟩ := lexeme?_eq_name hlexeme
    exact hwhile _
  | number =>
    obtain ⟨-, rfl⟩ := lexeme?_eq_number hlexeme
    have hexponent := exponentLength_le (text.drop (text.takeWhile isMantissa).length)
    have hmantissa := hwhile isMantissa
    rw [List.length_drop] at hexponent
    rw [numberRest]
    omega
  | operator | comma | opening | closing =>
    rw [(lexeme?_eq_symbol hlexeme (by simp) (by simp)).2]
    exact Nat.zero_le _

/-- **The scan of a text does not depend on what follows from a separator on**, and what follows is
scanned as behind any other token. -/
theorem scanFrom_append (h : Separator c kind) (rest : List Char) (other : Option Kind)
    {previous : Option Kind} {start : Nat} {text : List Char} :
    (scanFrom previous start text).stop = none →
      scanFrom previous start (text ++ c :: rest) =
        ⟨(scanFrom previous start text).tokens ++
            (scanFrom other (start + Text.bytes text) (c :: rest)).tokens,
          (scanFrom other (start + Text.bytes text) (c :: rest)).stop⟩ := by
  fun_induction scanFrom previous start text with
  | case1 previous start =>
    intro _
    rw [scanFrom_cons_symbol (h.symbol? (operandDue other))]
    exact scanFrom_cons_symbol (h.symbol? _) start rest
  | case2 previous start d text hblank ih =>
    intro hstop
    have hbytes : start + d.utf8Size + Text.bytes text = start + Text.bytes (d :: text) :=
      Nat.add_assoc _ _ _
    rw [List.cons_append, scanFrom, if_pos hblank, ih hstop, hbytes]
  | case3 previous start d text hblank obstacle hlexeme =>
    intro hstop
    cases hstop
  | case4 previous start d text hblank first more hlexeme excerpt next =>
    rename_i ih
    intro hstop
    have hmore : more ≤ text.length := le_length_of_lexeme? hlexeme
    have hbytes : start + excerpt.size + Text.bytes (text.drop more) =
        start + Text.bytes (d :: text) := by
      have hsize : excerpt.size = Text.bytes (d :: text.take more) := Text.utf8ByteSize_ofList _
      rw [hsize, Nat.add_assoc, ← Text.bytes_append, List.cons_append, List.take_append_drop]
    have hnext := ih hstop
    rw [hbytes] at hnext
    rw [List.cons_append, scanFrom, if_neg hblank, lexeme?_append h, hlexeme]
    simp only [List.take_append_of_le_length hmore, List.drop_append_of_le_length hmore]
    change Scan.mk (_ :: (scanFrom (some first) (start + excerpt.size) _).tokens)
      (scanFrom (some first) (start + excerpt.size) _).stop = _
    rw [hnext]
    rfl

end Separator

/-! ## Texts that are made of others -/

/-- The tokens of a text in parentheses behind `start` bytes. -/
def enclosed (start : Nat) (source : String) : List Token :=
  ⟨.opening, ⟨start, "("⟩⟩ :: ((scan source).tokens.map (shift (start + 1)) ++
    [⟨.closing, ⟨start + 1 + source.utf8ByteSize, ")"⟩⟩])

section Composed

variable {a b : String}

/-- **The scan of a text in parentheses**, whatever stands before and behind it. -/
theorem scanFrom_enclosed (ha : (scan a).stop = none) (previous : Option Kind) (start : Nat)
    (rest : List Char) :
    scanFrom previous start ('(' :: (a.toList ++ ')' :: rest)) =
      ⟨enclosed start a ++
          (scanFrom (some .closing) (start + 1 + a.utf8ByteSize + 1) rest).tokens,
        (scanFrom (some .closing) (start + 1 + a.utf8ByteSize + 1) rest).stop⟩ := by
  have hshift : scanFrom (some .opening) (start + 1) a.toList = (scan a).shift (start + 1) :=
    @scanFrom_shift (start + 1) none 0 a.toList _ rfl
  have hopened : (scanFrom (some .opening) (start + 1) a.toList).stop = none := by
    rw [hshift, Scan.shift, ha]
    rfl
  rw [scanFrom_cons_symbol (Separator.opening.symbol? _),
    scanFrom_append .closing rest none hopened, scanFrom_cons_symbol (Separator.closing.symbol? _),
    hshift, ← Text.utf8ByteSize_ofList, String.ofList_toList, enclosed, List.cons_append,
    List.append_assoc]
  rfl

/-- The scan of a text that ends with a text in parentheses. -/
theorem scanFrom_enclosed_nil (ha : (scan a).stop = none) (previous : Option Kind) (start : Nat) :
    scanFrom previous start ('(' :: (a.toList ++ [')'])) = ⟨enclosed start a, none⟩ := by
  rw [scanFrom_enclosed ha]
  simp [scanFrom]

/-- The scan of a text in parentheses and nothing else. -/
theorem scan_group (ha : (scan a).stop = none) :
    scan ("(" ++ a ++ ")") = ⟨enclosed 0 a, none⟩ := by
  have htext : ("(" ++ a ++ ")").toList = '(' :: (a.toList ++ [')']) := by simp
  rw [scan, htext, scanFrom_enclosed_nil ha]

/-- The scan of a name before a text in parentheses. -/
theorem scan_call {name : String} (hname : isName name) (ha : (scan a).stop = none) :
    scan (name ++ "(" ++ a ++ ")") =
      ⟨⟨.name, .all name⟩ :: enclosed name.utf8ByteSize a, none⟩ := by
  have htext : (name ++ "(" ++ a ++ ")").toList = name.toList ++ '(' :: (a.toList ++ [')']) := by
    simp
  have hscan : scanFrom none 0 name.toList = ⟨[⟨.name, .all name⟩], none⟩ := scan_name hname
  rw [scan, htext, scanFrom_append .opening _ (some .name) (by rw [hscan]), hscan, Nat.zero_add,
    ← Text.utf8ByteSize_ofList, String.ofList_toList, scanFrom_enclosed_nil ha]
  rfl

/-- The scan of a sign before a text in parentheses. -/
theorem scan_sign {op : Operator} (hop : op.standsBefore) (ha : (scan a).stop = none) :
    scan (String.singleton op.symbol ++ "(" ++ a ++ ")") =
      ⟨⟨.operator op, .all (String.singleton op.symbol)⟩ :: enclosed 1 a, none⟩ := by
  have htext : (String.singleton op.symbol ++ "(" ++ a ++ ")").toList =
      op.symbol :: '(' :: (a.toList ++ [')']) := by simp
  have hsymbol : symbol? (operandDue none) op.symbol = some (.operator op) := by
    cases op <;> first | rfl | cases hop
  rw [scan, htext, scanFrom_cons_symbol hsymbol, scanFrom_enclosed_nil ha]
  rfl

/-- The scan of an operator between two texts in parentheses. -/
theorem scan_operator {op : Operator} (hop : op.standsBefore = false) (ha : (scan a).stop = none)
    (hb : (scan b).stop = none) :
    scan ("(" ++ a ++ ")" ++ String.singleton op.symbol ++ "(" ++ b ++ ")") =
      ⟨enclosed 0 a ++ ⟨.operator op, ⟨a.utf8ByteSize + 2, String.singleton op.symbol⟩⟩ ::
        enclosed (a.utf8ByteSize + 3) b, none⟩ := by
  have htext : ("(" ++ a ++ ")" ++ String.singleton op.symbol ++ "(" ++ b ++ ")").toList =
      '(' :: (a.toList ++ ')' :: op.symbol :: '(' :: (b.toList ++ [')'])) := by simp
  have hsymbol : symbol? (operandDue (some .closing)) op.symbol = some (.operator op) := by
    cases op <;> first | rfl | cases hop
  have hplace : 0 + 1 + a.utf8ByteSize + 1 = a.utf8ByteSize + 2 := by omega
  rw [scan, htext, scanFrom_enclosed ha, scanFrom_cons_symbol hsymbol, scanFrom_enclosed_nil hb,
    hplace]

/-- The scan of two texts with a comma between them. -/
theorem scan_comma (ha : (scan a).stop = none) (hb : (scan b).stop = none) :
    scan (a ++ "," ++ b) =
      ⟨(scan a).tokens ++ ⟨.comma, ⟨a.utf8ByteSize, ","⟩⟩ ::
        (scan b).tokens.map (shift (a.utf8ByteSize + 1)), none⟩ := by
  have htext : (a ++ "," ++ b).toList = a.toList ++ ',' :: b.toList := by simp
  have hshift : scanFrom (some .comma) (a.utf8ByteSize + 1) b.toList =
      (scan b).shift (a.utf8ByteSize + 1) :=
    @scanFrom_shift (a.utf8ByteSize + 1) none 0 b.toList _ rfl
  rw [scan, htext, scanFrom_append .comma b.toList none ha,
    scanFrom_cons_symbol (Separator.comma.symbol? _), Nat.zero_add, ← Text.utf8ByteSize_ofList,
    String.ofList_toList, hshift, Scan.shift, hb]
  rfl

end Composed

end Token

end Grapher
