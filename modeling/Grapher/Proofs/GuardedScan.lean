import Grapher.Proofs.Places

set_option relaxedAutoImplicit false
set_option autoImplicit false

/-!
# Scanning with guards

A partial operation that is used outside its domain is a lapse. This module says what it means that
a computation does not lapse, and scans a source with the first of these operations: a token is
known only by the byte at which it starts and the number of its bytes, counted character by
character, and its text is cut out of the source at this place. A name and the mantissa of a number
are counted by the lengths of their characters, an exponent by one for each character. Nothing
lapses, because all characters of an exponent have one byte.

## Main definitions

* `Lapse` — the uses of a partial operation outside its domain.
* `Guarded`, `Guarded.Gives` — computations that may lapse, and what they give when they do not.
* `Text.cut`, `Excerpt.cut` — the text at a place of a source, which must be in it.
* `Guarded.scan` — the scan of a source, with guards.

## Main results

* `Token.bytes_eq_measure` — a token has as many bytes as the scan counts.
* `Guarded.scan_eq` — a scan does not lapse.
-/

namespace Grapher

/-! ## Lapses -/

/-- A use of a partial operation outside its domain. -/
inductive Lapse
  | openParenthesis (place : Excerpt)
  | outside (start size : Nat)
  | underflow
  | split
  | argumentCount

/-- A computation that ends in a lapse, or else in a result or an error of its own. -/
abbrev Guarded (ε : Type) := ExceptT ε (Except Lapse)

namespace Guarded

variable {ε α β : Type}

/-- A guarded computation gives a result or an error of its own, without a lapse. -/
def Gives (x : Guarded ε α) (result : Except ε α) : Prop :=
  x.run = .ok result

/-- A partial operation that is used within its domain. -/
theorem gives_lift {x : Except Lapse α} {a : α} (h : x = .ok a) :
    Gives (liftM x : Guarded ε α) (.ok a) := by
  subst h
  rfl

/-- Two computations, one after the other. -/
theorem Gives.bind {x : Guarded ε α} {result : Except ε α} {f : α → Guarded ε β}
    {g : α → Except ε β} (hx : x.Gives result) (hf : ∀ a, result = .ok a → (f a).Gives (g a)) :
    (x >>= f).Gives (result >>= g) := by
  have hrun : x.run = .ok result := hx
  rw [Gives, ExceptT.run_bind, hrun]
  cases result with
  | error e => rfl
  | ok a => exact hf a rfl

/-- A computation behind a result. -/
theorem Gives.bind_ok {x : Guarded ε α} {a : α} {f : α → Guarded ε β} {result : Except ε β}
    (hx : x.Gives (.ok a)) (hf : (f a).Gives result) : (x >>= f).Gives result :=
  hx.bind (g := fun _ => result) fun _ h => Except.ok.inj h ▸ hf

/-- Nothing comes behind an error. -/
theorem Gives.bind_error {x : Guarded ε α} {e : ε} {f : α → Guarded ε β}
    (hx : x.Gives (.error e)) : (x >>= f).Gives (.error e) :=
  hx.bind (g := fun _ => .error e) fun _ h => nomatch h

end Guarded

/-! ## Cutting -/

/-- The text of `size` bytes behind the first `start` bytes of a source. -/
def Text.cut (source : String) (start size : Nat) : Except Lapse String :=
  match slice? source start size with
  | some text => .ok text
  | none => .error (.outside start size)

/-- The text at the place of an excerpt in a source. -/
def Excerpt.cut (source : String) (place : Excerpt) : Except Lapse String :=
  Text.cut source place.start place.size

/-- At the place of an excerpt stands its text. -/
theorem Excerpt.In.cut {source : String} {place : Excerpt} (h : place.In source) :
    place.cut source = .ok place.text := by
  rw [Excerpt.cut, Text.cut, slice?_eq_some_iff.2 h]

/-! ## Counting bytes -/

namespace Text

/-- The number of bytes of a row of characters. -/
def bytes (text : List Char) : Nat :=
  (text.map Char.utf8Size).sum

theorem utf8ByteSize_ofList (text : List Char) :
    (String.ofList text).utf8ByteSize = bytes text := by
  induction text with
  | nil => rfl
  | cons c rest ih =>
    rw [String.ofList_cons, String.utf8ByteSize_append, String.utf8ByteSize_singleton, ih]
    rfl

theorem bytes_append (text others : List Char) :
    bytes (text ++ others) = bytes text + bytes others := by
  simp [bytes]

/-- A row of characters of one byte each has as many bytes as characters. -/
theorem bytes_eq_length {text : List Char} (h : ∀ c ∈ text, c.utf8Size = 1) :
    bytes text = text.length := by
  induction text with
  | nil => rfl
  | cons c rest ih =>
    have hrest := ih fun d hd => h d (by simp [hd])
    rw [bytes, List.map_cons, List.sum_cons, h c (by simp), List.length_cons, ← hrest, bytes,
      Nat.add_comm]

end Text

namespace Token

/-- The number of bytes of a token of the given kind that starts at the character `c`. -/
def measure (kind : Kind) (c : Char) (rest : List Char) : Nat :=
  match kind with
  | .name => c.utf8Size + Text.bytes (rest.takeWhile isNameRest)
  | .number =>
    let mantissa := rest.takeWhile isMantissa
    c.utf8Size + Text.bytes mantissa + exponentLength (rest.drop mantissa.length)
  | .operator _ | .comma | .opening | .closing => c.utf8Size

/-- A digit has one byte. -/
theorem utf8Size_of_isDigit {c : Char} (h : c.isDigit) : c.utf8Size = 1 := by
  obtain ⟨-, hnine⟩ : '0'.val ≤ c.val ∧ c.val ≤ '9'.val := by simpa [Char.isDigit] using h
  exact Char.utf8Size_eq_one_iff.2 (UInt32.le_trans hnine (by decide))

/-- The characters of an exponent have one byte each. -/
theorem IsExponent.utf8Size {text : List Char} (h : IsExponent text) :
    ∀ c ∈ text, c.utf8Size = 1 := by
  obtain ⟨mark, hmark, sign, hsign, digits, -, hdigits, rfl⟩ := h
  have hmarks : ∀ c ∈ ['e', 'E'], c.utf8Size = 1 := by simp [Char.utf8Size]
  have hsigns : ∀ sign ∈ [[], ['+'], ['-']], ∀ c ∈ sign, c.utf8Size = 1 := by
    simp [Char.utf8Size]
  intro c hc
  rcases List.mem_cons.1 hc with rfl | hc
  · exact hmarks c hmark
  rcases List.mem_append.1 hc with hc | hc
  · exact hsigns sign hsign c hc
  · exact utf8Size_of_isDigit (hdigits c hc)

/-- An exponent has as many bytes as characters. -/
theorem bytes_exponent (rest : List Char) :
    Text.bytes (rest.take (exponentLength rest)) = exponentLength rest := by
  by_cases hzero : exponentLength rest = 0
  · rw [hzero]
    rfl
  · obtain ⟨hexponent, hle, -⟩ := isExponent_take hzero
    rw [Text.bytes_eq_length hexponent.utf8Size, List.length_take, Nat.min_eq_left hle]

/-- **A token has as many bytes as the scan counts.** -/
theorem bytes_eq_measure {due : Bool} {c : Char} {rest : List Char} {kind : Kind} {more : Nat}
    (h : lexeme? due c rest = .ok (kind, more)) :
    Text.bytes (c :: rest.take more) = measure kind c rest := by
  have hcons : ∀ text, Text.bytes (c :: text) = c.utf8Size + Text.bytes text := fun _ => rfl
  cases kind with
  | name =>
    obtain ⟨-, rfl⟩ := lexeme?_eq_name h
    rw [hcons, Text.take_takeWhile, measure]
  | number =>
    obtain ⟨-, rfl⟩ := lexeme?_eq_number h
    rw [hcons, take_numberRest, Text.bytes_append, bytes_exponent, measure, Nat.add_assoc]
  | operator | comma | opening | closing =>
    rw [(lexeme?_eq_symbol h (by simp) (by simp)).2]
    rfl

end Token

/-! ## The scan -/

namespace Guarded

/-- The tokens of the text of a source that follows `start` bytes and a token of kind `previous`.
The text of a token is cut out of the source. -/
def scanFrom (source : String) (previous : Option Token.Kind) (start : Nat) :
    List Char → Except Lapse Token.Scan
  | [] => return ⟨[], none⟩
  | c :: rest =>
    if Text.isBlank c then scanFrom source previous (start + c.utf8Size) rest
    else match Token.lexeme? (Token.operandDue previous) c rest with
      | .error obstacle => do
        let text ← Text.cut source start c.utf8Size
        return ⟨[], some (obstacle, ⟨start, text⟩)⟩
      | .ok (kind, more) => do
        let text ← Text.cut source start (Token.measure kind c rest)
        let next ← scanFrom source (some kind) (start + Text.bytes (c :: rest.take more))
          (rest.drop more)
        return ⟨⟨kind, ⟨start, text⟩⟩ :: next.tokens, next.stop⟩
termination_by text => text.length
decreasing_by all_goals simp only [List.length_cons, List.length_drop]; omega

/-- The tokens of a source. -/
def scan (source : String) : Except Lapse Token.Scan :=
  scanFrom source none 0 source.toList

/-- The text at the start of the rest of a source is cut out of the source. -/
theorem cut_append {source before : String} {text rest : List Char} {start : Nat}
    (hsource : source = before ++ String.ofList (text ++ rest))
    (hstart : before.utf8ByteSize = start) :
    Text.cut source start (Text.bytes text) = .ok (String.ofList text) := by
  rw [← Text.utf8ByteSize_ofList]
  exact (Token.in_append hsource hstart).cut

/-- The rest of a source is scanned without a lapse. -/
theorem scanFrom_eq {source : String} (previous : Option Token.Kind) (start : Nat)
    (text : List Char) :
    ∀ {before : String}, source = before ++ String.ofList text → before.utf8ByteSize = start →
      scanFrom source previous start text = .ok (Token.scanFrom previous start text) := by
  fun_induction Token.scanFrom previous start text with
  | case1 => simp [scanFrom, pure, Except.pure]
  | case2 previous start c rest hblank ih =>
    intro before hsource hstart
    rw [scanFrom, if_pos hblank]
    refine @ih (before ++ String.singleton c) ?_ ?_
    · rw [hsource, String.ofList_cons, String.append_assoc]
    · rw [String.utf8ByteSize_append, String.utf8ByteSize_singleton, hstart]
  | case3 previous start c rest hblank obstacle hlexeme =>
    intro before hsource hstart
    have hcut : Text.cut source start c.utf8Size = .ok (String.singleton c) := by
      have hsource : source = before ++ String.ofList ([c] ++ rest) := hsource
      have hbytes : Text.bytes [c] = c.utf8Size := by simp [Text.bytes]
      rw [String.singleton_eq_ofList, ← hbytes]
      exact cut_append hsource hstart
    rw [scanFrom, if_neg hblank, hlexeme]
    simp only [hcut]
    rfl
  | case4 previous start c rest hblank kind more hlexeme excerpt next =>
    rename_i ih
    intro before hsource hstart
    have hsplit : c :: rest = c :: rest.take more ++ rest.drop more := by
      rw [List.cons_append, List.take_append_drop]
    rw [hsplit] at hsource
    have hcut := cut_append hsource hstart
    rw [Token.bytes_eq_measure hlexeme] at hcut
    have hsize : excerpt.size = Text.bytes (c :: rest.take more) :=
      Text.utf8ByteSize_ofList (c :: rest.take more)
    have hnext : scanFrom source (some kind) (start + Text.bytes (c :: rest.take more))
        (rest.drop more) = .ok next := by
      rw [← hsize]
      refine @ih (before ++ excerpt.text) ?_ ?_
      · rw [hsource, String.ofList_append, String.append_assoc]
      · rw [String.utf8ByteSize_append, hstart, Excerpt.size]
    rw [scanFrom, if_neg hblank, hlexeme]
    simp only [hcut, hnext]
    rfl

/-- **A scan does not lapse.** -/
theorem scan_eq (source : String) : scan source = .ok (Token.scan source) := by
  have hsource : source = "" ++ String.ofList source.toList := by
    rw [String.ofList_toList, String.empty_append]
  exact scanFrom_eq none 0 source.toList hsource rfl

end Guarded

end Grapher
