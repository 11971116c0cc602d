import Grapher.Proofs.Shifts

set_option relaxedAutoImplicit false
set_option autoImplicit false

/-!
# Scanning token by token

The tokens of a text can be asked for one at a time. A lexer stands in the text at a byte, behind a
token of some kind. When it is asked it passes the blanks, gives the token that starts there and
moves behind it. It counts the bytes of the token on its own, character by character, while its
cursor moves through the text; an exponent is looked for with a second cursor, and the lexer follows
it only if there is one, counting one byte for each of its characters. At an obstacle the lexer
stops for ever.

## Main definitions

* `Span`, `Cursor` — a place in a text without the text, and where a lexer stands.
* `Cursor.pass`, `Cursor.exponent?`, `Cursor.token` — the moves of a cursor.
* `Lexer`, `Lexer.next`, `Lexer.answer` — a lexer, what it gives when it is asked, and what it gives
  when it has been asked a number of times before.
* `Token.Scan.items` — the tokens of a scan and then its obstacle.

## Main results

* `Cursor.token_eq` — a lexer gives the token that the scan finds.
* `Lexer.next_pending` — the next answer is the next item of the scan, and the others are left.
* `Lexer.answer_start` — a lexer gives the items of the scan, then nothing for ever.
-/

namespace Grapher

open Token (Kind Obstacle Reserved exponentLength isMantissa isNameRest isNameStart lexeme?
  numberRest operandDue scan scanFrom symbol?)

/-- A place in a text: the byte at which it starts, and the number of its bytes. -/
structure Span where
  /-- The byte at which the place starts. -/
  start : Nat
  /-- The number of bytes. -/
  size : Nat
deriving DecidableEq, Repr

/-- The place of an excerpt. -/
def Excerpt.span (e : Excerpt) : Span :=
  ⟨e.start, e.size⟩

/-! ## Cursors -/

/-- A cursor in a text. -/
structure Cursor where
  /-- The byte at which the cursor stands. -/
  offset : Nat
  /-- The characters from there on. -/
  rest : List Char

namespace Cursor

/-- The cursor behind the next character. -/
def advance (cursor : Cursor) : Cursor :=
  match cursor.rest with
  | [] => cursor
  | c :: rest => ⟨cursor.offset + c.utf8Size, rest⟩

/-- Passes the next characters of a class, of which each adds its weight to a sum. -/
def passFrom (p : Char → Bool) (weight : Char → Nat) (sum offset : Nat) :
    List Char → Nat × Cursor
  | [] => (sum, ⟨offset, []⟩)
  | c :: rest =>
    if p c then passFrom p weight (sum + weight c) (offset + c.utf8Size) rest
    else (sum, ⟨offset, c :: rest⟩)

/-- The sum of the weights of the next characters of a class, added to `sum`, and the cursor behind
these characters. -/
def pass (p : Char → Bool) (weight : Char → Nat) (sum : Nat) (cursor : Cursor) : Nat × Cursor :=
  passFrom p weight sum cursor.offset cursor.rest

/-- Behind the mark of an exponent: the number of characters of the mark and the sign, and the
cursor behind the sign, if there is one. -/
def sign (cursor : Cursor) : Nat × Cursor :=
  match cursor.rest with
  | c :: _ => if c = '+' ∨ c = '-' then (2, cursor.advance) else (1, cursor)
  | [] => (1, cursor)

/-- Behind a number of characters of an exponent: the number of characters with the digits that
follow, and the cursor behind them. There is no exponent without a digit. -/
def digits? (length : Nat) (cursor : Cursor) : Option (Nat × Cursor) :=
  match cursor.rest with
  | [] => none
  | c :: _ => if c.isDigit then some (cursor.pass Char.isDigit (fun _ => 1) length) else none

/-- The number of characters of the exponent at a cursor and the cursor behind it, if there is an
exponent. -/
def exponent? (cursor : Cursor) : Option (Nat × Cursor) :=
  match cursor.rest with
  | [] => none
  | mark :: _ =>
    if mark = 'e' ∨ mark = 'E' then
      let (length, ahead) := cursor.advance.sign
      ahead.digits? length
    else none

/-- The number that starts at a cursor with the character `c`: the number of its bytes, and the
cursor behind it. -/
def number (c : Char) (cursor : Cursor) : Nat × Cursor :=
  let (size, behind) := cursor.advance.pass isMantissa Char.utf8Size c.utf8Size
  match behind.exponent? with
  | some (length, behind) => (size + length, behind)
  | none => (size, behind)

/-- The token that starts at a cursor with the character `c`: its kind, the number of its bytes, and
the cursor behind it. -/
def token (due : Bool) (c : Char) (cursor : Cursor) : Except Obstacle (Kind × Nat × Cursor) :=
  match symbol? due c with
  | some kind => .ok (kind, c.utf8Size, cursor.advance)
  | none =>
    match Reserved.ofChar? c with
    | some symbol => .error (.reserved symbol)
    | none =>
      if isNameStart c then
        .ok (.name, cursor.advance.pass isNameRest Char.utf8Size c.utf8Size)
      else if isMantissa c then .ok (.number, cursor.number c)
      else .error .stray

/-! ### Moves -/

variable {offset : Nat} {c : Char} {rest : List Char}

/-- The next characters of a class are those at the start of the text. -/
theorem pass_eq (p : Char → Bool) (weight : Char → Nat) (sum offset : Nat) (text : List Char) :
    pass p weight sum ⟨offset, text⟩ =
      (sum + ((text.takeWhile p).map weight).sum,
        ⟨offset + Text.bytes (text.takeWhile p), text.drop (text.takeWhile p).length⟩) := by
  unfold pass
  induction text generalizing sum offset with
  | nil => rfl
  | cons c rest ih =>
    rw [passFrom]
    by_cases hc : p c
    · rw [if_pos hc, ih]
      simp [hc, Text.bytes, Nat.add_assoc]
    · rw [if_neg hc]
      simp [hc, Text.bytes]

/-- The digits of an exponent are all that follow. -/
theorem digits?_eq (length offset : Nat) (text : List Char) :
    digits? length ⟨offset, text⟩ =
      if text.takeWhile Char.isDigit = [] then none
      else some (length + (text.takeWhile Char.isDigit).length,
        ⟨offset + (text.takeWhile Char.isDigit).length,
          text.drop (text.takeWhile Char.isDigit).length⟩) := by
  have hbytes : Text.bytes (text.takeWhile Char.isDigit) = (text.takeWhile Char.isDigit).length :=
    Text.bytes_eq_length fun c hc => Token.utf8Size_of_isDigit (List.mem_takeWhile_imp hc)
  cases text with
  | nil => rfl
  | cons c rest =>
    by_cases hc : c.isDigit
    · have hne : (c :: rest).takeWhile Char.isDigit ≠ [] := by simp [hc]
      simp only [digits?, if_pos hc, if_neg hne, pass_eq, hbytes, List.map_const',
        List.sum_replicate_nat, Nat.mul_one]
    · simp [digits?, hc]

/-- The digits behind the mark and the sign of an exponent are those of the exponent. -/
theorem digits?_of_exponentLength {length offset : Nat} {text : List Char}
    (h : exponentLength text =
      if (text.drop length).takeWhile Char.isDigit = [] then 0
      else length + ((text.drop length).takeWhile Char.isDigit).length) (hpos : 0 < length) :
    digits? length ⟨offset + length, text.drop length⟩ =
      if exponentLength text = 0 then none
      else some (exponentLength text,
        ⟨offset + exponentLength text, text.drop (exponentLength text)⟩) := by
  rw [digits?_eq, h]
  by_cases hnil : (text.drop length).takeWhile Char.isDigit = []
  · simp only [if_pos hnil, if_true]
  · have hne : length + ((text.drop length).takeWhile Char.isDigit).length ≠ 0 := by omega
    simp only [if_neg hnil, if_neg hne, List.drop_drop, Nat.add_assoc]

/-- **The exponent that is looked for** is that of the number. -/
theorem exponent?_eq (offset : Nat) (text : List Char) :
    exponent? ⟨offset, text⟩ =
      if exponentLength text = 0 then none
      else some (exponentLength text,
        ⟨offset + exponentLength text, text.drop (exponentLength text)⟩) := by
  rcases text with _ | ⟨mark, tail⟩
  · rfl
  by_cases hmark : mark = 'e' ∨ mark = 'E'
  · have hone : mark.utf8Size = 1 := by rcases hmark with rfl | rfl <;> rfl
    rcases tail with _ | ⟨c, tail⟩
    · simp [exponent?, exponentLength, sign, advance, digits?, hmark]
    by_cases hc : c = '+' ∨ c = '-'
    · have hsize : c.utf8Size = 1 := by rcases hc with rfl | rfl <;> rfl
      have hexponent : exponent? ⟨offset, mark :: c :: tail⟩ = digits? 2 ⟨offset + 2, tail⟩ := by
        simp only [exponent?, if_pos hmark, advance, sign, if_pos hc, hone, hsize]
      have hlength : exponentLength (mark :: c :: tail) =
          if tail.takeWhile Char.isDigit = [] then 0
          else 2 + (tail.takeWhile Char.isDigit).length := by
        simp [exponentLength, hmark, hc]
      rw [hexponent]
      exact digits?_of_exponentLength hlength Nat.two_pos
    · have hexponent : exponent? ⟨offset, mark :: c :: tail⟩ =
          digits? 1 ⟨offset + 1, c :: tail⟩ := by
        simp only [exponent?, if_pos hmark, advance, sign, if_neg hc, hone]
      have hlength : exponentLength (mark :: c :: tail) =
          if (c :: tail).takeWhile Char.isDigit = [] then 0
          else 1 + ((c :: tail).takeWhile Char.isDigit).length := by
        simp [exponentLength, hmark, hc]
      rw [hexponent]
      exact digits?_of_exponentLength hlength Nat.one_pos
  · simp [exponent?, exponentLength, hmark]

/-- **A number is passed to its end**, with its exponent, if there is one. -/
theorem number_eq (offset : Nat) (c : Char) (rest : List Char) :
    number c ⟨offset, c :: rest⟩ =
      (Text.bytes (c :: rest.take (numberRest rest)),
        ⟨offset + Text.bytes (c :: rest.take (numberRest rest)), rest.drop (numberRest rest)⟩) := by
  set mantissa := rest.takeWhile isMantissa
  set length := exponentLength (rest.drop mantissa.length) with hlength
  have hsize : Text.bytes (c :: rest.take (numberRest rest)) =
      c.utf8Size + Text.bytes mantissa + length := by
    rw [Token.take_numberRest, ← List.cons_append, Text.bytes_append, hlength,
      Token.bytes_exponent]
    rfl
  have hpass : (advance ⟨offset, c :: rest⟩).pass isMantissa Char.utf8Size c.utf8Size =
      (c.utf8Size + Text.bytes mantissa,
        ⟨offset + c.utf8Size + Text.bytes mantissa, rest.drop mantissa.length⟩) := pass_eq ..
  have hdrop : rest.drop (numberRest rest) = (rest.drop mantissa.length).drop length :=
    List.drop_drop.symm
  rw [hsize, hdrop]
  simp only [number, hpass, exponent?_eq, ← hlength]
  by_cases hzero : length = 0
  · simp only [hzero, if_true, List.drop_zero, Nat.add_zero, Nat.add_assoc]
  · simp only [if_neg hzero, Nat.add_assoc]

/-- **A cursor gives the token that the scan finds**, with its bytes, and moves behind it. -/
theorem token_eq (due : Bool) (offset : Nat) (c : Char) (rest : List Char) :
    token due c ⟨offset, c :: rest⟩ =
      (lexeme? due c rest).map fun lexeme =>
        (lexeme.1, Text.bytes (c :: rest.take lexeme.2),
          ⟨offset + Text.bytes (c :: rest.take lexeme.2), rest.drop lexeme.2⟩) := by
  have hone : Text.bytes [c] = c.utf8Size := Nat.add_zero _
  have hcons : ∀ text, Text.bytes (c :: text) = c.utf8Size + Text.bytes text := fun _ => rfl
  unfold token lexeme?
  cases symbol? due c with
  | some kind =>
    simp only [Except.map, List.take_zero, List.drop_zero, hone]
    rfl
  | none =>
    cases Reserved.ofChar? c with
    | some symbol => rfl
    | none =>
      by_cases hname : isNameStart c
      · simp only [if_pos hname, Except.map, Text.take_takeWhile, hcons, ← Nat.add_assoc]
        exact congrArg (fun behind => Except.ok (Kind.name, behind)) (pass_eq ..)
      by_cases hmantissa : isMantissa c
      · simp only [if_neg hname, if_pos hmantissa, Except.map, number_eq]
      · simp only [if_neg hname, if_neg hmantissa, Except.map]

end Cursor

/-! ## Lexers -/

/-- A lexer in a text. -/
structure Lexer where
  /-- Where the lexer stands. -/
  cursor : Cursor
  /-- The kind of the last token. -/
  previous : Option Kind
  /-- Whether the lexer has stopped at an obstacle. -/
  stopped : Bool

/-- What a lexer gives: a token of some kind, or an obstacle, with its place. -/
abbrev Lexer.Item := Except (Obstacle × Span) (Kind × Span)

/-- The tokens of a scan and then its obstacle, if there is one. -/
def Token.Scan.items (scan : Scan) : List Lexer.Item :=
  scan.tokens.map (fun token => .ok (token.kind, token.excerpt.span)) ++
    scan.stop.toList.map fun stop => .error (stop.1, stop.2.span)

namespace Lexer

/-- A lexer at the start of a text. -/
def start (source : String) : Lexer :=
  ⟨⟨0, source.toList⟩, none, false⟩

/-- The item at which a lexer stands, if it is not at the end of its text, and the lexer behind
it. -/
def give (lexer : Lexer) : Option Item × Lexer :=
  match lexer.cursor.rest with
  | [] => (none, lexer)
  | c :: _ =>
    match lexer.cursor.token (operandDue lexer.previous) c with
    | .error obstacle =>
      (some (.error (obstacle, ⟨lexer.cursor.offset, c.utf8Size⟩)), { lexer with stopped := true })
    | .ok (kind, size, behind) =>
      (some (.ok (kind, ⟨lexer.cursor.offset, size⟩)), ⟨behind, some kind, false⟩)

/-- The lexer behind the next blanks. -/
def skip (lexer : Lexer) : Lexer :=
  { lexer with cursor := (lexer.cursor.pass Text.isBlank Char.utf8Size 0).2 }

/-- The next item, if there is one, and the lexer behind it. -/
def next (lexer : Lexer) : Option Item × Lexer :=
  if lexer.stopped then (none, lexer) else lexer.skip.give

/-- What a lexer gives when it has been asked `asked` times before. -/
def answer (lexer : Lexer) (asked : Nat) : Option Item :=
  ((fun lexer => lexer.next.2)^[asked] lexer).next.1

/-- What is left of the scan of a lexer. -/
def pending (lexer : Lexer) : Token.Scan :=
  if lexer.stopped then ⟨[], none⟩
  else scanFrom lexer.previous lexer.cursor.offset lexer.cursor.rest

/-- The blanks before a token are passed. -/
theorem scanFrom_pass (previous : Option Kind) (offset : Nat) (text : List Char) :
    scanFrom previous (offset + Text.bytes (text.takeWhile Text.isBlank))
        (text.drop (text.takeWhile Text.isBlank).length) =
      scanFrom previous offset text := by
  induction text generalizing offset with
  | nil => rfl
  | cons c rest ih =>
    by_cases hc : Text.isBlank c
    · rw [List.takeWhile_cons_of_pos hc, List.length_cons, List.drop_succ_cons, scanFrom,
        if_pos hc, ← ih, Nat.add_assoc]
      rfl
    · rw [List.takeWhile_cons_of_neg hc]
      rfl

/-- Blanks are left out of a scan. -/
theorem pending_skip (lexer : Lexer) : lexer.skip.pending = lexer.pending := by
  obtain ⟨⟨offset, text⟩, previous, stopped⟩ := lexer
  simp only [pending, skip, Cursor.pass_eq, scanFrom_pass]

/-- A lexer that has passed the blanks stands at none. -/
theorem isBlank_of_skip {lexer : Lexer} {c : Char} {rest : List Char}
    (h : lexer.skip.cursor.rest = c :: rest) : Text.isBlank c = false := by
  obtain ⟨⟨offset, text⟩, previous, stopped⟩ := lexer
  have hdrop : text.dropWhile Text.isBlank = c :: rest := by
    rw [← Text.drop_takeWhile, ← h, skip, Cursor.pass_eq]
  have hne : text.dropWhile Text.isBlank ≠ [] := by simp [hdrop]
  have hhead := List.head_dropWhile_not Text.isBlank hne
  simp only [hdrop] at hhead
  exact hhead

/-- **The item at which a lexer stands** is the next item of the scan. -/
theorem give_pending {lexer : Lexer} (hstopped : lexer.stopped = false)
    (hblank : ∀ c ∈ lexer.cursor.rest.head?, Text.isBlank c = false) :
    lexer.give.1 = lexer.pending.items.head? ∧
      lexer.give.2.pending.items = lexer.pending.items.tail := by
  obtain ⟨⟨offset, text⟩, previous, stopped⟩ := lexer
  obtain rfl : stopped = false := hstopped
  cases text with
  | nil => simp [give, pending, scanFrom, Token.Scan.items]
  | cons c rest =>
    have hc : Text.isBlank c = false := hblank c rfl
    have hpending : pending ⟨⟨offset, c :: rest⟩, previous, false⟩ =
        scanFrom previous offset (c :: rest) := rfl
    rw [hpending, scanFrom, if_neg (by simp [hc])]
    simp only [give, Cursor.token_eq]
    cases hlexeme : lexeme? (operandDue previous) c rest with
    | error obstacle =>
      simp [Except.map, Token.Scan.items, pending, Excerpt.span, Excerpt.size]
    | ok lexeme =>
      obtain ⟨kind, more⟩ := lexeme
      have hsize : (Excerpt.mk offset (String.ofList (c :: rest.take more))).size =
          Text.bytes (c :: rest.take more) := Text.utf8ByteSize_ofList _
      have hspan : (Excerpt.mk offset (String.ofList (c :: rest.take more))).span =
          ⟨offset, Text.bytes (c :: rest.take more)⟩ := by rw [Excerpt.span, hsize]
      simp only [Except.map, Token.Scan.items, List.map_cons, List.cons_append, hspan, hsize]
      exact ⟨rfl, rfl⟩

/-- **The next answer is the next item of the scan**, and the others are left. -/
theorem next_pending (lexer : Lexer) :
    lexer.next.1 = lexer.pending.items.head? ∧
      lexer.next.2.pending.items = lexer.pending.items.tail := by
  unfold next
  cases hstopped : lexer.stopped with
  | true =>
    have hpending : lexer.pending = ⟨[], none⟩ := if_pos hstopped
    rw [if_pos rfl, hpending]
    exact ⟨rfl, rfl⟩
  | false =>
    rw [if_neg Bool.false_ne_true, ← pending_skip]
    refine give_pending hstopped fun c hc => ?_
    obtain ⟨rest, hrest⟩ := List.head?_eq_some_iff.1 hc
    exact isBlank_of_skip hrest

/-- A lexer gives the items that are left of its scan, then nothing for ever. -/
theorem answer_pending (asked : Nat) :
    ∀ lexer : Lexer, lexer.answer asked = lexer.pending.items[asked]? := by
  induction asked with
  | zero =>
    intro lexer
    rw [answer, Function.iterate_zero_apply, (next_pending lexer).1, List.head?_eq_getElem?]
  | succ asked ih =>
    intro lexer
    have hnext : lexer.answer (asked + 1) = lexer.next.2.answer asked := by
      rw [answer, Function.iterate_succ_apply]
      rfl
    rw [hnext, ih, (next_pending lexer).2, List.getElem?_tail]

/-- **A lexer gives the items of the scan**, then nothing for ever. -/
theorem answer_start (source : String) (asked : Nat) :
    (start source).answer asked = (scan source).items[asked]? :=
  answer_pending asked (start source)

end Lexer

end Grapher
