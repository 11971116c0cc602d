import Grapher.Proofs.Accounts
import Grapher.Proofs.Cursor

set_option relaxedAutoImplicit false
set_option autoImplicit false

/-!
# How a scan divides its text

The places of the tokens of a text stand one behind the other with blanks between them. A name goes
on as far as it can, and so does a number; an exponent belongs to a number exactly if a digit stands
behind its mark and its sign. A plus or a minus is a sign at the start and behind an operator, a
comma or an opening parenthesis. The scan reaches the end of the text unless a character stands in
it that is no blank and starts no token, and the first of these is where it stops.

## Main definitions

* `Token.StartsToken`, `Token.SignDue` — which characters start a token, and where a sign is due.
* `Token.Reads` — the text of a token of some kind, by what follows it.
* `Token.Scan.Divides` — how the places of a scan lie in a text.

## Main results

* `Token.reads_of_lexeme?` — every token is as long as it can be.
* `Token.scan_divides` — a lexer gives the tokens of its text, then at most one obstacle, then
  nothing for ever; their places divide the text.
-/

namespace Grapher.Token

/-! ## Tokens and their texts -/

/-- The characters that are tokens of their own. -/
def symbols : List Char :=
  ['+', '-', '*', '/', '%', '^', ',', '(', ')']

/-- The characters that can start a token. -/
def StartsToken (c : Char) : Prop :=
  isNameStart c ∨ isMantissa c ∨ c ∈ symbols

/-- Behind a row of tokens a plus or a minus is a sign if the row is empty, or if its last token is
an operator, a comma or an opening parenthesis. -/
def SignDue (earlier : List Token) : Prop :=
  ∀ last ∈ earlier.getLast?,
    (∃ op, last.kind = .operator op) ∨ last.kind = .comma ∨ last.kind = .opening

/-- The text of a token of some kind before `after`, where `due` says that a sign is due. A name is
a longest row of letters, digits and underscores, and so is a number one of digits and points. The
number has an exponent if there is one, with all its digits. -/
inductive Reads (due : Prop) (after : List Char) : Kind → List Char → Prop
  | name {c : Char} {rest : List Char} (hstart : isNameStart c) (hrest : ∀ d ∈ rest, isNameRest d)
      (hend : ∀ d ∈ after.head?, ¬ isNameRest d) : Reads due after .name (c :: rest)
  | plain {mantissa : List Char} (hne : mantissa ≠ []) (hmantissa : ∀ d ∈ mantissa, isMantissa d)
      (hend : ∀ d ∈ after.head?, ¬ isMantissa d)
      (hexponent : ∀ exponent, IsExponent exponent → ¬ exponent <+: after) :
      Reads due after .number mantissa
  | scientific {mantissa exponent : List Char} (hne : mantissa ≠ [])
      (hmantissa : ∀ d ∈ mantissa, isMantissa d) (hexponent : IsExponent exponent)
      (hend : ∀ d ∈ after.head?, ¬ d.isDigit) : Reads due after .number (mantissa ++ exponent)
  | operator {op : Operator}
      (hsign : op.symbol = '+' ∨ op.symbol = '-' → (op.standsBefore ↔ due)) :
      Reads due after (.operator op) [op.symbol]
  | separator {c : Char} {kind : Kind} (h : Separator c kind) : Reads due after kind [c]

/-- The places of a scan: those of its tokens, and then that of its obstacle, if there is one. -/
def Scan.places (scan : Scan) : List Excerpt :=
  scan.tokens.map excerpt ++ scan.stop.toList.map (·.2)

/-- How the places of a scan lie in a text. -/
structure Scan.Divides (scan : Scan) (source : String) : Prop where
  /-- The places are excerpts of the text that are not empty. -/
  places : ∀ place ∈ scan.places, place.In source ∧ 0 < place.size
  /-- Every place ends before the next one starts. -/
  ascending : scan.places.Pairwise fun place next => place.start + place.size ≤ next.start
  /-- A character that stands in no place is a blank, unless it stands behind the obstacle. -/
  gaps : ∀ before c after, source.toList = before ++ c :: after →
    (∀ place ∈ scan.places,
      Text.bytes before < place.start ∨ place.start + place.size ≤ Text.bytes before) →
    (∀ stop ∈ scan.stop, Text.bytes before < stop.2.start) → Text.isBlank c
  /-- Every token is read as long as it can be, where its place says that it stands. -/
  tokens : ∀ earlier token later, scan.tokens = earlier ++ token :: later →
    ∃ before after, source.toList = before ++ (token.excerpt.text.toList ++ after) ∧
      Text.bytes before = token.excerpt.start ∧
      Reads (SignDue earlier) after token.kind token.excerpt.text.toList
  /-- An obstacle is the first character that is no blank and starts no token. -/
  obstacle : ∀ obstacle place, scan.stop = some (obstacle, place) →
    ∃ before c after, source.toList = before ++ c :: after ∧
      place = ⟨Text.bytes before, String.singleton c⟩ ∧
      (¬ Text.isBlank c ∧ ¬ StartsToken c) ∧ (∀ d ∈ before, Text.isBlank d ∨ StartsToken d) ∧
      ∀ symbol, obstacle = .reserved symbol ↔ Reserved.ofChar? c = some symbol
  /-- Without an obstacle there is no such character. -/
  complete : scan.stop = none → ∀ d ∈ source.toList, Text.isBlank d ∨ StartsToken d

/-! ## Exponents -/

/-- A text that starts with an exponent has one. -/
theorem exponentLength_ne_zero {exponent text : List Char} (hexponent : IsExponent exponent)
    (h : exponent <+: text) : exponentLength text ≠ 0 := by
  obtain ⟨mark, hmark, sign, hsign, digits, hne, hdigits, rfl⟩ := hexponent
  obtain ⟨after, rfl⟩ := h
  obtain ⟨c, digits, rfl⟩ := List.exists_cons_of_ne_nil hne
  have hc : c.isDigit := hdigits c (by simp)
  obtain ⟨hplus, hminus⟩ := ne_sign_of_isDigit hc
  have hmark : mark = 'e' ∨ mark = 'E' := by simpa using hmark
  simp only [List.mem_cons, List.not_mem_nil, or_false] at hsign
  rcases hsign with rfl | rfl | rfl <;> simp [exponentLength, hmark, hplus, hminus, hc]

/-! ## Lexemes -/

/-- A symbol writes an operator, which is a sign exactly where a sign is due, or it is a
separator. -/
theorem symbol?_cases {due : Bool} {c : Char} {kind : Kind} (h : symbol? due c = some kind) :
    (∃ op : Operator, kind = .operator op ∧ c = op.symbol ∧
      (op.symbol = '+' ∨ op.symbol = '-' → op.standsBefore = due)) ∨ Separator c kind := by
  unfold symbol? at h
  split at h
  case h_1 | h_2 => cases due <;> exact .inl ⟨_, (Option.some.inj h).symm, rfl, fun _ => rfl⟩
  case h_3 | h_4 | h_5 | h_6 =>
    exact .inl ⟨_, (Option.some.inj h).symm, rfl, fun hsign => absurd hsign (by decide)⟩
  case h_7 => exact .inr (Option.some.inj h ▸ .comma)
  case h_8 => exact .inr (Option.some.inj h ▸ .opening)
  case h_9 => exact .inr (Option.some.inj h ▸ .closing)
  case h_10 => cases h

/-- A number token is as long as it can be. -/
theorem reads_number (due : Prop) {c : Char} (hc : isMantissa c) (rest : List Char) :
    Reads due (rest.drop (numberRest rest)) .number (c :: rest.take (numberRest rest)) := by
  set digits := rest.takeWhile isMantissa
  set behind := rest.drop digits.length
  have htake : rest.take (numberRest rest) = digits ++ behind.take (exponentLength behind) :=
    take_numberRest rest
  have hdrop : rest.drop (numberRest rest) = behind.drop (exponentLength behind) :=
    List.drop_drop.symm
  have hmantissa : ∀ d ∈ c :: digits, isMantissa d := by
    intro d hd
    rcases List.mem_cons.1 hd with rfl | hd
    · exact hc
    · exact List.mem_takeWhile_imp hd
  rw [htake, hdrop, ← List.cons_append]
  by_cases hzero : exponentLength behind = 0
  · rw [hzero, List.take_zero, List.drop_zero, List.append_nil]
    exact .plain (List.cons_ne_nil c digits) hmantissa
      (Text.not_of_head?_drop_takeWhile isMantissa rest)
      fun exponent hexponent hprefix => exponentLength_ne_zero hexponent hprefix hzero
  · obtain ⟨hexponent, -, hend⟩ := isExponent_take hzero
    exact .scientific (List.cons_ne_nil c digits) hmantissa hexponent hend

/-- **Every token is as long as it can be**, and a sign is read exactly where one is due. -/
theorem reads_of_lexeme? {due : Bool} {c : Char} {rest : List Char} {kind : Kind} {more : Nat}
    (h : lexeme? due c rest = .ok (kind, more)) :
    Reads due (rest.drop more) kind (c :: rest.take more) := by
  cases kind with
  | name =>
    obtain ⟨hc, rfl⟩ := lexeme?_eq_name h
    rw [Text.take_takeWhile]
    exact .name hc (fun d hd => List.mem_takeWhile_imp hd)
      (Text.not_of_head?_drop_takeWhile isNameRest rest)
  | number =>
    obtain ⟨hc, rfl⟩ := lexeme?_eq_number h
    exact reads_number due hc rest
  | operator | comma | opening | closing =>
    obtain ⟨hsymbol, rfl⟩ := lexeme?_eq_symbol h (by simp) (by simp)
    rw [List.take_zero, List.drop_zero]
    rcases symbol?_cases hsymbol with ⟨op, hop, rfl, hsign⟩ | hseparator
    · rw [hop]
      exact .operator fun h => by rw [hsign h]
    · exact .separator hseparator

/-- The characters of a token can start one. -/
theorem Reads.startsToken {due : Prop} {after text : List Char} {kind : Kind}
    (h : Reads due after kind text) : ∀ d ∈ text, StartsToken d := by
  have hdigit : ∀ d : Char, d.isDigit → StartsToken d := fun d hd =>
    .inr (.inl (by simp [isMantissa, hd]))
  have hmarks : ∀ d ∈ ['e', 'E'], isNameStart d := by simp [isNameStart]
  have hsigns : ∀ sign ∈ [[], ['+'], ['-']], ∀ d ∈ sign, d ∈ symbols := by simp [symbols]
  have hsymbols : ∀ op : Operator, op.symbol ∈ symbols := by
    intro op
    cases op <;> simp [Operator.symbol, symbols]
  have hrow : ∀ mantissa : List Char, (∀ d ∈ mantissa, isMantissa d) →
      ∀ d ∈ mantissa, StartsToken d := fun mantissa hmantissa d hd => .inr (.inl (hmantissa d hd))
  cases h with
  | name hstart hrest hend =>
    intro d hd
    rcases List.mem_cons.1 hd with rfl | hd
    · exact .inl hstart
    · have hname : (d.isAlpha ∨ d.isDigit) ∨ d = '_' := by
        simpa [isNameRest, Char.isAlphanum] using hrest d hd
      rcases hname with (halpha | hd) | hline
      · exact .inl (by simp [isNameStart, halpha])
      · exact hdigit d hd
      · exact .inl (by simp [isNameStart, hline])
  | plain hne hmantissa hend hexponent => exact hrow _ hmantissa
  | scientific hne hmantissa hexponent hend =>
    obtain ⟨mark, hmark, sign, hsign, digits, -, hdigits, rfl⟩ := hexponent
    intro d hd
    rcases List.mem_append.1 hd with hd | hd
    · exact hrow _ hmantissa d hd
    rcases List.mem_cons.1 hd with rfl | hd
    · exact .inl (hmarks d hmark)
    rcases List.mem_append.1 hd with hd | hd
    · exact .inr (.inr (hsigns sign hsign d hd))
    · exact hdigit d (hdigits d hd)
  | operator hsign =>
    intro d hd
    obtain rfl := List.mem_singleton.1 hd
    exact .inr (.inr (hsymbols _))
  | separator hseparator =>
    intro d hd
    obtain rfl := List.mem_singleton.1 hd
    exact .inr (.inr (by cases hseparator <;> simp [symbols]))

/-! ## Obstacles -/

/-- A reserved character starts no token. -/
theorem not_startsToken_of_reserved {c : Char} {symbol : Reserved}
    (h : Reserved.ofChar? c = some symbol) : ¬ StartsToken c := by
  unfold Reserved.ofChar? at h
  split at h
  all_goals first | cases h; done | simp [StartsToken, symbols, isNameStart, isMantissa]

/-- A character at which a symbol starts is one of the symbols, whatever is due. -/
theorem symbol?_ne_none (due : Bool) {c : Char}
    (h : c ∈ symbols) : symbol? due c ≠ none := by
  simp only [symbols, List.mem_cons, List.not_mem_nil, or_false] at h
  rcases h with rfl | rfl | rfl | rfl | rfl | rfl | rfl | rfl | rfl <;> simp [symbol?]

/-- **No token starts at an obstacle**, and the obstacle says whether its character is reserved. -/
theorem obstacle_of_lexeme? {due : Bool} {c : Char} {rest : List Char} {obstacle : Obstacle}
    (h : lexeme? due c rest = .error obstacle) :
    ¬ StartsToken c ∧ ∀ symbol, obstacle = .reserved symbol ↔ Reserved.ofChar? c = some symbol := by
  unfold lexeme? at h
  split at h
  · cases h
  · next hsymbol =>
    split at h
    · next symbol hreserved =>
      obtain rfl := Except.error.inj h
      exact ⟨not_startsToken_of_reserved hreserved, fun other => by simp [hreserved]⟩
    · next hreserved =>
      split at h
      · cases h
      · next hname =>
        split at h
        · cases h
        · next hmantissa =>
          obtain rfl := Except.error.inj h
          refine ⟨?_, fun symbol => by simp [hreserved]⟩
          rintro (hstart | hstart | hstart)
          · exact hname hstart
          · exact hmantissa hstart
          · exact symbol?_ne_none due hstart hsymbol

/-! ## Scans -/

/-- The scan of the text behind `start` bytes and a token of kind `previous`, from token to
token. -/
inductive Scans : Option Kind → Nat → List Char → Scan → Prop
  | nil {previous : Option Kind} {start : Nat} : Scans previous start [] ⟨[], none⟩
  | blank {previous : Option Kind} {start : Nat} {c : Char} {rest : List Char} {scan : Scan}
      (hc : Text.isBlank c) (hrest : Scans previous (start + c.utf8Size) rest scan) :
      Scans previous start (c :: rest) scan
  | obstacle {previous : Option Kind} {start : Nat} {c : Char} {rest : List Char}
      {obstacle : Obstacle} (hblank : ¬ Text.isBlank c) (hstart : ¬ StartsToken c)
      (hreserved : ∀ symbol, obstacle = .reserved symbol ↔ Reserved.ofChar? c = some symbol) :
      Scans previous start (c :: rest) ⟨[], some (obstacle, ⟨start, String.singleton c⟩)⟩
  | token {previous : Option Kind} {start : Nat} {text after : List Char} {kind : Kind}
      {scan : Scan} (hne : text ≠ []) (hreads : Reads (operandDue previous) after kind text)
      (hafter : Scans (some kind) (start + Text.bytes text) after scan) :
      Scans previous start (text ++ after)
        ⟨⟨kind, ⟨start, String.ofList text⟩⟩ :: scan.tokens, scan.stop⟩

/-- A scan goes from token to token. -/
theorem scans_scanFrom (previous : Option Kind) (start : Nat) (text : List Char) :
    Scans previous start text (scanFrom previous start text) := by
  fun_induction scanFrom previous start text with
  | case1 => exact .nil
  | case2 previous start c rest hblank ih => exact .blank hblank ih
  | case3 previous start c rest hblank obstacle hlexeme =>
    obtain ⟨hstart, hreserved⟩ := obstacle_of_lexeme? hlexeme
    exact .obstacle hblank hstart hreserved
  | case4 previous start c rest hblank kind more hlexeme excerpt next ih =>
    have hsize : excerpt.size = Text.bytes (c :: rest.take more) := Text.utf8ByteSize_ofList _
    have hsplit : c :: rest = c :: rest.take more ++ rest.drop more := by
      rw [List.cons_append, List.take_append_drop]
    rw [hsize] at ih
    rw [hsplit]
    exact .token (List.cons_ne_nil c _) (reads_of_lexeme? hlexeme) (hsize ▸ ih)

section Scans

variable {previous : Option Kind} {start : Nat} {text : List Char} {scan : Scan}

/-- A text that is not empty has bytes. -/
theorem bytes_pos (h : text ≠ []) : 0 < Text.bytes text := by
  obtain ⟨c, rest, rfl⟩ := List.exists_cons_of_ne_nil h
  exact Nat.add_pos_left c.utf8Size_pos _

/-- The places of a scan are not empty, and they stand where the text stands. -/
theorem Scans.le_start (h : Scans previous start text scan) :
    ∀ place ∈ scan.places, start ≤ place.start ∧ 0 < place.size := by
  induction h with
  | nil => simp [Scan.places]
  | @blank _ _ c _ _ hc hrest ih =>
    exact fun place hplace => (ih place hplace).imp_left (Nat.le_trans (Nat.le_add_right _ _))
  | @obstacle _ start c =>
    intro place hplace
    obtain rfl : place = ⟨start, String.singleton c⟩ := by simpa [Scan.places] using hplace
    refine ⟨Nat.le_refl _, ?_⟩
    rw [Excerpt.size, String.utf8ByteSize_singleton]
    exact c.utf8Size_pos
  | token hne hreads hafter ih =>
    intro place hplace
    rcases List.mem_cons.1 hplace with rfl | hplace
    · refine ⟨Nat.le_refl _, ?_⟩
      rw [Excerpt.size, Text.utf8ByteSize_ofList]
      exact bytes_pos hne
    · exact (ih place hplace).imp_left (Nat.le_trans (Nat.le_add_right _ _))

/-- **The places of a scan stand one behind the other.** -/
theorem Scans.ascending (h : Scans previous start text scan) :
    scan.places.Pairwise fun place next => place.start + place.size ≤ next.start := by
  induction h with
  | nil => exact .nil
  | blank hc hrest ih => exact ih
  | obstacle => exact List.pairwise_singleton _ _
  | token hne hreads hafter ih =>
    refine List.pairwise_cons.2 ⟨fun place hplace => ?_, ih⟩
    rw [Excerpt.size, Text.utf8ByteSize_ofList]
    exact (hafter.le_start place hplace).1

/-- **A character between the places of a scan is a blank.** -/
theorem Scans.isBlank (h : Scans previous start text scan) :
    ∀ before c after, text = before ++ c :: after →
      (∀ place ∈ scan.places, start + Text.bytes before < place.start ∨
        place.start + place.size ≤ start + Text.bytes before) →
      (∀ stop ∈ scan.stop, start + Text.bytes before < stop.2.start) → Text.isBlank c := by
  induction h with
  | nil => simp
  | @blank _ start d rest _ hd hrest ih =>
    intro before c after htext hplaces hstop
    obtain ⟨rfl, hcons⟩ | ⟨before, rfl, rfl⟩ := List.cons_eq_append_iff.1 htext
    · obtain ⟨rfl, -⟩ := List.cons.inj hcons
      exact hd
    · have hbytes : start + Text.bytes (d :: before) = start + d.utf8Size + Text.bytes before :=
        (Nat.add_assoc _ _ _).symm
      rw [hbytes] at hplaces hstop
      exact ih before c after rfl hplaces hstop
  | obstacle =>
    intro before c after _ _ hstop
    exact absurd (hstop _ rfl) (by simp)
  | @token _ start text rest _ _ hne hreads hafter ih =>
    intro before c after htext hplaces hstop
    have hfirst := hplaces _ (List.mem_cons_self ..)
    simp only [Excerpt.size, Text.utf8ByteSize_ofList] at hfirst
    obtain ⟨behind, rfl, rfl⟩ : ∃ behind, before = text ++ behind ∧
        rest = behind ++ c :: after := by
      rcases List.append_eq_append_iff.1 htext with hbehind | ⟨inside, rfl, hinside⟩
      · exact hbehind
      · -- the character would stand in the token
        have hnil : inside = [] := by
          by_contra hne
          have hpos := bytes_pos hne
          rw [Text.bytes_append] at hfirst
          omega
        exact ⟨[], by simp [hnil], by simpa [hnil] using hinside.symm⟩
    rw [Text.bytes_append, ← Nat.add_assoc] at hplaces hstop
    exact ih behind c after rfl (fun place hplace => hplaces place (List.mem_cons_of_mem _ hplace))
      hstop

/-- **The tokens of a scan stand where their places say**, and each is as long as it can be. -/
theorem Scans.reads (h : Scans previous start text scan) :
    ∀ earlier token later, scan.tokens = earlier ++ token :: later →
      ∃ before after, text = before ++ (token.excerpt.text.toList ++ after) ∧
        start + Text.bytes before = token.excerpt.start ∧
        Reads (operandDue ((earlier.getLast?.map kind).or previous)) after token.kind
          token.excerpt.text.toList := by
  induction h with
  | nil => simp
  | @blank _ start c rest _ hc hrest ih =>
    intro earlier token later htokens
    obtain ⟨before, after, rfl, hbytes, hreads⟩ := ih earlier token later htokens
    exact ⟨c :: before, after, rfl, (Nat.add_assoc _ _ _).symm.trans hbytes, hreads⟩
  | obstacle => simp
  | @token previous start text after kind scan hne hreads hafter ih =>
    intro earlier token later htokens
    obtain ⟨rfl, hcons⟩ | ⟨earlier, rfl, htokens⟩ := List.cons_eq_append_iff.1 htokens
    · obtain ⟨rfl, -⟩ := List.cons.inj hcons
      exact ⟨[], after, by simp, rfl, by simpa using hreads⟩
    · obtain ⟨before, rest, rfl, hbytes, hreads⟩ :=
        ih earlier token later (List.tail_eq_of_cons_eq htokens)
      refine ⟨text ++ before, rest, (List.append_assoc ..).symm, ?_, ?_⟩
      · rw [Text.bytes_append, ← Nat.add_assoc, hbytes]
      · rw [List.getLast?_cons]
        cases hlast : earlier.getLast? <;> simpa [hlast] using hreads

/-- **A scan goes up to the first character that is no blank and starts no token**, if there is one,
and then it stops there. -/
theorem Scans.exists_reached (h : Scans previous start text scan) :
    ∃ before after, text = before ++ after ∧ (∀ d ∈ before, Text.isBlank d ∨ StartsToken d) ∧
      (after = [] ∧ scan.stop = none ∨ ∃ c rest obstacle, after = c :: rest ∧
        scan.stop = some (obstacle, ⟨start + Text.bytes before, String.singleton c⟩) ∧
        (¬ Text.isBlank c ∧ ¬ StartsToken c) ∧
        ∀ symbol, obstacle = .reserved symbol ↔ Reserved.ofChar? c = some symbol) := by
  induction h with
  | nil => exact ⟨[], [], rfl, by simp, .inl ⟨rfl, rfl⟩⟩
  | @blank _ start c rest scan hc hrest ih =>
    obtain ⟨before, after, rfl, hbefore, hafter⟩ := ih
    refine ⟨c :: before, after, rfl, List.forall_mem_cons.2 ⟨.inl hc, hbefore⟩, ?_⟩
    have hbytes : start + Text.bytes (c :: before) = start + c.utf8Size + Text.bytes before :=
      (Nat.add_assoc _ _ _).symm
    rw [hbytes]
    exact hafter
  | @obstacle _ _ c rest obstacle hblank hstart hreserved =>
    exact ⟨[], c :: rest, rfl, by simp,
      .inr ⟨c, rest, obstacle, rfl, rfl, ⟨hblank, hstart⟩, hreserved⟩⟩
  | @token _ start text rest _ _ hne hreads _ ih =>
    obtain ⟨before, after, rfl, hbefore, hafter⟩ := ih
    refine ⟨text ++ before, after, (List.append_assoc ..).symm,
      List.forall_mem_append.2 ⟨fun d hd => .inr (hreads.startsToken d hd), hbefore⟩, ?_⟩
    rw [Text.bytes_append, ← Nat.add_assoc]
    exact hafter

end Scans

/-! ## Division of a text -/

/-- A sign is due where an operand is due. -/
theorem signDue_iff (earlier : List Token) :
    SignDue earlier ↔ operandDue (earlier.getLast?.map kind) := by
  unfold SignDue
  cases earlier.getLast? with
  | none => simp [operandDue]
  | some last => cases hkind : last.kind <;> simp [operandDue, hkind]

/-- **The places of a scan divide the text**: the tokens stand one behind the other with blanks
between them, each as long as it can be, up to the first character that starts none. -/
theorem divides_scan (source : String) : (scan source).Divides source := by
  have hscans : Scans none 0 source.toList (scan source) := scans_scanFrom none 0 source.toList
  have hin : ∀ place ∈ (scan source).places, place.In source := by
    obtain ⟨htokens, hstop⟩ := in_of_scan source
    intro place hplace
    rcases List.mem_append.1 hplace with hplace | hplace
    · obtain ⟨token, htoken, rfl⟩ := List.mem_map.1 hplace
      exact htokens token htoken
    · obtain ⟨stop, hmem, rfl⟩ := List.mem_map.1 hplace
      exact hstop stop (Option.mem_toList.1 hmem)
  obtain ⟨before, after, hsource, hbefore, hafter⟩ := hscans.exists_reached
  refine ⟨fun place hplace => ⟨hin place hplace, (hscans.le_start place hplace).2⟩,
    hscans.ascending, ?_, ?_, ?_, ?_⟩
  · simpa only [Nat.zero_add] using hscans.isBlank
  · intro earlier token later htokens
    obtain ⟨before, after, htext, hbytes, hreads⟩ := hscans.reads earlier token later htokens
    refine ⟨before, after, htext, by rwa [Nat.zero_add] at hbytes, ?_⟩
    rwa [Option.or_none, ← propext (signDue_iff earlier)] at hreads
  · intro obstacle place hstop
    rcases hafter with ⟨-, hnone⟩ | ⟨c, rest, other, rfl, hsome, hc, hreserved⟩
    · rw [hnone] at hstop
      cases hstop
    · rw [hsome, Nat.zero_add] at hstop
      obtain ⟨rfl, rfl⟩ := Prod.mk.inj (Option.some.inj hstop)
      exact ⟨before, c, rest, hsource, rfl, hc, hbefore, hreserved⟩
  · intro hstop
    rcases hafter with ⟨rfl, -⟩ | ⟨c, rest, other, rfl, hsome, -⟩
    · rwa [hsource, List.append_nil]
    · rw [hsome] at hstop
      cases hstop

/-- **A lexer divides its text.** It gives the tokens of the text, then an obstacle if there is one,
then nothing for ever. The places do not overlap, and between them there are only blanks. Each token
is as long as its kind allows, and the obstacle is the first character at which no token starts. -/
theorem scan_divides (source : String) :
    (∀ asked, (Lexer.start source).answer asked = (scan source).items[asked]?) ∧
      (scan source).Divides source :=
  ⟨Lexer.answer_start source, divides_scan source⟩

end Grapher.Token
