import Grapher.Proofs.Lexemes

set_option relaxedAutoImplicit false
set_option autoImplicit false

/-!
# Stars before tokens

A star that is written directly before a token is a token of its own and changes no other one, as
long as the token behind it is no operator. The token before it ends where it ended, since no token
goes on into a star, and no exponent comes about, since an exponent holds no star. The token behind
it is read where an operand is due now, which makes a difference to a plus and a minus only.

The first half of this is true of every character with which no token goes on.

## Main definitions

* `Token.GoesOn`, `Token.Inserted` — the characters with which a token can go on, and a text with
  further characters.
* `Token.starredFrom` — a text with stars before the characters at some places.
* `Token.face` — a token without its place.
* `Token.starredFaces` — the tokens with stars before those that start at some places.

## Main results

* `Token.lexeme?_of_reads`, `Token.scanFrom_eq` — a text has no other tokens than those that are as
  long as they can be.
* `Token.Reads.inserted` — characters with which no token goes on end a token where it ended.
* `Token.scan_starred` — the tokens of a text with stars.
-/

namespace Grapher.Token

/-! ## One scan only -/

/-- No token starts with a blank. -/
theorem isBlank_of_startsToken {c : Char} (h : StartsToken c) : Text.isBlank c = false := by
  rcases h with hname | hmantissa | hsymbol
  · exact isBlank_of_isNameStart hname
  · have hmantissa : c.isDigit ∨ c = '.' := by simpa [isMantissa] using hmantissa
    rcases hmantissa with hdigit | rfl
    · have hrange : 48 ≤ c.toNat ∧ c.toNat ≤ 57 := by
        simpa [Char.isDigit, UInt32.le_iff_toNat_le] using hdigit
      simp only [Text.isBlank, Text.blankRanges, List.any_cons, List.any_nil,
        Bool.or_eq_false_iff, Bool.and_eq_false_iff, decide_eq_false_iff_not, and_true]
      omega
    · decide
  · have hall : symbols.all (fun d => !Text.isBlank d) := by decide
    simpa using List.all_eq_true.1 hall c hsymbol

/-- A row of characters of a class, before a character outside of the class, is what the class takes
of the text. -/
theorem takeWhile_append_of_head? {p : Char → Bool} {text after : List Char}
    (htext : ∀ d ∈ text, p d) (hend : ∀ d ∈ after.head?, ¬ p d) :
    (text ++ after).takeWhile p = text := by
  rw [List.takeWhile_append_of_pos htext]
  cases after with
  | nil => simp
  | cons d after =>
    have hd : p d = false := by simpa using hend d rfl
    simp [hd]

/-- An exponent before a character that is no digit is counted as it is. -/
theorem exponentLength_append_of_isExponent {exponent after : List Char}
    (h : IsExponent exponent) (hend : ∀ d ∈ after.head?, ¬ d.isDigit) :
    exponentLength (exponent ++ after) = exponent.length := by
  obtain ⟨mark, hmark, sign, hsign, digits, hne, hdigits, rfl⟩ := h
  have hmark : mark = 'e' ∨ mark = 'E' := by simpa using hmark
  obtain ⟨c, digits, rfl⟩ := List.exists_cons_of_ne_nil hne
  obtain ⟨hc, hdigits⟩ := List.forall_mem_cons.1 hdigits
  obtain ⟨hplus, hminus⟩ := ne_sign_of_isDigit hc
  have htake : (digits ++ after).takeWhile Char.isDigit = digits :=
    takeWhile_append_of_head? hdigits hend
  simp only [List.mem_cons, List.not_mem_nil, or_false] at hsign
  rcases hsign with rfl | rfl | rfl <;>
    simp [exponentLength, hmark, hplus, hminus, hc, htake] <;> omega

/-- No number starts with an operator, a comma or a parenthesis, nor with a character of another
notation, nor like a name. -/
theorem lexeme?_of_isMantissa {c : Char} (h : isMantissa c) (due : Bool) (rest : List Char) :
    lexeme? due c rest = .ok (.number, numberRest rest) := by
  have hsymbol : symbol? due c = none := by
    unfold symbol?
    split <;> first | rfl | exact absurd h (by decide)
  have hreserved : Reserved.ofChar? c = none := by
    unfold Reserved.ofChar?
    split <;> first | rfl | exact absurd h (by decide)
  have hname : ¬ isNameStart c := fun hname => by
    have hrange := toNat_of_isNameStart hname
    have hmantissa : c.isDigit ∨ c = '.' := by simpa [isMantissa] using h
    rcases hmantissa with hdigit | rfl
    · have hdigit : 48 ≤ c.toNat ∧ c.toNat ≤ 57 := by
        simpa [Char.isDigit, UInt32.le_iff_toNat_le] using hdigit
      omega
    · exact absurd hrange (by decide)
  simp only [lexeme?, hsymbol, hreserved, if_neg hname, if_pos h]

/-- What belongs to a number beyond its first character. -/
theorem numberRest_append_of_reads {due : Prop} {c : Char} {body after : List Char}
    (h : Reads due after .number (c :: body)) : isMantissa c ∧ numberRest (body ++ after) =
      body.length := by
  generalize htext : c :: body = text at h
  cases h with
  | plain hne hmantissa hend hexponent =>
    subst htext
    obtain ⟨hc, hbody⟩ := List.forall_mem_cons.1 hmantissa
    have hzero : exponentLength after = 0 := by
      by_contra hzero
      exact hexponent _ (isExponent_take hzero).1 (List.take_prefix _ _)
    refine ⟨hc, ?_⟩
    rw [numberRest, takeWhile_append_of_head? hbody hend, List.drop_left, hzero, Nat.add_zero]
  | @scientific mantissa exponent hne hmantissa hexponent hend =>
    obtain ⟨d, digits, rfl⟩ := List.exists_cons_of_ne_nil hne
    obtain ⟨rfl, rfl⟩ := List.cons.inj htext
    obtain ⟨hc, hdigits⟩ := List.forall_mem_cons.1 hmantissa
    have hhead : ∀ d ∈ (exponent ++ after).head?, ¬ isMantissa d := by
      obtain ⟨mark, hmark, sign, -, digits, -, -, rfl⟩ := hexponent
      have hmark : mark = 'e' ∨ mark = 'E' := by simpa using hmark
      rcases hmark with rfl | rfl <;> simp [isMantissa]
    refine ⟨hc, ?_⟩
    change numberRest (digits ++ exponent ++ after) = (digits ++ exponent).length
    rw [numberRest, List.append_assoc, takeWhile_append_of_head? hdigits hhead, List.drop_left,
      exponentLength_append_of_isExponent hexponent hend, List.length_append]
  | separator hseparator => cases hseparator

/-- **What is as long as a token can be is the token.** -/
theorem lexeme?_of_reads {due : Bool} {c : Char} {body after : List Char} {kind : Kind}
    (h : Reads due after kind (c :: body)) :
    lexeme? due c (body ++ after) = .ok (kind, body.length) := by
  have hsymbol : symbol? due c = some kind → lexeme? due c (([] : List Char) ++ after) =
      .ok (kind, ([] : List Char).length) := fun hsymbol => by
    simp only [lexeme?, hsymbol, List.length_nil]
  have hnumber : Reads due after .number (c :: body) →
      lexeme? due c (body ++ after) = .ok (.number, body.length) := fun hreads => by
    obtain ⟨hc, hlength⟩ := numberRest_append_of_reads hreads
    rw [lexeme?_of_isMantissa hc, hlength]
  generalize htext : c :: body = text at h hnumber
  cases h with
  | name hstart hrest hend =>
    obtain ⟨rfl, rfl⟩ := List.cons.inj htext
    rw [lexeme?_of_isNameStart hstart, takeWhile_append_of_head? hrest hend]
  | plain hne hmantissa hend hexponent =>
    exact hnumber (.plain hne hmantissa hend hexponent)
  | scientific hne hmantissa hexponent hend =>
    exact hnumber (.scientific hne hmantissa hexponent hend)
  | @operator op hsign =>
    obtain ⟨rfl, rfl⟩ := List.cons.inj htext
    refine hsymbol ?_
    cases op <;> cases due <;> simp_all [Operator.symbol, Operator.standsBefore, symbol?]
  | separator hseparator =>
    obtain ⟨rfl, rfl⟩ := List.cons.inj htext
    exact hsymbol (hseparator.symbol? due)

/-- No token starts at an obstacle, whatever follows. -/
theorem lexeme?_of_not_startsToken {c : Char} {obstacle : Obstacle} (hstart : ¬ StartsToken c)
    (hreserved : ∀ symbol, obstacle = .reserved symbol ↔ Reserved.ofChar? c = some symbol)
    (due : Bool) (rest : List Char) : lexeme? due c rest = .error obstacle := by
  cases hlexeme : lexeme? due c rest with
  | ok lexeme =>
    obtain ⟨kind, more⟩ := lexeme
    exact absurd ((reads_of_lexeme? hlexeme).startsToken c (by simp)) hstart
  | error other =>
    have hother := (obstacle_of_lexeme? hlexeme).2
    refine congrArg Except.error ?_
    cases obstacle with
    | reserved symbol => exact (hother symbol).2 ((hreserved symbol).1 rfl)
    | stray =>
      cases other with
      | stray => rfl
      | reserved symbol => exact ((hreserved symbol).2 ((hother symbol).1 rfl)).symm

/-- **There is one scan only.** -/
theorem scanFrom_eq {previous : Option Kind} {start : Nat} {text : List Char} {scan : Scan}
    (h : Scans previous start text scan) : scanFrom previous start text = scan := by
  induction h with
  | nil => rw [scanFrom]
  | blank hc hrest ih => rw [scanFrom, if_pos hc, ih]
  | obstacle hblank hstart hreserved =>
    rw [scanFrom, if_neg hblank, lexeme?_of_not_startsToken hstart hreserved]
  | @token previous start text after kind scan hne hreads hafter ih =>
    obtain ⟨c, body, rfl⟩ := List.exists_cons_of_ne_nil hne
    have hblank := isBlank_of_startsToken (hreads.startsToken c (by simp))
    rw [List.cons_append, scanFrom, if_neg (by simp [hblank]), lexeme?_of_reads hreads]
    simp only [List.take_left, List.drop_left, Excerpt.size, Text.utf8ByteSize_ofList, ih]

/-! ## Insertions -/

/-- The characters with which a token can go on. -/
def GoesOn (c : Char) : Prop :=
  isNameRest c ∨ isMantissa c ∨ c = '+' ∨ c = '-'

instance (c : Char) : Decidable (GoesOn c) :=
  inferInstanceAs (Decidable (_ ∨ _))

/-- A text, and the text with some characters of a class between those of the text. -/
inductive Inserted (p : Char → Prop) : List Char → List Char → Prop
  | nil : Inserted p [] []
  | keep {c : Char} {text wide : List Char} (h : Inserted p text wide) :
      Inserted p (c :: text) (c :: wide)
  | insert {c : Char} {text wide : List Char} (hc : p c) (h : Inserted p text wide) :
      Inserted p text (c :: wide)

/-- The characters of an exponent can go on a token. -/
theorem IsExponent.goesOn {exponent : List Char} (h : IsExponent exponent) :
    ∀ d ∈ exponent, GoesOn d := by
  obtain ⟨mark, hmark, sign, hsign, digits, -, hdigits, rfl⟩ := h
  have hmarks : GoesOn 'e' ∧ GoesOn 'E' := by decide
  have hsigns : GoesOn '+' ∧ GoesOn '-' := by decide
  intro d hd
  rcases List.mem_cons.1 hd with rfl | hd
  · obtain rfl | rfl : d = 'e' ∨ d = 'E' := by simpa using hmark
    · exact hmarks.1
    · exact hmarks.2
  · rcases List.mem_append.1 hd with hd | hd
    · obtain rfl | rfl : d = '+' ∨ d = '-' := by
        obtain rfl | rfl | rfl : sign = [] ∨ sign = ['+'] ∨ sign = ['-'] := by simpa using hsign
        all_goals simp_all
      · exact hsigns.1
      · exact hsigns.2
    · exact .inr (.inl (by simp [isMantissa, hdigits d hd]))

section Inserted

variable {p : Char → Prop} {text wide : List Char}

/-- A word without inserted characters that starts the wider text starts the text. -/
theorem Inserted.prefix_of_prefix (h : Inserted p text wide) :
    ∀ {word : List Char}, (∀ d ∈ word, ¬ p d) → word <+: wide → word <+: text := by
  induction h with
  | nil => exact fun _ hword => hword
  | keep h ih =>
    intro word hnone hword
    cases word with
    | nil => exact List.nil_prefix
    | cons d word =>
      obtain ⟨rfl, hrest⟩ := List.cons_prefix_cons.1 hword
      exact List.cons_prefix_cons.2 ⟨rfl, ih (List.forall_mem_cons.1 hnone).2 hrest⟩
  | insert hc h ih =>
    intro word hnone hword
    cases word with
    | nil => exact List.nil_prefix
    | cons d word =>
      obtain ⟨rfl, -⟩ := List.cons_prefix_cons.1 hword
      exact absurd hc (hnone d List.mem_cons_self)

/-- **A token ends where it ended** when characters with which no token goes on are written behind
it. -/
theorem Reads.inserted {due : Prop} {after word : List Char} {kind : Kind}
    (h : Reads due after kind word) (hp : ∀ d, p d → ¬ GoesOn d) (hwide : Inserted p after wide) :
    Reads due wide kind word := by
  have hend : ∀ q : Char → Bool, (∀ d, q d → GoesOn d) → (∀ d ∈ after.head?, ¬ q d) →
      ∀ d ∈ wide.head?, ¬ q d := by
    intro q hq hafter d hd hqd
    obtain ⟨rest, rfl⟩ : ∃ rest, wide = d :: rest := List.head?_eq_some_iff.1 hd
    have hword : ∀ c ∈ [d], ¬ p c := fun c hc hpc =>
      hp c hpc (hq c (List.mem_singleton.1 hc ▸ hqd))
    obtain ⟨rest, rfl⟩ := hwide.prefix_of_prefix hword ⟨rest, rfl⟩
    exact hafter d rfl hqd
  cases h with
  | name hstart hrest hafter => exact .name hstart hrest (hend isNameRest (fun _ => .inl) hafter)
  | plain hne hmantissa hafter hexponent =>
    refine .plain hne hmantissa (hend isMantissa (fun _ => .inr ∘ .inl) hafter)
      fun exponent hstands hprefix => ?_
    exact hexponent exponent hstands
      (hwide.prefix_of_prefix (fun d hd hpd => hp d hpd (hstands.goesOn d hd)) hprefix)
  | scientific hne hmantissa hexponent hafter =>
    refine .scientific hne hmantissa hexponent (hend Char.isDigit (fun d hd => ?_) hafter)
    exact .inr (.inl (by simp [isMantissa, hd]))
  | operator hsign => exact .operator hsign
  | separator hseparator => exact .separator hseparator

end Inserted

/-! ## Stars -/

/-- A text that stands at byte `start`, with a star before each character that stands at one of the
places. -/
def starredFrom (places : List Nat) (start : Nat) : List Char → List Char
  | [] => []
  | c :: rest =>
    (if start ∈ places then ['*'] else []) ++ c :: starredFrom places (start + c.utf8Size) rest

/-- The kind and the text of a token. -/
def face (token : Token) : Kind × String :=
  (token.kind, token.excerpt.text)

/-- The tokens with stars before those that start at one of the places. -/
def starredFaces (places : List Nat) (tokens : List Token) : List (Kind × String) :=
  tokens.flatMap fun token =>
    (if token.excerpt.start ∈ places then [(.operator .mul, "*")] else []) ++ [token.face]

section Starred

variable {places : List Nat} {start : Nat}

theorem starredFaces_cons (token : Token) (rest : List Token) :
    starredFaces places (token :: rest) =
      (if token.excerpt.start ∈ places then [(.operator .mul, "*")] else []) ++
        token.face :: starredFaces places rest := by
  simp [starredFaces]

theorem starredFrom_append (text after : List Char) :
    starredFrom places start (text ++ after) =
      starredFrom places start text ++ starredFrom places (start + Text.bytes text) after := by
  induction text generalizing start with
  | nil => rfl
  | cons c text ih =>
    have hbytes : start + c.utf8Size + Text.bytes text = start + Text.bytes (c :: text) :=
      Nat.add_assoc _ _ _
    rw [List.cons_append, starredFrom, starredFrom, ih, hbytes, List.append_assoc,
      List.cons_append]

/-- A text in which no place lies is left as it is. -/
theorem starredFrom_eq_self {text : List Char}
    (h : ∀ place ∈ places, start ≤ place → start + Text.bytes text ≤ place) :
    starredFrom places start text = text := by
  induction text generalizing start with
  | nil => rfl
  | cons c text ih =>
    have hpos : 0 < c.utf8Size := c.utf8Size_pos
    have hbytes : start + Text.bytes (c :: text) = start + c.utf8Size + Text.bytes text :=
      (Nat.add_assoc _ _ _).symm
    have hstart : start ∉ places := fun hstart => by
      have hle := h start hstart le_rfl
      omega
    rw [starredFrom, if_neg hstart, List.nil_append, ih fun place hplace hle => ?_]
    rw [← hbytes]
    exact h place hplace (by omega)

/-- The characters between those of a text with stars are stars. -/
theorem inserted_starredFrom (text : List Char) :
    Inserted (· = '*') text (starredFrom places start text) := by
  induction text generalizing start with
  | nil => exact .nil
  | cons c text ih =>
    rw [starredFrom]
    split
    · exact .insert rfl (.keep ih)
    · exact .keep ih

/-- **A token ends where it ended** when stars are written behind it. -/
theorem Reads.starred {due : Prop} {after text : List Char} {kind : Kind}
    (h : Reads due after kind text) : Reads due (starredFrom places start after) kind text := by
  refine h.inserted ?_ (inserted_starredFrom after)
  rintro _ rfl
  decide

/-- Whether an operand is due makes a difference to operators only. -/
theorem Reads.of_ne_operator {due other : Prop} {after text : List Char} {kind : Kind}
    (h : Reads due after kind text) (hkind : ∀ op, kind ≠ .operator op) :
    Reads other after kind text := by
  cases h with
  | name hstart hrest hend => exact .name hstart hrest hend
  | plain hne hmantissa hend hexponent => exact .plain hne hmantissa hend hexponent
  | scientific hne hmantissa hexponent hend => exact .scientific hne hmantissa hexponent hend
  | operator hsign => exact absurd rfl (hkind _)
  | separator hseparator => exact .separator hseparator

/-- The tokens of a scan stand where it starts or behind. -/
theorem Scans.le_start_of_mem {previous : Option Kind} {text : List Char} {scan : Scan}
    {token : Token} (h : Scans previous start text scan) (htoken : token ∈ scan.tokens) :
    start ≤ token.excerpt.start :=
  (h.le_start token.excerpt (List.mem_append_left _ (List.mem_map_of_mem htoken))).1

/-- A token in a text with stars: one may stand before it, but none within it. -/
theorem starredFrom_token {text : List Char} (hne : text ≠ [])
    (h : ∀ place ∈ places, start < place → start + Text.bytes text ≤ place) :
    starredFrom places start text = (if start ∈ places then ['*'] else []) ++ text := by
  obtain ⟨c, body, rfl⟩ := List.exists_cons_of_ne_nil hne
  have hpos : 0 < c.utf8Size := c.utf8Size_pos
  rw [starredFrom, starredFrom_eq_self fun place hplace hle => ?_]
  exact (Nat.add_assoc _ _ _).le.trans (h place hplace (by omega))

/-- The token of a star. -/
theorem reads_star (due : Prop) (after : List Char) : Reads due after (.operator .mul) ['*'] :=
  .operator (by simp [Operator.symbol])

/-- **Stars before tokens that are no operators are tokens of their own**, and leave the others as
they are.

**Proof sketch.** Induction on the scan. No place lies in a blank or within a token, since the next
token starts behind it. -/
theorem Scans.starred {previous : Option Kind} {text : List Char} {scan : Scan}
    (h : Scans previous start text scan) :
    (∀ place ∈ places, start ≤ place → ∃ token ∈ scan.tokens,
      token.excerpt.start = place ∧ ∀ op, token.kind ≠ .operator op) →
    ∀ other, ∃ written, Scans previous other (starredFrom places start text) written ∧
      written.tokens.map face = starredFaces places scan.tokens ∧
      written.stop.map Prod.fst = scan.stop.map Prod.fst := by
  induction h with
  | nil => exact fun _ _ => ⟨_, .nil, rfl, rfl⟩
  | @blank _ start c rest scan hc hrest ih =>
    intro hfit other
    have hpos : 0 < c.utf8Size := c.utf8Size_pos
    have hstart : start ∉ places := fun hstart => by
      obtain ⟨token, htoken, hplace, -⟩ := hfit start hstart le_rfl
      have hle := hrest.le_start_of_mem htoken
      omega
    obtain ⟨written, hscans, hfaces⟩ :=
      ih (fun place hplace hle => hfit place hplace (by omega)) (other + c.utf8Size)
    refine ⟨written, ?_, hfaces⟩
    rw [starredFrom, if_neg hstart]
    exact .blank hc hscans
  | @obstacle _ start c rest obstacle hblank hstart hreserved =>
    intro hfit other
    have hnone : start ∉ places := fun hplace => by
      obtain ⟨token, htoken, -⟩ := hfit start hplace le_rfl
      cases htoken
    rw [starredFrom, if_neg hnone]
    exact ⟨_, .obstacle hblank hstart hreserved, rfl, rfl⟩
  | @token previous start text after kind scan hne hreads hafter ih =>
    intro hfit other
    have hbehind : ∀ place ∈ places, start < place → ∃ token ∈ scan.tokens,
        token.excerpt.start = place ∧ ∀ op, token.kind ≠ .operator op := by
      intro place hplace hlt
      obtain ⟨token, htoken, hstands, hkind⟩ := hfit place hplace hlt.le
      rcases List.mem_cons.1 htoken with rfl | htoken
      · exact absurd hstands hlt.ne
      · exact ⟨token, htoken, hstands, hkind⟩
    have hinside := starredFrom_token hne fun place hplace hlt => by
      obtain ⟨token, htoken, hstands, -⟩ := hbehind place hplace hlt
      exact hstands ▸ hafter.le_start_of_mem htoken
    have hpos := bytes_pos hne
    have hlater := ih fun place hplace hle => hbehind place hplace (by omega)
    rw [starredFrom_append, hinside]
    by_cases hstart : start ∈ places
    · obtain ⟨token, htoken, hstands, hkind⟩ := hfit start hstart le_rfl
      have hkind : ∀ op, kind ≠ .operator op := by
        rcases List.mem_cons.1 htoken with rfl | htoken
        · exact hkind
        · have hle := hafter.le_start_of_mem htoken
          omega
      obtain ⟨written, hscans, hfaces, hstop⟩ :=
        hlater (other + Text.bytes ['*'] + Text.bytes text)
      rw [if_pos hstart, List.append_assoc]
      refine ⟨_, .token (by simp) (reads_star _ _)
        (.token hne (hreads.starred.of_ne_operator hkind) hscans), ?_, hstop⟩
      have htext : String.ofList ['*'] = "*" := by decide
      rw [starredFaces_cons, if_pos hstart, ← hfaces, List.map_cons, List.map_cons, face, htext]
      rfl
    · obtain ⟨written, hscans, hfaces, hstop⟩ := hlater (other + Text.bytes text)
      rw [if_neg hstart, List.nil_append]
      refine ⟨_, .token hne hreads.starred hscans, ?_, hstop⟩
      rw [starredFaces_cons, if_neg hstart, ← hfaces]
      rfl

end Starred

/-- **The tokens of a text with stars** before tokens that are no operators are the tokens of the
text and the stars, up to their places, and the scan ends at the same obstacle. -/
theorem scan_starred {places : List Nat} {source : String}
    (hfit : ∀ place ∈ places, ∃ token ∈ (scan source).tokens,
      token.excerpt.start = place ∧ ∀ op, token.kind ≠ .operator op) :
    (scan (String.ofList (starredFrom places 0 source.toList))).tokens.map face =
        starredFaces places (scan source).tokens ∧
      (scan (String.ofList (starredFrom places 0 source.toList))).stop.map Prod.fst =
        (scan source).stop.map Prod.fst := by
  have hscans : Scans none 0 source.toList (scan source) := scans_scanFrom none 0 source.toList
  obtain ⟨written, hwritten, hfaces, hstop⟩ :=
    hscans.starred (fun place hplace _ => hfit place hplace) 0
  rw [scan, String.toList_ofList, scanFrom_eq hwritten]
  exact ⟨hfaces, hstop⟩

end Grapher.Token
