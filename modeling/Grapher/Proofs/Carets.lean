import Grapher.Proofs.Lexemes
import Grapher.Proofs.Misreadings
import Grapher.Proofs.Names

set_option relaxedAutoImplicit false
set_option autoImplicit false

/-!
# Carets below a rejected text

The report of a rejection prints the rejected text and a line of carets below it. Places are counted
in bytes, and so are the spaces and the carets of this line, but who reads it counts characters. A
token has as many bytes as characters. So the carets point at their place exactly if every blank
before it has one byte and the place is no stray character of several bytes.

## Main definitions

* `Text.carets` — a line with carets from a column on.
* `Rejection.shown?` — the place that a report shows.
* `Rejection.Pointed` — whether a report points at this place.

## Main results

* `Rejection.messages_of_shown` — the carets of a report, counted in bytes.
* `Rejection.clear_of_shown` — what stands before a place that is shown, and what it consists of.
* `Rejection.pointed_iff` — when a report points at its place.
-/

namespace Grapher

/-! ## Bytes and characters -/

namespace Text

/-- A text has at least as many bytes as characters. -/
theorem length_le_bytes (text : List Char) : text.length ≤ bytes text := by
  induction text with
  | nil => exact Nat.le_refl 0
  | cons c rest ih =>
    have hc := c.utf8Size_pos
    simp only [bytes, List.map_cons, List.sum_cons, List.length_cons] at ih ⊢
    omega

/-- **A text has as many bytes as characters** exactly if each of them has one byte. -/
theorem bytes_eq_length_iff {text : List Char} :
    bytes text = text.length ↔ ∀ c ∈ text, c.utf8Size = 1 := by
  refine ⟨fun h => ?_, bytes_eq_length⟩
  induction text with
  | nil => simp
  | cons c rest ih =>
    have hc := c.utf8Size_pos
    have hrest := length_le_bytes rest
    simp only [bytes, List.map_cons, List.sum_cons, List.length_cons] at h hrest ih
    exact List.forall_mem_cons.2 ⟨by omega, ih (by omega)⟩

/-- Of two starts of a text the one with fewer bytes is the start of the other. -/
theorem prefix_of_bytes_le {before after front rest : List Char}
    (h : before ++ after = front ++ rest) (hle : bytes before ≤ bytes front) :
    before <+: front := by
  rcases List.append_eq_append_iff.1 h with ⟨more, rfl, -⟩ | ⟨more, rfl, -⟩
  · exact ⟨more, rfl⟩
  · have hmore : more = [] := by
      by_contra hne
      have hpos := Token.bytes_pos hne
      rw [bytes_append] at hle
      omega
    exact ⟨[], by simp [hmore]⟩

/-- A text has one start of a given number of bytes. -/
theorem eq_of_bytes_eq {before after front rest : List Char}
    (h : before ++ after = front ++ rest) (heq : bytes before = bytes front) : before = front :=
  (prefix_of_bytes_le h heq.le).eq_of_length_le
    (prefix_of_bytes_le h.symm heq.ge).length_le

/-- A line of `count` carets behind `column` spaces. Below a line of text the first caret stands
under the character that has `column` characters before it. -/
def carets (column count : Nat) : String :=
  String.ofList (List.replicate column ' ' ++ List.replicate count '^')

/-- A line of carets tells its first column and the number of its carets. -/
theorem carets_inj {column count column' count' : Nat} :
    carets column count = carets column' count' ↔ column = column' ∧ count = count' := by
  refine ⟨fun h => ?_, fun ⟨hcolumn, hcount⟩ => by rw [hcolumn, hcount]⟩
  have hlist := String.ofList_injective h
  have hspaces := congrArg (List.count ' ') hlist
  have hcarets := congrArg (List.count '^') hlist
  simp only [List.count_append, List.count_replicate] at hspaces hcarets
  exact ⟨by simpa using hspaces, by simpa using hcarets⟩

end Text

namespace Token

/-- A character that starts a token has one byte. -/
theorem utf8Size_of_startsToken {c : Char} (h : StartsToken c) : c.utf8Size = 1 := by
  rcases h with hname | hmantissa | hsymbol
  · have hle : c.val ≤ 127 := UInt32.le_iff_toNat_le.2 (by
      have := (toNat_of_isNameStart hname).2
      exact Nat.le_trans this (by decide))
    exact Char.utf8Size_eq_one_iff.2 hle
  · obtain hdigit | rfl : c.isDigit ∨ c = '.' := by simpa [isMantissa] using hmantissa
    · exact utf8Size_of_isDigit hdigit
    · decide
  · exact Text.bytes_eq_length_iff.1 (by decide : Text.bytes symbols = symbols.length) c hsymbol

/-- A reserved character has one byte. -/
theorem utf8Size_of_reserved {c : Char} {symbol : Reserved} (h : Reserved.ofChar? c = some symbol) :
    c.utf8Size = 1 := by
  unfold Reserved.ofChar? at h
  split at h <;> first | decide | cases h

end Token

/-! ## What stands before a place -/

/-- Before a place of a text stand only blanks and characters that start tokens. -/
def Token.Clear (source : String) (place : Excerpt) : Prop :=
  ∃ before after, source.toList = before ++ (place.text.toList ++ after) ∧
    Text.bytes before = place.start ∧ ∀ d ∈ before, Text.isBlank d ∨ StartsToken d

/-- The empty place at the start of another has the same before it. -/
theorem Token.Clear.opening {source : String} {place : Excerpt} (h : Clear source place) :
    Clear source place.opening := by
  obtain ⟨before, after, hsource, hbytes, hbefore⟩ := h
  exact ⟨before, place.text.toList ++ after, by simp [Excerpt.opening, hsource], hbytes, hbefore⟩

namespace Token.Scan.Divides

variable {scan : Scan} {source : String}

/-- What stands before the obstacle of a scan, or anywhere if there is none, are blanks and
characters that start tokens. -/
theorem startsToken_of_front (h : scan.Divides source) {before after : List Char}
    (hsource : source.toList = before ++ after)
    (hstop : ∀ stop ∈ scan.stop, Text.bytes before ≤ stop.2.start) :
    ∀ d ∈ before, Text.isBlank d ∨ StartsToken d := by
  cases hscan : scan.stop with
  | none =>
    intro d hd
    exact h.complete hscan d (by rw [hsource]; exact List.mem_append_left _ hd)
  | some stop =>
    obtain ⟨front, c, rest, hfront, hplace, -, hpassed, -⟩ := h.obstacle stop.1 stop.2 hscan
    have hle : Text.bytes before ≤ Text.bytes front := by
      have := hstop stop hscan
      rwa [hplace] at this
    -- the obstacle stands behind all of `before`
    have hfront' := Text.prefix_of_bytes_le (hsource.symm.trans hfront) hle
    exact fun d hd => hpassed d (hfront'.subset hd)

/-- A token consists of characters that start tokens, and before it there are only blanks and such
characters. -/
theorem clear_of_mem (h : scan.Divides source) {token : Token} (htoken : token ∈ scan.tokens) :
    Clear source token.excerpt ∧ ∀ d ∈ token.excerpt.text.toList, StartsToken d := by
  obtain ⟨earlier, later, hsplit⟩ := List.append_of_mem htoken
  obtain ⟨before, after, hsource, hbytes, hreads⟩ := h.tokens earlier token later hsplit
  refine ⟨⟨before, after, hsource, hbytes, h.startsToken_of_front hsource fun stop hstop => ?_⟩,
    hreads.startsToken⟩
  have hle := (List.pairwise_append.1 h.ascending).2.2 token.excerpt (List.mem_map_of_mem htoken)
    stop.2 (List.mem_map_of_mem (Option.mem_toList.2 hstop))
  omega

end Token.Scan.Divides

section Places

variable {declared : List String} {source : String}

/-- The operations of a token have its place. -/
theorem Token.place_of_mem_operations {token : Token} {operation : Operation}
    (h : operation ∈ token.operations declared) : operation.place = token.excerpt := by
  unfold operations at h
  split at h
  · obtain ⟨decimal, -, rfl⟩ := List.mem_map.1 h
    rfl
  · split at h
    · rw [List.mem_singleton.1 h]
    · rw [List.mem_singleton.1 h]
    · rw [List.mem_singleton.1 h]
    · cases h
  · rw [List.mem_singleton.1 h]
  all_goals cases h

/-- **The place of an operation** is clear, and it consists of characters that start tokens. -/
theorem Reading.clear_of_program {program : Program}
    (h : Reading.program declared source = .ok program) {operation : Operation}
    (hoperation : operation ∈ program) : Token.Clear source operation.place ∧
      ∀ d ∈ operation.place.text.toList, Token.StartsToken d := by
  obtain ⟨-, reading, hfold, hfinish⟩ := program_eq_ok_iff.1 h
  have hmem : operation ∈ reading.contents := by
    rw [← coe_program hfinish]
    exact Multiset.mem_coe.2 hoperation
  rcases exists_token_of_mem_contents hfold hmem with hstart | ⟨token, htoken, hplace⟩
  · simp at hstart
  obtain ⟨hclear, hstarts⟩ := (Token.divides_scan source).clear_of_mem htoken
  rcases hplace with hplace | rfl
  · rw [Token.place_of_mem_operations hplace]
    exact ⟨hclear, hstarts⟩
  · exact ⟨hclear.opening, by simp [Excerpt.opening]⟩

/-- **The place of a misreading** is clear, and it consists of characters that start tokens unless
it is the obstacle at which the scan has stopped. -/
theorem Reading.clear_of_misread {misreading : Misreading}
    (h : (Token.scan source).Misread declared misreading) :
    Token.Clear source misreading.place ∧
      ((∀ d ∈ misreading.place.text.toList, Token.StartsToken d) ∨ ∃ obstacle c,
        misreading.problem = .obstacle obstacle ∧ misreading.place.text = String.singleton c ∧
        ∀ symbol, obstacle = .reserved symbol ↔ Token.Reserved.ofChar? c = some symbol) := by
  have hdivides := Token.divides_scan source
  cases h with
  | token hsplit _ _ =>
    exact (hdivides.clear_of_mem (by simp [hsplit])).imp_right .inl
  | @stop obstacle place htokens hstop =>
    obtain ⟨before, c, after, hsource, rfl, -, hbefore, hreserved⟩ :=
      hdivides.obstacle obstacle place hstop
    exact ⟨⟨before, after, by simpa using hsource, rfl, hbefore⟩,
      .inr ⟨obstacle, c, rfl, rfl, hreserved⟩⟩
  | unclosed _ _ hopening =>
    obtain ⟨before, behind, hsplit, -⟩ := hopening
    exact (hdivides.clear_of_mem (by simp [hsplit])).imp_right .inl

end Places

/-! ## Reports -/

namespace Rejection

variable {declared : List String} {source : String} {rejection : Rejection} {shown : Excerpt}

/-- The place that a report shows: that of the rejection or, if it has none, the end of the text,
unless the text is blank. -/
def shown? (rejection : Rejection) : Option Excerpt :=
  rejection.place.or (if (Text.trim rejection.source.toList).isEmpty then none
    else some ⟨rejection.source.utf8ByteSize, ""⟩)

/-- A report points at the place that it shows: behind the rejected text comes a line whose first
caret stands under the first character of the place, with one caret for each character of the place,
but one at least. -/
def Pointed (advice : Advice) (rejection : Rejection) : Prop :=
  ∀ shown, rejection.shown? = some shown →
    ∃ before after, rejection.source.toList = before ++ (shown.text.toList ++ after) ∧
      Text.bytes before = shown.start ∧
      (rejection.messages advice)[1]? = some rejection.source ∧
      (rejection.messages advice)[2]? =
        some (Text.carets before.length (max shown.text.toList.length 1))

/-- **The carets of a report** are counted in bytes, whatever the hint is. -/
theorem messages_of_shown (advice : Advice) (h : rejection.shown? = some shown) :
    (rejection.messages advice)[1]? = some rejection.source ∧
      (rejection.messages advice)[2]? = some (Text.carets shown.start (max shown.size 1)) := by
  have hillustration : rejection.illustration = [rejection.source, shown.underline] := by
    unfold shown? at h
    unfold illustration
    cases hplace : rejection.place with
    | some place =>
      rw [hplace, Option.some_or, Option.some_inj] at h
      simp only [h]
    | none =>
      rw [hplace, Option.none_or] at h
      split at h
      · cases h
      · next hblank =>
        obtain rfl := Option.some_inj.1 h
        simp only [if_neg hblank]
  rw [messages, hillustration]
  exact ⟨rfl, rfl⟩

/-- **A place that is shown** is clear. It consists of characters that start tokens, or it is the
obstacle at which the scan has stopped. -/
theorem clear_of_shown (h : Formula.ofSource declared source = .error rejection)
    (hshown : rejection.shown? = some shown) : Token.Clear source shown ∧
      ((∀ d ∈ shown.text.toList, Token.StartsToken d) ∨ ∃ obstacle c,
        rejection.cause = .misread (.obstacle obstacle) ∧ shown.text = String.singleton c ∧
        ∀ symbol, obstacle = .reserved symbol ↔ Token.Reserved.ofChar? c = some symbol) := by
  unfold Formula.ofSource at h
  cases hprogram : Reading.program declared source with
  | error misreading =>
    simp only [hprogram, Except.error.injEq] at h
    subst h
    obtain rfl : misreading.place = shown := Option.some_inj.1 hshown
    obtain ⟨hclear, hplace⟩ :=
      Reading.clear_of_misread (Reading.misread_of_program_error declared source hprogram)
    refine ⟨hclear, hplace.imp_right ?_⟩
    rintro ⟨obstacle, c, hproblem, htext⟩
    exact ⟨obstacle, c, congrArg Cause.misread hproblem, htext⟩
  | ok program =>
    cases hcheck : program.check with
    | ok _ => simp [hprogram, hcheck] at h
    | error fault =>
      simp only [hprogram, hcheck, Except.error.injEq] at h
      subst h
      cases hoperation : fault.operation with
      | some operation =>
        obtain rfl : operation.place = shown := by
          simpa [shown?, Fault.place?, hoperation] using hshown
        have hmem := (Program.check_eq_error_iff.1 hcheck).mem hoperation
        exact (Reading.clear_of_program hprogram hmem).imp_right .inl
      | none =>
        obtain rfl : shown = ⟨source.utf8ByteSize, ""⟩ := by
          simp only [shown?, Fault.place?, hoperation, Option.map_none, Option.none_or] at hshown
          split at hshown
          · cases hshown
          · exact (Option.some_inj.1 hshown).symm
        have hstop := (Reading.program_eq_ok_iff.1 hprogram).1
        refine ⟨⟨source.toList, [], by simp, ?_, ?_⟩, .inl (by simp)⟩
        · rw [← Text.utf8ByteSize_ofList, String.ofList_toList]
        · exact (Token.divides_scan source).complete hstop

/-- **A report points at its place** exactly if there are as many bytes as characters before the
place and in it. -/
theorem pointed_iff_bytes (advice : Advice) (before after : List Char)
    (hshown : rejection.shown? = some shown)
    (hsource : rejection.source.toList = before ++ (shown.text.toList ++ after))
    (hbytes : Text.bytes before = shown.start) :
    rejection.Pointed advice ↔ Text.bytes before = before.length ∧
      Text.bytes shown.text.toList = shown.text.toList.length := by
  obtain ⟨hfirst, hsecond⟩ := messages_of_shown advice hshown
  have hsize : shown.size = Text.bytes shown.text.toList := by
    rw [← Text.utf8ByteSize_ofList, String.ofList_toList]
    rfl
  -- only the empty text has no bytes, so the caret that is always there makes no difference
  have hcount : max shown.size 1 = max shown.text.toList.length 1 ↔
      Text.bytes shown.text.toList = shown.text.toList.length := by
    rw [hsize]
    have hle := Text.length_le_bytes shown.text.toList
    rcases List.eq_nil_or_concat shown.text.toList with hnil | ⟨front, d, hconcat⟩
    · simp [hnil, Text.bytes]
    · have hpos : 0 < shown.text.toList.length := by simp [hconcat]
      omega
  have hpoints : (rejection.messages advice)[2]? =
        some (Text.carets before.length (max shown.text.toList.length 1)) ↔
      Text.bytes before = before.length ∧
        Text.bytes shown.text.toList = shown.text.toList.length := by
    rw [hsecond, Option.some_inj, Text.carets_inj, hcount, hbytes]
  rw [← hpoints]
  constructor
  · intro h
    obtain ⟨front, rest, hfront, hstart, -, hline⟩ := h shown hshown
    rwa [Text.eq_of_bytes_eq (hfront.symm.trans hsource) (hstart.trans hbytes.symm)] at hline
  · intro h other hother
    obtain rfl : shown = other := Option.some_inj.1 (hshown.symm.trans hother)
    exact ⟨before, after, hsource, hbytes, hfirst, h⟩

/-- **When a report points at its place.** The report of a rejected text shows the text and a line
with a space for each byte before the place and a caret for each byte of it, but one at least. So
the carets stand below the characters of the place exactly if each blank before the place has one
byte, and the place is no stray character of more than one byte. A rejection without a place shows
the end of its text, unless the text is blank. What the hint is makes no difference.

**Proof sketch.** The line points at the place if all characters up to the end of the place have one
byte (`Rejection.pointed_iff_bytes`). Those that are no blanks start tokens, and so they have one
byte, or they are the obstacle of the scan (`Rejection.clear_of_shown`); a reserved character has
one byte as well. -/
theorem pointed_iff (h : Formula.ofSource declared source = .error rejection) (advice : Advice) :
    rejection.Pointed advice ↔ ∀ shown, rejection.shown? = some shown →
      (∀ before after, source.toList = before ++ after → Text.bytes before = shown.start →
          ∀ c ∈ before, Text.isBlank c → c.utf8Size = 1) ∧
        (rejection.cause = .misread (.obstacle .stray) →
          ∀ c ∈ shown.text.toList, c.utf8Size = 1) := by
  obtain ⟨horigin, -⟩ := Formula.origin_of_ofSource_error h
  constructor
  · intro hpointed shown hshown
    obtain ⟨⟨before, after, hsource, hbytes, -⟩, -⟩ := clear_of_shown h hshown
    obtain ⟨hbefore, htext⟩ :=
      (pointed_iff_bytes advice before after hshown (horigin ▸ hsource) hbytes).1 hpointed
    rw [Text.bytes_eq_length_iff] at hbefore htext
    refine ⟨fun front rest hfront hstart c hc _ => hbefore c ?_, fun _ => htext⟩
    rwa [Text.eq_of_bytes_eq (hfront.symm.trans hsource) (hstart.trans hbytes.symm)] at hc
  · intro hnarrow
    cases hshown : rejection.shown? with
    | none => exact fun shown hsome => nomatch hshown.symm.trans hsome
    | some shown =>
      obtain ⟨hblanks, hstray⟩ := hnarrow shown hshown
      obtain ⟨⟨before, after, hsource, hbytes, hbefore⟩, hplace⟩ := clear_of_shown h hshown
      have hiff := pointed_iff_bytes advice before after hshown (horigin ▸ hsource) hbytes
      refine hiff.2 ⟨Text.bytes_eq_length fun d hd => ?_, Text.bytes_eq_length ?_⟩
      · exact (hbefore d hd).elim (hblanks before _ hsource hbytes d hd)
          Token.utf8Size_of_startsToken
      · rcases hplace with hstarts | ⟨obstacle, c, hcause, htext, hreserved⟩
        · exact fun d hd => Token.utf8Size_of_startsToken (hstarts d hd)
        · cases obstacle with
          | stray => exact hstray hcause
          | reserved symbol =>
            intro d hd
            obtain rfl : d = c := by simpa [htext] using hd
            exact Token.utf8Size_of_reserved ((hreserved symbol).1 rfl)

/-- The report of an unknown name points at it, whatever characters stand behind it. -/
theorem pointed_iff_unknown : ∃ rejection,
    Formula.ofSource [] "1 sni \u00e9" = .error rejection ∧
      rejection.shown? = some ⟨2, "sni"⟩ ∧ ∀ advice, rejection.Pointed advice := by
  have hscan : Token.scan "1 sni \u00e9" =
      ⟨[⟨.number, ⟨0, "1"⟩⟩, ⟨.name, ⟨2, "sni"⟩⟩], some (.stray, ⟨6, "\u00e9"⟩)⟩ := by
    decide +kernel
  have hrejection : Formula.ofSource [] "1 sni \u00e9" =
      .error ⟨.misread .unknownName, "1 sni \u00e9", some ⟨2, "sni"⟩, []⟩ := by
    rw [Formula.ofSource, Reading.program, hscan]
    rfl
  refine ⟨_, hrejection, rfl,
    fun advice => (pointed_iff hrejection advice).2 fun shown hshown => ⟨?_, by simp⟩⟩
  obtain rfl : (⟨2, "sni"⟩ : Excerpt) = shown := Option.some_inj.1 hshown
  intro before after hsource hbytes
  have hfront : ['1', ' '] ++ "sni \u00e9".toList = before ++ after :=
    (by decide +kernel : _ = "1 sni \u00e9".toList).trans hsource
  obtain rfl : ['1', ' '] = before := Text.eq_of_bytes_eq hfront (hbytes ▸ rfl)
  exact fun c hc _ => Text.bytes_eq_length_iff.1 (by decide : Text.bytes ['1', ' '] = 2) c hc

/-- A text that starts with an obstacle is rejected for it. -/
theorem ofSource_of_stop {obstacle : Token.Obstacle} {place : Excerpt}
    (h : Token.scan source = ⟨[], some (obstacle, place)⟩) :
    Formula.ofSource declared source =
      .error ⟨.misread (.obstacle obstacle), source, some place, declared⟩ := by
  rw [Formula.ofSource, Reading.program, h]
  rfl

/-- **Reports that do not point at their place**: there are two carets below one stray character,
and behind a blank of two bytes the caret stands one column too far to the right, below a stray
character as well as at the end of a text that leaves two numbers. -/
theorem astray_wide :
    (∃ rejection, Formula.ofSource [] "\u00e9" = .error rejection ∧
      rejection.place = some ⟨0, "\u00e9"⟩ ∧ ∀ advice,
        (rejection.messages advice)[2]? = some "^^" ∧ ¬ rejection.Pointed advice) ∧
    (∃ rejection, Formula.ofSource [] "\u00a0$" = .error rejection ∧
      rejection.place = some ⟨2, "$"⟩ ∧ ∀ advice,
        (rejection.messages advice)[2]? = some "  ^" ∧ ¬ rejection.Pointed advice) ∧
    ∃ rejection, Formula.ofSource [] "1\u00a02" = .error rejection ∧
      rejection.place = none ∧ ∀ advice,
        (rejection.messages advice)[2]? = some "    ^" ∧ ¬ rejection.Pointed advice := by
  refine ⟨⟨⟨.misread (.obstacle .stray), "\u00e9", some ⟨0, "\u00e9"⟩, []⟩, ?_, rfl,
      fun advice => ⟨?_, ?_⟩⟩,
    ⟨⟨.misread (.obstacle .stray), "\u00a0$", some ⟨2, "$"⟩, []⟩, ?_, rfl,
      fun advice => ⟨?_, ?_⟩⟩,
    ⟨⟨.unsound (.leftover 2), "1\u00a02", none, []⟩, ?_, rfl, fun advice => ⟨?_, ?_⟩⟩⟩
  · exact ofSource_of_stop (by decide +kernel)
  · exact (messages_of_shown advice rfl).2.trans (by decide +kernel)
  · rw [pointed_iff_bytes advice [] [] rfl (by decide +kernel) rfl]
    decide +kernel
  · exact ofSource_of_stop (by decide +kernel)
  · exact (messages_of_shown advice rfl).2.trans (by decide +kernel)
  · rw [pointed_iff_bytes advice ['\u00a0'] [] rfl (by decide +kernel) rfl]
    decide +kernel
  · have hscan : Token.scan "1\u00a02" = ⟨[⟨.number, ⟨0, "1"⟩⟩, ⟨.number, ⟨3, "2"⟩⟩], none⟩ := by
      decide +kernel
    rw [Formula.ofSource, Reading.program, hscan]
    rfl
  all_goals
    have hshown : shown? ⟨.unsound (.leftover 2), "1\u00a02", none, []⟩ = some ⟨4, ""⟩ := by
      decide +kernel
  · exact (messages_of_shown advice hshown).2.trans (by decide +kernel)
  · rw [pointed_iff_bytes advice ['1', '\u00a0', '2'] [] hshown (by decide +kernel) rfl]
    decide +kernel

end Rejection

end Grapher
