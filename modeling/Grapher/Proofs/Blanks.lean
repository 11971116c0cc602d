import Grapher.Proofs.Dependence
import Grapher.Proofs.Products
import Grapher.Proofs.Restore

set_option relaxedAutoImplicit false
set_option autoImplicit false

/-!
# Blanks between tokens

Blanks before, between and behind the tokens of a text do not matter. No token goes on into a blank,
and no exponent holds one, so each token ends where it ended; and what is due where a token stands
is decided by the tokens before it. So the text has the same tokens, apart from their places, and
ends at the same obstacle if there is one. It becomes the same formula, up to the places of its
operations, or is rejected for the same cause.

In particular a bound of the range is the same with the blanks around its text and without them.

## Main definitions

* `Token.spaced` — a text with further blanks at some places.
* `Token.Spaced` — these are blanks, and none of them stands within a token.

## Main results

* `Token.scan_spaced` — the tokens of a text with further blanks.
* `Reading.result_foldlM` — a run depends on the kinds and the texts of the tokens.
* `Text.exists_eq_spaced` — a text is the one without the blanks around it, with these blanks.
* `Formula.blanks_irrelevant` — blanks between tokens do not matter.
-/

namespace Grapher

namespace Token

/-! ## Tokens and blanks -/

/-- A text that stands at byte `start`, with further blanks before the characters at the places, and
at the place behind the text. -/
def spacedFrom (blanks : Nat → List Char) (start : Nat) : List Char → List Char
  | [] => blanks start
  | c :: rest => blanks start ++ c :: spacedFrom blanks (start + c.utf8Size) rest

/-- A text with further blanks at the places. -/
def spaced (blanks : Nat → List Char) (source : String) : String :=
  String.ofList (spacedFrom blanks 0 source.toList)

/-- Blanks are to be written before, between and behind the tokens of a text. -/
structure Spaced (blanks : Nat → List Char) (source : String) : Prop where
  /-- They are blanks. -/
  blank : ∀ place, ∀ c ∈ blanks place, Text.isBlank c
  /-- None of them stands within a token. -/
  whole : ∀ token ∈ (scan source).tokens, ∀ place < token.excerpt.start + token.excerpt.size,
    token.excerpt.start < place → blanks place = []

/-- No token goes on into a blank. -/
theorem not_goesOn_of_isBlank {c : Char} (h : Text.isBlank c) : ¬ GoesOn c := by
  have hstarts : GoesOn c → StartsToken c := by
    rintro (hname | hmantissa | rfl | rfl)
    · have hname : c.isAlpha ∨ c.isDigit ∨ c = '_' := by
        simpa [isNameRest, Char.isAlphanum, or_assoc] using hname
      rcases hname with hletter | hdigit | rfl
      · exact .inl (by simp [isNameStart, hletter])
      · exact .inr (.inl (by simp [isMantissa, hdigit]))
      · exact .inl (by decide)
    · exact .inr (.inl hmantissa)
    · exact .inr (.inr (by decide))
    · exact .inr (.inr (by decide))
  intro hgoes
  rw [isBlank_of_startsToken (hstarts hgoes)] at h
  cases h

section Spaced

variable {blanks : Nat → List Char} {start : Nat}

theorem inserted_append {p : Char → Prop} {row text wide : List Char} (hrow : ∀ c ∈ row, p c)
    (h : Inserted p text wide) : Inserted p text (row ++ wide) := by
  induction row with
  | nil => exact h
  | cons c row ih =>
    obtain ⟨hc, hrow⟩ := List.forall_mem_cons.1 hrow
    exact .insert hc (ih hrow)

/-- The characters between those of a text with further blanks are blanks. -/
theorem inserted_spacedFrom (hblank : ∀ place, ∀ c ∈ blanks place, Text.isBlank c)
    (text : List Char) : Inserted (Text.isBlank ·) text (spacedFrom blanks start text) := by
  induction text generalizing start with
  | nil =>
    rw [spacedFrom, ← List.append_nil (blanks start)]
    exact inserted_append (hblank start) .nil
  | cons c text ih => exact inserted_append (hblank start) (.keep ih)

/-- A row of blanks before a text has no tokens. -/
theorem Scans.blanks_append {previous : Option Kind} {row text : List Char} {scan : Scan}
    (hrow : ∀ c ∈ row, Text.isBlank c) :
    ∀ {start : Nat}, Scans previous (start + Text.bytes row) text scan →
      Scans previous start (row ++ text) scan := by
  induction row with
  | nil => exact fun h => h
  | cons c row ih =>
    intro start h
    obtain ⟨hc, hrow⟩ := List.forall_mem_cons.1 hrow
    have hbytes : start + Text.bytes (c :: row) = start + c.utf8Size + Text.bytes row :=
      (Nat.add_assoc _ _ _).symm
    exact .blank hc (ih hrow (hbytes ▸ h))

/-- Behind a text within which no blanks are written the blanks are those of what follows it. -/
theorem spacedFrom_append {text : List Char}
    (h : ∀ place < start + Text.bytes text, start ≤ place → blanks place = [])
    (after : List Char) : spacedFrom blanks start (text ++ after) =
      text ++ spacedFrom blanks (start + Text.bytes text) after := by
  induction text generalizing start with
  | nil => rfl
  | cons c text ih =>
    have hpos : 0 < c.utf8Size := c.utf8Size_pos
    have hbytes : start + Text.bytes (c :: text) = start + c.utf8Size + Text.bytes text :=
      (Nat.add_assoc _ _ _).symm
    rw [hbytes] at h
    rw [List.cons_append, spacedFrom, h start (by omega) le_rfl, List.nil_append, hbytes,
      ih fun place hlt hle => h place hlt (by omega), List.cons_append]

/-- Before a token blanks may be written, but none within it. -/
theorem spacedFrom_token {text : List Char} (hne : text ≠ [])
    (h : ∀ place < start + Text.bytes text, start < place → blanks place = [])
    (after : List Char) : spacedFrom blanks start (text ++ after) =
      blanks start ++ (text ++ spacedFrom blanks (start + Text.bytes text) after) := by
  obtain ⟨c, body, rfl⟩ := List.exists_cons_of_ne_nil hne
  have hpos : 0 < c.utf8Size := c.utf8Size_pos
  have hbytes : start + Text.bytes (c :: body) = start + c.utf8Size + Text.bytes body :=
    (Nat.add_assoc _ _ _).symm
  rw [hbytes] at h
  rw [List.cons_append, spacedFrom, hbytes,
    spacedFrom_append fun place hlt hle => h place hlt (by omega), List.cons_append]

/-- What stops a scan, without its place. -/
def stopFace (stop : Obstacle × Excerpt) : Obstacle × String :=
  (stop.1, stop.2.text)

/-- **Blanks between tokens change no token.**

**Proof sketch.** Induction on the scan. At each place the blanks are passed over, and then the
token, which ends where it ended (`Token.Reads.inserted`). -/
theorem Scans.spaced (hblank : ∀ place, ∀ c ∈ blanks place, Text.isBlank c)
    {previous : Option Kind} {text : List Char} {scan : Scan}
    (h : Scans previous start text scan) :
    (∀ token ∈ scan.tokens, ∀ place < token.excerpt.start + token.excerpt.size,
      token.excerpt.start < place → blanks place = []) →
    ∀ other, ∃ written, Scans previous other (spacedFrom blanks start text) written ∧
      written.tokens.map face = scan.tokens.map face ∧
      written.stop.map stopFace = scan.stop.map stopFace := by
  induction h with
  | nil =>
    intro _ other
    refine ⟨_, ?_, rfl, rfl⟩
    rw [spacedFrom, ← List.append_nil (blanks _)]
    exact .blanks_append (hblank _) .nil
  | @blank _ start c rest scan hc hrest ih =>
    intro hwhole other
    obtain ⟨written, hscans, hfaces⟩ :=
      ih hwhole (other + Text.bytes (blanks start) + c.utf8Size)
    exact ⟨written, .blanks_append (hblank start) (.blank hc hscans), hfaces⟩
  | @obstacle _ start c rest obstacle hnot hstart hreserved =>
    intro _ other
    exact ⟨_, .blanks_append (hblank start) (.obstacle hnot hstart hreserved), rfl, rfl⟩
  | @token previous start text after kind scan hne hreads hafter ih =>
    intro hwhole other
    obtain ⟨hfirst, hlater⟩ := List.forall_mem_cons.1 hwhole
    simp only [Excerpt.size, Text.utf8ByteSize_ofList] at hfirst
    obtain ⟨written, hscans, hfaces, hstop⟩ :=
      ih hlater (other + Text.bytes (blanks start) + Text.bytes text)
    rw [spacedFrom_token hne hfirst]
    have hends : Reads (operandDue previous) (spacedFrom blanks (start + Text.bytes text) after)
        kind text :=
      hreads.inserted (fun _ => not_goesOn_of_isBlank) (inserted_spacedFrom hblank after)
    refine ⟨_, .blanks_append (hblank start) (.token hne hends hscans), ?_, hstop⟩
    rw [List.map_cons, List.map_cons, hfaces]
    rfl

end Spaced

/-- **The tokens of a text with further blanks** are the tokens of the text, up to their places, and
the scan ends at the same obstacle. -/
theorem scan_spaced {blanks : Nat → List Char} {source : String} (h : Spaced blanks source) :
    (scan (spaced blanks source)).tokens.map face = (scan source).tokens.map face ∧
      (scan (spaced blanks source)).stop.map stopFace = (scan source).stop.map stopFace := by
  have hscans : Scans none 0 source.toList (scan source) := scans_scanFrom none 0 source.toList
  obtain ⟨written, hwritten, hfaces⟩ := hscans.spaced h.blank h.whole 0
  rw [scan, spaced, String.toList_ofList, scanFrom_eq hwritten]
  exact hfaces

end Token

/-! ## Formulas and blanks -/

/-- **A run depends on the kinds and the texts of the tokens** only, apart from places. -/
theorem Reading.result_foldlM {declared : List String} {tokens : List Token} :
    ∀ {reading other : Reading} {written : List Token}, reading.trace = other.trace →
      tokens.map Token.face = written.map Token.face →
      result (tokens.foldlM (step declared) reading) =
        result (written.foldlM (step declared) other) := by
  induction tokens with
  | nil =>
    intro reading other written htrace hfaces
    obtain rfl := List.map_eq_nil_iff.1 hfaces.symm
    exact congrArg Except.ok htrace
  | cons token tokens ih =>
    intro reading other written htrace hfaces
    obtain ⟨first, written, rfl, hface, hfaces⟩ := List.map_eq_cons_iff.1 hfaces.symm
    have hstep : result (step declared reading token) = result (step declared other first) :=
      result_step htrace hface.symm
    rw [List.foldlM_cons, List.foldlM_cons]
    rcases cases_of_map_eq hstep with
      ⟨misreading, misreading', hleft, hright, hproblem⟩ | ⟨later, later', hleft, hright, htrace⟩
    · rw [hleft, hright]
      exact congrArg Except.error hproblem
    · rw [hleft, hright]
      exact ih htrace hfaces.symm

/-- **Blanks between tokens do not matter** for what becomes of a text. -/
theorem Formula.outcome_spaced {blanks : Nat → List Char} {source : String}
    (h : Token.Spaced blanks source) (declared : List String) :
    outcome declared (Token.spaced blanks source) = outcome declared source := by
  obtain ⟨hfaces, hstop⟩ := Token.scan_spaced h
  refine outcome_of_result (Reading.result_foldlM rfl hfaces) ?_
  have hobstacle := congrArg (Option.map Prod.fst) hstop
  rw [Option.map_map, Option.map_map] at hobstacle
  exact hobstacle

/-! ## Bounds and blanks -/

/-- A row for the start of a text of some bytes, and one for its end. -/
def Token.around (front back : List Char) (size place : Nat) : List Char :=
  (if place = 0 then front else []) ++ if place = size then back else []

/-- A text with a row at its start and one at its end. -/
theorem Token.spacedFrom_around (front back text : List Char) :
    spacedFrom (around front back (Text.bytes text)) 0 text = front ++ (text ++ back) := by
  by_cases hnil : text = []
  · subst hnil
    simp [spacedFrom, around, Text.bytes]
  · have hpos := bytes_pos hnil
    have hinner : ∀ place < 0 + Text.bytes text, 0 < place →
        around front back (Text.bytes text) place = [] := fun place hlt hplace => by
      rw [around, if_neg (by omega), if_neg (by omega), List.append_nil]
    have htoken := spacedFrom_token hnil hinner []
    rw [List.append_nil, spacedFrom, Nat.zero_add] at htoken
    rw [htoken, around, around, if_pos rfl, if_neg hpos.ne, if_neg hpos.ne', if_pos rfl,
      List.append_nil, List.nil_append]

/-- A text is the one without the blanks around it, with these blanks. -/
theorem Text.exists_eq_spaced (source : String) :
    ∃ blanks, Token.Spaced blanks (trimmed source) ∧
      Token.spaced blanks (trimmed source) = source := by
  set front := source.toList.takeWhile isBlank with hfront
  set back := ((source.toList.dropWhile isBlank).reverse.takeWhile isBlank).reverse with hback
  have hsplit : front ++ (trim source.toList ++ back) = source.toList := by
    rw [trim, hback, ← List.reverse_append, List.takeWhile_append_dropWhile, List.reverse_reverse,
      hfront, List.takeWhile_append_dropWhile]
  refine ⟨Token.around front back (bytes (trim source.toList)),
    ⟨fun place c hc => ?_, fun token htoken place hlt hplace => ?_⟩, ?_⟩
  · have hmem : c ∈ front ∨ c ∈ back := by
      unfold Token.around at hc
      split at hc <;> split at hc <;> simp_all
    rcases hmem with hmem | hmem
    · exact List.mem_takeWhile_imp hmem
    · exact List.mem_takeWhile_imp (List.mem_reverse.1 hmem)
  · obtain ⟨before, after, htext, hbefore⟩ := Token.in_of_mem_scan htoken
    have hsize := congrArg String.utf8ByteSize htext
    rw [trimmed, utf8ByteSize_ofList, String.utf8ByteSize_append,
      String.utf8ByteSize_append] at hsize
    rw [Excerpt.size] at hlt
    rw [Token.around, if_neg (by omega), if_neg (by omega), List.append_nil]
  · rw [Token.spaced, trimmed, String.toList_ofList, Token.spacedFrom_around, hsplit,
      String.ofList_toList]

namespace Worksheet

variable {w : Worksheet} {source other : String}

/-- Texts that become the same have the same value, or both have none. -/
theorem evaluate_of_outcome
    (h : Formula.outcome w.declared source = Formula.outcome w.declared other) :
    (w.evaluate source).toOption = (w.evaluate other).toOption := by
  unfold evaluate
  rcases cases_of_map_eq h with ⟨rejection, rejection', hleft, hright, -⟩ |
    ⟨formula, formula', hleft, hright, hactions⟩
  · rw [hleft, hright]
    rfl
  · have hvalue := Formula.value_of_plain (Program.plain_of_actions hactions) w.env
    rw [hleft, hright]
    cases hfirst : formula.value w.env <;> cases hsecond : formula'.value w.env <;>
      simp_all [Except.mapError, Except.toOption]

/-- A text gives a bound if it has a value that can be one, and the bound has this value. -/
theorem toOption_boundOf (w : Worksheet) (role : Bound.Role) (source : String) :
    (w.boundOf role source).toOption.map Bound.value =
      (w.evaluate source).toOption.filter fun value =>
        value.isFinite && !decide (role = .step ∧ value ≤ 0) := by
  unfold boundOf
  cases w.evaluate source with
  | error refusal => rfl
  | ok value =>
    by_cases hfinite : value.isFinite <;> by_cases hpositive : role = .step ∧ value ≤ 0 <;>
      simp [hfinite, hpositive, Except.toOption, Option.filter_some]

/-- The new bound has the value of the text without the blanks around it. -/
theorem toOption_setBound (w : Worksheet) (role : Bound.Role) (source : String) :
    (w.setBound role source).toOption.map (fun later => (later.range.get role).value) =
      (w.boundOf role (Text.trimmed source)).toOption.map Bound.value := by
  unfold setBound
  cases w.boundOf role (Text.trimmed source) with
  | error refusal => rfl
  | ok bound => simp [Except.toOption, Range.get_set]

end Worksheet

/-- **Blanks between tokens do not matter.** Wherever blanks are written before, between and behind
the tokens of a text, the text has the same tokens, and the scan ends at the same obstacle if there
is one. The text becomes a formula with the same actions, or is rejected for the same cause. The
text for a bound of the range may have blanks around it, which are not looked at: it is accepted
exactly if it would be with them, and its value is the same.

**Proof sketch.** The tokens are the same (`Token.scan_spaced`), so what is read of them is the same
apart from places (`Reading.result_foldlM`). A text is the one without the blanks around it, with
these blanks (`Text.exists_eq_spaced`). -/
theorem Formula.blanks_irrelevant :
    (∀ {source : String} {blanks : Nat → List Char}, Token.Spaced blanks source →
      (Token.scan (Token.spaced blanks source)).tokens.map Token.face =
          (Token.scan source).tokens.map Token.face ∧
        (Token.scan (Token.spaced blanks source)).stop.map Token.stopFace =
          (Token.scan source).stop.map Token.stopFace ∧
        ∀ declared, outcome declared (Token.spaced blanks source) = outcome declared source) ∧
    ∀ (w : Worksheet) (role : Bound.Role) (source : String),
      (w.setBound role source).toOption.map (fun later => (later.range.get role).value) =
        (w.boundOf role source).toOption.map Bound.value := by
  refine ⟨fun h => ?_, fun w role source => ?_⟩
  · obtain ⟨hfaces, hstop⟩ := Token.scan_spaced h
    exact ⟨hfaces, hstop, outcome_spaced h⟩
  · obtain ⟨blanks, hspaced, htext⟩ := Text.exists_eq_spaced source
    have houtcome := outcome_spaced hspaced w.declared
    rw [htext] at houtcome
    rw [Worksheet.toOption_setBound, Worksheet.toOption_boundOf, Worksheet.toOption_boundOf,
      Worksheet.evaluate_of_outcome houtcome]

/-- An exponent stays one with blanks around the number, and a name and a sign stay apart. -/
theorem Formula.blanks_irrelevant_exponent :
    Token.Spaced (fun place => if place ∈ [0, 4, 5, 7] then [' ', '\u2003'] else []) "2e-5e-x" ∧
      (Token.scan " \u20032e-5 \u2003e \u2003-x \u2003").tokens.map Token.face =
        (Token.scan "2e-5e-x").tokens.map Token.face := by
  have hspaced : Token.Spaced
      (fun place => if place ∈ [0, 4, 5, 7] then [' ', '\u2003'] else []) "2e-5e-x" := by
    refine ⟨fun place c hc => ?_, by decide +kernel⟩
    have hblanks : ∀ d ∈ [' ', '\u2003'], Text.isBlank d :=
      List.all_eq_true.1 (by decide)
    split at hc
    · exact hblanks c hc
    · cases hc
  exact ⟨hspaced, (blanks_irrelevant.1 hspaced).1⟩

end Grapher
