import Grapher.Proofs.Contents
import Grapher.Proofs.Faults
import Grapher.Proofs.Scan

set_option relaxedAutoImplicit false
set_option autoImplicit false

/-!
# Places in a source

Whatever a token, an operation or a rejection says about a place in its source is a part of that
source: the two ends of the place lie between characters, and the text that is remembered for it
stands between them. A variable and a function stand at their places under their own names, and no
function has the name of a loaded variable.

## Main definitions

* `Text.slice?` — the text between two places of a source, if these lie between characters.
* `Operation.ReadFrom` — operations that stand in a source under the names that they use.
* `Reading.ReadFrom` — readings of which all operations and open parentheses stand in a source.

## Main results

* `Excerpt.slice?_eq_some_iff` — the excerpts of a source are those whose text can be cut out.
* `Token.in_of_mem_scan`, `Token.in_of_stop` — what a scan finds are excerpts of its source.
* `Reading.ReadFrom.foldlM` — all that is read of a source stands in it.
* `Formula.readFrom_of_ofSource` — all operations of a formula stand in its text.
* `Formula.in_of_ofSource_error` — the place of a rejection is an excerpt of the rejected text.
-/

namespace Grapher

/-! ## Slices -/

namespace Text

/-- The text of `size` bytes behind the first `start` bytes of a source. There is none if one of the
two ends is behind the source or within a character. -/
def slice? (source : String) (start size : Nat) : Option String :=
  (source.pos? ⟨start⟩).bind fun first =>
    (source.pos? ⟨start + size⟩).bind fun last =>
      (source.slice? first last).map String.Slice.copy

/-- A number of bytes is a position if a position has it as its offset. -/
theorem pos?_eq_some_iff {source : String} {bytes : String.Pos.Raw} {p : source.Pos} :
    source.pos? bytes = some p ↔ p.offset = bytes := by
  unfold String.pos? String.Slice.pos?
  by_cases h : String.Pos.Raw.isValidForSlice source.toSlice bytes
  · rw [dif_pos h, Option.map_some, Option.some_inj, String.Pos.ext_iff]
    exact Iff.intro Eq.symm Eq.symm
  · rw [dif_neg h]
    refine iff_of_false (by simp) fun hp => h ?_
    rw [String.Pos.Raw.isValidForSlice_eq_true_iff, String.Pos.Raw.isValidForSlice_toSlice_iff,
      ← hp]
    exact p.isValid

/-- The length of a text is a position of every longer text that starts with it. -/
theorem exists_pos_of_append {source before after : String} (h : source = before ++ after) :
    ∃ p : source.Pos, source.pos? ⟨before.utf8ByteSize⟩ = some p ∧ p.Splits before after := by
  have hvalid : String.Pos.Raw.IsValid source before.rawEndPos :=
    String.Pos.Raw.isValid_iff_exists_append.2 ⟨before, after, h, rfl⟩
  exact ⟨source.pos before.rawEndPos hvalid, pos?_eq_some_iff.2 rfl, ⟨h, rfl⟩⟩

end Text

/-- **The excerpts of a source are those whose text can be cut out** at their place. -/
theorem Excerpt.slice?_eq_some_iff {source : String} {e : Excerpt} :
    Text.slice? source e.start e.size = some e.text ↔ e.In source := by
  unfold Text.slice?
  constructor
  · intro h
    obtain ⟨first, hfirst, h⟩ := Option.bind_eq_some_iff.1 h
    obtain ⟨last, -, h⟩ := Option.bind_eq_some_iff.1 h
    obtain ⟨slice, hslice, hcopy⟩ := Option.map_eq_some_iff.1 h
    obtain ⟨hle, hcut⟩ := Option.dite_none_right_eq_some.1 hslice
    obtain rfl := Option.some.inj hcut
    obtain ⟨before, after, hbefore, -⟩ := String.copy_slice_eq_iff_splits.1 ⟨hle, hcopy⟩
    refine ⟨before, after, ?_, ?_⟩
    · rw [hbefore.eq_append, String.append_assoc]
    · have hoffset := (Text.pos?_eq_some_iff.1 hfirst).symm.trans hbefore.offset_eq_rawEndPos
      exact (String.Pos.Raw.ext_iff.1 hoffset).symm
  · rintro ⟨before, after, hsource, hbefore⟩
    obtain ⟨first, hfirst, hsplits⟩ :=
      Text.exists_pos_of_append (hsource.trans (String.append_assoc ..))
    obtain ⟨last, hlast, hsplits'⟩ := Text.exists_pos_of_append hsource
    obtain ⟨hle, hcopy⟩ := String.copy_slice_eq_iff_splits.2 ⟨before, after, hsplits, hsplits'⟩
    rw [hbefore] at hfirst
    rw [String.utf8ByteSize_append, hbefore] at hlast
    rw [hfirst, Option.bind_some, size, hlast, Option.bind_some, String.slice?, dif_pos hle,
      Option.map_some, hcopy]

/-! ## The places of a scan -/

namespace Token

/-- A text behind another one is an excerpt of both together with what follows. -/
theorem in_append {source before : String} {text rest : List Char} {start : Nat}
    (hsource : source = before ++ String.ofList (text ++ rest))
    (hstart : before.utf8ByteSize = start) : (Excerpt.mk start (String.ofList text)).In source :=
  ⟨before, String.ofList rest, by rw [hsource, String.ofList_append, String.append_assoc], hstart⟩

/-- What a scan of the rest of a source finds are excerpts of the source.

**Proof sketch.** Induction on the scan. What is left of the source shrinks, and what lies before
it has as many bytes as the scan has counted. -/
theorem in_of_scanFrom {source : String} (previous : Option Kind) (start : Nat)
    (text : List Char) :
    ∀ {before : String}, source = before ++ String.ofList text → before.utf8ByteSize = start →
      (∀ token ∈ (scanFrom previous start text).tokens, token.excerpt.In source) ∧
        ∀ stop ∈ (scanFrom previous start text).stop, stop.2.In source := by
  fun_induction scanFrom previous start text with
  | case1 => simp
  | case2 previous start c rest hblank ih =>
    intro before hsource hstart
    refine @ih (before ++ String.singleton c) ?_ ?_
    · rw [hsource, String.ofList_cons, String.append_assoc]
    · rw [String.utf8ByteSize_append, String.utf8ByteSize_singleton, hstart]
  | case3 previous start c rest hblank obstacle hlexeme =>
    intro before hsource hstart
    refine ⟨by simp, fun stop hstop => ?_⟩
    obtain rfl : (obstacle, ⟨start, String.singleton c⟩) = stop := by simpa using hstop
    rw [String.singleton_eq_ofList]
    exact in_append hsource hstart
  | case4 previous start c rest hblank kind more hlexeme excerpt next =>
    rename_i ih
    intro before hsource hstart
    have hsplit : c :: rest = c :: rest.take more ++ rest.drop more := by
      rw [List.cons_append, List.take_append_drop]
    rw [hsplit] at hsource
    have hexcerpt : excerpt.In source := in_append hsource hstart
    obtain ⟨htokens, hstop⟩ := @ih (before ++ excerpt.text)
      (by rw [hsource, String.ofList_append, String.append_assoc])
      (by rw [String.utf8ByteSize_append, hstart, Excerpt.size])
    refine ⟨fun token htoken => ?_, hstop⟩
    rcases List.mem_cons.1 htoken with rfl | htoken
    · exact hexcerpt
    · exact htokens token htoken

/-- What a scan finds are excerpts of its source. -/
theorem in_of_scan (source : String) :
    (∀ token ∈ (scan source).tokens, token.excerpt.In source) ∧
      ∀ stop ∈ (scan source).stop, stop.2.In source := by
  have hsource : source = "" ++ String.ofList source.toList := by
    rw [String.ofList_toList, String.empty_append]
  exact in_of_scanFrom none 0 source.toList hsource rfl

variable {source : String} {token : Token}

/-- **The tokens of a source are excerpts of it.** -/
theorem in_of_mem_scan (h : token ∈ (scan source).tokens) : token.excerpt.In source :=
  (in_of_scan source).1 token h

/-- The character at which a scan stops is an excerpt of its source. -/
theorem in_of_stop {stop : Obstacle × Excerpt} (h : (scan source).stop = some stop) :
    stop.2.In source :=
  (in_of_scan source).2 stop h

/-- A name token is the start of a name and all that continues the name. -/
theorem lexeme?_eq_name {due : Bool} {c : Char} {rest : List Char} {more : Nat}
    (h : lexeme? due c rest = .ok (.name, more)) :
    isNameStart c ∧ more = (rest.takeWhile isNameRest).length := by
  unfold lexeme? at h
  split at h
  · next kind hsymbol =>
    obtain ⟨rfl, -⟩ : kind = .name ∧ 0 = more := by simpa using h
    revert hsymbol
    unfold symbol?
    split <;> simp
  · split at h
    · cases h
    · split at h
      · next hname => exact ⟨hname, by simpa using h.symm⟩
      · split at h <;> simp at h

/-- **A name token can name a variable.** -/
theorem isName_of_mem_scan (h : token ∈ (scan source).tokens) (hkind : token.kind = .name) :
    isName token.excerpt.text := by
  obtain ⟨due, c, rest, more, hlexeme, htext⟩ := lexeme?_of_mem_scanFrom h
  rw [hkind] at hlexeme
  obtain ⟨hstart, rfl⟩ := lexeme?_eq_name hlexeme
  rw [isName, htext, String.toList_ofList, Text.take_takeWhile]
  refine Bool.and_eq_true_iff.2 ⟨hstart, List.all_eq_true.2 fun d hd => ?_⟩
  exact List.mem_takeWhile_imp hd

end Token

/-! ## The places of operations -/

/-- A builtin function is found under its own name. -/
theorem Builtin.mem_functions_of_find? {name : String} {f : Callable}
    (h : find? name = some (.function f)) : f ∈ functions ∧ f.name = name := by
  have hmem : Builtin.function f ∈ table := List.mem_of_find?_eq_some h
  refine ⟨by simpa [table] using hmem, ?_⟩
  have hname : (Builtin.function f).name == name :=
    List.find?_some (p := fun builtin : Builtin => builtin.name == name) h
  exact beq_iff_eq.1 hname

/-- A builtin function is found under its name. -/
theorem Builtin.find?_name {f : Callable} (h : f ∈ functions) :
    find? f.name = some (.function f) := by
  have hmem : Builtin.function f ∈ table := List.mem_append_left _ (List.mem_map_of_mem h)
  obtain ⟨builtin, hfind⟩ : ∃ builtin, find? f.name = some builtin :=
    Option.isSome_iff_exists.1 (List.find?_isSome.2 ⟨_, hmem, beq_self_eq_true _⟩)
  have hname : builtin.name = f.name :=
    beq_iff_eq.1 (List.find?_some (p := fun builtin : Builtin => builtin.name == f.name) hfind)
  rw [hfind, List.inj_on_of_nodup_map nodup_names (List.mem_of_find?_eq_some hfind) hmem hname]

/-- An operation stands in a source. A variable and a function stand there under their own names,
and the name of a variable is free for variables. -/
structure Operation.ReadFrom (source : String) (operation : Operation) : Prop where
  /-- The place is an excerpt of the source. -/
  place : operation.place.In source
  /-- A loaded variable is named at the place, by a name that no function has. -/
  load : ∀ name, operation.action = .load name →
    operation.place.text = name ∧ isName name ∧ ∀ f, Builtin.find? name ≠ some (.function f)
  /-- A called function is builtin and named at the place. -/
  call : ∀ f, operation.action = .call f →
    operation.place.text = f.name ∧ f ∈ Builtin.functions

section Read

variable {source : String} {declared : List String} {token : Token}

/-- An operation that uses no name stands in a source if its place does. -/
theorem Operation.ReadFrom.of_ne {operation : Operation} (hplace : operation.place.In source)
    (hload : ∀ name, operation.action ≠ .load name) (hcall : ∀ f, operation.action ≠ .call f) :
    operation.ReadFrom source :=
  ⟨hplace, fun name h => absurd h (hload name), fun f h => absurd h (hcall f)⟩

/-- The operation of a token stands in its source. -/
theorem Token.readFrom_of_mem_operations (h : token ∈ (scan source).tokens)
    {operation : Operation} (hoperation : operation ∈ token.operations declared) :
    operation.ReadFrom source := by
  have hplace := in_of_mem_scan h
  unfold operations at hoperation
  cases hkind : token.kind with
  | number =>
    rw [hkind] at hoperation
    obtain ⟨decimal, -, rfl⟩ := List.mem_map.1 hoperation
    exact .of_ne hplace (by simp) (by simp)
  | name =>
    rw [hkind] at hoperation
    rcases hmeaning : meaning? declared token.excerpt.text with _ | f | _ | value
    · simp [hmeaning] at hoperation
    · obtain rfl : operation = ⟨.call f, token.excerpt⟩ := by simpa [hmeaning] using hoperation
      obtain ⟨hmem, hname⟩ := Builtin.mem_functions_of_find? (meaning?_eq_function_iff.1 hmeaning)
      refine ⟨hplace, by simp, ?_⟩
      rintro _ ⟨⟩
      exact ⟨hname.symm, hmem⟩
    · obtain rfl : operation = ⟨.load token.excerpt.text, token.excerpt⟩ := by
        simpa [hmeaning] using hoperation
      refine ⟨hplace, ?_, by simp⟩
      rintro _ ⟨⟩
      exact ⟨rfl, isName_of_mem_scan h hkind, (meaning?_eq_variable_iff.1 hmeaning).1⟩
    · obtain rfl : operation = ⟨.push value, token.excerpt⟩ := by
        simpa [hmeaning] using hoperation
      exact .of_ne hplace (by simp) (by simp)
  | operator op =>
    obtain rfl : operation = ⟨.apply op, token.excerpt⟩ := by simpa [hkind] using hoperation
    exact .of_ne hplace (by simp) (by simp)
  | comma | opening | closing => simp [hkind] at hoperation

namespace Reading

/-- All operations and all open parentheses of a reading stand in a source. -/
structure ReadFrom (source : String) (reading : Reading) : Prop where
  /-- The operations of the program and those that wait. -/
  contents : ∀ operation ∈ reading.contents, operation.ReadFrom source
  /-- The open parentheses. -/
  levels : ∀ level ∈ reading.levels, level.opened.In source

theorem start_readFrom (source : String) : start.ReadFrom source :=
  ⟨by simp, by simp [start]⟩

variable {reading later : Reading}

theorem levels_multiply (reading : Reading) (token : Token) :
    (reading.multiply token).levels = reading.levels := by
  unfold multiply
  split <;> rfl

/-- A parenthesis that is open after a step was open before, or is the token. -/
theorem mem_levels_of_step (h : step declared reading token = .ok later) {level : Level}
    (hlevel : level ∈ later.levels) : level ∈ reading.levels ∨ level.opened = token.excerpt := by
  rw [← levels_multiply reading token]
  unfold step at h
  set multiplied := reading.multiply token
  dsimp only at h
  cases hkind : token.kind with
  | number =>
    simp only [hkind, number] at h
    split at h <;> cases h
    exact .inl hlevel
  | name =>
    simp only [hkind, name] at h
    split at h <;> cases h <;> exact .inl hlevel
  | operator op | comma =>
    simp only [hkind, Except.ok.injEq] at h
    subst h
    exact .inl hlevel
  | opening =>
    simp only [hkind, Except.ok.injEq] at h
    subst h
    rcases List.mem_cons.1 hlevel with rfl | hlevel
    · exact .inr rfl
    · exact .inl hlevel
  | closing =>
    cases hlevels : multiplied.levels with
    | nil => simp [hkind, hlevels] at h
    | cons first outer =>
      simp only [hkind, hlevels, Except.ok.injEq] at h
      subst h
      refine .inl (List.mem_cons_of_mem _ ?_)
      unfold ending close at hlevel
      split at hlevel <;> exact hlevel

/-- **A step keeps what has been read in its source.** -/
theorem ReadFrom.step (h : reading.ReadFrom source) (htoken : token ∈ (Token.scan source).tokens)
    (hstep : step declared reading token = .ok later) : later.ReadFrom source := by
  refine ⟨fun operation hoperation => ?_, fun level hlevel => ?_⟩
  · rw [(step_eq_ok hstep).1, Multiset.mem_add, Multiset.mem_add] at hoperation
    rcases hoperation with (hproduct | hmem) | hmem
    · unfold product at hproduct
      split at hproduct
      · obtain rfl : operation = ⟨.apply .mul, token.excerpt.opening⟩ := by simpa using hproduct
        exact .of_ne (Token.in_of_mem_scan htoken).opening (by simp) (by simp)
      · simp at hproduct
    · exact Token.readFrom_of_mem_operations htoken hmem
    · exact h.contents operation hmem
  · rcases mem_levels_of_step hstep hlevel with hmem | hopened
    · exact h.levels level hmem
    · exact hopened ▸ Token.in_of_mem_scan htoken

/-- **All that is read of a source stands in it.** -/
theorem ReadFrom.foldlM {tokens : List Token} :
    ∀ {reading later : Reading}, reading.ReadFrom source →
      (∀ token ∈ tokens, token ∈ (Token.scan source).tokens) →
      tokens.foldlM (Reading.step declared) reading = .ok later → later.ReadFrom source := by
  induction tokens with
  | nil =>
    intro reading later h _ hfold
    obtain rfl := foldlM_nil_eq_ok_iff.1 hfold
    exact h
  | cons token rest ih =>
    intro reading later h htokens hfold
    obtain ⟨middle, hstep, hrest⟩ := foldlM_cons_eq_ok_iff.1 hfold
    exact ih (h.step (htokens token (by simp)) hstep)
      (fun other hother => htokens other (by simp [hother])) hrest

/-- A step that fails is at fault at its token. -/
theorem place_of_step {misreading : Misreading}
    (h : Reading.step declared reading token = .error misreading) :
    misreading.place = token.excerpt := by
  unfold Reading.step at h
  set multiplied := reading.multiply token
  dsimp only at h
  cases hkind : token.kind with
  | number =>
    simp only [hkind, number] at h
    split at h <;> cases h
    rfl
  | name =>
    simp only [hkind, name] at h
    split at h <;> cases h
    rfl
  | operator op | comma | opening => simp [hkind] at h
  | closing =>
    cases hlevels : multiplied.levels with
    | nil =>
      simp only [hkind, hlevels, Except.error.injEq] at h
      exact h ▸ rfl
    | cons first outer => simp [hkind, hlevels] at h

/-- The program of a reading stands in the source, and so does a parenthesis that is not closed. -/
theorem ReadFrom.finish (h : reading.ReadFrom source) :
    (∀ program, reading.finish = .ok program → ∀ operation ∈ program, operation.ReadFrom source) ∧
      ∀ misreading, reading.finish = .error misreading → misreading.place.In source := by
  refine ⟨fun program hfinish operation hoperation => ?_, fun misreading hfinish => ?_⟩
  · refine h.contents operation ?_
    rw [← coe_program hfinish]
    exact Multiset.mem_coe.2 hoperation
  · unfold Reading.finish at hfinish
    cases hlevels : reading.levels with
    | nil => simp [hlevels] at hfinish
    | cons level outer =>
      simp only [hlevels, Except.error.injEq] at hfinish
      exact hfinish ▸ h.levels level (by simp [hlevels])

/-- Steps that fail do so at one of the tokens, which is then at fault. -/
theorem exists_token_of_foldlM {tokens : List Token} {misreading : Misreading} :
    ∀ {reading : Reading}, tokens.foldlM (Reading.step declared) reading = .error misreading →
      ∃ token ∈ tokens, misreading.place = token.excerpt := by
  induction tokens with
  | nil => exact fun h => nomatch h
  | cons token rest ih =>
    intro reading h
    rw [List.foldlM_cons] at h
    cases hstep : Reading.step declared reading token with
    | error other =>
      rw [hstep] at h
      obtain rfl : other = misreading := Except.error.inj h
      exact ⟨token, by simp, place_of_step hstep⟩
    | ok middle =>
      rw [hstep] at h
      obtain ⟨other, hother, hplace⟩ := ih h
      exact ⟨other, by simp [hother], hplace⟩

/-- A program stands in the source that it was read from, and so does what cannot be read. -/
theorem program_readFrom (declared : List String) (source : String) :
    (∀ program, Reading.program declared source = .ok program →
        ∀ operation ∈ program, operation.ReadFrom source) ∧
      ∀ misreading, Reading.program declared source = .error misreading →
        misreading.place.In source := by
  unfold Reading.program ofScan
  cases hfold : (Token.scan source).tokens.foldlM (Reading.step declared) start with
  | error other =>
    refine ⟨fun _ h => (nomatch h), fun misreading h => ?_⟩
    obtain rfl : other = misreading := Except.error.inj h
    obtain ⟨token, htoken, hplace⟩ := exists_token_of_foldlM hfold
    exact hplace ▸ Token.in_of_mem_scan htoken
  | ok reading =>
    have hreading : reading.ReadFrom source :=
      (start_readFrom source).foldlM (fun _ htoken => htoken) hfold
    cases hstop : (Token.scan source).stop with
    | none => exact hreading.finish
    | some stop =>
      refine ⟨fun _ h => (nomatch h), fun misreading h => ?_⟩
      obtain rfl := Except.error.inj h
      exact Token.in_of_stop hstop

end Reading

namespace Formula

/-- **All operations of a formula stand in its text.** -/
theorem readFrom_of_ofSource {formula : Formula} (h : ofSource declared source = .ok formula) :
    ∀ operation ∈ formula.program, operation.ReadFrom source :=
  (Reading.program_readFrom declared source).1 _ (ofSource_eq_ok_iff.1 h).2.1

/-- A rejection keeps the rejected text and what was declared. -/
theorem origin_of_ofSource_error {rejection : Rejection}
    (h : ofSource declared source = .error rejection) :
    rejection.source = source ∧ rejection.declared = declared := by
  unfold ofSource at h
  split at h
  · exact Except.error.inj h ▸ ⟨rfl, rfl⟩
  · split at h <;> cases h
    exact ⟨rfl, rfl⟩

/-- **The place of a rejection is an excerpt of the rejected text.** -/
theorem in_of_ofSource_error {rejection : Rejection}
    (h : ofSource declared source = .error rejection) {place : Excerpt}
    (hplace : rejection.place = some place) : place.In source := by
  unfold ofSource at h
  obtain ⟨hread, hmisread⟩ := Reading.program_readFrom declared source
  cases hprogram : Reading.program declared source with
  | error misreading =>
    simp only [hprogram, Except.error.injEq] at h
    subst h
    exact Option.some.inj hplace ▸ hmisread misreading hprogram
  | ok program =>
    cases hcheck : program.check with
    | ok _ => simp [hprogram, hcheck] at h
    | error fault =>
      simp only [hprogram, hcheck, Except.error.injEq] at h
      subst h
      obtain ⟨operation, hoperation, rfl⟩ := Option.map_eq_some_iff.1 hplace
      have hmem := (Program.check_eq_error_iff.1 hcheck).mem hoperation
      exact (hread program hprogram operation hmem).place

end Formula

end Read

end Grapher
