import Grapher.Console.Run
import Grapher.Proofs.Reachable

set_option relaxedAutoImplicit false
set_option autoImplicit false

/-!
# Lines that are read one after the other

The console reads the bytes up to the next newline and decodes them, each time that it needs a line.
If there are no bytes left, it has met the end of the input. So calls for a line give, one after the
other, the segments of the input that end with a newline and what stands behind the last newline,
and then none, however often they are repeated. A newline has one byte, and this byte is not part of
any other character, so the segments of a text are those of its bytes.

## Main definitions

* `Text.IsCut` — how a list falls into segments.
* `Text.encode` — the bytes of a text.
* `Console.nthLine` — the line that a call in a row of calls gives.

## Main results

* `Text.IsCut.eq_segments` — there is one cut of a list.
* `Console.readLines_eq` — reading line by line gives the lines of any input.
* `Console.linesOfBytes_toUTF8` — the lines of the bytes of a text are those of the text.
* `Console.nthLine_toUTF8` — calls on a text.
-/

namespace Grapher

/-! ## Cuts -/

namespace Text

section Cuts

variable {α : Type} [DecidableEq α] {stop : α}

/-- A list falls into segments without a stop: some that a stop ends, and what follows the last
stop, unless it is empty. -/
def IsCut (stop : α) (list : List α) (parts : List (List α)) : Prop :=
  ∃ ended last, list = ended.flatMap (· ++ [stop]) ++ last ∧ (∀ part ∈ ended, stop ∉ part) ∧
    stop ∉ last ∧ parts = ended ++ if last.isEmpty then [] else [last]

/-- Every list can be cut. -/
theorem exists_cut (stop : α) (list : List α) : ∃ parts, IsCut stop list parts := by
  induction list with
  | nil => exact ⟨[], [], [], rfl, by simp, by simp, rfl⟩
  | cons a rest ih =>
    obtain ⟨-, ended, last, rfl, hended, hlast, -⟩ := ih
    by_cases ha : a = stop
    · exact ⟨_, [] :: ended, last, by simp [ha], by simpa using hended, hlast, rfl⟩
    have ha' : stop ≠ a := Ne.symm ha
    -- `a` becomes the first element of the first segment
    cases ended with
    | nil => exact ⟨_, [], a :: last, by simp, by simp, by simp [ha', hlast], rfl⟩
    | cons first ended =>
      obtain ⟨hfirst, hended⟩ := List.forall_mem_cons.1 hended
      exact ⟨_, (a :: first) :: ended, last, by simp, by simpa [ha', hfirst] using hended, hlast,
        rfl⟩

/-- **There is one cut of a list**, which `segments` finds. -/
theorem IsCut.eq_segments {list : List α} {parts : List (List α)} (h : IsCut stop list parts) :
    parts = segments stop list := by
  obtain ⟨ended, last, rfl, hended, hlast, rfl⟩ := h
  induction ended with
  | nil => simp [segments_of_not_mem stop hlast]
  | cons part ended ih =>
    obtain ⟨hpart, hended⟩ := List.forall_mem_cons.1 hended
    rw [List.cons_append, ih hended, ← segments_stop stop hpart]
    simp

theorem isCut_segments (stop : α) (list : List α) : IsCut stop list (segments stop list) := by
  obtain ⟨parts, hparts⟩ := exists_cut stop list
  exact hparts.eq_segments ▸ hparts

/-- **The number of segments** is the number of stops, and one more unless the list is empty or ends
with a stop. -/
theorem IsCut.length_eq {list : List α} {parts : List (List α)} (h : IsCut stop list parts) :
    parts.length = list.count stop +
      if list = [] ∨ list.getLast? = some stop then 0 else 1 := by
  obtain ⟨ended, last, rfl, hended, hlast, rfl⟩ := h
  have hcount : (ended.flatMap (· ++ [stop]) ++ last).count stop = ended.length := by
    induction ended with
    | nil => simpa using List.count_eq_zero.2 hlast
    | cons part ended ih =>
      obtain ⟨hpart, hended⟩ := List.forall_mem_cons.1 hended
      simp only [List.flatMap_cons, List.append_assoc, List.count_append, List.count_singleton_self,
        List.count_eq_zero.2 hpart, List.length_cons] at ih ⊢
      have := ih hended
      omega
  rw [hcount, List.length_append]
  congr 1
  rcases List.eq_nil_or_concat' last with rfl | ⟨front, a, rfl⟩
  · rcases List.eq_nil_or_concat' ended with rfl | ⟨front, part, rfl⟩
    · simp
    · simp
  · have ha : a ≠ stop := by
      rintro rfl
      simp at hlast
    simp [ha]

end Cuts

/-! ## Bytes -/

/-- The bytes of a text in UTF-8. -/
def encode (text : List Char) : List UInt8 :=
  text.flatMap String.utf8EncodeChar

theorem encode_append (text other : List Char) :
    encode (text ++ other) = encode text ++ encode other :=
  List.flatMap_append

theorem data_toUTF8 (text : String) : text.toUTF8.data.toList = encode text.toList := by
  rw [String.toUTF8_eq_toByteArray, ← String.utf8Encode_toList, List.utf8Encode,
    List.data_toByteArray, encode]

/-- Bytes are decoded to the text that has them. -/
theorem fromUTF8?_eq_some_iff {bytes : List UInt8} {text : String} :
    String.fromUTF8? ⟨bytes.toArray⟩ = some text ↔ bytes = encode text.toList := by
  rw [← data_toUTF8]
  unfold String.fromUTF8?
  constructor
  · intro h
    split at h
    · rw [← Option.some_inj.1 h]
      rfl
    · cases h
  · rintro rfl
    exact dif_pos text.isValidUTF8

/-- The bytes of characters that are no newlines are no newlines. -/
theorem newline_notMem_utf8EncodeChar {c : Char} (h : c ≠ '\n') : 10 ∉ String.utf8EncodeChar c := by
  have hval : c.val.toNat ≠ 10 := fun hval => h (Char.ext (UInt32.toNat_inj.1 hval))
  have hbyte : ∀ n : Nat, n % 256 ≠ 10 → (10 : UInt8) ≠ UInt8.ofNat n := fun n hn heq =>
    hn (by simpa using (congrArg UInt8.toNat heq).symm)
  -- all bytes of a character that has more than one are greater than 127
  rw [String.utf8EncodeChar]
  split_ifs <;> simp only [List.mem_cons, List.not_mem_nil, or_false, not_or]
  · exact hbyte _ (by omega)
  · exact ⟨hbyte _ (by omega), hbyte _ (by omega)⟩
  · exact ⟨hbyte _ (by omega), hbyte _ (by omega), hbyte _ (by omega)⟩
  · exact ⟨hbyte _ (by omega), hbyte _ (by omega), hbyte _ (by omega), hbyte _ (by omega)⟩

theorem newline_notMem_encode {text : List Char} (h : '\n' ∉ text) : 10 ∉ encode text := by
  rw [encode, List.mem_flatMap]
  rintro ⟨c, hc, hbyte⟩
  refine newline_notMem_utf8EncodeChar (fun hn => h (hn ▸ hc)) hbyte

theorem encode_newline : encode ['\n'] = [10] := by
  decide +kernel

theorem encode_eq_nil_iff {text : List Char} : encode text = [] ↔ text = [] := by
  cases text <;> simp [encode, String.utf8EncodeChar_ne_nil]

/-- **The segments of a text are those of its bytes.** -/
theorem segments_encode (text : List Char) :
    segments 10 (encode text) = (segments '\n' text).map encode := by
  obtain ⟨ended, last, htext, hended, hlast, hparts⟩ := isCut_segments '\n' text
  refine (IsCut.eq_segments ⟨ended.map encode, encode last, ?_, ?_, newline_notMem_encode hlast,
    ?_⟩).symm
  · have hended :
        encode (ended.flatMap (· ++ ['\n'])) = (ended.map encode).flatMap (· ++ [10]) := by
      rw [encode, List.flatMap_assoc, List.flatMap_map]
      simp only [← encode_newline, ← encode_append]
      rfl
    rw [htext, encode_append, hended]
  · rintro part hpart
    obtain ⟨segment, hsegment, rfl⟩ := List.mem_map.1 hpart
    exact newline_notMem_encode (hended segment hsegment)
  · rw [hparts, List.map_append]
    congr 1
    by_cases hnil : last = []
    · simp [hnil, encode]
    · simp [hnil, encode_eq_nil_iff]

/-! ## Blanks -/

/-- A line is a text without the blanks around it. -/
def IsTrimmed (text line : List Char) : Prop :=
  ∃ front back, text = front ++ (line ++ back) ∧ (∀ c ∈ front, isBlank c) ∧
    (∀ c ∈ back, isBlank c) ∧ (∀ c ∈ line.head?, ¬ isBlank c) ∧ ∀ c ∈ line.getLast?, ¬ isBlank c

/-- A text is trimmed on both sides. -/
theorem isTrimmed_trim (text : List Char) : IsTrimmed text (trim text) := by
  refine ⟨text.takeWhile isBlank, (text.dropWhile isBlank).rtakeWhile isBlank, ?_,
    fun _ => List.mem_takeWhile_imp, fun _ => List.mem_rtakeWhile_imp,
    fun _ => not_isBlank_of_head?, fun _ => not_isBlank_of_getLast?⟩
  rw [trim_eq, List.rdropWhile_append_rtakeWhile, List.takeWhile_append_dropWhile]

/-- Of a text of blanks nothing is left, and of no other. -/
theorem IsTrimmed.eq_nil_iff {text line : List Char} (h : IsTrimmed text line) :
    line = [] ↔ ∀ c ∈ text, isBlank c := by
  obtain ⟨front, back, rfl, hfront, hback, hhead, -⟩ := h
  constructor
  · rintro rfl c hc
    exact (List.mem_append.1 hc).elim (hfront c) (hback c)
  · intro hblank
    cases line with
    | nil => rfl
    | cons c rest => exact absurd (hblank c (by simp)) (hhead c (by simp))

/-- A blank at the end of a text is trimmed. -/
theorem trim_concat {c : Char} (h : isBlank c) (text : List Char) :
    trim (text ++ [c]) = trim text := by
  rw [trim_eq, trim_eq, List.dropWhile_append]
  split
  · next hempty => simp [List.isEmpty_iff.1 hempty, h]
  · rw [List.rdropWhile_concat_pos _ _ _ h]

end Text

/-! ## Lines -/

namespace Console

open Text (encode)

theorem lineOfBytes_encode (text : List Char) :
    lineOfBytes (encode text) = .text (String.ofList (Text.trim text)) := by
  have hdecode : String.fromUTF8? ⟨(encode text).toArray⟩ = some (String.ofList text) :=
    Text.fromUTF8?_eq_some_iff.2 (by rw [String.toList_ofList])
  rw [lineOfBytes, hdecode]
  simp only [Text.trimmed, String.toList_ofList]

/-- Bytes are not decoded if they belong to no text. -/
theorem lineOfBytes_eq_undecodable {bytes : List UInt8} (h : ∀ text, bytes ≠ encode text) :
    lineOfBytes bytes = .undecodable := by
  have hdecode : String.fromUTF8? ⟨bytes.toArray⟩ = none :=
    Option.eq_none_iff_forall_ne_some.2 fun text htext => h _ (Text.fromUTF8?_eq_some_iff.1 htext)
  rw [lineOfBytes, hdecode]

/-- **The newline at the end of a line does not matter**, also where the bytes are not decoded. -/
theorem lineOfBytes_append_newline (bytes : List UInt8) :
    lineOfBytes (bytes ++ [10]) = lineOfBytes bytes := by
  by_cases h : ∃ text, bytes = encode text
  · obtain ⟨text, rfl⟩ := h
    rw [← Text.encode_newline, ← Text.encode_append, lineOfBytes_encode, lineOfBytes_encode,
      Text.trim_concat (by decide)]
  · have hbytes : ∀ text, bytes ≠ encode text := fun text htext => h ⟨text, htext⟩
    rw [lineOfBytes_eq_undecodable hbytes, lineOfBytes_eq_undecodable]
    intro text htext
    rcases List.eq_nil_or_concat' text with rfl | ⟨front, c, rfl⟩
    · simp [encode] at htext
    rw [Text.encode_append] at htext
    by_cases hc : c = '\n'
    · rw [hc, Text.encode_newline] at htext
      exact hbytes front (List.append_inj' htext rfl).1
    · -- then the last byte of `c` is a newline
      have hmem : 10 ∈ encode [c] := by
        have hne : encode [c] ≠ [] := fun hnil => by simpa using Text.encode_eq_nil_iff.1 hnil
        have hlast := congrArg List.getLast? htext
        rw [List.getLast?_concat, List.getLast?_append_of_ne_nil _ hne] at hlast
        exact List.mem_of_getLast? hlast.symm
      exact Text.newline_notMem_encode (by simpa using Ne.symm hc) hmem

/-- Up to a newline is read. -/
theorem takeLine_newline {bytes : List UInt8} (h : 10 ∉ bytes) (rest : List UInt8) :
    takeLine (bytes ++ 10 :: rest) = (bytes ++ [10], rest) := by
  induction bytes with
  | nil => rfl
  | cons byte bytes ih =>
    have hbyte : byte ≠ 10 := fun e => h (by simp [e])
    rw [List.cons_append, takeLine, if_neg hbyte, ih fun hmem => h (by simp [hmem])]
    rfl

/-- Without a newline all is read. -/
theorem takeLine_of_notMem {bytes : List UInt8} (h : 10 ∉ bytes) :
    takeLine bytes = (bytes, []) := by
  induction bytes with
  | nil => rfl
  | cons byte bytes ih =>
    have hbyte : byte ≠ 10 := fun e => h (by simp [e])
    rw [takeLine, if_neg hbyte, ih fun hmem => h (by simp [hmem])]

/-- **Input with a newline**: the line that it ends is read. -/
theorem readLine_newline {bytes : List UInt8} (h : 10 ∉ bytes) (rest : List UInt8) :
    readLine (bytes ++ 10 :: rest) = (some (lineOfBytes bytes), rest) := by
  simp [readLine, takeLine_newline h, lineRead?, lineOfBytes_append_newline]

/-- **Input without a newline** is the last line, unless it is empty. -/
theorem readLine_of_notMem {bytes : List UInt8} (h : 10 ∉ bytes) :
    readLine bytes = (lineRead? bytes, []) := by
  simp only [readLine, takeLine_of_notMem h]

/-- There is no next line only at the end of the input. -/
theorem eq_nil_of_readLine {input behind : List UInt8} (h : readLine input = (none, behind)) :
    input = [] := by
  cases input with
  | nil => rfl
  | cons byte rest =>
    have hread := congrArg Prod.fst h
    simp only [readLine, takeLine, lineRead?] at hread
    split at hread <;> simp at hread

theorem readLines_of_some {input behind : List UInt8} {line : Line}
    (h : readLine input = (some line, behind)) : readLines input = line :: readLines behind := by
  rw [readLines]
  split <;> simp_all

theorem readLines_of_none {input behind : List UInt8} (h : readLine input = (none, behind)) :
    readLines input = [] := by
  rw [readLines]
  split <;> simp_all

/-- **Reading line by line** up to the end gives the lines of the input.

**Proof sketch.** Induction on the segments that a newline ends. The first of them is read, and the
others are what stands behind it. -/
theorem readLines_eq (input : ByteArray) : readLines input.data.toList = linesOfBytes input := by
  obtain ⟨ended, last, hinput, hended, hlast, hparts⟩ := Text.isCut_segments 10 input.data.toList
  rw [linesOfBytes, hparts, hinput]
  clear hinput hparts
  induction ended with
  | nil =>
    rw [List.flatMap_nil, List.nil_append, List.nil_append]
    have hread := readLine_of_notMem hlast
    by_cases hnil : last = []
    · rw [readLines_of_none (by simpa [hnil, lineRead?] using hread)]
      simp [hnil]
    · rw [readLines_of_some (by simpa [hnil, lineRead?] using hread), readLines_of_none rfl]
      simp [hnil]
  | cons bytes ended ih =>
    obtain ⟨hbytes, hended⟩ := List.forall_mem_cons.1 hended
    simp only [List.flatMap_cons, List.append_assoc, List.cons_append, List.map_cons]
    rw [readLines_of_some (readLine_newline hbytes _)]
    exact congrArg _ (ih hended)

/-! ## Calls -/

/-- What the call with the given number gives in a row of calls for a line, from number zero on. -/
def nthLine : Nat → List UInt8 → Option Line
  | 0, input => (readLine input).1
  | n + 1, input => nthLine n (readLine input).2

/-- At the end of the input every call gives none. -/
theorem nthLine_nil (n : Nat) : nthLine n [] = none := by
  induction n with
  | zero => rfl
  | succ n ih => exact ih

/-- Calls give what is read line by line, and then none. -/
theorem nthLine_eq_getElem? (input : List UInt8) (n : Nat) :
    nthLine n input = (readLines input)[n]? := by
  fun_induction readLines input generalizing n with
  | case1 input line behind hread ih =>
    cases n with
    | zero => simp [nthLine, hread]
    | succ n => simpa [nthLine, hread] using ih n
  | case2 input behind hread =>
    rw [eq_nil_of_readLine hread, nthLine_nil, List.getElem?_nil]

/-- **Calls give the lines of any input**, one after the other, and then none. -/
theorem nthLine_eq (input : ByteArray) (n : Nat) :
    nthLine n input.data.toList = (linesOfBytes input)[n]? := by
  rw [nthLine_eq_getElem?, readLines_eq]

/-- **The lines of the bytes of a text are those of the text.** -/
theorem linesOfBytes_toUTF8 (text : String) : linesOfBytes text.toUTF8 = linesOfText text := by
  rw [linesOfBytes, Text.data_toUTF8, Text.segments_encode, linesOfText, Text.trimmedLines,
    List.map_map, List.map_map]
  exact List.map_congr_left fun segment _ => lineOfBytes_encode segment

/-- **Reading a text line by line loses nothing.** Calls for a line on the bytes of a text give, one
after the other, each of its segments without the blanks around it: those that a newline ends and,
unless it is empty, what follows the last newline. A segment of blanks gives the empty line. All
further calls give none. There is a line for each newline, and one more unless the text is empty or
ends with a newline.

**Proof sketch.** The segments of the bytes are the bytes of the segments of the text, since only a
newline has the byte of a newline (`Text.segments_encode`). Each call takes one of them, and its
newline is a blank (`Console.readLines_eq`). -/
theorem nthLine_toUTF8 (text : String) : ∃ segments, Text.IsCut '\n' text.toList segments ∧
    (∀ n, nthLine n text.toUTF8.data.toList =
      segments[n]?.map fun segment => .text (String.ofList (Text.trim segment))) ∧
    (∀ segment ∈ segments, Text.IsTrimmed segment (Text.trim segment) ∧
      (Text.trim segment = [] ↔ ∀ c ∈ segment, Text.isBlank c)) ∧
    (∀ n, nthLine n text.toUTF8.data.toList = none ↔ segments.length ≤ n) ∧
    segments.length = text.toList.count '\n' +
      if text.toList = [] ∨ text.toList.getLast? = some '\n' then 0 else 1 := by
  have hcut := Text.isCut_segments '\n' text.toList
  have hnth : ∀ n, nthLine n text.toUTF8.data.toList = (Text.segments '\n' text.toList)[n]?.map
      fun segment => .text (String.ofList (Text.trim segment)) := fun n => by
    rw [nthLine_eq, linesOfBytes_toUTF8, linesOfText, Text.trimmedLines, List.map_map,
      List.getElem?_map]
    rfl
  refine ⟨_, hcut, hnth, fun segment _ => ?_, fun n => ?_, hcut.length_eq⟩
  · exact ⟨Text.isTrimmed_trim segment, (Text.isTrimmed_trim segment).eq_nil_iff⟩
  · rw [hnth, Option.map_eq_none_iff, List.getElem?_eq_none_iff]

end Console

end Grapher
