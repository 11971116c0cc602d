import Grapher.Console.Dialogue
import Grapher.Text.Blank

set_option relaxedAutoImplicit false
set_option autoImplicit false

/-!
# What dialogues result in

A dialogue yields results of a kind if it does so whatever it is answered and whatever names its
files get. A line that answers a question has no blanks around it, and there may be none. This is a
property of the dialogue as a tree, one case for each of its nodes, and it holds of a dialogue that
is put together if it holds of its parts. It is true of whatever comes of playing the dialogue
against given lines.

## Main definitions

* `Dialogue.Yields` — whether all results of a dialogue have a property.
* `Line.Trimmed` — the lines that dialogues are answered with.

## Main results

* `Dialogue.yields_bind` — the results of a dialogue that goes on after another one.
* `Dialogue.Yields.play` — the result of a dialogue that is played against given lines.
* `Dialogue.rest_play_suffix` — a dialogue reads the lines in order and leaves the rest.
-/

namespace Grapher

/-- A line of input has no blanks around it. -/
def Line.Trimmed : Line → Prop
  | .text line => Text.trimmed line = line
  | .undecodable => True

namespace Dialogue

variable {α β : Type}

/-- All results of a dialogue have a property, whatever the answers and the names of the files. -/
def Yields (P : α → Prop) : Dialogue α → Prop
  | .done result => P result
  | .say _ next => next.Yields P
  | .ask _ next => ∀ line : Option String, (∀ answer ∈ line, Text.trimmed answer = answer) →
    (next line).Yields P
  | .save _ next => ∀ file, (next file).Yields P

/-! ## Parts of dialogues -/

variable {P : α → Prop}

/-- A result is the only one of itself. -/
@[simp]
theorem yields_pure {result : α} : (pure result : Dialogue α).Yields P ↔ P result :=
  Iff.rfl

/-- A line that is shown asks for nothing. -/
@[simp]
theorem yields_sayLine {text : String} {P : Unit → Prop} : (sayLine text).Yields P ↔ P () :=
  Iff.rfl

/-- Lines that are shown ask for nothing. -/
@[simp]
theorem yields_sayLines {lines : List String} {P : Unit → Prop} :
    (sayLines lines).Yields P ↔ P () :=
  Iff.rfl

/-- An answer is any text without blanks around it. -/
@[simp]
theorem yields_answer {prompt : String} {P : String → Prop} :
    (answer prompt).Yields P ↔ ∀ answer, Text.trimmed answer = answer → P answer := by
  constructor
  · intro h answer htrimmed
    exact h (some answer) fun other hother => Option.some.inj hother ▸ htrimmed
  · rintro h (_ | answer) htrimmed
    -- the end of the input gives an empty answer, which has no blanks around it either
    · exact h "" (by decide)
    · exact h answer (htrimmed answer rfl)

/-- A file may get any name. -/
@[simp]
theorem yields_saved {content : String} {P : String → Prop} :
    (saved content).Yields P ↔ ∀ file, P file :=
  Iff.rfl

/-- **The results of a dialogue that goes on after another one** are those of what follows each of
the results of the other one. -/
@[simp]
theorem yields_bind {d : Dialogue β} {f : β → Dialogue α} :
    (d >>= f).Yields P ↔ d.Yields fun result => (f result).Yields P := by
  induction d with
  | done result => exact Iff.rfl
  | say text next ih => exact ih
  | ask prompt next ih => exact forall_congr' fun line => imp_congr_right fun _ => ih line
  | save content next ih => exact forall_congr' ih

/-! ## Dialogues that are played -/

/-- **A dialogue reads the lines in order** and leaves the rest. -/
theorem rest_play_suffix (file : String) (d : Dialogue α) :
    ∀ lines, (d.play file lines).rest <:+ lines := by
  induction d with
  | done result => exact fun lines => List.suffix_rfl
  | say text next ih => exact ih
  | ask prompt next ih =>
    intro lines
    match lines with
    | [] => exact ih none []
    | .text line :: rest => exact (ih (some line) rest).trans (List.suffix_cons _ _)
    | .undecodable :: rest => exact List.suffix_cons _ _
  | save content next ih => exact ih file

/-- **The result of a dialogue that is played** against trimmed lines is one that it yields. -/
theorem Yields.play {file : String} {d : Dialogue α} {result : α} (h : d.Yields P) :
    ∀ {lines}, (∀ line ∈ lines, line.Trimmed) → (d.play file lines).result = some result →
      P result := by
  induction d with
  | done other =>
    intro lines _ hresult
    exact Option.some.inj hresult ▸ h
  | say text next ih => exact ih h
  | ask prompt next ih =>
    intro lines hlines hresult
    match lines with
    | [] => exact ih none (h none (by simp)) hlines hresult
    | .text line :: rest =>
      obtain ⟨hline, hrest⟩ := List.forall_mem_cons.1 hlines
      exact ih (some line) (h _ fun answer hanswer => Option.some.inj hanswer ▸ hline) hrest hresult
    | .undecodable :: rest => cases hresult
  | save content next ih => exact ih file (h file)

end Dialogue

end Grapher
