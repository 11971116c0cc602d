set_option relaxedAutoImplicit false
set_option autoImplicit false

/-!
# Dialogues

A dialogue says something, asks for a line, or has a file written, and goes on with the answer
until it comes to a result. It is a finite tree, so it can be carried out with a user, or played
against lines that are given beforehand. Where the input has ended there is no line to go on with,
and a question may take this for an empty answer.

## Main definitions

* `Dialogue` — a dialogue with a result.
* `Line` — a line of input, or one that cannot be decoded.
* `Dialogue.play`, `Played` — a dialogue played against given lines, and what comes of it.

## Main results

* `Dialogue.rest_play_length` — a dialogue adds no lines to the input.
-/

namespace Grapher

/-- A dialogue with a result. -/
inductive Dialogue (α : Type) : Type
  | done (result : α)
  | say (text : String) (next : Dialogue α)
  | ask (prompt : String) (next : Option String → Dialogue α)
  | save (content : String) (next : String → Dialogue α)

namespace Dialogue

variable {α β : Type}

/-- A dialogue, and another one that depends on its result. -/
def andThen : Dialogue α → (α → Dialogue β) → Dialogue β
  | .done result, f => f result
  | .say text next, f => .say text (andThen next f)
  | .ask prompt next, f => .ask prompt fun line => andThen (next line) f
  | .save content next, f => .save content fun file => andThen (next file) f

instance : Monad Dialogue where
  pure := .done
  bind := andThen

/-- A line of output. -/
def sayLine (text : String) : Dialogue Unit :=
  .say (text ++ "\n") (.done ())

/-- Lines of output. -/
def sayLines (lines : List String) : Dialogue Unit :=
  .say (String.join (lines.map fun line => line ++ "\n")) (.done ())

/-- The answer to a question, empty at the end of the input. -/
def answer (prompt : String) : Dialogue String :=
  .ask prompt fun line => .done (line.getD "")

/-- The name of a file with the given content. -/
def saved (content : String) : Dialogue String :=
  .save content .done

end Dialogue

/-- A line of input without the blanks around it, or one that cannot be decoded. -/
inductive Line
  | text (text : String)
  | undecodable
deriving DecidableEq, Repr

/-- What comes of a dialogue that is played against given lines. -/
structure Played (α : Type) where
  /-- The result; there is none if a line could not be decoded. -/
  result : Option α
  /-- All that was said and asked. -/
  output : String
  /-- The contents of the files that were written, in order. -/
  files : List String
  /-- The lines that were not read. -/
  rest : List Line

namespace Played

variable {α : Type}

/-- Something was said before. -/
def after (text : String) (played : Played α) : Played α :=
  { played with output := text ++ played.output }

/-- A file was written before. -/
def afterFile (content : String) (played : Played α) : Played α :=
  { played with files := content :: played.files }

end Played

namespace Dialogue

variable {α : Type}

/-- A dialogue played against given lines, where every file gets the name `file`. -/
def play (file : String) : Dialogue α → List Line → Played α
  | .done result, lines => ⟨some result, "", [], lines⟩
  | .say text next, lines => (next.play file lines).after text
  | .ask prompt next, [] => ((next none).play file []).after prompt
  | .ask prompt next, .text line :: lines => ((next (some line)).play file lines).after prompt
  | .ask prompt _, .undecodable :: lines => ⟨none, prompt, [], lines⟩
  | .save content next, lines => ((next file).play file lines).afterFile content

/-- **A dialogue adds no lines to the input.** -/
theorem rest_play_length (file : String) (d : Dialogue α) (lines : List Line) :
    (d.play file lines).rest.length ≤ lines.length := by
  induction d generalizing lines with
  | done result => simp [play]
  | say text next ih => simpa [play, Played.after] using ih lines
  | ask prompt next ih =>
    match lines with
    | [] => simpa [play, Played.after] using ih none []
    | .text line :: rest =>
      have := ih (some line) rest
      simp only [play, Played.after, List.length_cons]
      omega
    | .undecodable :: rest => simp [play]
  | save content next ih => simpa [play, Played.afterFile] using ih file lines

end Dialogue

end Grapher
