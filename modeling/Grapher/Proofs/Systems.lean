import Grapher.Main

set_option relaxedAutoImplicit false
set_option autoImplicit false

/-!
# Runs on a system that may refuse files

A data file is written by the system, which names it or refuses it. What it does may depend on the
files before, and on the time, which only shows in the names. A run on such a system is broken off
at a file that is refused, as it is at a line that cannot be decoded. On a system that gives every
file one name and refuses none, it is the run of the console.

## Main definitions

* `System` — what becomes of the files that a run has written.
* `Dialogue.carryOut`, `Carried` — a dialogue on a system, and what comes of it.
* `Console.runOn`, `Course` — a run on a system, and what comes of it.

## Main results

* `Console.runOn_granting` — a run on a system that refuses nothing is the run of the console.
-/

namespace Grapher

/-- The name of the file that is written with a content after files with the given contents, or the
reason for which the system refuses it. -/
abbrev System := List String → String → Except String String

/-- The system on which every file gets the same name. -/
def System.granting (file : String) : System :=
  fun _ _ => .ok file

/-! ## Dialogues -/

/-- What comes of a dialogue on a system. -/
structure Carried (α : Type) where
  /-- The result, or why the dialogue is broken off. -/
  result : Except Main.Failure α
  /-- All that was said and asked. -/
  output : String
  /-- The contents of all files that are there now, in the order in which they were written. -/
  written : List String
  /-- The lines that were not read. -/
  rest : List Line

/-- Something was said before. -/
def Carried.after {α : Type} (text : String) (carried : Carried α) : Carried α :=
  { carried with output := text ++ carried.output }

namespace Dialogue

variable {α : Type}

/-- A dialogue on a system where files with the given contents are there already. -/
def carryOut (system : System) : Dialogue α → List String → List Line → Carried α
  | .done result, written, lines => ⟨.ok result, "", written, lines⟩
  | .say text next, written, lines => (next.carryOut system written lines).after text
  | .ask prompt next, written, [] => ((next none).carryOut system written []).after prompt
  | .ask prompt next, written, .text line :: lines =>
    ((next (some line)).carryOut system written lines).after prompt
  | .ask prompt _, written, .undecodable :: lines => ⟨.error .input, prompt, written, lines⟩
  | .save content next, written, lines =>
    match system written content with
    | .ok file => (next file).carryOut system (written ++ [content]) lines
    | .error reason => ⟨.error (.file reason), "", written, lines⟩

/-- A dialogue on a system adds no lines to the input. -/
theorem rest_carryOut_length (system : System) (d : Dialogue α) :
    ∀ written lines, (d.carryOut system written lines).rest.length ≤ lines.length := by
  induction d with
  | done result => exact fun _ _ => Nat.le_refl _
  | say text next ih => exact ih
  | ask prompt next ih =>
    intro written lines
    match lines with
    | [] => exact ih none written []
    | .text line :: rest => exact Nat.le_succ_of_le (ih (some line) written rest)
    | .undecodable :: rest => exact Nat.le_succ _
  | save content next ih =>
    intro written lines
    unfold carryOut
    split
    · exact ih _ _ lines
    · exact Nat.le_refl _

/-- **A dialogue on a system that refuses nothing** is played, and its files join those that are
there. -/
theorem carryOut_granting (file : String) (d : Dialogue α) :
    ∀ written lines, d.carryOut (.granting file) written lines =
      ⟨(d.play file lines).result.elim (.error .input) .ok, (d.play file lines).output,
        written ++ (d.play file lines).files, (d.play file lines).rest⟩ := by
  induction d with
  | done result => simp [carryOut, play]
  | say text next ih => simp [carryOut, play, ih, Carried.after, Played.after]
  | ask prompt next ih =>
    intro written lines
    rcases lines with _ | ⟨⟨line⟩ | _, rest⟩
    · simp [carryOut, play, ih, Carried.after, Played.after]
    · simp [carryOut, play, ih, Carried.after, Played.after]
    · simp [carryOut, play]
  | save content next ih => simp [carryOut, play, ih, System.granting, Played.afterFile]

end Dialogue

/-! ## Runs -/

/-- What comes of a run on a system. -/
structure Course where
  /-- All that was written to the standard output. -/
  output : String
  /-- The contents of all files that are there at the end, in the order of writing. -/
  written : List String
  /-- Why the run was broken off, if it was. -/
  failure : Option Main.Failure
  /-- The worksheet at the end. -/
  worksheet : Worksheet

namespace Course

/-- Something was written before. -/
def after (text : String) (course : Course) : Course :=
  { course with output := text ++ course.output }

/-- The exit status of a run. -/
def status (course : Course) : UInt32 :=
  if course.failure.isSome then 1 else 0

end Course

namespace Console

/-- A run on a system, after a number of turns, where files with the given contents are there
already. -/
def runOn (system : System) (advice : Nat → Advice) (turns : Nat) (w : Worksheet)
    (written : List String) : List Line → Course
  | [] => ⟨prompt w ++ "\n", written, none, w⟩
  | .undecodable :: _ => ⟨prompt w, written, some .input, w⟩
  | .text answer :: lines =>
    let shown := prompt w ++ "\n"
    match turn (advice turns) w answer with
    | .stop => ⟨shown, written, none, w⟩
    | .dialogue d =>
      let carried := d.carryOut system written lines
      match carried.result with
      | .error failure => ⟨shown ++ carried.output, carried.written, some failure, w⟩
      | .ok changed =>
        (runOn system advice (turns + 1) changed carried.written carried.rest).after
          (shown ++ carried.output ++ "\n")
termination_by lines => lines.length
decreasing_by
  have := d.rest_carryOut_length system written lines
  simp only [List.length_cons]
  omega

/-- A run of the console as one on a system where files with the given contents are there. -/
def Transcript.course (written : List String) (transcript : Transcript) : Course :=
  ⟨transcript.output, written ++ transcript.files,
    bif transcript.broken then some .input else none, transcript.worksheet⟩

/-- A run of the console is known by what it is on a system. -/
theorem Transcript.course_injective (written : List String) :
    Function.Injective (course written) := by
  rintro ⟨output, files, broken, w⟩ ⟨output', files', broken', w'⟩ h
  obtain ⟨rfl, hfiles, hbroken, rfl⟩ := Course.mk.inj h
  obtain rfl := List.append_cancel_left hfiles
  obtain rfl : broken = broken' := by
    cases broken <;> cases broken' <;> first | rfl | cases hbroken
  rfl

/-- **A run on a system that refuses nothing** is the run of the console: it is broken off only at
a line that cannot be decoded, and its files join those that are there. -/
theorem runOn_granting (file : String) (advice : Nat → Advice) (turns : Nat) (w : Worksheet)
    (written : List String) (lines : List Line) :
    runOn (.granting file) advice turns w written lines =
      (run file advice turns w lines).course written := by
  fun_induction run file advice turns w lines generalizing written with
  | case1 turns w => simp [runOn, Transcript.course]
  | case2 turns w _ => simp [runOn, Transcript.course]
  | case3 turns w answer lines shown hturn => simp [runOn, hturn, shown, Transcript.course]
  | case4 turns w answer lines shown d hturn played hresult =>
    simp only [runOn, hturn, Dialogue.carryOut_granting]
    simp [played, hresult, shown, Transcript.course]
  | case5 turns w answer lines shown d hturn played changed hresult ih =>
    simp only [runOn, hturn, Dialogue.carryOut_granting]
    simp [played, hresult, shown, ih, Course.after, Transcript.after, Transcript.course]

/-- A run from the initial worksheet on undecoded input, on a system without files. -/
def runBytesOn (system : System) (advice : Nat → Advice) (input : ByteArray) : Course :=
  runOn system advice 0 .initial [] (linesOfBytes input)

end Console

end Grapher
