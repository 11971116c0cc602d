import Grapher.Console.Conduct
import Grapher.Text.Lines

set_option relaxedAutoImplicit false
set_option autoImplicit false

/-!
# Runs of the console

A run shows what the current mode plots, asks for a command and carries it out, over and over,
until the user quits or the input ends. It is broken off at a line that is not valid UTF-8. The
advice for a hint may change from one turn to the next, since variables are enumerated in a new
order each time.

## Main definitions

* `Console.linesOfBytes` — the lines of undecoded input.
* `Console.readLine`, `Console.readLines` — its lines read one after the other.
* `Console.Turn`, `Console.turn` — what the answer at the top level asks for.
* `Console.Transcript`, `Console.run` — a run on given input, and what comes of it.
-/

namespace Grapher.Console

/-- The name of a data file that is written at the given time. -/
def dataFileName (time : String) : String :=
  "cartesian_plane_output-" ++ time ++ ".data"

/-- The complaint about a line that is not valid UTF-8. -/
def undecodableReport : String :=
  "unexpected error: read from standard input failed\n\ncontext:\n" ++
    "  stream did not contain valid UTF-8\n"

/-! ## Lines -/

/-- The line that bytes encode, without the blanks around it. -/
def lineOfBytes (bytes : List UInt8) : Line :=
  match String.fromUTF8? ⟨bytes.toArray⟩ with
  | some text => .text (Text.trimmed text)
  | none => .undecodable

/-- The line that was read as the given bytes, its newline included; there is none if nothing was
read. -/
def lineRead? (bytes : List UInt8) : Option Line :=
  if bytes.isEmpty then none else some (lineOfBytes bytes)

/-- The bytes up to the first newline and with it, or all if there is none, and those behind. -/
def takeLine : List UInt8 → List UInt8 × List UInt8
  | [] => ([], [])
  | byte :: rest =>
    if byte = 10 then ([byte], rest)
    else
      let (bytes, behind) := takeLine rest
      (byte :: bytes, behind)

/-- The next line of undecoded input, if there is one, and the input behind it. -/
def readLine (input : List UInt8) : Option Line × List UInt8 :=
  let (bytes, behind) := takeLine input
  (lineRead? bytes, behind)

/-- Reading takes nothing away but the bytes of the line. -/
theorem takeLine_append (input : List UInt8) :
    (takeLine input).1 ++ (takeLine input).2 = input := by
  induction input with
  | nil => rfl
  | cons byte rest ih =>
    rw [takeLine]
    split
    · rfl
    · exact congrArg (byte :: ·) ih

/-- What is left behind a line is shorter. -/
theorem length_lt_of_readLine {input behind : List UInt8} {line : Line}
    (h : readLine input = (some line, behind)) : behind.length < input.length := by
  obtain ⟨hline, rfl⟩ := Prod.mk.inj h
  have hlength := congrArg List.length (takeLine_append input)
  have hne : (takeLine input).1 ≠ [] := by
    intro hnil
    simp [hnil, lineRead?] at hline
  have hpos := List.length_pos_iff.2 hne
  rw [List.length_append] at hlength
  omega

/-- The lines that are read one after the other until there is none. -/
def readLines (input : List UInt8) : List Line :=
  match _h : readLine input with
  | (some line, behind) => line :: readLines behind
  | (none, _) => []
termination_by input.length
decreasing_by exact length_lt_of_readLine _h

/-- The lines of undecoded input. -/
def linesOfBytes (input : ByteArray) : List Line :=
  (Text.segments 10 input.data.toList).map lineOfBytes

/-- The lines of a text. -/
def linesOfText (input : String) : List Line :=
  (Text.trimmedLines input).map .text

/-! ## Turns -/

/-- The question at the top level. -/
def prompt (w : Worksheet) : String :=
  w.summary ++ "\n> "

/-- What an answer at the top level asks for. -/
inductive Turn
  | stop
  | dialogue (d : Dialogue Worksheet)

/-- What an answer at the top level asks for, in any case of its letters. -/
def turn (advice : Advice) (w : Worksheet) (answer : String) : Turn :=
  match Command.ofName? answer.toLower with
  | some .quit => .stop
  | some command => .dialogue (Conduct.command advice command w)
  | none =>
    .dialogue do
      Dialogue.sayLine "Unknown command, try \"help\" for help"
      return w

/-! ## Runs -/

/-- What comes of a run. -/
structure Transcript where
  /-- All that was written to the standard output. -/
  output : String
  /-- The contents of the data files that were written, in order. -/
  files : List String
  /-- Whether the run was broken off at a line that could not be decoded. -/
  broken : Bool
  /-- The worksheet at the end. -/
  worksheet : Worksheet

/-- Something came before a run. -/
def Transcript.after (transcript : Transcript) (output : String) (files : List String) :
    Transcript :=
  { transcript with
    output := output ++ transcript.output
    files := files ++ transcript.files }

/-- A run on given lines after a number of turns, where every data file gets the name `file` and
every turn has an advice of its own. -/
def run (file : String) (advice : Nat → Advice) (turns : Nat) (w : Worksheet) :
    List Line → Transcript
  | [] => ⟨prompt w ++ "\n", [], false, w⟩
  | .undecodable :: _ => ⟨prompt w, [], true, w⟩
  | .text answer :: lines =>
    let shown := prompt w ++ "\n"
    match turn (advice turns) w answer with
    | .stop => ⟨shown, [], false, w⟩
    | .dialogue d =>
      let played := d.play file lines
      match played.result with
      | none => ⟨shown ++ played.output, played.files, true, w⟩
      | some changed =>
        (run file advice (turns + 1) changed played.rest).after (shown ++ played.output ++ "\n")
          played.files
termination_by lines => lines.length
decreasing_by
  have := d.rest_play_length file lines
  simp only [List.length_cons]
  omega

/-- The exit status of a run. -/
def Transcript.status (transcript : Transcript) : UInt32 :=
  if transcript.broken then 1 else 0

/-- What was written to the standard error. -/
def Transcript.complaint (transcript : Transcript) : String :=
  if transcript.broken then undecodableReport else ""

/-- A run from the initial worksheet on undecoded input, at the given time. -/
def runBytes (time : String) (advice : Nat → Advice) (input : ByteArray) : Transcript :=
  run (dataFileName time) advice 0 .initial (linesOfBytes input)

end Grapher.Console
