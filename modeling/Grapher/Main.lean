import Grapher.Console.Run
import Grapher.Formula.EditDistance
import Std.Time.Zoned

set_option relaxedAutoImplicit false
set_option autoImplicit false

/-!
# The command line

The console, carried out with a user: prompts are shown at once, lines are read from the standard
input as they come, and data files are written to the working directory under the local time.

## Main definitions

* `Main.converse` — a dialogue carried out with a user.
* `main` — the console from the initial worksheet until it stops.
-/

namespace Grapher.Main

/-- Why a run is broken off. -/
inductive Failure
  | input
  | file (reason : String)

/-- What is written to the standard error before a run is broken off. -/
def Failure.report : Failure → String
  | .input => Console.undecodableReport
  | .file reason =>
    "unexpected error: failed to open output data file\n\ncontext:\n  " ++ reason ++ "\n"

/-- The bytes of the next line, with its line break if it has one. -/
partial def readBytes (input : IO.FS.Stream) (bytes : ByteArray) : IO ByteArray := do
  match (← input.read 1).toList with
  | [] => return bytes
  | byte :: _ => if byte = 10 then return bytes.push byte else readBytes input (bytes.push byte)

/-- The next line of the standard input, if there is one. -/
def readLine : IO (Option Line) := do
  let bytes ← readBytes (← IO.getStdin) .empty
  return Console.lineRead? bytes.data.toList

/-- Text for the standard output, shown at once. -/
def display (text : String) : IO Unit := do
  let output ← IO.getStdout
  output.putStr text
  output.flush

/-- A number with at least two digits. -/
def twoDigits (n : Int) : String :=
  if n < 10 then s!"0{n}" else s!"{n}"

/-- The local time, or the universal time where the local zone is not known. -/
def currentTime : IO Std.Time.PlainDateTime := do
  try Std.Time.PlainDateTime.now
  catch _ => return .ofWallTime (.ofTimestamp (← Std.Time.Timestamp.now) .zero)

/-- The current time as a part of a file's name. -/
def time : IO String := do
  let now ← currentTime
  let date := s!"{now.year.toInt}-{twoDigits now.month.val}-{twoDigits now.day.val}"
  return s!"{date}_{twoDigits now.hour.val}-{twoDigits now.minute.val}-{twoDigits now.second.val}"

/-- Why the system refuses a file, in the system's own words where it gives some. -/
def reason : IO.Error → String
  | .alreadyExists _ code details | .permissionDenied _ code details =>
    s!"{details} (os error {code})"
  | other => toString other

/-- A new data file is written, and its name is given. -/
def writeFile (content : String) : IO (Except Failure String) := do
  let name := Console.dataFileName (← time)
  try
    let file ← IO.FS.Handle.mk name .writeNew
    file.putStr content
    file.flush
    return .ok name
  catch failure => return .error (.file (reason failure))

/-- A dialogue carried out with a user. -/
def converse {α : Type} : Dialogue α → IO (Except Failure α)
  | .done result => return .ok result
  | .say text next => do
    display text
    converse next
  | .ask prompt next => do
    display prompt
    match ← readLine with
    | none => converse (next none)
    | some (.text answer) => converse (next (some answer))
    | some .undecodable => return .error .input
  | .save content next => do
    match ← writeFile content with
    | .ok name => converse (next name)
    | .error failure => return .error failure

/-- The console from a worksheet until it stops. -/
partial def loop (w : Worksheet) : IO (Except Failure Unit) := do
  display (Console.prompt w)
  match ← readLine with
  | none =>
    display "\n"
    return .ok ()
  | some .undecodable => return .error .input
  | some (.text answer) =>
    display "\n"
    match Console.turn .byEdits w answer with
    | .stop => return .ok ()
    | .dialogue d =>
      match ← converse d with
      | .error failure => return .error failure
      | .ok changed =>
        display "\n"
        loop changed

end Grapher.Main

/-- The console from the initial worksheet until it stops. -/
def main : IO UInt32 := do
  match ← Grapher.Main.loop .initial with
  | .ok () => return 0
  | .error failure =>
    (← IO.getStderr).putStr failure.report
    return 1
