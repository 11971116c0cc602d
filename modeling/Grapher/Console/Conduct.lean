import Grapher.Console.Command
import Grapher.Console.Dialogue
import Grapher.Token
import Grapher.Worksheet.Edit
import Grapher.Worksheet.Report

set_option relaxedAutoImplicit false
set_option autoImplicit false

/-!
# Carrying out commands

Each command is a dialogue that starts with a worksheet and results in one. A blank answer leaves
things as they are. An answer that is refused is reported and ends the command; what was changed
before stays changed. So a command reports one refusal at most, and the advice for its hint is given
with the command.

## Main definitions

* `Conduct.command` — the dialogue of a command.
-/

namespace Grapher.Conduct

section Advice

variable (advice : Advice)

/-- Lines of output after an empty line. -/
def complain (messages : List String) : Dialogue Unit :=
  Dialogue.sayLines ("" :: messages)

/-- The lines on an answer that names nothing: the answer, carets below it, and the reason. -/
def underlined (answer : String) (refusal : Refusal) : List String :=
  [answer, (Excerpt.all answer).underline] ++
    (refusal.messages advice).map fun message => "parse error: " ++ message

/-! ## Formulas and variables -/

/-- A new formula of a coordinate. -/
def express (c : Coordinate) (w : Worksheet) : Dialogue Worksheet := do
  let source ← Dialogue.answer (c.letter ++ " = ")
  if source.isEmpty then return w
  match w.express c source with
  | .ok changed => return changed
  | .error refusal =>
    complain (refusal.messages advice)
    return w

/-- A variable gets the value of the answer, or keeps its own. -/
def assign (name : String) (w : Worksheet) : Dialogue Worksheet := do
  let current := (w.env.get? name).getD 0
  let source ← Dialogue.answer s!"{name} (is {Numeral.shortest current}) = "
  if source.isEmpty then return w.declare name current
  match w.evaluate source with
  | .ok value => return w.declare name value
  | .error refusal =>
    complain (refusal.messages advice)
    return w

/-- A variable is declared or changed. -/
def declare (w : Worksheet) : Dialogue Worksheet := do
  let name ← Dialogue.answer "name = "
  if name.isEmpty then return w
  if isName name then assign advice name w
  else
    Dialogue.sayLine (s!"error: '{name}' is not a valid name " ++
      "(use letters, digits and '_', not starting with a digit)")
    return w

/-- A variable is removed. -/
def undeclare (w : Worksheet) : Dialogue Worksheet := do
  let name ← Dialogue.answer "name = "
  if name.isEmpty then return w
  if w.env.contains name then return w.undeclare name
  Dialogue.sayLine s!"error: variable '{name}' is not declared"
  return w

/-! ## The range and the names -/

/-- New bounds for the given roles, until an answer is refused. -/
def bounds : List Bound.Role → Worksheet → Dialogue Worksheet
  | [], w => pure w
  | role :: rest, w => do
    let source ← Dialogue.answer s!"?{role.word} (is {(w.range.get role).source}) = "
    if source.isEmpty then bounds rest w
    else match w.setBound role source with
      | .ok changed => bounds rest changed
      | .error refusal =>
        complain (refusal.messages advice)
        return w

/-- A new range. -/
def range (w : Worksheet) : Dialogue Worksheet := do
  Dialogue.sayLines ["range = " ++ w.range.text, "", "note: leave blank to skip"]
  bounds advice Bound.Role.all w

/-- A name that a worksheet keeps: what it is for, and how it is read and replaced. -/
structure Field where
  /-- What the name is for. -/
  word : String
  /-- The name that the worksheet keeps. -/
  get : Worksheet → String
  /-- Another name is kept. -/
  set : Worksheet → String → Worksheet

/-- The names of the swept variables. -/
def fields : List Field :=
  [⟨"param", (·.parameter), fun w name => { w with parameter := name }⟩,
    ⟨"radius", (·.radius), fun w name => { w with radius := name }⟩,
    ⟨"theta", (·.angle), fun w name => { w with angle := name }⟩]

/-- New names for the given fields, until an answer is refused. -/
def rename : List Field → Worksheet → Dialogue Worksheet
  | [], w => pure w
  | field :: rest, w => do
    let name ← Dialogue.answer s!"?{field.word} (is {field.get w}) = "
    if name.isEmpty then rename rest w
    else if isName name then
      if !w.env.contains name then
        Dialogue.sayLine s!"note: '{name}' is not declared yet, use 'var' to declare it"
      rename rest (field.set w name)
    else
      Dialogue.sayLine s!"error: '{name}' is not a valid name"
      return w

/-- New names of the swept variables. -/
def names (w : Worksheet) : Dialogue Worksheet := do
  Dialogue.sayLine "note: leave blank to skip"
  rename fields w

/-- A new mode. -/
def mode (w : Worksheet) : Dialogue Worksheet := do
  let text ← Dialogue.answer s!"?mode (is {w.mode.name}) = "
  if text.isEmpty then return w
  match Mode.ofText? text with
  | some chosen => return { w with mode := chosen }
  | none =>
    complain (underlined advice text (.unknownMode text))
    return w

/-! ## Points -/

/-- The points of the current plot are printed. -/
def plot (w : Worksheet) : Dialogue Worksheet :=
  match w.startSweep w.mode with
  | .ok (started, sweep) => do
    Dialogue.sayLines (sweep.points.map fun point =>
      "  " ++ point.text (some w.precision.toNat))
    return started
  | .error missing => do
    Dialogue.sayLine ("plot error: " ++ missing.message)
    return w

/-- The content of a data file: a line on the plot, then a line for each point. -/
def dataFile (w : Worksheet) (points : List Point) : String :=
  String.join ((("# " ++ w.summary) :: points.map fun point =>
    Numeral.shortest point.x ++ " " ++ Numeral.shortest point.y).map fun line => line ++ "\n")

/-- The points of the current plot are written to a file. -/
def save (w : Worksheet) : Dialogue Worksheet :=
  match w.startSweep w.mode with
  | .ok (started, sweep) => do
    let points := sweep.points
    let file ← Dialogue.saved (dataFile started points)
    Dialogue.sayLine s!"wrote {points.length} points to {file}"
    return started
  | .error missing => do
    Dialogue.sayLine ("plot error: " ++ missing.message)
    return w

/-! ## Inspection -/

/-- An expression is evaluated once. -/
def evaluate (w : Worksheet) : Dialogue Worksheet := do
  let source ← Dialogue.answer "? "
  if source.isEmpty then return w
  match w.evaluate source with
  | .ok value => Dialogue.sayLine (Numeral.shortest value)
  | .error refusal => complain (refusal.messages advice)
  return w

/-- The lines on the program of a coordinate. -/
def programLines (c : Coordinate) (w : Worksheet) : List String :=
  (c.letter ++ " program: ") :: (w.formula c).program.listing

/-- The program of a coordinate is printed. -/
def listing (w : Worksheet) : Dialogue Worksheet := do
  let text ← Dialogue.answer "?expression (x, y, r, t) = "
  if text.isEmpty then return w
  match Coordinate.ofText? text with
  | some c => Dialogue.sayLines (programLines c w)
  | none => complain (underlined advice text (.unknownCoordinate text))
  return w

/-! ## All commands -/

/-- The dialogue of a command. -/
def command : Command → Worksheet → Dialogue Worksheet
  | .help, w => do
    Dialogue.sayLines (Command.all.map fun c => c.name ++ ": " ++ c.purpose)
    return w
  | .quit, w => pure w
  | .report, w => do
    Dialogue.sayLines w.report
    return w
  | .express c, w => express advice c w
  | .declare, w => declare advice w
  | .undeclare, w => undeclare w
  | .range, w => range advice w
  | .names, w => names w
  | .mode, w => mode advice w
  | .plot, w => plot w
  | .save, w => save w
  | .evaluate, w => evaluate advice w
  | .listing, w => listing advice w

end Advice

end Grapher.Conduct
