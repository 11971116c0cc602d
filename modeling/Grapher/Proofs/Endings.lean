import Grapher.Formula.EditDistance
import Grapher.Proofs.Systems

set_option relaxedAutoImplicit false
set_option autoImplicit false

/-!
# Newlines at the end of the input

Every question of a command takes the end of the input for an empty answer, and at the top level the
end of the input ends the run. So newlines behind the input change nothing but what is shown at the
end: the first one may end the last line, some may answer questions that the end of the input would
answer in the same way, and each of the others is a turn at the top level that asks for no command.

Builtins and variables are enumerated in an order that may be another one for each turn and for each
run, and hints for unknown names may depend on it. What is said of two runs is said of two that have
the same orders, and it holds for all of them.

## Main definitions

* `Line.blanks` — empty lines.
* `Dialogue.EndsBlank` — whether a dialogue takes the end of the input for an empty line.
* `Console.idleTurn` — what is shown from one empty answer at the top level to the next question.
* `Text.newlines` — newlines, as bytes.

## Main results

* `Conduct.endsBlank_command` — all commands take the end of the input for an empty line.
* `Dialogue.EndsBlank.carryOut_append` — such a dialogue takes some of the empty lines behind its
  lines.
* `Console.runOn_append_blanks` — empty lines behind the lines of a run only show idle turns.
* `Console.runBytesOn_append_newlines` — newlines behind the input only show idle turns.
-/

namespace Grapher

/-- Empty lines. -/
def Line.blanks (count : Nat) : List Line :=
  List.replicate count (.text "")

/-! ## Dialogues -/

namespace Dialogue

variable {α β : Type}

/-- A dialogue takes the end of the input for an empty line, wherever it asks. -/
def EndsBlank : Dialogue α → Prop
  | .done _ => True
  | .say _ next => next.EndsBlank
  | .ask _ next => next none = next (some "") ∧ ∀ line, (next line).EndsBlank
  | .save _ next => ∀ file, (next file).EndsBlank

/-- A dialogue that goes on after another one. -/
theorem EndsBlank.bind {d : Dialogue β} {f : β → Dialogue α} (h : d.EndsBlank)
    (hf : ∀ result, (f result).EndsBlank) : (d >>= f).EndsBlank := by
  induction d with
  | done result => exact hf result
  | say text next ih => exact ih h
  | ask prompt next ih => exact ⟨congrArg (andThen · f) h.1, fun line => ih line (h.2 line)⟩
  | save content next ih => exact fun file => ih file (h file)

/-- **A question takes the end of the input for an empty answer.** -/
theorem endsBlank_answer {prompt : String} {f : String → Dialogue α}
    (hf : ∀ answer, (f answer).EndsBlank) : (answer prompt >>= f).EndsBlank :=
  EndsBlank.bind ⟨rfl, fun _ => trivial⟩ hf

/-- A line is shown before the rest. -/
theorem endsBlank_sayLine {text : String} {f : Unit → Dialogue α} (hf : (f ()).EndsBlank) :
    (sayLine text >>= f).EndsBlank :=
  hf

/-- Lines are shown before the rest. -/
theorem endsBlank_sayLines {lines : List String} {f : Unit → Dialogue α} (hf : (f ()).EndsBlank) :
    (sayLines lines >>= f).EndsBlank :=
  hf

/-- **A dialogue takes some of the empty lines behind its lines**, as many as the questions that
it asks at the end of the input if there are so many, and leaves the others. Nothing else changes.

**Proof sketch.** Induction on the dialogue. At the end of the lines an empty line answers as the
end of the input does. -/
theorem EndsBlank.carryOut_append (system : System) {d : Dialogue α} (h : d.EndsBlank) :
    ∀ written lines count, ∃ left ≤ count,
      d.carryOut system written (lines ++ Line.blanks count) =
        { d.carryOut system written lines with
          rest := (d.carryOut system written lines).rest ++ Line.blanks left } := by
  induction d with
  | done result => exact fun written lines count => ⟨count, Nat.le_refl _, rfl⟩
  | say text next ih =>
    intro written lines count
    obtain ⟨left, hle, heq⟩ := ih h written lines count
    exact ⟨left, hle, congrArg (Carried.after text) heq⟩
  | ask prompt next ih =>
    intro written lines count
    obtain ⟨hend, hnext⟩ := h
    match lines with
    | [] =>
      cases count with
      | zero => exact ⟨0, Nat.le_refl _, by simp [Line.blanks]⟩
      | succ count =>
        obtain ⟨left, hle, heq⟩ := ih (some "") (hnext _) written [] count
        refine ⟨left, Nat.le_succ_of_le hle, ?_⟩
        rw [← hend] at heq
        have hfirst : (ask prompt next).carryOut system written ([] ++ Line.blanks (count + 1)) =
            ((next none).carryOut system written ([] ++ Line.blanks count)).after prompt := by
          rw [hend]
          rfl
        rw [hfirst, heq]
        rfl
    | .text line :: rest =>
      obtain ⟨left, hle, heq⟩ := ih (some line) (hnext _) written rest count
      exact ⟨left, hle, congrArg (Carried.after prompt) heq⟩
    | .undecodable :: rest => exact ⟨count, Nat.le_refl _, rfl⟩
  | save content next ih =>
    intro written lines count
    unfold carryOut
    cases system written content with
    | ok file => exact ih file (h file) (written ++ [content]) lines count
    | error reason => exact ⟨count, Nat.le_refl _, rfl⟩

end Dialogue

/-! ## Commands -/

namespace Conduct

open Dialogue (endsBlank_answer endsBlank_sayLine endsBlank_sayLines)

variable (advice : Advice)

/-- Without a formula nothing is changed. -/
theorem endsBlank_express (c : Coordinate) (w : Worksheet) : (express advice c w).EndsBlank := by
  unfold express
  refine endsBlank_answer fun source => ?_
  split
  · trivial
  · split
    · trivial
    · exact endsBlank_sayLines trivial

/-- Without a value the variable is declared as zero. -/
theorem endsBlank_assign (name : String) (w : Worksheet) : (assign advice name w).EndsBlank := by
  unfold assign
  refine endsBlank_answer fun source => ?_
  split
  · trivial
  · split
    · trivial
    · exact endsBlank_sayLines trivial

/-- Without a name nothing is declared, and a name is followed by a value. -/
theorem endsBlank_declare (w : Worksheet) : (declare advice w).EndsBlank := by
  unfold declare
  refine endsBlank_answer fun name => ?_
  split
  · trivial
  · split
    · exact endsBlank_assign advice name w
    · exact endsBlank_sayLine trivial

/-- Without a name nothing is undeclared. -/
theorem endsBlank_undeclare (w : Worksheet) : (undeclare w).EndsBlank := by
  unfold undeclare
  refine endsBlank_answer fun name => ?_
  split
  · trivial
  · split
    · trivial
    · exact endsBlank_sayLine trivial

/-- The bounds are asked for one after the other. -/
theorem endsBlank_bounds (roles : List Bound.Role) :
    ∀ w : Worksheet, (bounds advice roles w).EndsBlank := by
  induction roles with
  | nil => exact fun w => trivial
  | cons role rest ih =>
    intro w
    unfold bounds
    refine endsBlank_answer fun source => ?_
    split
    · exact ih w
    · split
      · next changed _ => exact ih changed
      · exact endsBlank_sayLines trivial

/-- The names are asked for one after the other. -/
theorem endsBlank_rename (fields : List Field) :
    ∀ w : Worksheet, (rename fields w).EndsBlank := by
  induction fields with
  | nil => exact fun w => trivial
  | cons field rest ih =>
    intro w
    unfold rename
    refine endsBlank_answer fun name => ?_
    split
    · exact ih w
    · split
      · split
        · exact endsBlank_sayLine (ih _)
        · exact ih _
      · exact endsBlank_sayLine trivial

/-- Without a mode the old one is kept. -/
theorem endsBlank_mode (w : Worksheet) : (mode advice w).EndsBlank := by
  unfold mode
  refine endsBlank_answer fun text => ?_
  split
  · trivial
  · split
    · trivial
    · exact endsBlank_sayLines trivial

/-- A plot asks nothing. -/
theorem endsBlank_plot (w : Worksheet) : (plot w).EndsBlank := by
  unfold plot
  split
  · exact endsBlank_sayLines trivial
  · exact endsBlank_sayLine trivial

/-- A plot that is saved asks nothing. -/
theorem endsBlank_save (w : Worksheet) : (save w).EndsBlank := by
  unfold save
  split
  · exact fun file => endsBlank_sayLine trivial
  · exact endsBlank_sayLine trivial

/-- Without a formula nothing is evaluated. -/
theorem endsBlank_evaluate (w : Worksheet) : (evaluate advice w).EndsBlank := by
  unfold evaluate
  refine endsBlank_answer fun source => ?_
  split
  · trivial
  · split
    · exact endsBlank_sayLine trivial
    · exact endsBlank_sayLines trivial

/-- Without a mode nothing is listed. -/
theorem endsBlank_listing (w : Worksheet) : (listing advice w).EndsBlank := by
  unfold listing
  refine endsBlank_answer fun text => ?_
  split
  · trivial
  · split
    · exact endsBlank_sayLines trivial
    · exact endsBlank_sayLines trivial

/-- **All commands take the end of the input for an empty line**, at each of their questions. -/
theorem endsBlank_command (c : Command) (w : Worksheet) : (command advice c w).EndsBlank := by
  cases c with
  | help | report => exact endsBlank_sayLines trivial
  | quit => trivial
  | express c => exact endsBlank_express advice c w
  | declare => exact endsBlank_declare advice w
  | undeclare => exact endsBlank_undeclare w
  | range => exact endsBlank_sayLines (endsBlank_bounds advice Bound.Role.all w)
  | names => exact endsBlank_sayLine (endsBlank_rename fields w)
  | mode => exact endsBlank_mode advice w
  | plot => exact endsBlank_plot w
  | save => exact endsBlank_save w
  | evaluate => exact endsBlank_evaluate advice w
  | listing => exact endsBlank_listing advice w

end Conduct

/-! ## Runs -/

namespace Console

/-- The answer to a word that is no command. -/
def unknownReport : String :=
  "Unknown command, try \"help\" for help\n"

/-- What is shown behind an empty answer at the top level, up to the next question. -/
def idleTurn (w : Worksheet) : String :=
  unknownReport ++ "\n" ++ (prompt w ++ "\n")

/-- A number of idle turns. -/
def idleTurns (w : Worksheet) : Nat → String
  | 0 => ""
  | count + 1 => idleTurn w ++ idleTurns w count

/-- An empty answer at the top level asks for no command. -/
theorem turn_empty (advice : Advice) (w : Worksheet) :
    turn advice w "" = .dialogue (.say unknownReport (.done w)) := by
  have hnone : Command.ofName? "".toLower = none := by decide +kernel
  rw [turn, hnone]
  rfl

/-- Whatever a turn asks for takes the end of the input for an empty line. -/
theorem endsBlank_turn {advice : Advice} {w : Worksheet} {answer : String} {d : Dialogue Worksheet}
    (h : turn advice w answer = .dialogue d) : d.EndsBlank := by
  unfold turn at h
  split at h
  · cases h
  · next c _ _ =>
    cases h
    exact Conduct.endsBlank_command advice c w
  · cases h
    exact Dialogue.endsBlank_sayLine trivial

/-- Empty lines at the top level are idle turns: they change neither the worksheet nor the files. -/
theorem runOn_blanks (system : System) (advice : Nat → Advice) (w : Worksheet)
    (written : List String) (count : Nat) : ∀ turns,
    runOn system advice turns w written (Line.blanks count) =
      ⟨prompt w ++ "\n" ++ idleTurns w count, written, none, w⟩ := by
  induction count with
  | zero => simp [Line.blanks, runOn, idleTurns]
  | succ count ih =>
    intro turns
    have hcons : Line.blanks (count + 1) = .text "" :: Line.blanks count := rfl
    rw [hcons, runOn, turn_empty]
    simp [Dialogue.carryOut, Carried.after, ih, Course.after, idleTurns, idleTurn,
      String.append_assoc]

/-- **Empty lines behind the lines of a run** only show idle turns at the end.

**Proof sketch.** Induction along the run. A run that stops or is broken off does not read them, and
a command takes some of them (`Dialogue.EndsBlank.carryOut_append`). -/
theorem runOn_append_blanks (system : System) (advice : Nat → Advice) (turns : Nat) (w : Worksheet)
    (written : List String) (lines : List Line) : ∀ count, ∃ idle ≤ count,
      runOn system advice turns w written (lines ++ Line.blanks count) =
        { runOn system advice turns w written lines with
          output := (runOn system advice turns w written lines).output ++
            idleTurns (runOn system advice turns w written lines).worksheet idle } := by
  fun_induction runOn system advice turns w written lines with
  | case1 turns w written =>
    intro count
    refine ⟨count, Nat.le_refl _, ?_⟩
    rw [List.nil_append, runOn_blanks]
  | case2 turns w written _ =>
    intro count
    exact ⟨0, Nat.zero_le _, by simp [runOn, idleTurns]⟩
  | case3 turns w written answer lines shown hturn =>
    intro count
    exact ⟨0, Nat.zero_le _, by simp [runOn, idleTurns, hturn, shown]⟩
  | case4 turns w written answer lines shown d hturn carried failure hresult =>
    intro count
    obtain ⟨left, -, heq⟩ := (endsBlank_turn hturn).carryOut_append system written lines count
    refine ⟨0, Nat.zero_le _, ?_⟩
    rw [List.cons_append, runOn, hturn]
    simp only [heq, hresult, carried, idleTurns, String.append_empty, shown]
  | case5 turns w written answer lines shown d hturn carried changed hresult ih =>
    intro count
    obtain ⟨left, hle, heq⟩ := (endsBlank_turn hturn).carryOut_append system written lines count
    obtain ⟨idle, hidle, hrun⟩ := ih left
    refine ⟨idle, Nat.le_trans hidle hle, ?_⟩
    rw [List.cons_append, runOn, hturn]
    simp only [heq, hresult, carried, hrun, Course.after, shown, String.append_assoc]

end Console

/-! ## Bytes -/

section Stops

variable {α : Type} [DecidableEq α]

/-- Stops at the end of a list: the first one may end the last segment, and before each of the
others stands an empty one. -/
theorem Text.segments_append_replicate (stop : α) (list : List α) (count : Nat) :
    ∃ more ≤ count, segments stop (list ++ List.replicate count stop) =
      segments stop list ++ List.replicate more [] := by
  have hstops : ∀ count, segmentsFrom stop [] (List.replicate count stop) =
      List.replicate count [] := by
    intro count
    induction count with
    | zero => rfl
    | succ count ih => simp [List.replicate_succ, segmentsFrom, ih]
  suffices hfrom : ∀ begun : List α, ∃ more ≤ count,
      segmentsFrom stop begun (list ++ List.replicate count stop) =
        segmentsFrom stop begun list ++ List.replicate more [] from hfrom []
  induction list with
  | nil =>
    intro begun
    by_cases hbegun : begun = []
    · exact ⟨count, Nat.le_refl _, by simp [hbegun, segmentsFrom, hstops]⟩
    cases count with
    | zero => exact ⟨0, Nat.le_refl _, by simp⟩
    | succ count =>
      refine ⟨count, Nat.le_succ _, ?_⟩
      simp [List.replicate_succ, segmentsFrom, hstops, hbegun]
  | cons a rest ih =>
    intro begun
    by_cases ha : a = stop
    · obtain ⟨more, hle, heq⟩ := ih []
      exact ⟨more, hle, by simp [segmentsFrom, ha, heq]⟩
    · obtain ⟨more, hle, heq⟩ := ih (a :: begun)
      exact ⟨more, hle, by simp [segmentsFrom, ha, heq]⟩

end Stops

/-- Newlines, as bytes. -/
def Text.newlines (count : Nat) : ByteArray :=
  ⟨Array.replicate count 10⟩

namespace Console

/-- Newlines behind an input are empty lines behind its lines, unless one ends the last line. -/
theorem linesOfBytes_append_newlines (input : ByteArray) (count : Nat) :
    ∃ more ≤ count,
      linesOfBytes (input ++ Text.newlines count) = linesOfBytes input ++ Line.blanks more := by
  obtain ⟨more, hle, heq⟩ := Text.segments_append_replicate (10 : UInt8) input.data.toList count
  refine ⟨more, hle, ?_⟩
  have hdata : (input ++ Text.newlines count).data.toList =
      input.data.toList ++ List.replicate count 10 := by
    simp [Text.newlines]
  have hblank : lineOfBytes [] = .text "" := by decide +kernel
  rw [linesOfBytes, linesOfBytes, hdata, heq, List.map_append, List.map_replicate, hblank]
  rfl

/-- Newlines behind the input of a run on a system only show idle turns at the end. -/
theorem exists_idle_runBytesOn (system : System) (advice : Nat → Advice) (input : ByteArray)
    (count : Nat) :
    ∃ idle ≤ count, runBytesOn system advice (input ++ Text.newlines count) =
      { runBytesOn system advice input with
        output := (runBytesOn system advice input).output ++
          idleTurns (runBytesOn system advice input).worksheet idle } := by
  obtain ⟨more, hmore, hlines⟩ := linesOfBytes_append_newlines input count
  obtain ⟨idle, hidle, hrun⟩ :=
    runOn_append_blanks system advice 0 .initial [] (linesOfBytes input) more
  refine ⟨idle, Nat.le_trans hidle hmore, ?_⟩
  rw [runBytesOn, hlines, hrun]
  rfl

/-- **Newlines behind the input** change nothing but what is shown at the end. On every system, also
one that refuses a file, whatever measures the similarity of words and in whatever orders builtins
and variables are enumerated at each turn, and for every input, a run on the input with newlines
behind it has the exit status, the files and the worksheet of the run on the input, and its output
goes on behind the output of that run with idle turns, at most one for each newline. So do the runs
of the console, where no file is refused.

**Proof sketch.** The newlines are empty lines behind the lines of the input, but for one that may
end the last line (`Console.linesOfBytes_append_newlines`). The questions of a command take some of
the empty lines, where the end of the input would give the same answers
(`Conduct.endsBlank_command`), and the others are idle turns (`Console.runOn_append_blanks`). -/
theorem runBytesOn_append_newlines (system : System) (time : String) (advice : Nat → Advice)
    (input : ByteArray) (count : Nat) :
    ((runBytesOn system advice (input ++ Text.newlines count)).status =
        (runBytesOn system advice input).status ∧
      ∃ idle ≤ count, runBytesOn system advice (input ++ Text.newlines count) =
        { runBytesOn system advice input with
          output := (runBytesOn system advice input).output ++
            idleTurns (runBytesOn system advice input).worksheet idle }) ∧
      (runBytes time advice (input ++ Text.newlines count)).status =
        (runBytes time advice input).status ∧
      ∃ idle ≤ count, runBytes time advice (input ++ Text.newlines count) =
        { runBytes time advice input with
          output := (runBytes time advice input).output ++
            idleTurns (runBytes time advice input).worksheet idle } := by
  obtain ⟨idle, hidle, hrun⟩ := exists_idle_runBytesOn system advice input count
  refine ⟨⟨?_, idle, hidle, hrun⟩, ?_⟩
  · rw [hrun]
    rfl
  -- a run of the console is one on the system that gives every file the name of that time
  obtain ⟨idle, hidle, hrun⟩ :=
    exists_idle_runBytesOn (.granting (dataFileName time)) advice input count
  simp only [runBytesOn, runOn_granting] at hrun
  have hsame : runBytes time advice (input ++ Text.newlines count) =
      { runBytes time advice input with
        output := (runBytes time advice input).output ++
          idleTurns (runBytes time advice input).worksheet idle } :=
    Transcript.course_injective [] hrun
  refine ⟨?_, idle, hidle, hsame⟩
  rw [hsame]
  rfl

/-- An input that ends between two questions of a command: it names a variable, and there is no
value. -/
def unanswered : ByteArray :=
  "var\nk".toUTF8

/-- At the question for the value an empty line does what the end of the input does: the variable is
declared. Of two newlines the first one ends the line of the name, and the second one answers. -/
theorem runBytesOn_append_newlines_unanswered :
    linesOfBytes unanswered = [.text "var", .text "k"] ∧
      linesOfBytes (unanswered ++ Text.newlines 2) = [.text "var", .text "k", .text ""] ∧
      Worksheet.initial.env.get? "k" = none ∧
      (runBytes "now" (fun _ => .byEdits) unanswered).worksheet.env.get? "k" = some 0 ∧
      ∃ idle ≤ 2, runBytes "now" (fun _ => .byEdits) (unanswered ++ Text.newlines 2) =
        { runBytes "now" (fun _ => .byEdits) unanswered with
          output := (runBytes "now" (fun _ => .byEdits) unanswered).output ++
            idleTurns (runBytes "now" (fun _ => .byEdits) unanswered).worksheet idle } := by
  have hlines : linesOfBytes unanswered = [.text "var", .text "k"] := by decide +kernel
  have hturn : turn .byEdits .initial "var" = .dialogue (Conduct.declare .byEdits .initial) := by
    have hcommand : Command.ofName? "var".toLower = some .declare := by decide +kernel
    rw [turn, hcommand]
    rfl
  obtain ⟨w, hw, hvalue⟩ : ∃ w ∈ ((Conduct.declare .byEdits .initial).play (dataFileName "now")
      [.text "k"]).result, w.env.get? "k" = some 0 := by
    decide +kernel
  have hrest : ((Conduct.declare .byEdits .initial).play (dataFileName "now")
      [.text "k"]).rest = [] := by
    decide +kernel
  obtain ⟨-, -, idle, hidle, hrun⟩ :=
    runBytesOn_append_newlines (.granting "now") "now" (fun _ => .byEdits) unanswered 2
  refine ⟨hlines, by decide +kernel, by decide +kernel, ?_, idle, hidle, hrun⟩
  rw [runBytes, hlines, run, hturn]
  simp only [Option.mem_def.1 hw, hrest, run, Transcript.after]
  exact hvalue

end Console

end Grapher
