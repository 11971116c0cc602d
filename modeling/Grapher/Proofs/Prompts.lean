import Grapher.Console.Run
import Grapher.Formula.EditDistance
import Grapher.Proofs.Dialogues
import Grapher.Proofs.Names
import Grapher.Proofs.Sessions

set_option relaxedAutoImplicit false
set_option autoImplicit false

/-!
# What the console keeps

At every prompt of a run of the console all variables have proper names, the texts of formulas and
bounds are neither empty nor surrounded by blanks, and the name of the worksheet and the number of
places are those of the start: the console declares a variable only under a proper name, takes no
empty answer for a text, and has no command for the rest. So the name of a variable can be typed,
and evaluating it gives the variable back.

## Main definitions

* `Worksheet.Usable` — what the console keeps.
* `Console.Prompts` — the worksheets at the prompts of a run, with the lines that are left.

## Main results

* `Conduct.yields_command` — every command keeps a worksheet usable, whatever it is answered.
* `Console.run_of_prompts` — a run goes on at each of its prompts.
* `Console.usable_at_prompts` — what holds at every prompt.
-/

namespace Grapher

/-! ## Usable worksheets -/

/-- A text is not empty and has no blanks around it. -/
structure Text.Proper (text : String) : Prop where
  /-- The text is not empty. -/
  nonempty : text ≠ ""
  /-- There are no blanks around the text. -/
  trimmed : Text.trimmed text = text

namespace Worksheet

/-- What the console keeps of a worksheet. -/
structure Usable (w : Worksheet) : Prop where
  /-- The variables have proper names. -/
  declared : ∀ name, w.env.contains name → isName name
  /-- The name of the parameter is proper. -/
  parameter : isName w.parameter
  /-- The name of the radius is proper. -/
  radius : isName w.radius
  /-- The name of the angle is proper. -/
  angle : isName w.angle
  /-- The texts of the formulas are proper. -/
  formulas : ∀ c, Text.Proper (w.formula c).source
  /-- The texts of the bounds are proper. -/
  bounds : ∀ role, Text.Proper (w.range.get role).source
  /-- The name of the worksheet is that of the start. -/
  name : w.name = initial.name
  /-- The number of places is that of the start. -/
  precision : w.precision = initial.precision

/-- The worksheet to start with is usable. -/
theorem initial_usable : initial.Usable := by
  have hvariables : ∀ name ∈ initial.env.names, isName name := by decide +kernel
  have hformulas : ∀ c ∈ Coordinate.all, (initial.formula c).source ≠ "" ∧
      Text.trimmed (initial.formula c).source = (initial.formula c).source := by
    decide +kernel
  have hbounds : ∀ role ∈ Bound.Role.all, (initial.range.get role).source ≠ "" ∧
      Text.trimmed (initial.range.get role).source = (initial.range.get role).source := by
    decide +kernel
  refine ⟨fun name h => hvariables name (Environment.mem_names_iff.2 h), by decide, by decide,
    by decide, fun c => ?_, fun role => ?_, rfl, rfl⟩
  · obtain ⟨hnonempty, htrimmed⟩ := hformulas c (Coordinate.mem_all c)
    exact ⟨hnonempty, htrimmed⟩
  · obtain ⟨hnonempty, htrimmed⟩ := hbounds role (by cases role <;> decide)
    exact ⟨hnonempty, htrimmed⟩

namespace Usable

variable {w later : Worksheet}

/-- A formula with a proper text. -/
theorem express (h : w.Usable) {c : Coordinate} {source : String} (hsource : Text.Proper source)
    (hlater : w.express c source = .ok later) : later.Usable := by
  obtain ⟨formula, hformula, rfl⟩ := express_eq_ok_iff.1 hlater
  obtain rfl := (Formula.ofSource_eq_ok_iff.1 hformula).1
  refine { h with formulas := fun d => ?_ }
  rw [formula_set]
  split
  · exact hsource
  · exact h.formulas d

/-- A bound with a proper text. -/
theorem setBound (h : w.Usable) {role : Bound.Role} {source : String}
    (hsource : Text.Proper source) (hlater : w.setBound role source = .ok later) :
    later.Usable := by
  obtain ⟨bound, hbound, rfl⟩ := setBound_eq_ok_iff.1 hlater
  have htext : bound.source = source :=
    (boundOf_eq_ok_iff.1 hbound).2.1.trans hsource.trimmed
  refine { h with bounds := fun other => ?_ }
  rw [range_set]
  split
  · exact htext ▸ hsource
  · exact h.bounds other

/-- A variable with a proper name. -/
theorem declare (h : w.Usable) {name : String} (hname : isName name) (value : Float) :
    (w.declare name value).Usable := by
  refine { h with declared := fun other hother => ?_ }
  rw [Environment.contains, get?_declare] at hother
  split at hother
  · next heq => exact heq ▸ hname
  · exact h.declared other hother

/-- A variable less. -/
theorem undeclare (h : w.Usable) (name : String) : (w.undeclare name).Usable := by
  refine { h with declared := fun other hother => ?_ }
  rw [Environment.contains, get?_undeclare] at hother
  split at hother
  · cases hother
  · exact h.declared other hother

/-- Another mode. -/
theorem mode (h : w.Usable) (mode : Mode) : Usable { w with mode := mode } :=
  { h with }

/-- A sweep that starts. -/
theorem startSweep (h : w.Usable) {mode : Mode} {sweep : Sweep}
    (hstart : w.startSweep mode = .ok (later, sweep)) : later.Usable := by
  obtain ⟨-, rfl, -⟩ := startSweep_eq_ok hstart
  exact h.mode mode

end Usable

end Worksheet

/-! ## Commands -/

namespace Conduct

variable {advice : Advice} {w : Worksheet}

/-- An answer that is not empty is a proper text. -/
theorem proper_of_answer {answer : String} (htrimmed : Text.trimmed answer = answer)
    (hnonempty : ¬ answer.isEmpty) : Text.Proper answer :=
  ⟨fun h => hnonempty (by rw [h]; rfl), htrimmed⟩

/-- A formula is read or refused. -/
theorem yields_express (h : w.Usable) (c : Coordinate) :
    (express advice c w).Yields Worksheet.Usable := by
  simp only [express, Dialogue.yields_bind, Dialogue.yields_answer]
  intro answer htrimmed
  split
  · exact h
  · next hnonempty =>
    split
    · next changed hchanged => exact h.express (proper_of_answer htrimmed hnonempty) hchanged
    · exact h

/-- A value is computed or refused, and declared under a proper name. -/
theorem yields_assign (h : w.Usable) {name : String} (hname : isName name) :
    (assign advice name w).Yields Worksheet.Usable := by
  simp only [assign, Dialogue.yields_bind, Dialogue.yields_answer]
  intro answer _
  split
  · exact h.declare hname _
  · split
    · exact h.declare hname _
    · exact h

/-- Only proper names are declared. -/
theorem yields_declare (h : w.Usable) : (declare advice w).Yields Worksheet.Usable := by
  simp only [declare, Dialogue.yields_bind, Dialogue.yields_answer]
  intro name _
  split
  · exact h
  · split
    · next hname => exact yields_assign h hname
    · exact h

/-- A variable is undeclared or not. -/
theorem yields_undeclare (h : w.Usable) : (undeclare w).Yields Worksheet.Usable := by
  simp only [undeclare, Dialogue.yields_bind, Dialogue.yields_answer]
  intro name _
  split
  · exact h
  · split
    · simpa using h.undeclare name
    · simpa using h

/-- The bounds are asked for one after the other, until an answer is refused. -/
theorem yields_bounds (roles : List Bound.Role) :
    ∀ {w : Worksheet}, w.Usable → (bounds advice roles w).Yields Worksheet.Usable := by
  induction roles with
  | nil => exact fun h => h
  | cons role rest ih =>
    intro w h
    simp only [bounds, Dialogue.yields_bind, Dialogue.yields_answer]
    intro answer htrimmed
    split
    · exact ih h
    · next hnonempty =>
      split
      · next changed hchanged =>
        exact ih (h.setBound (proper_of_answer htrimmed hnonempty) hchanged)
      · exact h

/-- The names are asked for one after the other, until an answer is refused. -/
theorem yields_rename (fields : List Field)
    (hset : ∀ field ∈ fields, ∀ (w : Worksheet) (name : String), w.Usable → isName name →
      (field.set w name).Usable) :
    ∀ {w : Worksheet}, w.Usable → (rename fields w).Yields Worksheet.Usable := by
  induction fields with
  | nil => exact fun h => h
  | cons field rest ih =>
    intro w h
    obtain ⟨hfield, hrest⟩ := List.forall_mem_cons.1 hset
    simp only [rename, Dialogue.yields_bind, Dialogue.yields_answer]
    intro name _
    split
    · exact ih hrest h
    · split
      · next hname =>
        have hnext : (rename rest (field.set w name)).Yields Worksheet.Usable :=
          ih hrest (hfield w name h hname)
        split
        · exact hnext
        · exact hnext
      · exact h

/-- Only proper names are given to the parameter and the coordinates. -/
theorem yields_names (h : w.Usable) : (names w).Yields Worksheet.Usable := by
  refine yields_rename fields ?_ h
  simp only [fields, List.forall_mem_cons, List.not_mem_nil, false_imp_iff, implies_true, and_true]
  exact ⟨fun w name h hname => { h with parameter := hname },
    fun w name h hname => { h with radius := hname },
    fun w name h hname => { h with angle := hname }⟩

/-- Another mode is chosen or not. -/
theorem yields_mode (h : w.Usable) : (mode advice w).Yields Worksheet.Usable := by
  simp only [mode, Dialogue.yields_bind, Dialogue.yields_answer]
  intro text _
  split
  · exact h
  · split
    · exact h.mode _
    · exact h

/-- A sweep is started or refused. -/
theorem yields_plot (h : w.Usable) : (plot w).Yields Worksheet.Usable := by
  unfold plot
  split
  · next hstart => simpa using h.startSweep hstart
  · simpa using h

/-- A sweep is started and saved, or refused. -/
theorem yields_save (h : w.Usable) : (save w).Yields Worksheet.Usable := by
  unfold save
  split
  · next hstart => simpa using h.startSweep hstart
  · simpa using h

/-- An evaluation leaves the worksheet alone. -/
theorem yields_evaluate (h : w.Usable) : (evaluate advice w).Yields Worksheet.Usable := by
  simp only [evaluate, Dialogue.yields_bind, Dialogue.yields_answer]
  intro source _
  split
  · exact h
  · split <;> exact h

/-- A listing leaves the worksheet alone. -/
theorem yields_listing (h : w.Usable) : (listing advice w).Yields Worksheet.Usable := by
  simp only [listing, Dialogue.yields_bind, Dialogue.yields_answer]
  intro text _
  split
  · exact h
  · split <;> exact h

/-- **Every command keeps a worksheet usable**, whatever it is answered. -/
theorem yields_command (h : w.Usable) (c : Command) :
    (command advice c w).Yields Worksheet.Usable := by
  cases c with
  | help | quit | report => simpa [command] using h
  | express c => exact yields_express h c
  | declare => exact yields_declare h
  | undeclare => exact yields_undeclare h
  | range => exact yields_bounds Bound.Role.all h
  | names => exact yields_names h
  | mode => exact yields_mode h
  | plot => exact yields_plot h
  | save => exact yields_save h
  | evaluate => exact yields_evaluate h
  | listing => exact yields_listing h

end Conduct

/-! ## Prompts -/

namespace Console

/-- The worksheets at the prompts of a run, with the number of turns so far and the lines that are
left there. -/
inductive Prompts (file : String) (advice : Nat → Advice) (begun : Nat) (w : Worksheet)
    (lines : List Line) : Nat → Worksheet → List Line → Prop
  | first : Prompts file advice begun w lines begun w lines
  | next {turns : Nat} {middle changed : Worksheet} {answer : String} {rest : List Line}
      {d : Dialogue Worksheet}
      (hmiddle : Prompts file advice begun w lines turns middle (.text answer :: rest))
      (hturn : turn (advice turns) middle answer = .dialogue d)
      (hresult : (d.play file rest).result = some changed) :
      Prompts file advice begun w lines (turns + 1) changed (d.play file rest).rest

variable {file : String} {advice : Nat → Advice} {begun turns : Nat} {w later : Worksheet}
  {lines rest : List Line}

/-- What is shown first stands before the rest. -/
theorem Transcript.after_after (transcript : Transcript) (output text : String)
    (files more : List String) :
    (transcript.after output files).after text more =
      transcript.after (text ++ output) (more ++ files) := by
  simp [Transcript.after, String.append_assoc]

/-- **A run goes on at each of its prompts**, as a run from there. -/
theorem run_of_prompts (h : Prompts file advice begun w lines turns later rest) :
    ∃ output files, run file advice begun w lines =
      (run file advice turns later rest).after output files := by
  induction h with
  | first => exact ⟨"", [], by simp [Transcript.after]⟩
  | @next turns middle changed answer rest d _ hturn hresult ih =>
    obtain ⟨output, files, hrun⟩ := ih
    rw [run] at hrun
    simp only [hturn, hresult, Transcript.after_after] at hrun
    exact ⟨_, _, hrun⟩

/-- The prompts of a run from one of its prompts are prompts of the run. -/
theorem Prompts.trans {between : Nat} {middle : Worksheet} {left : List Line}
    (h : Prompts file advice begun w lines between middle left)
    (h' : Prompts file advice between middle left turns later rest) :
    Prompts file advice begun w lines turns later rest := by
  induction h' with
  | first => exact h
  | next _ hturn hresult ih => exact ih.next hturn hresult

/-- **A run ends at a prompt**, with the worksheet that is there. -/
theorem exists_prompts_run (file : String) (advice : Nat → Advice) (begun : Nat) (w : Worksheet)
    (lines : List Line) : ∃ turns rest,
      Prompts file advice begun w lines turns (run file advice begun w lines).worksheet rest := by
  fun_induction run file advice begun w lines with
  | case1 begun w => exact ⟨_, _, .first⟩
  | case2 begun w _ => exact ⟨_, _, .first⟩
  | case3 begun w answer lines _ hturn => exact ⟨_, _, .first⟩
  | case4 begun w answer lines _ d hturn _ hresult => exact ⟨_, _, .first⟩
  | case5 begun w answer lines _ d hturn _ changed hresult ih =>
    obtain ⟨turns, rest, hrest⟩ := ih
    exact ⟨turns, rest, (Prompts.first.next hturn hresult).trans hrest⟩

/-- A word asks for its command, in any case of its letters. -/
theorem turn_of_ofName? {answer : String} {c : Command}
    (h : Command.ofName? answer.toLower = some c) (hquit : c ≠ .quit) (advice : Advice) :
    turn advice w answer = .dialogue (Conduct.command advice c w) := by
  rw [turn, h]
  cases c <;> first | rfl | exact absurd rfl hquit

/-- A command that is not known changes nothing, and every other one keeps a worksheet usable. -/
theorem yields_turn (h : w.Usable) {advice : Advice} {answer : String} {d : Dialogue Worksheet}
    (hturn : turn advice w answer = .dialogue d) : d.Yields Worksheet.Usable := by
  unfold turn at hturn
  split at hturn
  · cases hturn
  · next c _ _ =>
    cases hturn
    exact Conduct.yields_command h c
  · cases hturn
    exact h

/-- The worksheet at a prompt is usable, and the lines that are left are those of the input. -/
theorem Prompts.usable (h : Prompts file advice begun w lines turns later rest) (hw : w.Usable)
    (hlines : ∀ line ∈ lines, line.Trimmed) : later.Usable ∧ ∀ line ∈ rest, line.Trimmed := by
  induction h with
  | first => exact ⟨hw, hlines⟩
  | @next turns middle changed answer rest d _ hturn hresult ih =>
    obtain ⟨hmiddle, hrest⟩ := ih
    obtain ⟨-, hrest⟩ := List.forall_mem_cons.1 hrest
    -- what a command leaves is a suffix, so these lines are still lines of the input
    exact ⟨(yields_turn hmiddle hturn).play hrest hresult, fun line hline =>
      hrest line ((d.rest_play_suffix file rest).subset hline)⟩

/-- The lines of the input have no blanks around them. -/
theorem trimmed_of_mem_linesOfBytes {input : ByteArray} {line : Line}
    (h : line ∈ linesOfBytes input) : line.Trimmed := by
  obtain ⟨bytes, -, rfl⟩ := List.mem_map.1 h
  unfold lineOfBytes
  split
  · exact Text.trimmed_trimmed _
  · exact trivial

/-- Evaluating a name that has a value prints the value. -/
theorem play_evaluate_name {name : String} {value : Float} (hname : isName name)
    (hvalue : w.evaluate name = .ok value) (advice : Advice) (lines : List Line) :
    (Conduct.command advice .evaluate w).play file (.text name :: lines) =
      ⟨some w, "? " ++ (Numeral.shortest value ++ "\n"), [], lines⟩ := by
  have hnonempty : ¬ name.isEmpty := by
    rw [String.isEmpty_iff]
    rintro rfl
    cases hname
  change Played.after "? " (Dialogue.play file (if name.isEmpty then pure w else _) lines) = _
  rw [if_neg hnonempty, Option.getD_some, hvalue]
  simp [Dialogue.play, Dialogue.sayLine, Played.after, bind, Dialogue.andThen, pure]

/-- **What holds at every prompt** of a run from the initial worksheet, whatever the input. The
worksheet there is usable: its variables and the names of the swept ones have proper names, the
texts of its formulas and bounds are neither empty nor surrounded by blanks, and its name and its
number of places are those of the start. Every variable whose name no function has can be read back:
its name has exactly its value, and evaluating the name prints it and changes nothing.

**Proof sketch.** A run goes on at each of its prompts (`run_of_prompts`) and ends at one
(`exists_prompts_run`), and what comes of a command is among what it yields for all answers
(`Conduct.yields_command`, `Dialogue.Yields.play`). A proper name is one token and its formula loads
the variable (`Worksheet.evaluate_name`). -/
theorem usable_at_prompts (time : String) (advice : Nat → Advice) (input : ByteArray) :
    (∃ turns rest, Prompts (dataFileName time) advice 0 .initial (linesOfBytes input) turns
      (runBytes time advice input).worksheet rest) ∧
    ∀ turns w rest,
      Prompts (dataFileName time) advice 0 .initial (linesOfBytes input) turns w rest →
      (∃ output files, runBytes time advice input =
        (run (dataFileName time) advice turns w rest).after output files) ∧
      w.Usable ∧
      ∀ name value, w.env.get? name = some value →
        (∀ f ∈ Builtin.functions, f.name ≠ name) →
          w.evaluate name = .ok value ∧
          turn (advice turns) w "eval" = .dialogue (Conduct.command (advice turns) .evaluate w) ∧
          ∀ lines, (Conduct.command (advice turns) .evaluate w).play (dataFileName time)
              (.text name :: lines) =
            ⟨some w, "? " ++ (Numeral.shortest value ++ "\n"), [], lines⟩ := by
  refine ⟨exists_prompts_run _ _ _ _ _, fun turns w rest h => ⟨run_of_prompts h, ?_⟩⟩
  obtain ⟨husable, -⟩ := h.usable Worksheet.initial_usable fun _ => trimmed_of_mem_linesOfBytes
  refine ⟨husable, fun name value hvalue hfree => ?_⟩
  have hname : isName name :=
    husable.declared name (by rw [Environment.contains, hvalue]; rfl)
  have hevaluate : w.evaluate name = .ok value := w.evaluate_name hname hvalue hfree
  have hcommand : Command.ofName? "eval".toLower = some .evaluate := by decide +kernel
  exact ⟨hevaluate, turn_of_ofName? hcommand (by decide) (advice turns),
    play_evaluate_name hname hevaluate (advice turns)⟩

/-- An input that declares a variable under the name of a constant, has a name refused and evaluates
the variable. -/
def session : ByteArray :=
  "var\n pi\t\n 2.5\nnames\n2k\neval\npi\n".toUTF8

/-- What holds at the prompt after the first command and at the one after the second command, which
is refused. -/
theorem usable_at_prompts_session :
    ∃ w, Prompts (dataFileName "now") (fun _ => .byEdits) 0 .initial (linesOfBytes session) 1 w
        [.text "names", .text "2k", .text "eval", .text "pi"] ∧
      w.Usable ∧ w.env.get? "pi" = some 2.5 ∧ (∀ f ∈ Builtin.functions, f.name ≠ "pi") ∧
      w.evaluate "pi" = .ok 2.5 ∧
      ∃ later, Prompts (dataFileName "now") (fun _ => .byEdits) 0 .initial (linesOfBytes session) 2
        later [.text "eval", .text "pi"] ∧ later.Usable := by
  obtain ⟨-, hprompts⟩ := usable_at_prompts "now" (fun _ => .byEdits) session
  have hlines : linesOfBytes session = [.text "var", .text "pi", .text "2.5", .text "names",
      .text "2k", .text "eval", .text "pi"] := by
    decide +kernel
  rw [hlines] at hprompts ⊢
  have hfree : ∀ f ∈ Builtin.functions, f.name ≠ "pi" := by decide +kernel
  have hdeclare : Command.ofName? "var".toLower = some .declare := by decide +kernel
  have hnames : Command.ofName? "names".toLower = some .names := by decide +kernel
  obtain ⟨w, hresult, hvalue⟩ : ∃ w ∈ ((Conduct.command .byEdits .declare .initial).play
      (dataFileName "now") [.text "pi", .text "2.5", .text "names", .text "2k", .text "eval",
        .text "pi"]).result, w.env.get? "pi" = some 2.5 := by
    decide +kernel
  have hrest : ((Conduct.command .byEdits .declare .initial).play (dataFileName "now") [.text "pi",
      .text "2.5", .text "names", .text "2k", .text "eval", .text "pi"]).rest =
        [.text "names", .text "2k", .text "eval", .text "pi"] := by
    decide +kernel
  have hrefused : ((Conduct.command .byEdits .names w).play (dataFileName "now") [.text "2k",
      .text "eval", .text "pi"]).result = some w := rfl
  have hstart : ∀ lines, Prompts (dataFileName "now") (fun _ => .byEdits) 0 .initial lines 0
      .initial lines := fun _ => .first
  have hfirst := (hstart _).next (turn_of_ofName? hdeclare (by decide) .byEdits) hresult
  rw [hrest] at hfirst
  have hsecond := hfirst.next (turn_of_ofName? hnames (by decide) .byEdits) hrefused
  obtain ⟨-, husable, hread⟩ := hprompts _ _ _ hfirst
  exact ⟨w, hfirst, husable, hvalue, hfree, (hread "pi" 2.5 hvalue hfree).1, w, hsecond,
    (hprompts _ _ _ hsecond).2.1⟩

end Console

end Grapher
