import Grapher.Worksheet.Basic

set_option relaxedAutoImplicit false
set_option autoImplicit false

/-!
# Commands of the console

## Main definitions

* `Command` — the commands.
* `Command.name`, `Command.purpose` — the word that a user types, and what it does.
* `Command.ofName?` — the command of a word.

## Main results

* `Command.ofName?_name` — every command is found by its word.
-/

namespace Grapher

/-- The commands of the console. -/
inductive Command
  | help
  | quit
  | report
  | express (c : Coordinate)
  | declare
  | undeclare
  | range
  | names
  | mode
  | plot
  | save
  | evaluate
  | listing
deriving DecidableEq, Repr

namespace Command

/-- All commands, in the order in which help is given. -/
def all : List Command :=
  [.help, .quit, .report, .express .y, .express .x, .express .r, .express .t, .declare,
    .undeclare, .range, .names, .mode, .plot, .save, .evaluate, .listing]

/-- The word for a command. -/
def name : Command → String
  | .help => "help"
  | .quit => "quit"
  | .report => "show"
  | .express c => c.letter
  | .declare => "var"
  | .undeclare => "unset"
  | .range => "range"
  | .names => "names"
  | .mode => "mode"
  | .plot => "plot"
  | .save => "export"
  | .evaluate => "eval"
  | .listing => "prog"

/-- What a command does. -/
def purpose : Command → String
  | .help => "display help for each command"
  | .quit => "quit the shell"
  | .report => "show the equation, its range and its variables"
  | .express .y => "set the y expression (YPlot and XYPlot)"
  | .express .x => "set the x expression (XYPlot)"
  | .express .r => "set the radius expression (RPlot)"
  | .express .t => "set the angle expression (TPlot)"
  | .declare => "declare a variable or change its value"
  | .undeclare => "remove a variable"
  | .range => "set the start, end and step of the plotted range"
  | .names => "set the parameter, radius and theta names"
  | .mode => "set the plot mode (YPlot, XYPlot, RPlot or TPlot)"
  | .plot => "print the points of the current plot"
  | .save => "write the points of the current plot to a data file"
  | .evaluate => "evaluate an expression once"
  | .listing => "print program compiled from an expression (for debugging)"

/-- The command of exactly the given word. -/
def ofName? (word : String) : Option Command :=
  all.find? fun command => command.name == word

theorem mem_all (command : Command) : command ∈ all := by
  rcases command with _ | _ | _ | (_ | _ | _ | _) | _ <;> decide

/-- **Every command is found by its word.** -/
theorem ofName?_name (command : Command) : ofName? command.name = some command := by
  rcases command with _ | _ | _ | (_ | _ | _ | _) | _ <;> decide

end Command

end Grapher
