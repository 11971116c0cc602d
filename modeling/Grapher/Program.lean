import Grapher.Builtin
import Grapher.Environment
import Grapher.Excerpt
import Grapher.Decimal.Numeral

set_option relaxedAutoImplicit false
set_option autoImplicit false

/-!
# Postfix programs

A program is a list of operations on a stack of numbers. An operation pushes a number, loads a
variable, or takes the arguments of a function from the stack and leaves its value. A program is
sound when no function lacks arguments and one number is left at the end. Soundness needs only
the heights of the stack, so it is checked before any variable has a value.

## Main definitions

* `Action`, `Operation` — what an operation does, and the excerpt it is read from.
* `Program.check` — follows the height of the stack.
* `Program.run` — follows the stack itself, in an environment.
* `Program.evaluate` — a run on a stack that is kept and used again.
* `Program.names` — the variables that a program loads, in the order of first use.
* `Program.firstUndeclared?` — the first of them that an environment does not declare.

## Main results

* `Callable.valueAt?_isSome` — a function has a value exactly at as many arguments as it takes.
-/

namespace Grapher

/-- What an operation does. -/
inductive Action
  | push (value : Float)
  | load (name : String)
  | apply (op : Operator)
  | call (f : Callable)

namespace Action

/-- The function that an action calls, if it calls one. -/
def callable? : Action → Option Callable
  | .apply op => some op.callable
  | .call f => some f
  | .push _ | .load _ => none

/-- An action in a listing. -/
def text : Action → String
  | .push value => s!"push {Numeral.shortest value}"
  | .load name => s!"load '{name}'"
  | .apply op => s!"call '{op.callable.name}'"
  | .call f => s!"call '{f.name}'"

end Action

/-- An action and the excerpt of the source that asks for it. -/
structure Operation where
  /-- What the operation does. -/
  action : Action
  /-- Where the source asks for it. -/
  place : Excerpt

/-- The variable that an operation loads, if it loads one. -/
def Operation.loaded? (operation : Operation) : Option String :=
  match operation.action with
  | .load name => some name
  | _ => none

/-- A list of operations, run from the left. -/
abbrev Program := List Operation

/-- Why a program has no value. -/
inductive Fault.Cause
  | empty
  | missingArguments (name : String) (arity found : Nat)
  | leftover (found : Nat)
  | undeclared (name : String)
deriving DecidableEq, Repr

/-- Why a program has no value, and the operation at fault. A fault that shows only at the end of
the program belongs to no operation. -/
structure Fault where
  /-- What is wrong. -/
  cause : Fault.Cause
  /-- The operation at fault. -/
  operation : Option Operation

/-- The description of a fault. -/
def Fault.Cause.message : Fault.Cause → String
  | .empty => "cannot evaluate empty program"
  | .missingArguments name arity found =>
    let plural := if arity = 1 then "" else "s"
    s!"function '{name}' requires {arity} argument{plural}, but found {found}"
  | .leftover found => s!"expected 1 value after evaluation but found {found}"
  | .undeclared name => s!"variable '{name}' is not declared"

/-- The excerpt of the operation at fault. -/
def Fault.place? (fault : Fault) : Option Excerpt :=
  fault.operation.map (·.place)

/-- A function has a value exactly at as many arguments as it takes. -/
theorem Callable.valueAt?_isSome (f : Callable) (args : List Float) :
    (f.valueAt? args).isSome ↔ args.length = f.arity := by
  rw [← f.fits, valueAt?, Body.valueAt?]
  split <;> simp_all

namespace Program

/-! ## The check -/

/-- The height of the stack after an operation. -/
def checkStep (height : Nat) (operation : Operation) : Except Fault Nat :=
  match operation.action.callable? with
  | none => .ok (height + 1)
  | some f =>
    if f.arity ≤ height then .ok (height - f.arity + 1)
    else .error ⟨.missingArguments f.name f.arity height, some operation⟩

/-- Whether one number is left at the end. -/
def checkEnd (height : Nat) : Except Fault Unit :=
  if height = 1 then .ok () else .error ⟨.leftover height, none⟩

/-- Follows the height of the stack through a program and finds its first fault. The check knows
no variables, so it finds every fault but an undeclared one. -/
def check (program : Program) : Except Fault Unit :=
  if program.isEmpty then .error ⟨.empty, none⟩
  else program.foldlM checkStep 0 >>= checkEnd

/-! ## The run -/

/-- The stack after a function has taken its arguments, the last of them from the top, and left
its value. The top is the head of the list. -/
def reduce (operation : Operation) (f : Callable) (stack : List Float) :
    Except Fault (List Float) :=
  match f.valueAt? (stack.take f.arity).reverse with
  | some value => .ok (value :: stack.drop f.arity)
  | none => .error ⟨.missingArguments f.name f.arity stack.length, some operation⟩

/-- The stack after an operation. -/
def runStep (env : Environment) (stack : List Float) (operation : Operation) :
    Except Fault (List Float) :=
  match operation.action with
  | .push value => .ok (value :: stack)
  | .load name =>
    match env.get? name with
    | some value => .ok (value :: stack)
    | none => .error ⟨.undeclared name, some operation⟩
  | .apply op => reduce operation op.callable stack
  | .call f => reduce operation f stack

/-- The one number that is left at the end. -/
def runEnd : List Float → Except Fault Float
  | [value] => .ok value
  | stack => .error ⟨.leftover stack.length, none⟩

/-- The value of a program in an environment, or its first fault. -/
def run (program : Program) (env : Environment) : Except Fault Float :=
  if program.isEmpty then .error ⟨.empty, none⟩
  else program.foldlM (runStep env) [] >>= runEnd

/-! ## The run on a kept stack -/

/-- A computation that works on a stack of numbers and may end in a fault. The stack stays as the
fault found it. -/
abbrev Machine := ExceptT Fault (StateM (List Float))

/-- An operation on the kept stack. -/
def perform (env : Environment) (operation : Operation) : Machine Unit := do
  match runStep env (← get) operation with
  | .ok later => set later
  | .error fault => throw fault

/-- The one number that is left at the end is taken from the kept stack. -/
def takeResult : Machine Float := do
  match runEnd (← get) with
  | .ok value =>
    set ([] : List Float)
    return value
  | .error fault => throw fault

/-- The value of a program in an environment, or its first fault, on a stack that may hold what an
earlier run has left. The stack is cleared first, unless the program is empty. -/
def evaluate (program : Program) (env : Environment) : Machine Float := do
  if program.isEmpty then throw ⟨.empty, none⟩
  set ([] : List Float)
  program.forM (perform env)
  takeResult

/-! ## Variables -/

/-- The variables that a program loads, each once, in the order of first use. -/
def names (program : Program) : List String :=
  (program.filterMap Operation.loaded?).eraseDups

/-- The first loaded variable that an environment does not declare. -/
def firstUndeclared? (program : Program) (env : Environment) : Option String :=
  program.names.find? fun name => !env.contains name

end Program

end Grapher
