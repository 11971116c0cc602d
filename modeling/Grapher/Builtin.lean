import Grapher.Arithmetic
import Grapher.Operator

set_option relaxedAutoImplicit false
set_option autoImplicit false

/-!
# Builtin functions and constants

The functions and constants that every formula can use. A function is called with as many numbers
as its arity says, and its body expects a number of arguments of its own. The two are given apart,
and no function can be built where they differ. Every operator is a function as well, under a name
of its own.

## Main definitions

* `Body` — a function as it is written, for a fixed number of arguments.
* `Callable` — a named function with its arity.
* `Operator.callable` — the function of an operator.
* `Builtin` — what a builtin name stands for.
* `Builtin.table`, `Builtin.find?` — all builtin names, and the meaning of one.

## Main results

* `Builtin.nodup_names` — no name has two meanings.
-/

namespace Grapher

/-- A function as it is written, for a fixed number of arguments. -/
structure Body where
  /-- The number of arguments that the function expects. -/
  count : Nat
  /-- The value at so many arguments. -/
  rule : Vector Float count → Float

namespace Body

/-- A function of one argument. -/
def unary (f : Float → Float) : Body :=
  ⟨1, fun args => f args[0]⟩

/-- A function of two arguments. -/
def binary (f : Float → Float → Float) : Body :=
  ⟨2, fun args => f args[0] args[1]⟩

/-- A list with as many arguments as the function expects makes a row of so many. -/
theorem size_toArray (body : Body) {args : List Float} (h : args.length = body.count) :
    args.toArray.size = body.count := by
  rw [List.size_toArray, h]

/-- The value at a list of arguments, if the list is as long as the function expects. -/
def valueAt? (body : Body) (args : List Float) : Option Float :=
  if h : args.length = body.count then some (body.rule ⟨args.toArray, body.size_toArray h⟩)
  else none

end Body

/-- A named function with its arity. -/
structure Callable where
  /-- The name under which formulas call the function. -/
  name : String
  /-- The number of arguments with which it is called. -/
  arity : Nat
  /-- The function as it is written. -/
  body : Body
  /-- The function expects as many arguments as it is called with. -/
  fits : body.count = arity

/-- The value at a list of arguments, if the list has the right length. -/
def Callable.valueAt? (f : Callable) (args : List Float) : Option Float :=
  f.body.valueAt? args

/-- The function of an operator. -/
def Operator.callable : Operator → Callable
  | .neg => ⟨"neg", 1, .unary fun x => -x, rfl⟩
  | .pos => ⟨"pos", 1, .unary fun x => x, rfl⟩
  | .add => ⟨"add", 2, .binary fun x y => x + y, rfl⟩
  | .sub => ⟨"sub", 2, .binary fun x y => x - y, rfl⟩
  | .mul => ⟨"mul", 2, .binary fun x y => x * y, rfl⟩
  | .div => ⟨"div", 2, .binary fun x y => x / y, rfl⟩
  | .rem => ⟨"rem", 2, .binary Arithmetic.remainder, rfl⟩
  | .pow => ⟨"pow", 2, .binary Float.pow, rfl⟩

/-- A sign has one operand and every other operator has two. -/
theorem Operator.arity_callable (op : Operator) :
    op.callable.arity = if op.standsBefore then 1 else 2 := by
  cases op <;> rfl

/-- What a builtin name stands for. -/
inductive Builtin
  | function (f : Callable)
  | constant (name : String) (value : Float)

namespace Builtin

/-- The name of a builtin. -/
def name : Builtin → String
  | .function f => f.name
  | .constant name _ => name

/-- The functions on numbers and their powers and logarithms. -/
def numerical : List Callable :=
  [⟨"abs", 1, .unary Float.abs, rfl⟩,
    ⟨"sqrt", 1, .unary Float.sqrt, rfl⟩,
    ⟨"cbrt", 1, .unary Float.cbrt, rfl⟩,
    ⟨"exp", 1, .unary Float.exp, rfl⟩,
    ⟨"ln", 1, .unary Float.log, rfl⟩,
    ⟨"log", 2, .binary fun x base => Float.log x / Float.log base, rfl⟩,
    ⟨"log10", 1, .unary Float.log10, rfl⟩,
    ⟨"log2", 1, .unary Float.log2, rfl⟩,
    ⟨"floor", 1, .unary Arithmetic.floor, rfl⟩,
    ⟨"ceil", 1, .unary Arithmetic.ceil, rfl⟩,
    ⟨"signum", 1, .unary Arithmetic.sign, rfl⟩,
    ⟨"min", 2, .binary Arithmetic.least, rfl⟩,
    ⟨"max", 2, .binary Arithmetic.greatest, rfl⟩]

/-- The functions on angles, in radians, and their inverses. -/
def angular : List Callable :=
  [⟨"sin", 1, .unary Float.sin, rfl⟩,
    ⟨"cos", 1, .unary Float.cos, rfl⟩,
    ⟨"tan", 1, .unary Float.tan, rfl⟩,
    ⟨"sec", 1, .unary fun x => 1 / Float.cos x, rfl⟩,
    ⟨"csc", 1, .unary fun x => 1 / Float.sin x, rfl⟩,
    ⟨"cot", 1, .unary fun x => 1 / Float.tan x, rfl⟩,
    ⟨"asin", 1, .unary Float.asin, rfl⟩,
    ⟨"acos", 1, .unary Float.acos, rfl⟩,
    ⟨"atan", 1, .unary Float.atan, rfl⟩,
    ⟨"arcsin", 1, .unary Float.asin, rfl⟩,
    ⟨"arccos", 1, .unary Float.acos, rfl⟩,
    ⟨"arctan", 1, .unary Float.atan, rfl⟩,
    ⟨"sinh", 1, .unary Float.sinh, rfl⟩,
    ⟨"cosh", 1, .unary Float.cosh, rfl⟩,
    ⟨"tanh", 1, .unary Float.tanh, rfl⟩,
    ⟨"toDegrees", 1, .unary Arithmetic.degrees, rfl⟩,
    ⟨"toRadians", 1, .unary Arithmetic.radians, rfl⟩]

/-- All builtin functions. -/
def functions : List Callable :=
  Operator.all.map Operator.callable ++ numerical ++ angular

/-- All builtin constants. -/
def constants : List (String × Float) :=
  [("pi", Arithmetic.pi), ("tau", Arithmetic.tau), ("e", Arithmetic.euler)]

/-- All builtins, functions first. -/
def table : List Builtin :=
  functions.map .function ++ constants.map fun entry => .constant entry.1 entry.2

/-- The meaning of a builtin name. -/
def find? (name : String) : Option Builtin :=
  table.find? fun builtin => builtin.name == name

/-- No name has two meanings. -/
theorem nodup_names : (table.map name).Nodup := by decide

end Builtin

end Grapher
