import Grapher.Builtin

set_option relaxedAutoImplicit false
set_option autoImplicit false

/-!
# Suggestions for unknown names

A name that a formula cannot use may be a slip for one that it can. The suggestion is the most
similar name among the builtins and the declared variables, compared without regard to the case
of ASCII letters, if it is similar enough. Of equally similar names the first is suggested, and
builtins come before variables.

How similar two words are is measured from outside, and neither the builtins nor the declared
variables have an order of their own: they are compared in the order in which they happen to be
enumerated. So a suggestion depends on a measure and on two orders, and with them all reports do.

## Main definitions

* `Candidate` — a name that a formula can use, and what it names.
* `Candidate.suggest?` — the candidate to suggest for an unknown name.
* `Advice` — a measure of similarity and the orders of builtins and variables.
* `Advice.candidates` — all candidates where the given variables are declared.
* `Advice.NeverNaN` — whether all similarities are numbers.
-/

namespace Grapher

/-! ## Candidates -/

/-- What a formula can use under a name. -/
inductive Candidate.Kind
  | function
  | constant
  | variable
deriving DecidableEq, Repr

/-- The word for a kind. -/
def Candidate.Kind.word : Candidate.Kind → String
  | .function => "function"
  | .constant => "constant"
  | .variable => "variable"

/-- A name that a formula can use, and what it names. -/
structure Candidate where
  /-- What it names. -/
  kind : Candidate.Kind
  /-- The name. -/
  name : String
deriving DecidableEq, Repr

namespace Candidate

/-- The candidate that a builtin is. -/
def ofBuiltin : Builtin → Candidate
  | .function f => ⟨.function, f.name⟩
  | .constant name _ => ⟨.constant, name⟩

section Measure

variable (measure : String → String → Float)

/-- How similar a candidate is to a name, in any case of the letters. -/
def similarity (name : String) (candidate : Candidate) : Float :=
  measure name.toLower candidate.name.toLower

/-- The similarity above which a candidate is suggested. -/
def threshold : Float := 0.3

/-- The first of the most similar candidates. -/
def best? (name : String) : List Candidate → Option Candidate
  | [] => none
  | first :: rest =>
    some (rest.foldl (fun best next =>
      if similarity measure name best < similarity measure name next then next else best) first)

/-- The candidate to suggest for an unknown name, if one is similar enough. -/
def suggest? (candidates : List Candidate) (name : String) : Option Candidate :=
  (best? measure name candidates).filter fun candidate =>
    threshold < similarity measure name candidate

end Measure

end Candidate

/-! ## Advice -/

/-- A measure of similarity and the orders in which builtins and declared variables are
enumerated. -/
structure Advice where
  /-- How similar two words are. -/
  measure : String → String → Float
  /-- The builtins in some order. -/
  builtins : List Builtin
  /-- Some order of the variables, where the given ones are declared. -/
  names : List String → List String
  /-- All builtins are enumerated, and nothing else. -/
  mem_builtins : ∀ builtin, builtin ∈ builtins ↔ builtin ∈ Builtin.table
  /-- All declared variables are enumerated, and nothing else. -/
  mem_names : ∀ declared name, name ∈ names declared ↔ name ∈ declared

namespace Advice

/-- All candidates where the given variables are declared, builtins first. -/
def candidates (advice : Advice) (declared : List String) : List Candidate :=
  advice.builtins.map .ofBuiltin ++ (advice.names declared).map fun name => ⟨.variable, name⟩

/-- Every similarity is a number. -/
def NeverNaN (advice : Advice) : Prop :=
  ∀ word other, (advice.measure word other).isNaN = false

end Advice

end Grapher
