import Grapher.Formula.Reading
import Grapher.Proofs.Tree

set_option relaxedAutoImplicit false
set_option autoImplicit false

/-!
# The grammar of formulas

The sentences of the language, as rows of tokens with the trees that they stand for:

* a *sum* is a row of products with a plus or a minus between them, grouped from the left;
* a *product* is a row of factors, grouped from the left: a factor is a signed power after `*`,
  `/` or `%`, or a power right after what it is multiplied by, unless two number literals meet;
* a *signed power* has any number of signs before a power;
* a *power* is a primary, which may be raised to a signed power;
* a *primary* is a number literal, a variable, a constant, a sum in parentheses, a function with
  as many sums in parentheses as it takes arguments, or a function of one argument right before a
  primary that does not start with a parenthesis.

A name is a function if there is one of that name, else a declared variable, else a constant.

## Main definitions

* `Token.IsLiteral`, `Token.literal` — number tokens that write a number, and that number.
* `Grammar.Phrase`, `Grammar.Derives` — the kinds of phrases, and their derivations.

## Main results

* `meaning?_eq_variable_iff` and its companions — what a name stands for.
* `Grammar.Derives.ranked` — the trees of a derivation are ranked.
-/

namespace Grapher

/-! ## Numbers and names -/

namespace Token

/-- The digits and points at the start of a token, up to its exponent. -/
def mantissa (token : Token) : List Char :=
  token.excerpt.text.toList.takeWhile isMantissa

/-- A number token is a literal when its mantissa has at most one point and at least one digit. -/
def IsLiteral (token : Token) : Prop :=
  token.kind = .number ∧ token.mantissa.count '.' ≤ 1 ∧ ∃ c ∈ token.mantissa, c.isDigit

/-- The number that a literal writes. -/
def literal (token : Token) : Float :=
  ((Decimal.read? token.excerpt.text.toList).map Decimal.toFloat).getD Arithmetic.notANumber

end Token

variable {declared : List String} {name : String}

/-- A name stands for a function exactly if it is the name of one. -/
theorem meaning?_eq_function_iff {f : Callable} :
    meaning? declared name = some (.function f) ↔ Builtin.find? name = some (.function f) := by
  unfold meaning?
  cases Builtin.find? name with
  | none => by_cases h : name ∈ declared <;> simp [h]
  | some builtin =>
    cases builtin with
    | function g => simp
    | constant other value => by_cases h : name ∈ declared <;> simp [h]

/-- A name stands for a variable exactly if it is declared and not the name of a function. -/
theorem meaning?_eq_variable_iff :
    meaning? declared name = some .variable ↔
      (∀ f, Builtin.find? name ≠ some (.function f)) ∧ name ∈ declared := by
  unfold meaning?
  cases Builtin.find? name with
  | none => by_cases h : name ∈ declared <;> simp [h]
  | some builtin =>
    cases builtin with
    | function g => simp
    | constant other value => by_cases h : name ∈ declared <;> simp [h]

/-- A name stands for a constant exactly if it is the name of one and not declared. -/
theorem meaning?_eq_constant_iff {value : Float} :
    meaning? declared name = some (.constant value) ↔
      (∃ constant, Builtin.find? name = some (.constant constant value)) ∧ name ∉ declared := by
  unfold meaning?
  cases Builtin.find? name with
  | none => by_cases h : name ∈ declared <;> simp [h]
  | some builtin =>
    cases builtin with
    | function g => simp
    | constant other number => by_cases h : name ∈ declared <;> simp [h]

/-! ## Derivations -/

namespace Grammar

/-- The kinds of phrases. -/
inductive Phrase
  | sum
  | product
  | signed
  | power
  | primary
  | arguments
deriving DecidableEq, Repr

/-- The phrases of the grammar, as rows of tokens, and the trees that they stand for. Every phrase
stands for one tree, but for a row of arguments, which stands for one tree each. -/
inductive Derives (declared : List String) : Phrase → List Token → List Tree → Prop
  /-- A number literal pushes its number. -/
  | number {token : Token} (hliteral : token.IsLiteral) :
      Derives declared .primary [token] [.leaf ⟨.push token.literal, token.excerpt⟩]
  /-- A variable is loaded. -/
  | load {token : Token} (hkind : token.kind = .name)
      (hfunction : ∀ f, Builtin.find? token.excerpt.text ≠ some (.function f))
      (hdeclared : token.excerpt.text ∈ declared) :
      Derives declared .primary [token] [.leaf ⟨.load token.excerpt.text, token.excerpt⟩]
  /-- A constant pushes its value. -/
  | constant {token : Token} {name : String} {value : Float} (hkind : token.kind = .name)
      (hconstant : Builtin.find? token.excerpt.text = some (.constant name value))
      (hdeclared : token.excerpt.text ∉ declared) :
      Derives declared .primary [token] [.leaf ⟨.push value, token.excerpt⟩]
  /-- A sum in parentheses. -/
  | group {opening closing : Token} {tokens : List Token} {tree : Tree}
      (hopening : opening.kind = .opening) (hclosing : closing.kind = .closing)
      (hsum : Derives declared .sum tokens [tree]) :
      Derives declared .primary (opening :: (tokens ++ [closing])) [tree]
  /-- A function with its arguments in parentheses. -/
  | call {token opening closing : Token} {f : Callable} {tokens : List Token} {trees : List Tree}
      (hkind : token.kind = .name)
      (hfunction : Builtin.find? token.excerpt.text = some (.function f))
      (hopening : opening.kind = .opening) (hclosing : closing.kind = .closing)
      (harguments : Derives declared .arguments tokens trees)
      (harity : trees.length = f.arity) :
      Derives declared .primary (token :: opening :: (tokens ++ [closing]))
        [.node ⟨.call f, token.excerpt⟩ trees]
  /-- A function right before its one argument. -/
  | application {token : Token} {f : Callable} {tokens : List Token} {tree : Tree}
      (hkind : token.kind = .name)
      (hfunction : Builtin.find? token.excerpt.text = some (.function f)) (harity : f.arity = 1)
      (hprimary : Derives declared .primary tokens [tree])
      (hopening : ∀ first ∈ tokens.head?, first.kind ≠ .opening) :
      Derives declared .primary (token :: tokens) [.node ⟨.call f, token.excerpt⟩ [tree]]
  /-- A primary that is not raised. -/
  | base {tokens : List Token} {tree : Tree} (hprimary : Derives declared .primary tokens [tree]) :
      Derives declared .power tokens [tree]
  /-- A primary that is raised. -/
  | raised {token : Token} {tokens exponent : List Token} {tree other : Tree}
      (hprimary : Derives declared .primary tokens [tree]) (hkind : token.kind = .operator .pow)
      (hexponent : Derives declared .signed exponent [other]) :
      Derives declared .power (tokens ++ token :: exponent)
        [.node ⟨.apply .pow, token.excerpt⟩ [tree, other]]
  /-- A power without a sign. -/
  | unsigned {tokens : List Token} {tree : Tree} (hpower : Derives declared .power tokens [tree]) :
      Derives declared .signed tokens [tree]
  /-- A sign before what it belongs to. -/
  | sign {token : Token} {op : Operator} {tokens : List Token} {tree : Tree}
      (hkind : token.kind = .operator op) (hsign : op ∈ [.neg, .pos])
      (hsigned : Derives declared .signed tokens [tree]) :
      Derives declared .signed (token :: tokens) [.node ⟨.apply op, token.excerpt⟩ [tree]]
  /-- A product of one factor. -/
  | factor {tokens : List Token} {tree : Tree} (hsigned : Derives declared .signed tokens [tree]) :
      Derives declared .product tokens [tree]
  /-- One more factor, after an operator. -/
  | times {token : Token} {op : Operator} {tokens factor : List Token} {tree other : Tree}
      (hproduct : Derives declared .product tokens [tree]) (hkind : token.kind = .operator op)
      (htimes : op ∈ [.mul, .div, .rem]) (hfactor : Derives declared .signed factor [other]) :
      Derives declared .product (tokens ++ token :: factor)
        [.node ⟨.apply op, token.excerpt⟩ [tree, other]]
  /-- One more factor, right after the product. -/
  | juxtaposed {first : Token} {tokens factor : List Token} {tree other : Tree}
      (hproduct : Derives declared .product tokens [tree])
      (hfactor : Derives declared .power (first :: factor) [other])
      (hapart : ∀ last ∈ tokens.getLast?, ¬ (last.kind = .number ∧ first.kind = .number)) :
      Derives declared .product (tokens ++ first :: factor)
        [.node ⟨.apply .mul, first.excerpt.opening⟩ [tree, other]]
  /-- A sum of one term. -/
  | term {tokens : List Token} {tree : Tree} (hproduct : Derives declared .product tokens [tree]) :
      Derives declared .sum tokens [tree]
  /-- One more term. -/
  | plus {token : Token} {op : Operator} {tokens term : List Token} {tree other : Tree}
      (hsum : Derives declared .sum tokens [tree]) (hkind : token.kind = .operator op)
      (hplus : op ∈ [.add, .sub]) (hterm : Derives declared .product term [other]) :
      Derives declared .sum (tokens ++ token :: term)
        [.node ⟨.apply op, token.excerpt⟩ [tree, other]]
  /-- One argument. -/
  | argument {tokens : List Token} {tree : Tree} (hsum : Derives declared .sum tokens [tree]) :
      Derives declared .arguments tokens [tree]
  /-- One more argument. -/
  | comma {token : Token} {tokens argument : List Token} {trees : List Tree} {tree : Tree}
      (harguments : Derives declared .arguments tokens trees) (hkind : token.kind = .comma)
      (hargument : Derives declared .sum argument [tree]) :
      Derives declared .arguments (tokens ++ token :: argument) (trees ++ [tree])

namespace Derives

/-- No phrase is empty. -/
theorem ne_nil {phrase : Phrase} {tokens : List Token} {trees : List Tree}
    (h : Derives declared phrase tokens trees) : tokens ≠ [] := by
  induction h <;> simp_all

/-- Every phrase stands for a tree. -/
theorem trees_ne_nil {phrase : Phrase} {tokens : List Token} {trees : List Tree}
    (h : Derives declared phrase tokens trees) : trees ≠ [] := by
  induction h <;> simp_all

/-- **The trees of a phrase are ranked**: every operator has its operands and every function has
its arguments. -/
theorem ranked {phrase : Phrase} {tokens : List Token} {trees : List Tree}
    (h : Derives declared phrase tokens trees) : ∀ tree ∈ trees, tree.Ranked := by
  induction h with
  | number | load | constant =>
    intro tree htree
    rw [List.mem_singleton.1 htree]
    exact Tree.leaf_ranked rfl
  | group _ _ _ ih | base _ ih | unsigned _ ih | factor _ ih | term _ ih | argument _ ih => exact ih
  | call _ _ _ _ _ harity ih =>
    intro tree htree
    rw [List.mem_singleton.1 htree]
    exact .node harity ih
  | application _ _ harity _ _ ih =>
    intro tree htree
    rw [List.mem_singleton.1 htree]
    exact .node harity.symm ih
  | sign _ hsign _ ih =>
    intro tree htree
    rw [List.mem_singleton.1 htree]
    refine .node ?_ ih
    simp only [List.mem_cons, List.not_mem_nil, or_false] at hsign
    rcases hsign with rfl | rfl <;> rfl
  | raised _ _ _ ih ih' | juxtaposed _ _ _ ih ih' =>
    intro tree htree
    rw [List.mem_singleton.1 htree]
    exact .node rfl fun child hchild => by
      rcases List.mem_cons.1 hchild with rfl | hchild
      · exact ih _ (by simp)
      · exact ih' _ hchild
  | times _ _ hop _ ih ih' | plus _ _ hop _ ih ih' =>
    intro tree htree
    rw [List.mem_singleton.1 htree]
    refine .node ?_ fun child hchild => ?_
    · simp only [List.mem_cons, List.not_mem_nil, or_false] at hop
      rcases hop with rfl | rfl | rfl <;> rfl
    · rcases List.mem_cons.1 hchild with rfl | hchild
      · exact ih _ (by simp)
      · exact ih' _ hchild
  | comma _ _ _ ih ih' =>
    intro tree htree
    rcases List.mem_append.1 htree with h | h
    · exact ih _ h
    · exact ih' _ h

end Derives

end Grammar

end Grapher
