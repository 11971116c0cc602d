import Grapher.Excerpt
import Grapher.Operator
import Grapher.Text.Blank

set_option relaxedAutoImplicit false
set_option autoImplicit false

/-!
# Tokens

A formula is a row of tokens with blanks between them: names, numbers, operators, commas and
parentheses. A token is as long as its kind allows. A plus or a minus is a sign where an operand
is due, that is at the start and after an operator, a comma or an opening parenthesis; elsewhere
it joins two operands.

The scan stops at the first character that starts no token.

## Main definitions

* `Token` — a kind and the excerpt of the source that is the token.
* `Token.Reserved` — the characters of other notations, which no formula holds.
* `Token.lexeme?` — the kind and the length of the token that starts at a character.
* `Token.scan` — the tokens of a source text, and where the scan stopped before its end.
* `isName` — whether a text can name a variable.

## Main results

* `Token.scan_empty` — an empty text has no tokens.
-/

namespace Grapher

/-- The kinds of tokens. -/
inductive Token.Kind
  | name
  | number
  | operator (op : Operator)
  | comma
  | opening
  | closing
deriving DecidableEq, Repr

/-- A token of a formula. -/
structure Token where
  /-- What the token is. -/
  kind : Token.Kind
  /-- The token itself and its place in the source. -/
  excerpt : Excerpt
deriving DecidableEq, Repr

namespace Token

/-- The characters of inequalities, equations, bars and brackets. -/
inductive Reserved
  | greater
  | less
  | equal
  | bar
  | openingBracket
  | closingBracket
  | openingBrace
  | closingBrace
deriving DecidableEq, Repr

/-- Why a scan stops before the end. -/
inductive Obstacle
  | stray
  | reserved (symbol : Reserved)
deriving DecidableEq, Repr

/-- Whether an operand is due after a token of the given kind, or at the start. -/
def operandDue : Option Kind → Bool
  | none | some (.operator _) | some .comma | some .opening => true
  | some _ => false

/-! ## Characters -/

/-- Whether a character can start a name. -/
def isNameStart (c : Char) : Bool :=
  c.isAlpha || c == '_'

/-- Whether a character can continue a name. -/
def isNameRest (c : Char) : Bool :=
  c.isAlphanum || c == '_'

/-- Whether a character can start or continue the mantissa of a number. -/
def isMantissa (c : Char) : Bool :=
  c.isDigit || c == '.'

/-- The kind of the token that is a single character, where `due` says that an operand is due. -/
def symbol? (due : Bool) : Char → Option Kind
  | '+' => some (.operator (if due then .pos else .add))
  | '-' => some (.operator (if due then .neg else .sub))
  | '*' => some (.operator .mul)
  | '/' => some (.operator .div)
  | '%' => some (.operator .rem)
  | '^' => some (.operator .pow)
  | ',' => some .comma
  | '(' => some .opening
  | ')' => some .closing
  | _ => none

/-- The reserved character, if the given one is reserved. -/
def Reserved.ofChar? : Char → Option Reserved
  | '>' => some .greater
  | '<' => some .less
  | '=' => some .equal
  | '|' => some .bar
  | '[' => some .openingBracket
  | ']' => some .closingBracket
  | '\x7b' => some .openingBrace
  | '\x7d' => some .closingBrace
  | _ => none

/-! ## Lengths -/

/-- The length of the exponent at the start of a text, or zero. An exponent is a letter `e`, an
optional sign and at least one digit; an `e` without digits is left to be a name. -/
def exponentLength : List Char → Nat
  | [] => 0
  | mark :: rest =>
    if mark = 'e' ∨ mark = 'E' then
      let signLength := match rest with
        | sign :: _ => if sign = '+' ∨ sign = '-' then 1 else 0
        | [] => 0
      let digits := (rest.drop signLength).takeWhile Char.isDigit
      if digits.isEmpty then 0 else 1 + signLength + digits.length
    else 0

/-- The number of characters that belong to a number beyond its first character. -/
def numberRest (rest : List Char) : Nat :=
  let mantissa := rest.takeWhile isMantissa
  mantissa.length + exponentLength (rest.drop mantissa.length)

/-- The token that starts at the character `c`: its kind, and how many of the characters after
`c` belong to it. -/
def lexeme? (due : Bool) (c : Char) (rest : List Char) : Except Obstacle (Kind × Nat) :=
  match symbol? due c with
  | some kind => .ok (kind, 0)
  | none =>
    match Reserved.ofChar? c with
    | some symbol => .error (.reserved symbol)
    | none =>
      if isNameStart c then .ok (.name, (rest.takeWhile isNameRest).length)
      else if isMantissa c then .ok (.number, numberRest rest)
      else .error .stray

/-! ## Scanning -/

/-- The tokens of a text, and the obstacle that ended the scan before the text's end. -/
structure Scan where
  /-- The tokens in the order of the source. -/
  tokens : List Token
  /-- The obstacle and the character that is the obstacle. -/
  stop : Option (Obstacle × Excerpt)
deriving DecidableEq, Repr

/-- The tokens of the text that follows `start` bytes and a token of kind `previous`. -/
def scanFrom (previous : Option Kind) (start : Nat) : List Char → Scan
  | [] => ⟨[], none⟩
  | c :: rest =>
    if Text.isBlank c then scanFrom previous (start + c.utf8Size) rest
    else match lexeme? (operandDue previous) c rest with
      | .error obstacle => ⟨[], some (obstacle, ⟨start, String.singleton c⟩)⟩
      | .ok (kind, more) =>
        let excerpt : Excerpt := ⟨start, String.ofList (c :: rest.take more)⟩
        let next := scanFrom (some kind) (start + excerpt.size) (rest.drop more)
        ⟨⟨kind, excerpt⟩ :: next.tokens, next.stop⟩
termination_by text => text.length
decreasing_by all_goals simp only [List.length_cons, List.length_drop]; omega

/-- The tokens of a source text. -/
def scan (source : String) : Scan :=
  scanFrom none 0 source.toList

theorem scan_empty : scan "" = ⟨[], none⟩ := by
  simp [scan, scanFrom]

end Token

/-- Whether a text can name a variable: it is not empty, starts like a name and goes on like one.
The name does not need to be declared. -/
def isName (text : String) : Bool :=
  match text.toList with
  | [] => false
  | c :: rest => Token.isNameStart c && rest.all Token.isNameRest

end Grapher
