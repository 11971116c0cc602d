import Grapher.Proofs.Commas
import Grapher.Proofs.Scan

set_option relaxedAutoImplicit false
set_option autoImplicit false

/-!
# No operand is missing

The check of a program follows the height of the stack only, and a missing operand is not seen
where one too many stands elsewhere. But when no two numbers stand side by side and the commas
fit, there is none too many anywhere. Take what the operations read so far gain, add the commas
that are still due, one where an operand is due, and the further arguments that are due behind a
function. No token raises this potential, and a token before which an operand is missing lowers
it. It is one at the start, and one at the end of a program that passes the check.

## Main definitions

* `Token.Kind.startsOperand` — the tokens that can stand where an operand is due.
* `Grammar.Gapless` — wherever an operand is due there is one.
* `Reading.potential` — the potential of a reading and of what is still due.

## Main results

* `Reading.potential_step` — no token raises the potential, and a gap lowers it.
* `Grammar.gapless_of_check` — in a program that passes the check no operand is missing.
-/

namespace Grapher

/-! ## Functions and signs -/

/-- Every function takes an argument. -/
theorem Builtin.arity_pos {name : String} {f : Callable}
    (h : Builtin.find? name = some (.function f)) : 0 < f.arity := by
  have hmem : Builtin.function f ∈ Builtin.table := List.mem_of_find?_eq_some h
  have hfunctions : ∀ g ∈ Builtin.functions, 0 < g.arity := by decide
  rcases List.mem_append.1 hmem with h | h
  · obtain ⟨g, hg, heq⟩ := List.mem_map.1 h
    cases heq
    exact hfunctions f hg
  · obtain ⟨entry, -, heq⟩ := List.mem_map.1 h
    cases heq

namespace Token

/-- Whether a token of a kind can stand where an operand is due. -/
def Kind.startsOperand : Kind → Bool
  | .number | .name | .opening => true
  | .operator op => op.standsBefore
  | .comma | .closing => false

/-- Where no operand is due, no further arguments are. -/
theorem furtherOf_eq_zero {previous : Option Token} (h : (lastOf previous).due = false) :
    furtherOf previous = 0 := by
  cases previous with
  | none => rfl
  | some token => exact further_eq_zero (Grammar.function?_eq_none_of_due h)

/-- Behind what was a number stands a number token. -/
theorem exists_number_of_lastOf {previous : Option Token} (h : lastOf previous = .number) :
    ∃ last ∈ previous, last.kind = .number := by
  cases previous with
  | none => cases h
  | some token =>
    refine ⟨token, rfl, ?_⟩
    have hlast : token.last = .number := h
    unfold last at hlast
    split at hlast
    · assumption
    · split at hlast <;> cases hlast
    · cases hlast
    all_goals cases hlast

/-- Where a sign can stand an operand is due, and it is not the argument of a function. -/
theorem due_of_operandDue {previous : Option Token} (h : operandDue (previous.map kind)) :
    (lastOf previous).due ∧ furtherOf previous = 0 := by
  cases previous with
  | none => exact ⟨rfl, rfl⟩
  | some token =>
    have hkind : token.kind = .comma ∨ token.kind = .opening ∨ ∃ op, token.kind = .operator op := by
      cases hkind : token.kind <;> simp_all [operandDue]
    refine ⟨?_, further_eq_zero (function?_eq_none ?_)⟩
    · rcases hkind with hkind | hkind | ⟨op, hkind⟩ <;> simp [lastOf, last, hkind, Last.due]
    · rcases hkind with hkind | hkind | ⟨op, hkind⟩ <;> simp [hkind]

/-- What a token gains together with what is due behind it: one, where the token may stand for an
operand or before one, or separates two. -/
theorem gain_operations {declared : List String} {token : Token} (h : token.Readable declared) :
    ((token.operations declared).map Operation.gain).sum + (if token.last.due then 1 else 0) +
        token.further =
      (if token.kind.startsOperand then 1 else 0) + if token.kind = .comma then 1 else 0 := by
  have hnone : token.kind ≠ .name → token.further = 0 := fun hkind =>
    further_eq_zero (function?_eq_none hkind)
  cases hkind : token.kind with
  | number =>
    obtain ⟨decimal, hread⟩ := Option.isSome_iff_exists.1 (h.1 hkind)
    rw [hnone (by simp [hkind])]
    simp [operations, last, hkind, hread, Kind.startsOperand, Last.due, Operation.gain,
      Action.arity, Action.callable?]
  | name =>
    obtain ⟨meaning, hmeaning⟩ := Option.isSome_iff_exists.1 (h.2 hkind)
    rcases meaning with f | _ | value
    · have hfind := meaning?_eq_function_iff.1 hmeaning
      have hfunction : token.function? = some f := function?_eq_some_iff.2 ⟨hkind, hfind⟩
      have hpositive : 0 < f.arity := Builtin.arity_pos hfind
      rw [further_eq hfunction]
      simp [operations, last, hkind, hmeaning, hfunction, Kind.startsOperand, Last.due,
        Operation.gain, Action.arity, Action.callable?]
      omega
    · have hfunction : token.function? = none := Option.eq_none_iff_forall_ne_some.2 fun f hf =>
        (meaning?_eq_variable_iff.1 hmeaning).1 f (function?_eq_some_iff.1 hf).2
      rw [further_eq_zero hfunction]
      simp [operations, last, hkind, hmeaning, hfunction, Kind.startsOperand, Last.due,
        Operation.gain, Action.arity, Action.callable?]
    · obtain ⟨⟨name, hconstant⟩, -⟩ := meaning?_eq_constant_iff.1 hmeaning
      have hfunction : token.function? = none := Option.eq_none_iff_forall_ne_some.2 fun f hf => by
        simpa [hconstant] using (function?_eq_some_iff.1 hf).2
      rw [further_eq_zero hfunction]
      simp [operations, last, hkind, hmeaning, hfunction, Kind.startsOperand, Last.due,
        Operation.gain, Action.arity, Action.callable?]
  | operator op =>
    rw [hnone (by simp [hkind])]
    cases op <;>
      simp [operations, last, hkind, Kind.startsOperand, Last.due, Operation.gain, Action.arity,
        Action.callable?, Operator.arity_callable, Operator.standsBefore]
  | comma | opening | closing =>
    rw [hnone (by simp [hkind])]
    simp [operations, last, hkind, Kind.startsOperand, Last.due]

end Token

/-! ## The potential -/

namespace Reading

open Token

/-- What the operations gain, with the commas that are due, one where an operand is due, and the
further arguments that are due. -/
def potential (reading : Reading) (previous : Option Token) (commas : List Nat) : Int :=
  reading.balance + commas.sum + (if (lastOf previous).due then 1 else 0) + furtherOf previous

/-- A product is meant where none is due and an operand starts, unless two numbers meet. -/
theorem juxtaposed_iff {last : Last} {kind : Kind} :
    juxtaposed last kind ↔
      last.due = false ∧ kind.startsOperand ∧ (∀ op, kind ≠ .operator op) ∧
        ¬ (last = .number ∧ kind = .number) := by
  cases last <;> cases kind <;> simp [juxtaposed, Last.due, Kind.startsOperand]

/-- What a step gains. -/
theorem balance_of_step {declared : List String} {reading later : Reading} {token : Token}
    (h : step declared reading token = .ok later) :
    later.balance = reading.balance + (if juxtaposed reading.last token.kind then -1 else 0) +
      ((token.operations declared).map Operation.gain).sum := by
  rw [balance, (step_eq_ok h).1, Multiset.map_add, Multiset.map_add, Multiset.sum_add,
    Multiset.sum_add, Multiset.map_coe, Multiset.map_coe, Multiset.sum_coe, Multiset.sum_coe,
    balance]
  have hproduct : ((product reading.last token).map Operation.gain).sum =
      if juxtaposed reading.last token.kind then -1 else 0 := by
    unfold product
    split
    · rfl
    · rfl
  rw [hproduct]
  omega

/-- The commas that are due behind a token. -/
theorem sum_commasAfter? {previous : Option Token} {commas later : List Nat} {token : Token}
    (h : Grammar.commasAfter? previous commas token = some later) :
    (later.sum : Int) + (if token.kind = .comma then 1 else 0) =
      commas.sum + if token.kind = .opening then (furtherOf previous : Int) else 0 := by
  unfold Grammar.commasAfter? at h
  split at h
  · next hkind =>
    obtain rfl := Option.some_inj.1 h
    simp [hkind, Nat.add_comm]
  · next due outer hkind =>
    obtain rfl := Option.some_inj.1 h
    simp only [hkind, List.sum_cons, if_true, reduceCtorEq, if_false]
    omega
  · next hkind =>
    obtain rfl := Option.some_inj.1 h
    simp [hkind]
  · cases h
  · cases h
  · next hkind =>
    obtain rfl := Option.some_inj.1 h
    simp [hkind]
  · next hkind =>
    obtain rfl := Option.some_inj.1 h
    simp [hkind]
  · next hkind =>
    obtain rfl := Option.some_inj.1 h
    simp [hkind]

/-- **No token raises the potential**, and a token before which an operand is missing lowers it.

**Proof sketch.** What a token gains and what is due behind it make one where an operand starts,
which pays for the operand that was due or for the product that is meant; where the token is a
comma, one comma less is due. -/
theorem potential_step {declared : List String} {reading later : Reading} {token : Token}
    {previous : Option Token} {commas commas' : List Nat} (hlast : reading.last = lastOf previous)
    (hstep : step declared reading token = .ok later)
    (hcommas : Grammar.commasAfter? previous commas token = some commas')
    (hsign : ∀ op, token.kind = .operator op → op.standsBefore →
      operandDue (previous.map Token.kind))
    (hapart : ∀ last ∈ previous, ¬ (last.kind = .number ∧ token.kind = .number)) :
    later.potential (some token) commas' ≤ reading.potential previous commas ∧
      (reading.potential previous commas ≤ later.potential (some token) commas' →
        (lastOf previous).due →
          token.kind.startsOperand ∧ (0 < furtherOf previous → token.kind = .opening)) := by
  have hbalance := balance_of_step hstep
  have hgain := gain_operations (step_eq_ok hstep).2.2
  have hsum := sum_commasAfter? hcommas
  -- beside the product that may be meant, the token adds one where an operand starts
  have hstarts : later.potential (some token) commas' =
      reading.balance + commas.sum + (if juxtaposed reading.last token.kind then -1 else 0) +
        (if token.kind.startsOperand then 1 else 0) +
        if token.kind = .opening then (furtherOf previous : Int) else 0 := by
    have hpotential : later.potential (some token) commas' =
        later.balance + commas'.sum + (if token.last.due then 1 else 0) + token.further := rfl
    rw [hpotential, hbalance]
    omega
  rw [hstarts, potential]
  by_cases hdue : (lastOf previous).due
  · have hmeant : ¬ juxtaposed reading.last token.kind := fun h => by
      have hnot := (juxtaposed_iff.1 h).1
      rw [hlast, hdue] at hnot
      cases hnot
    rw [if_neg hmeant, if_pos hdue]
    by_cases hopening : token.kind = .opening
    · have hoperand : token.kind.startsOperand := hopening ▸ rfl
      rw [if_pos hopening, if_pos hoperand]
      exact ⟨by omega, fun _ _ => ⟨hoperand, fun _ => hopening⟩⟩
    · rw [if_neg hopening]
      refine ⟨by split_ifs <;> omega, fun hle _ => ?_⟩
      by_cases hoperand : token.kind.startsOperand
      · rw [if_pos hoperand] at hle
        exact ⟨hoperand, fun hpositive => by omega⟩
      · rw [if_neg hoperand] at hle
        omega
  · have hfurther : furtherOf previous = 0 := furtherOf_eq_zero (Bool.eq_false_iff.2 hdue)
    refine ⟨?_, fun _ h => absurd h hdue⟩
    rw [hfurther, if_neg hdue]
    by_cases hoperand : token.kind.startsOperand
    · have hmeant : juxtaposed reading.last token.kind := by
        refine juxtaposed_iff.2 ⟨hlast ▸ Bool.eq_false_iff.2 hdue, hoperand, ?_, ?_⟩
        · intro op hkind
          have hbefore : op.standsBefore := by simpa [hkind, Kind.startsOperand] using hoperand
          exact hdue (due_of_operandDue (hsign op hkind hbefore)).1
        · rintro ⟨hnumber, hkind⟩
          rw [hlast] at hnumber
          obtain ⟨last, hprevious, hlastkind⟩ := exists_number_of_lastOf hnumber
          exact hapart last hprevious ⟨hlastkind, hkind⟩
      rw [if_pos hmeant, if_pos hoperand]
      split_ifs <;> simp
    · rw [if_neg hoperand]
      split_ifs <;> simp

end Reading

/-! ## Runs -/

namespace Grammar

/-- Wherever an operand is due there is one, and the parentheses of a function that takes further
arguments. -/
def Gapless (previous : Option Token) : List Token → Prop
  | [] => (Token.lastOf previous).due = false
  | token :: rest =>
    ((Token.lastOf previous).due →
      token.kind.startsOperand ∧ (0 < Token.furtherOf previous → token.kind = .opening)) ∧
      Gapless (some token) rest

/-- **A run does not raise the potential**, and if it keeps it no operand is missing.

**Proof sketch.** Induction on the tokens. At the end no comma is due, so what is left of the
potential beside the balance is what is still due. -/
theorem gapless_of_foldlM {declared : List String} {tokens : List Token} :
    ∀ {reading later : Reading} {previous : Option Token} {commas : List Nat},
      reading.last = Token.lastOf previous →
      tokens.foldlM (Reading.step declared) reading = .ok later →
      commasFit previous commas tokens →
      Token.SignsPlaced (previous.map Token.kind) tokens →
      NumbersApart (previous.toList ++ tokens) →
      later.balance ≤ reading.potential previous commas ∧
        (reading.potential previous commas ≤ later.balance → Gapless previous tokens) := by
  induction tokens with
  | nil =>
    intro reading later previous commas _ hfold hcommas _ _
    obtain rfl := foldlM_nil_eq_ok_iff.1 hfold
    obtain rfl : commas = [0] := by simpa [commasFit] using hcommas
    simp only [Reading.potential, Gapless, List.sum_cons, List.sum_nil]
    split_ifs with hdue
    · exact ⟨by omega, fun h => by omega⟩
    · exact ⟨by omega, fun _ => Bool.eq_false_iff.2 hdue⟩
  | cons token rest ih =>
    intro reading later previous commas hlast hfold hcommas hsigns hapart
    obtain ⟨middle, hstep, hrest⟩ := foldlM_cons_eq_ok_iff.1 hfold
    obtain ⟨commas', hafter, hcommas'⟩ := exists_of_commasFit_cons hcommas
    obtain ⟨hsign, hsigns'⟩ := hsigns
    have hnumbers : ∀ last ∈ previous, ¬ (last.kind = .number ∧ token.kind = .number) := by
      rintro last rfl
      exact (List.isChain_cons_cons.1 hapart).1
    have hapart' : NumbersApart ((some token).toList ++ rest) := hapart.tail
    obtain ⟨hle, hgap⟩ := Reading.potential_step hlast hstep hafter hsign hnumbers
    obtain ⟨hle', hgap'⟩ := ih (Reading.step_eq_ok hstep).2.1 hrest hcommas' hsigns' hapart'
    exact ⟨hle'.trans hle, fun h => ⟨hgap (h.trans hle'), hgap' (hle.trans h)⟩⟩

/-- **In a program that passes the check no operand is missing.** -/
theorem gapless_of_check {declared : List String} {tokens : List Token} {reading : Reading}
    {program : Program}
    (hfold : tokens.foldlM (Reading.step declared) Reading.start = .ok reading)
    (hfinish : reading.finish = .ok program) (hcheck : program.check = .ok ())
    (hcommas : commasFit none [0] tokens) (hsigns : Token.SignsPlaced none tokens)
    (hapart : NumbersApart tokens) : Gapless none tokens := by
  have hbalance : reading.balance = 1 := by
    rw [Reading.balance, ← Reading.coe_program hfinish, Multiset.map_coe, Multiset.sum_coe]
    exact Program.gain_of_check hcheck
  have hstart : Reading.start.potential none [0] = 1 := rfl
  have hrun : _ ∧ (Reading.start.potential none [0] ≤ reading.balance → _) :=
    gapless_of_foldlM rfl hfold hcommas hsigns hapart
  exact hrun.2 (by rw [hstart, hbalance])

end Grammar

end Grapher
