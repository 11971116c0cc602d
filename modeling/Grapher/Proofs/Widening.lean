import Grapher.Proofs.BestMatch
import Grapher.Proofs.Evaluation
import Grapher.Proofs.Redeclare

set_option relaxedAutoImplicit false
set_option autoImplicit false

/-!
# Formulas where more is declared

A text that is a formula stays one where more variables are declared. Its program has the same
operations at the same places, only that a constant is not pushed any more where a variable of its
name is declared now; the variable is loaded instead. So a text without such a name keeps its
program.

A variable that has the name of a builtin function changes nothing at all: the name means the
function with or without it, and it is never suggested for an unknown name either, since the
function comes first. What becomes of a text depends on the set of the other variables. The order in
which they are enumerated can only show in the hint for an unknown name, and there only if several
candidates are equally similar.

## Main definitions

* `Operation.Widened` — what becomes of an operation where more is declared.
* `loadable` — the variables that no function hides.
* `Advice.Agrees` — whether two advices enumerate these variables alike.
* `Formula.Alike` — whether two texts are compiled alike, up to the hint.

## Main results

* `Formula.exists_widened` — a formula stays one where more is declared.
* `Formula.ofSource_congr` — what becomes of a text depends on the meanings of names.
* `Formula.ofSource_alike` — and so on the set of loadable variables.
* `Formula.ofSource_widened` — all of this together.
-/

namespace Grapher

/-! ## More variables -/

/-- What becomes of an operation of a formula where `others` are declared and not only `declared`. A
constant is hidden by a variable of its name that is declared now and was not before. All else is
kept. -/
inductive Operation.Widened (declared others : List String) : Operation → Operation → Prop
  | hidden {place : Excerpt} {name : String} {value : Float}
      (hconstant : Builtin.find? place.text = some (.constant name value))
      (hbefore : place.text ∉ declared) (hafter : place.text ∈ others) :
      Widened declared others ⟨.push value, place⟩ ⟨.load place.text, place⟩
  | kept {operation : Operation}
      (h : ∀ number, operation.action = .push number → ∀ name value,
        Builtin.find? operation.place.text = some (.constant name value) →
          operation.place.text ∉ others) :
      Widened declared others operation operation

/-- An operation stays at its place. -/
theorem Operation.Widened.place {declared others : List String} {operation wider : Operation}
    (h : operation.Widened declared others wider) : wider.place = operation.place := by
  cases h <;> rfl

namespace Formula

variable {declared others : List String} {source : String} {formula : Formula}

/-- An operation of a formula is hidden or kept, as long as the variables that the formula loads are
declared. -/
theorem widened_redeclare (h : ofSource declared source = .ok formula)
    (hload : ∀ name ∈ formula.names, name ∈ others) {operation : Operation}
    (hoperation : operation ∈ formula.program) :
    operation.Widened declared others (operation.redeclare others) := by
  obtain ⟨action, place⟩ := operation
  by_cases hconstant : ∃ name value, Builtin.find? place.text = some (.constant name value)
  · obtain ⟨name, value, hconstant⟩ := hconstant
    obtain ⟨hpush, hvariable⟩ := at_constant h hoperation hconstant
    cases action with
    | apply op => exact .kept nofun
    | call f => exact .kept nofun
    | push number =>
      obtain ⟨rfl, hbefore, -⟩ := hpush number rfl
      rw [Operation.redeclare_constant others (.inl ⟨number, rfl⟩) hconstant]
      split
      · next hafter => exact .hidden hconstant hbefore hafter
      · next hafter => exact .kept fun _ _ _ _ _ => hafter
    | load other =>
      obtain rfl : other = place.text := hvariable other rfl
      have hafter : place.text ∈ others :=
        hload _ (Program.mem_names.2 ⟨_, hoperation, rfl⟩)
      rw [Operation.redeclare_constant others (.inr ⟨_, rfl⟩) hconstant, if_pos hafter]
      exact .kept nofun
  · rw [Operation.redeclare_of_ne others fun name value h => hconstant ⟨name, value, h⟩]
    exact .kept fun _ _ name value h => absurd ⟨name, value, h⟩ hconstant

/-- **A formula stays one where more is declared.** Its operations are hidden or kept, each at its
place. -/
theorem exists_widened (h : ofSource declared source = .ok formula) (hsub : declared ⊆ others) :
    ∃ wider, ofSource others source = .ok wider ∧ wider.source = formula.source ∧
      wider.program.map Operation.place = formula.program.map Operation.place ∧
      List.Forall₂ (Operation.Widened declared others) formula.program wider.program := by
  have hload : ∀ name ∈ formula.names, name ∈ others := fun name hname =>
    hsub (mem_declared_of_ofSource h hname)
  have hwidened : ∀ operation ∈ formula.program,
      operation.Widened declared others (operation.redeclare others) :=
    fun operation hoperation => widened_redeclare h hload hoperation
  refine ⟨_, ofSource_redeclare h hload, (ofSource_eq_ok_iff.1 h).1.symm, ?_, ?_⟩
  · rw [List.map_map]
    exact List.map_congr_left fun operation hoperation => (hwidened operation hoperation).place
  · rw [List.forall₂_map_right_iff, List.forall₂_same]
    exact hwidened

/-- **A text without a newly declared name of a constant** keeps its formula. -/
theorem ofSource_of_unmentioned (h : ofSource declared source = .ok formula)
    (hsub : declared ⊆ others)
    (hmention : ∀ token ∈ (Token.scan source).tokens, token.kind = .name →
      ∀ name value, Builtin.find? token.excerpt.text = some (.constant name value) →
        token.excerpt.text ∈ others → token.excerpt.text ∈ declared) :
    ofSource others source = .ok formula := by
  have hload : ∀ name ∈ formula.names, name ∈ others := fun name hname =>
    hsub (mem_declared_of_ofSource h hname)
  have hconstants : ∀ text ∈ formula.constants, text ∉ others := by
    intro text htext hafter
    obtain ⟨operation, hoperation, rfl, ⟨number, hpush⟩, name, value, hconstant⟩ :=
      mem_constants.1 htext
    obtain ⟨-, hbefore, token, htoken, hkind, hplace⟩ :=
      (at_constant h hoperation hconstant).1 number hpush
    rw [← hplace] at hconstant hafter hbefore
    exact hbefore (hmention token htoken hkind name value hconstant hafter)
  rw [ofSource_redeclare h hload, (redeclare_eq_iff h hload).2 hconstants,
    ← (ofSource_eq_ok_iff.1 h).1]

end Formula

/-! ## Variables with the names of functions -/

/-- The variables that a formula can load. A name that a function has means the function. -/
def loadable (names : List String) : List String :=
  names.filter fun name => !Builtin.functions.any fun f => f.name == name

/-- What can be loaded: a variable that has not the name of a function. -/
theorem mem_loadable_iff {names : List String} {name : String} :
    name ∈ loadable names ↔ name ∈ names ∧ ∀ f ∈ Builtin.functions, f.name ≠ name := by
  simp [loadable]

/-- A name has the same meaning where the same variables can be loaded. -/
theorem meaning?_congr {declared others : List String}
    (h : ∀ name, name ∈ loadable declared ↔ name ∈ loadable others) (name : String) :
    meaning? declared name = meaning? others name := by
  by_cases hname : ∃ f ∈ Builtin.functions, f.name = name
  · obtain ⟨f, hf, rfl⟩ := hname
    simp only [meaning?, Builtin.find?_name hf]
  · have hfree : ∀ f ∈ Builtin.functions, f.name ≠ name := fun f hf heq => hname ⟨f, hf, heq⟩
    have hcontains : declared.contains name = others.contains name := by
      rw [Bool.eq_iff_iff, List.contains_iff_mem, List.contains_iff_mem]
      simpa only [mem_loadable_iff, and_iff_left hfree] using h name
    simp only [meaning?, hcontains]

namespace Reading

/-- A step depends on the meanings of names. -/
theorem step_congr {declared others : List String}
    (h : ∀ name, meaning? declared name = meaning? others name) : step declared = step others := by
  funext reading token
  simp only [step, name, h]

/-- **The program of a text depends on the meanings of names**, and so does why there is none. -/
theorem program_congr {declared others : List String}
    (h : ∀ name, meaning? declared name = meaning? others name) (source : String) :
    program declared source = program others source := by
  simp only [program, ofScan, step_congr h]

end Reading

/-- Where names have the same meanings, the same texts are formulas, and a rejection differs in what
is said to be declared. -/
theorem Formula.ofSource_congr {declared others : List String}
    (h : ∀ name, meaning? declared name = meaning? others name) (source : String) :
    ofSource declared source = (ofSource others source).mapError
      fun rejection => { rejection with declared := declared } := by
  unfold ofSource
  rw [Reading.program_congr h]
  rcases Reading.program others source with misreading | program
  · rfl
  · dsimp only
    cases program.check <;> rfl

/-! ## Reports -/

/-- Two advices for reports, where the variables of one list and of another are declared, have the
same measure and enumerate the builtins and the loadable variables alike. -/
structure Advice.Agrees (advice : Advice) (declared : List String) (later : Advice)
    (others : List String) : Prop where
  /-- The measure is the same. -/
  measure : advice.measure = later.measure
  /-- The builtins come in the same order. -/
  builtins : advice.builtins = later.builtins
  /-- The loadable variables come in the same order. -/
  names : loadable (advice.names declared) = loadable (later.names others)

namespace Rejection

variable {advice later : Advice} {declared others : List String}

/-- The variables with names of functions are not suggested. -/
theorem nameHint?_eq_loadable (advice : Advice) (declared : List String) (name : String) :
    nameHint? advice declared name =
      (Candidate.suggest? advice.measure (advice.builtins.map .ofBuiltin ++
        (loadable (advice.names declared)).map (⟨.variable, ·⟩)) name).map fun candidate =>
          s!"{candidate.kind.word} '{candidate.name}' has a similar name" := by
  unfold nameHint? Advice.candidates loadable
  rw [Candidate.suggest?_filter]
  intro other _ hold
  obtain ⟨f, hf, rfl⟩ : ∃ f ∈ Builtin.functions, f.name = other := by simpa using hold
  have htable : .function f ∈ Builtin.table := List.mem_append_left _ (List.mem_map_of_mem hf)
  exact ⟨.function, List.mem_map.2 ⟨_, (advice.mem_builtins _).2 htable, rfl⟩⟩

/-- **Advices that agree give the same hint.** -/
theorem nameHint?_of_agrees (h : advice.Agrees declared later others) (name : String) :
    nameHint? advice declared name = nameHint? later others name := by
  rw [nameHint?_eq_loadable, nameHint?_eq_loadable, h.measure, h.builtins, h.names]

/-- There still is a hint where more variables can be loaded. A variable with the name of a function
is not missed, since the function is as similar. -/
theorem isSome_nameHint?_mono (hadvice : advice.NeverNaN)
    (hmeasure : advice.measure = later.measure)
    (h : ∀ other ∈ loadable declared, other ∈ loadable others) {name : String}
    (hsome : (nameHint? advice declared name).isSome) :
    (nameHint? later others name).isSome := by
  have hlater : later.NeverNaN := fun word other => hmeasure ▸ hadvice word other
  rw [isSome_nameHint?_iff hlater, ← hmeasure]
  rcases (isSome_nameHint?_iff hadvice declared name).1 hsome with hbuiltin | ⟨other, hother, hlt⟩
  · exact .inl hbuiltin
  · by_cases hfree : ∃ f ∈ Builtin.functions, f.name = other
    · obtain ⟨f, hf, rfl⟩ := hfree
      exact .inl ⟨.function f, List.mem_append_left _ (List.mem_map_of_mem hf), hlt⟩
    · have hload : other ∈ loadable declared :=
        mem_loadable_iff.2 ⟨hother, fun f hf heq => hfree ⟨f, hf, heq⟩⟩
      exact .inr ⟨other, (mem_loadable_iff.1 (h other hload)).1, hlt⟩

/-- **Whether there is a hint** depends on the measure and on the loadable variables, and not on any
order. -/
theorem isSome_nameHint?_congr (hadvice : advice.NeverNaN)
    (hmeasure : advice.measure = later.measure)
    (h : ∀ name, name ∈ loadable declared ↔ name ∈ loadable others) (name : String) :
    (nameHint? advice declared name).isSome = (nameHint? later others name).isSome := by
  have hlater : later.NeverNaN := fun word other => hmeasure ▸ hadvice word other
  rw [Bool.eq_iff_iff]
  exact ⟨isSome_nameHint?_mono hadvice hmeasure fun other => (h other).1,
    isSome_nameHint?_mono hlater hmeasure.symm fun other => (h other).2⟩

/-- The hint for another cause depends neither on the advice nor on the variables. -/
theorem hint?_of_ne {cause : Cause} (h : cause ≠ .misread .unknownName) (source : String)
    (place : Option Excerpt) (declared others : List String) (advice later : Advice) :
    hint? advice ⟨cause, source, place, declared⟩ = hint? later ⟨cause, source, place, others⟩ := by
  cases cause with
  | misread problem =>
    cases problem with
    | unknownName => exact absurd rfl h
    | _ => rfl
  | unsound cause => cases cause <;> rfl

/-- Reports with the same hint are the same. -/
theorem messages_congr {cause : Cause} {source : String} {place : Option Excerpt}
    (h : hint? advice ⟨cause, source, place, declared⟩ =
      hint? later ⟨cause, source, place, others⟩) :
    messages advice ⟨cause, source, place, declared⟩ =
      messages later ⟨cause, source, place, others⟩ := by
  rw [messages, messages, h]
  rfl

end Rejection

namespace Formula

/-- A text is compiled alike: it is the same formula, or it is rejected for the same cause at the
same place. The reports are the same, except that the order in which builtins and variables are
enumerated may show in the hint for an unknown name. Also for such a name there is a hint in both
reports or in neither, and it is the same if the orders agree. -/
inductive Alike : Except Rejection Formula → Except Rejection Formula → Prop
  | formula (formula : Formula) : Alike (.ok formula) (.ok formula)
  | rejection {rejection other : Rejection} (hcause : rejection.cause = other.cause)
      (hsource : rejection.source = other.source) (hplace : rejection.place = other.place)
      (hhint : ∀ advice later : Advice, advice.NeverNaN → advice.measure = later.measure →
        (rejection.hint? advice).isSome = (other.hint? later).isSome)
      (hmessages : ∀ advice later : Advice, other.cause ≠ .misread .unknownName ∨
          advice.Agrees rejection.declared later other.declared →
        rejection.messages advice = other.messages later) :
      Alike (.error rejection) (.error other)

/-- **A text is compiled alike where the same variables can be loaded**, in whatever order they are
listed. -/
theorem ofSource_alike {declared others : List String}
    (h : ∀ name, name ∈ loadable declared ↔ name ∈ loadable others) (source : String) :
    Alike (ofSource declared source) (ofSource others source) := by
  rw [ofSource_congr (meaning?_congr h)]
  cases hother : ofSource others source with
  | ok formula => exact .formula formula
  | error rejection =>
    obtain ⟨-, hdeclared⟩ := origin_of_ofSource_error hother
    obtain ⟨cause, text, place, names⟩ := rejection
    obtain rfl : names = others := hdeclared
    refine .rejection rfl rfl rfl (fun advice later hadvice hmeasure => ?_)
      fun advice later hagrees => Rejection.messages_congr ?_
    · by_cases hcause : cause = .misread .unknownName
      · subst hcause
        cases place with
        | none => simp only [Rejection.hint?, Option.bind_none]
        | some place => exact Rejection.isSome_nameHint?_congr hadvice hmeasure h place.text
      · rw [Rejection.hint?_of_ne hcause text place declared names advice later]
    · by_cases hcause : cause = .misread .unknownName
      · subst hcause
        have hagrees := hagrees.resolve_left fun hne => hne rfl
        cases place with
        | none => simp only [Rejection.hint?, Option.bind_none]
        | some place => exact Rejection.nameHint?_of_agrees hagrees place.text
      · exact Rejection.hint?_of_ne hcause text place declared names advice later

/-- **Declaring more never breaks a formula.** Where more variables are declared, the text of a
formula is one as well, and its program has the same operations at the same places, only that the
variables that have the name of a constant and were not declared before are loaded where the
constant was pushed. A text without such a name is the same formula. Whether variables are declared
that have the names of functions makes no difference, not even to what is rejected, and so does not
the order of the others, except that it may decide between hints.

**Proof sketch.** A formula loads none but declared variables, so they are declared among more
(`Formula.ofSource_redeclare`). What is pushed at the name of a constant comes from a token that has
this name, and the name was not declared (`Formula.at_constant`). The name of a function has the
same meaning whatever is declared (`meaning?_congr`), and of two candidates of one name the one
behind is never suggested (`Candidate.suggest?_filter`). -/
theorem ofSource_widened (source : String) :
    (∀ declared others : List String, declared ⊆ others → ∀ formula,
      ofSource declared source = .ok formula →
        (∃ wider, ofSource others source = .ok wider ∧ wider.source = formula.source ∧
          wider.program.map Operation.place = formula.program.map Operation.place ∧
          List.Forall₂ (Operation.Widened declared others) formula.program wider.program) ∧
        ((∀ token ∈ (Token.scan source).tokens, token.kind = .name → ∀ name value,
            Builtin.find? token.excerpt.text = some (.constant name value) →
              token.excerpt.text ∈ others → token.excerpt.text ∈ declared) →
          ofSource others source = .ok formula)) ∧
    ∀ declared others : List String,
      (∀ name, (∀ f ∈ Builtin.functions, f.name ≠ name) → (name ∈ declared ↔ name ∈ others)) →
        Alike (ofSource declared source) (ofSource others source) := by
  refine ⟨fun _ _ hsub _ h => ⟨exists_widened h hsub, ofSource_of_unmentioned h hsub⟩,
    fun declared others h => ofSource_alike (fun name => ?_) source⟩
  rw [mem_loadable_iff, mem_loadable_iff]
  exact and_congr_left (h name)

/-- Two constants of which one is hidden, a text that keeps its formula, and one that is rejected
with the same report. -/
theorem ofSource_widened_pi :
    (∃ formula wider, ofSource ["x"] "pi x e" = .ok formula ∧
      ofSource ["pi", "sin", "x"] "pi x e" = .ok wider ∧
      List.Forall₂ (Operation.Widened ["x"] ["pi", "sin", "x"]) formula.program wider.program ∧
      formula.constants = ["pi", "e"] ∧ wider.constants = ["e"] ∧ wider.names = ["pi", "x"]) ∧
    (∃ formula, ofSource ["x"] "abs(e x)" = .ok formula ∧
      ofSource ["pi", "sin", "x"] "abs(e x)" = .ok formula) ∧
    ∃ rejection other, ofSource ["x"] "sine x" = .error rejection ∧
      ofSource ["sin", "x"] "sine x" = .error other ∧
      other.messages .byEdits = rejection.messages .byEdits := by
  have hsub : ["x"] ⊆ ["pi", "sin", "x"] := by simp
  have hread : (ofSource ["x"] "pi x e").toOption.map constants = some ["pi", "e"] ∧
      (ofSource ["pi", "sin", "x"] "pi x e").toOption.map
        (fun wider => (wider.constants, wider.names)) = some (["e"], ["pi", "x"]) ∧
      (ofSource ["x"] "abs(e x)").toOption.isSome ∧
      (ofSource ["x"] "sine x").toOption.isSome = false := by
    decide +kernel
  obtain ⟨hpi, hwider, habs, habse⟩ := hread
  refine ⟨?_, ?_, ?_⟩
  · obtain ⟨formula, hformula, hconstants⟩ := Option.map_eq_some_iff.1 hpi
    have hok : ofSource ["x"] "pi x e" = .ok formula := eq_ok_of_toOption hformula
    obtain ⟨⟨wider, hwide, -, -, hwidened⟩, -⟩ := (ofSource_widened "pi x e").1 _ _ hsub _ hok
    simp only [hwide, Except.toOption, Option.map_some, Option.some_inj, Prod.mk.injEq] at hwider
    exact ⟨formula, wider, hok, hwide, hwidened, hconstants, hwider⟩
  · obtain ⟨formula, hformula⟩ := Option.isSome_iff_exists.1 habs
    have hok : ofSource ["x"] "abs(e x)" = .ok formula := eq_ok_of_toOption hformula
    have hfresh : ∀ token ∈ (Token.scan "abs(e x)").tokens,
        token.excerpt.text ∈ ["pi", "sin", "x"] → token.excerpt.text ∈ ["x"] := by
      decide +kernel
    exact ⟨formula, hok, ((ofSource_widened _).1 _ _ hsub _ hok).2
      fun token htoken _ _ _ _ => hfresh token htoken⟩
  · have hsame : ∀ name, (∀ f ∈ Builtin.functions, f.name ≠ name) →
        (name ∈ ["x"] ↔ name ∈ ["sin", "x"]) := by
      intro name hname
      have hsin : "sin" ≠ name := hname ⟨"sin", 1, .unary Float.sin, rfl⟩
        (by simp [Builtin.functions, Builtin.angular])
      simp [hsin.symm]
    have halike := (ofSource_widened "sine x").2 _ _ hsame
    cases hrejected : ofSource ["x"] "sine x" with
    | ok formula => simp [hrejected, Except.toOption] at habse
    | error rejection =>
      rw [hrejected] at halike
      generalize hother : ofSource ["sin", "x"] "sine x" = outcome at halike
      cases halike with
      | @rejection _ other _ _ _ _ hmessages =>
        have horigin := (origin_of_ofSource_error hrejected).2
        have horigin' := (origin_of_ofSource_error hother).2
        refine ⟨rejection, other, rfl, rfl, (hmessages _ _ (.inr ⟨rfl, rfl, ?_⟩)).symm⟩
        rw [horigin, horigin']
        decide +kernel

end Formula

end Grapher
