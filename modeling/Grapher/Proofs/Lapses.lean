import Grapher.Proofs.GuardedRun
import Grapher.Proofs.Sessions

set_option relaxedAutoImplicit false
set_option autoImplicit false

/-!
# Nothing lapses

A text is compiled, its rejection is reported, and a formula is evaluated and plotted without any
use of a partial operation outside its domain, whatever the text is, whichever names are declared
and whatever the variables are. Where a place is remembered it is an excerpt of the text, also the
empty place of a product that is not written. So compiling has no errors but its own.

## Main definitions

* `Guarded.ofSource`, `Guarded.names`, `Guarded.messages`, `Guarded.next` — a formula of a text, the
  variables of a formula, the report of a rejection and the next point of a sweep, with guards.
* `Formula.Safe`, `Rejection.Safe` — nothing lapses where a formula or a rejection is used.

## Main results

* `Guarded.ofSource_gives` — compiling does not lapse.
* `Formula.safe_of_readFrom` — using a formula whose operations stand in its text does not lapse.
* `no_lapse` — nothing lapses.
-/

namespace Grapher

namespace Guarded

/-! ## Formulas -/

variable {source : String}

/-- Errors that are reported in another way. -/
theorem Gives.adapt {ε ε' α : Type} {x : Guarded ε α} {result : Except ε α} (f : ε → ε')
    (hx : x.Gives result) : Gives (ExceptT.adapt f x) (result.mapError f) := by
  have hrun : x = Except.ok result := hx
  subst hrun
  rfl

/-- The formula of a text where the given variables are declared. -/
def ofSource (declared : List String) (source : String) : Guarded Rejection Formula := do
  let program ← ExceptT.adapt (fun misreading =>
    (⟨.misread misreading.problem, source, some misreading.place, declared⟩ : Rejection))
    (Shunt.program declared source)
  ExceptT.adapt (fun fault =>
    (⟨.unsound fault.cause, source, fault.place?, declared⟩ : Rejection)) (check source program)
  return ⟨source, program⟩

/-- **Compiling does not lapse.** -/
theorem ofSource_gives (declared : List String) (source : String) :
    (ofSource declared source).Gives (Formula.ofSource declared source) := by
  have hprogram := (Shunt.program_gives declared source).adapt fun misreading =>
    (⟨.misread misreading.problem, source, some misreading.place, declared⟩ : Rejection)
  unfold Formula.ofSource
  cases hread : Reading.program declared source with
  | error misreading =>
    rw [hread] at hprogram
    exact hprogram.bind_error
  | ok program =>
    rw [hread] at hprogram
    refine hprogram.bind_ok ?_
    have hcheck := (check_gives ((Reading.program_readFrom declared source).1 program hread)).adapt
      fun fault => (⟨.unsound fault.cause, source, fault.place?, declared⟩ : Rejection)
    dsimp only
    cases hsound : program.check with
    | error fault =>
      rw [hsound] at hcheck
      exact hcheck.bind_error
    | ok _ =>
      rw [hsound] at hcheck
      exact hcheck.bind_ok rfl

/-- The variables that a program loads, in the order of the program. -/
def loads (source : String) : Program → Except Lapse (List String)
  | [] => return []
  | operation :: rest =>
    match operation.action with
    | .load _ => do
      let name ← operation.place.cut source
      return name :: (← loads source rest)
    | .push _ | .apply _ | .call _ => loads source rest

/-- The variables that a formula loads, in the order of first use. -/
def names (formula : Formula) : Except Lapse (List String) := do
  return (← loads formula.source formula.program).eraseDups

/-- The variables of a formula that stand in its text can be read off it. -/
theorem loads_eq {program : Program} (h : ∀ operation ∈ program, operation.ReadFrom source) :
    loads source program = .ok (program.filterMap Operation.loaded?) := by
  induction program with
  | nil => rfl
  | cons operation rest ih =>
    have hrest := ih fun other hother => h other (by simp [hother])
    have hread := h operation (by simp)
    cases haction : operation.action with
    | load name =>
      have hloaded : operation.loaded? = some name := Program.loaded?_eq_some_iff.2 haction
      simp only [loads, haction, hread.place.cut, (hread.load name haction).1, hrest,
        List.filterMap_cons_some hloaded]
      rfl
    | push | apply | call =>
      have hloaded : operation.loaded? = none := by simp [Operation.loaded?, haction]
      simp only [loads, haction, hrest, List.filterMap_cons_none hloaded]

/-! ## Reports -/

/-- A hint on how to mend the text. The hint on an unknown name looks the name up in the text. -/
def hint? (advice : Advice) (rejection : Rejection) : Except Lapse (Option String) :=
  match rejection.cause, rejection.place with
  | .misread .unknownName, some place => do
    let name ← place.cut rejection.source
    return Rejection.nameHint? advice rejection.declared name
  | _, _ => return rejection.hint? advice

/-- The report: the headline, the illustration and the hint. -/
def messages (advice : Advice) (rejection : Rejection) : Except Lapse (List String) := do
  let hint ← hint? advice rejection
  return rejection.headline :: rejection.illustration ++
    (hint.map fun hint => s!"note: {hint}").toList

/-- A report on a place in the text does not lapse. -/
theorem messages_eq {rejection : Rejection}
    (h : ∀ place, rejection.place = some place → place.In rejection.source) (advice : Advice) :
    messages advice rejection = .ok (rejection.messages advice) := by
  have hhint : hint? advice rejection = .ok (rejection.hint? advice) := by
    unfold hint?
    split
    · next place hcause hplace =>
      simp only [(h place hplace).cut, Rejection.hint?, hcause, hplace]
      rfl
    · rfl
  rw [messages, hhint]
  rfl

/-! ## Points -/

/-- The value of a formula, or what is no number where it has no value, on a kept stack. -/
def valueOn (formula : Formula) (env : Environment) : StateT (List Float) (Except Lapse) Float := do
  match ← (evaluate formula.source formula.program env).run with
  | .ok value => return value
  | .error _ => return Arithmetic.notANumber

/-- The point at a number of the range, on a kept stack. -/
def pointOn (curve : Curve) (value : Float) (env : Environment) :
    StateT (List Float) (Except Lapse) Point :=
  match curve with
  | .explicit y => return ⟨value, ← valueOn y env⟩
  | .parametric x y => return ⟨← valueOn x env, ← valueOn y env⟩
  | .radial r => return Polar.toPoint ⟨← valueOn r env, value⟩
  | .angular t => return Polar.toPoint ⟨value, ← valueOn t env⟩

/-- The next point of a sweep, if there is one, and the sweep after it. The position is counted up
without a guard: a counter of 64 bits wraps around when it reaches `Sweep.positions`, which takes as
many points. -/
def next (sweep : Sweep) : Except Lapse (Option Point × Sweep) :=
  if sweep.ended then return (none, sweep)
  else
    let number := sweep.number sweep.position
    if sweep.isPast number then return (none, { sweep with ended := true })
    else do
      let env := sweep.env.set sweep.swept number
      let (point, stack) ← (pointOn sweep.curve number env).run sweep.stack
      return (some point, { sweep with env := env, position := sweep.position + 1, stack := stack })

/-- Two computations on a kept stack, one after the other, neither of which lapses. -/
theorem run_bind_eq_ok {α β : Type} {x : StateT (List Float) (Except Lapse) α}
    {y : StateM (List Float) α} {f : α → StateT (List Float) (Except Lapse) β}
    {g : α → StateM (List Float) β} {stack : List Float} (hx : x.run stack = .ok (y.run stack))
    (hf : ∀ a later, (f a).run later = .ok ((g a).run later)) :
    (x >>= f).run stack = .ok ((y >>= g).run stack) := by
  rw [StateT.run_bind, hx]
  exact hf _ _

/-- A formula whose operations stand in its text is evaluated as ever. -/
theorem valueOn_run {formula : Formula}
    (h : ∀ operation ∈ formula.program, operation.ReadFrom formula.source) (env : Environment)
    (stack : List Float) :
    (valueOn formula env).run stack = .ok ((Curve.valueOn formula env).run stack) :=
  run_bind_eq_ok (evaluate_follows h env stack) fun result _ => by cases result <;> rfl

/-- **A point is computed as ever**, without a lapse. -/
theorem pointOn_run {curve : Curve}
    (h : ∀ entry ∈ curve.formulas, ∀ operation ∈ entry.2.program, operation.ReadFrom entry.2.source)
    (value : Float) (env : Environment) (stack : List Float) :
    (pointOn curve value env).run stack = .ok ((curve.pointOn value env).run stack) := by
  cases curve with
  | explicit y =>
    exact run_bind_eq_ok (valueOn_run (h (.y, y) (by simp [Curve.formulas])) env stack)
      fun _ _ => rfl
  | parametric x y =>
    exact run_bind_eq_ok (valueOn_run (h (.x, x) (by simp [Curve.formulas])) env stack)
      fun _ later => run_bind_eq_ok (valueOn_run (h (.y, y) (by simp [Curve.formulas])) env later)
        fun _ _ => rfl
  | radial r =>
    exact run_bind_eq_ok (valueOn_run (h (.r, r) (by simp [Curve.formulas])) env stack)
      fun _ _ => rfl
  | angular t =>
    exact run_bind_eq_ok (valueOn_run (h (.t, t) (by simp [Curve.formulas])) env stack)
      fun _ _ => rfl

/-- **The next point of a sweep is computed as ever**, without a lapse. -/
theorem next_eq {sweep : Sweep} (h : ∀ entry ∈ sweep.curve.formulas,
    ∀ operation ∈ entry.2.program, operation.ReadFrom entry.2.source) :
    next sweep = .ok sweep.next := by
  unfold next Sweep.next
  split
  · rfl
  · dsimp only
    split
    · rfl
    · rw [pointOn_run h]
      rfl

end Guarded

/-! ## Nothing lapses -/

/-- Nothing lapses where a formula is used. -/
structure Formula.Safe (formula : Formula) : Prop where
  /-- Every operation stands in the text. -/
  place : ∀ operation ∈ formula.program, operation.place.In formula.source
  /-- Every called function expects as many arguments as its arity says, so that a call with so many
  does not lapse, while one with any other number would. -/
  body : ∀ operation ∈ formula.program, ∀ f, operation.action.callable? = some f →
    f.body.count = f.arity ∧
      ∀ args, (∃ value, f.body.call args = .ok value) ↔ args.length = f.arity
  /-- The variables are listed without a lapse. -/
  names : Guarded.names formula = .ok formula.names
  /-- The formula is evaluated without a lapse, whatever is left on the stack. -/
  evaluate : ∀ env stack, (Guarded.evaluate formula.source formula.program env).run.run stack =
    .ok ((formula.program.evaluate env).run.run stack)
  /-- A fault stands in the text. -/
  fault : ∀ env fault, formula.value env = .error fault →
    ∀ place, fault.place? = some place → place.In formula.source

/-- Nothing lapses where a rejection is reported. -/
structure Rejection.Safe (rejection : Rejection) : Prop where
  /-- The place is an excerpt of the text. -/
  place : ∀ place, rejection.place = some place → place.In rejection.source
  /-- The report is written without a lapse, whatever the advice is. -/
  messages : ∀ advice, Guarded.messages advice rejection = .ok (rejection.messages advice)

/-- **Using a formula whose operations stand in its text does not lapse.** -/
theorem Formula.safe_of_readFrom {formula : Formula}
    (h : ∀ operation ∈ formula.program, operation.ReadFrom formula.source) : formula.Safe := by
  refine ⟨fun operation hoperation => (h operation hoperation).place,
    fun operation hoperation f hf => ⟨f.fits, f.exists_call_iff⟩, ?_,
    fun env stack => Guarded.evaluate_follows h env stack, fun env fault hfault place hplace => ?_⟩
  · rw [Guarded.names, Guarded.loads_eq h]
    rfl
  · obtain ⟨operation, hoperation, rfl⟩ := Option.map_eq_some_iff.1 hplace
    exact (h operation ((Program.run_eq_error_iff.1 hfault).mem hoperation)).place

/-- The number of a formula that is a number stands in its text. -/
theorem Formula.readFrom_of_ofFloat (value : Float) :
    ∀ operation ∈ (ofFloat value).program, operation.ReadFrom (ofFloat value).source := by
  intro operation hoperation
  obtain rfl := List.mem_singleton.1 hoperation
  exact .of_ne (Excerpt.all_in _) (by simp) (by simp)

/-- The formulas of a reachable worksheet stand in their texts. -/
theorem Worksheet.Reachable.readFrom {w : Worksheet} (h : w.Reachable) (c : Coordinate) :
    ∀ operation ∈ (w.formula c).program, operation.ReadFrom (w.formula c).source := by
  obtain ⟨declared, hformula⟩ := h.sound.formulas c
  exact Formula.readFrom_of_ofSource hformula

/-- The formulas of a plot of a reachable worksheet stand in their texts. -/
theorem Worksheet.Reachable.readFrom_curve {w : Worksheet} (h : w.Reachable) (mode : Mode) :
    ∀ entry ∈ (w.curve mode).formulas, ∀ operation ∈ entry.2.program,
      operation.ReadFrom entry.2.source := by
  cases mode <;> simp only [Worksheet.curve, Curve.formulas, List.forall_mem_cons,
    List.not_mem_nil, false_implies, implies_true, and_true]
  case parametric => exact ⟨h.readFrom .x, h.readFrom .y⟩
  all_goals exact h.readFrom _

/-- **Nothing lapses.** A text is compiled without a lapse, so there are no errors but its own, and
its tokens, the operations of whatever is read of it and the places of errors are excerpts of it. A
rejection is reported, a formula is evaluated and its variables are listed, and the next point of
any plot is computed, without a lapse: no open parenthesis goes to the program, whatever is cut out
of a text lies in it between characters, no height becomes negative, and every function is called
with as many arguments as it expects. A plot is no further than points have been asked for, so
before there have been as many as 64 bits can count, no counter of its positions wraps around.

**Proof sketch.** The tokens of a scan are excerpts of the source, and the operations of a reading
stand there under the names that they use (`Reading.ReadFrom`). The stack of waiting operators is
that of the levels of a reading (`Shunt.program_gives`), and a check or a run subtracts only after
it has compared (`Guarded.check_gives`, `Guarded.evaluate_follows`). Formulas of plots come from
reachable worksheets, which were read from their texts. -/
theorem no_lapse :
    (∀ declared source,
      (Guarded.ofSource declared source).Gives (Formula.ofSource declared source) ∧
        (∀ token ∈ (Token.scan source).tokens, token.excerpt.In source) ∧
        (∀ tokens reading, tokens <+: (Token.scan source).tokens →
          tokens.foldlM (Reading.step declared) .start = .ok reading →
            ∀ operation ∈ reading.contents, operation.place.In source) ∧
        (∀ formula, Formula.ofSource declared source = .ok formula → formula.Safe) ∧
        ∀ rejection, Formula.ofSource declared source = .error rejection → rejection.Safe) ∧
      (∀ value, (Formula.ofFloat value).Safe) ∧
      ∀ steps key sweep, (Session.initial.after steps).sweep? key = some sweep →
        Guarded.next sweep = .ok sweep.next ∧ sweep.position ≤ Session.asked steps := by
  refine ⟨fun declared source => ⟨Guarded.ofSource_gives declared source,
    fun token => Token.in_of_mem_scan, fun tokens reading hprefix hread operation hoperation => ?_,
    fun formula hformula => ?_, fun rejection hrejection => ?_⟩,
    fun value => Formula.safe_of_readFrom (Formula.readFrom_of_ofFloat value),
    fun steps key sweep hsweep => ?_⟩
  · have hreading := (Reading.start_readFrom source).foldlM
      (fun token htoken => hprefix.subset htoken) hread
    exact (hreading.contents operation hoperation).place
  · refine Formula.safe_of_readFrom ?_
    rw [(Formula.ofSource_eq_ok_iff.1 hformula).1]
    exact Formula.readFrom_of_ofSource hformula
  · have hplace : ∀ place, rejection.place = some place → place.In rejection.source := by
      rw [(Formula.origin_of_ofSource_error hrejection).1]
      exact fun place => Formula.in_of_ofSource_error hrejection
    exact ⟨hplace, Guarded.messages_eq hplace⟩
  · have hcurves : (Session.initial.after steps).CurvesReachable :=
      Session.curvesReachable_after steps .initial fun _ _ h => nomatch h
    have hpositions : (Session.initial.after steps).PositionsAtMost (0 + Session.asked steps) :=
      Session.positionsAtMost_after steps fun _ _ h => nomatch h
    obtain ⟨w, mode, hw, hcurve⟩ := hcurves key sweep hsweep
    refine ⟨Guarded.next_eq ?_, (hpositions key sweep hsweep).trans_eq (Nat.zero_add _)⟩
    rw [hcurve]
    exact hw.readFrom_curve mode

/-- Nothing lapses at a product that is not written, behind a blank of three bytes, nor at a
character of two bytes that starts no token. -/
theorem no_lapse_wide :
    (∃ formula, Formula.ofSource ["x"] "2\u3000x" = .ok formula ∧
        formula.program.map (·.place) = [⟨0, "2"⟩, ⟨4, "x"⟩, ⟨4, ""⟩] ∧ formula.Safe) ∧
      ∃ rejection, Formula.ofSource [] "2\u00e9" = .error rejection ∧
        rejection.place = some ⟨1, "\u00e9"⟩ ∧ rejection.Safe := by
  obtain ⟨formula, hformula, hplaces⟩ :
      ∃ formula ∈ (Formula.ofSource ["x"] "2\u3000x").toOption,
        formula.program.map (·.place) = [⟨0, "2"⟩, ⟨4, "x"⟩, ⟨4, ""⟩] := by
    decide +kernel
  have hformula := eq_ok_of_toOption hformula
  have hscan : Token.scan "2\u00e9" =
      ⟨[⟨.number, ⟨0, "2"⟩⟩], some (.stray, ⟨1, "\u00e9"⟩)⟩ := by
    decide +kernel
  have hrejection : Formula.ofSource [] "2\u00e9" =
      .error ⟨.misread (.obstacle .stray), "2\u00e9", some ⟨1, "\u00e9"⟩, []⟩ := by
    rw [Formula.ofSource, Reading.program, hscan]
    rfl
  exact ⟨⟨formula, hformula, hplaces, (no_lapse.1 _ _).2.2.2.1 formula hformula⟩,
    ⟨_, hrejection, rfl, (no_lapse.1 _ _).2.2.2.2 _ hrejection⟩⟩

end Grapher
