import Grapher.Proofs.Composition
import Grapher.Proofs.Starting

set_option relaxedAutoImplicit false
set_option autoImplicit false

/-!
# What a plot depends on

The points of a plot depend on the actions of its formulas, the range, the name of the swept
variable and the values of the other variables that the formulas load, and on nothing else. A run
looks up only what it loads, and the swept variable is bound anew before every run, so its old value
is never seen. Whether a plot starts at all depends on the declared names alone, not on the values.

## Main definitions

* `Worksheet.AgreeOn` — two worksheets that agree on what a plot of a mode depends on.

## Main results

* `Program.run_congr` — a run depends on the values of the variables that it loads.
* `Worksheet.AgreeOn.answer` — worksheets that agree on a plot have the same points at all
  positions.
* `Worksheet.AgreeOn.startSweep` — they start the same plot, or miss the same variable.
-/

namespace Grapher

/-! ## Programs -/

namespace Program

variable {program others : Program} {env other : Environment}

/-- An operation depends on the value of the variable that it loads. -/
theorem runStep_congr {operation : Operation}
    (h : ∀ name, operation.action = .load name → env.get? name = other.get? name)
    (stack : List Float) : runStep env stack operation = runStep other stack operation := by
  unfold runStep
  cases haction : operation.action with
  | load name => simp only [h name haction]
  | _ => rfl

/-- **A run depends on the values of the variables that it loads.** -/
theorem run_congr (h : ∀ operation ∈ program, ∀ name,
    operation.action = .load name → env.get? name = other.get? name) :
    program.run env = program.run other := by
  have hfold : ∀ stack, program.foldlM (runStep env) stack =
      program.foldlM (runStep other) stack := by
    induction program with
    | nil => exact fun _ => rfl
    | cons operation rest ih =>
      intro stack
      obtain ⟨hfirst, hrest⟩ := List.forall_mem_cons.1 h
      rw [List.foldlM_cons, List.foldlM_cons, runStep_congr hfirst]
      exact bind_congr fun later => ih hrest later
  rw [run, run, hfold]

section Actions

variable (h : program.map Operation.action = others.map Operation.action)

include h

/-- Programs with the same actions load the same variables. -/
theorem filterMap_loaded?_of_actions :
    program.filterMap Operation.loaded? = others.filterMap Operation.loaded? := by
  have hactions : ∀ program : Program, program.filterMap Operation.loaded? =
      (program.map Operation.action).filterMap fun action => Operation.loaded? ⟨action, .all ""⟩ :=
    fun program => by rw [List.filterMap_map]; rfl
  rw [hactions, h, ← hactions]

/-- They miss the same variable where the same variables are declared. -/
theorem firstUndeclared?_of_actions (hdeclared : ∀ name, env.contains name = other.contains name) :
    program.firstUndeclared? env = others.firstUndeclared? other := by
  rw [firstUndeclared?_eq, firstUndeclared?_eq, filterMap_loaded?_of_actions h]
  simp only [hdeclared]

/-- They do the same. -/
theorem plain_of_actions : program.plain = others.plain := by
  have hactions : ∀ program : Program, program.plain =
      (program.map Operation.action).map fun action => ⟨action.plain, .all ""⟩ :=
    fun program => by rw [List.map_map]; rfl
  rw [hactions, h, ← hactions]

end Actions

end Program

/-- **Formulas with the same actions have the same value** where the variables that they load have
the same values. -/
theorem Curve.valueOf_congr {a b : Formula} {env other : Environment}
    (hactions : a.program.map Operation.action = b.program.map Operation.action)
    (henv : ∀ operation ∈ a.program, ∀ name,
      operation.action = .load name → env.get? name = other.get? name) :
    valueOf a env = valueOf b other := by
  have hcause : ∀ (formula : Formula) (env : Environment), valueOf formula env =
      match (formula.value env).mapError Fault.cause with
      | .ok value => value
      | .error _ => Arithmetic.notANumber := fun formula env => by
    unfold valueOf
    cases formula.value env <;> rfl
  have hrun : a.value env = a.value other := Program.run_congr henv
  rw [hcause, hrun, Formula.value_of_plain (Program.plain_of_actions hactions), ← hcause]

/-! ## Worksheets -/

namespace Worksheet

/-- Two worksheets agree on what a plot of a mode depends on. They may differ in all else: in the
values of variables that the formulas of the mode do not load, in the value of the swept variable,
even if they load it, in the other formulas and names, in the texts and in the precision. -/
structure AgreeOn (w other : Worksheet) (mode : Mode) : Prop where
  /-- The same variables are declared. -/
  declared : ∀ name, w.env.contains name = other.env.contains name
  /-- The bounds of the range have the same values. -/
  range : ∀ role, (w.range.get role).value = (other.range.get role).value
  /-- The same variable is swept. -/
  swept : w.swept mode = other.swept mode
  /-- The formulas of the mode do the same. -/
  actions : ∀ c ∈ mode.coordinates, (w.formula c).program.map Operation.action =
    (other.formula c).program.map Operation.action
  /-- Whatever they load has the same value, unless it is the swept variable. -/
  values : ∀ c ∈ mode.coordinates, ∀ operation ∈ (w.formula c).program, ∀ name,
    operation.action = .load name → name ≠ w.swept mode → w.env.get? name = other.env.get? name

variable {w other : Worksheet} {mode : Mode}

/-- The formulas of a mode have the same values with the swept variable bound to the same number. -/
theorem AgreeOn.valueOf (h : w.AgreeOn other mode) {c : Coordinate} (hc : c ∈ mode.coordinates)
    (number : Float) :
    Curve.valueOf (w.formula c) (w.env.set (w.swept mode) number) =
      Curve.valueOf (other.formula c) (other.env.set (other.swept mode) number) := by
  refine Curve.valueOf_congr (h.actions c hc) fun operation hoperation name hload => ?_
  rw [Environment.get?_set, Environment.get?_set, ← h.swept]
  by_cases hname : name = w.swept mode
  · -- the old values of the swept variable are hidden
    rw [if_pos hname, if_pos hname]
  · rw [if_neg hname, if_neg hname]
    exact h.values c hc operation hoperation name hload hname

/-- The point at a number is the same. -/
theorem AgreeOn.point (h : w.AgreeOn other mode) (number : Float) :
    (w.curve mode).point number (w.env.set (w.swept mode) number) =
      (other.curve mode).point number (other.env.set (other.swept mode) number) := by
  have hvalue := fun c hc => h.valueOf (c := c) hc number
  cases mode with
  | explicit => simp only [curve, Curve.point, hvalue .y (.head _)]
  | parametric =>
    simp only [curve, Curve.point, hvalue .x (.head _), hvalue .y (.tail _ (.head _))]
  | radial => simp only [curve, Curve.point, hvalue .r (.head _)]
  | angular => simp only [curve, Curve.point, hvalue .t (.head _)]

/-- **Worksheets that agree on a plot have the same points** at all positions. -/
theorem AgreeOn.answer (h : w.AgreeOn other mode) :
    (w.sweep mode).answer = (other.sweep mode).answer := by
  have hstart : w.range.start.value = other.range.start.value := h.range .start
  have hfinish : w.range.finish.value = other.range.finish.value := h.range .finish
  have hstep : w.range.step.value = other.range.step.value := h.range .step
  have hnumber : (w.sweep mode).number = (other.sweep mode).number := by
    funext position
    simp only [Sweep.number, sweep, hstart, hstep]
  have hpast : (w.sweep mode).isPast = (other.sweep mode).isPast := by
    funext number
    unfold Sweep.isPast sweep
    rw [hfinish]
  have hpoint : (w.sweep mode).point = (other.sweep mode).point := by
    funext position
    have hnumber := congrFun hnumber position
    rw [Sweep.point, Sweep.point, hnumber]
    exact h.point _
  funext position
  ext point
  rw [Sweep.answer_eq_some_iff, Sweep.answer_eq_some_iff, Sweep.Reaches, Sweep.Reaches, hnumber,
    hpast, hpoint]

/-- What is missing in a mode, without the text of the formula. -/
theorem map_missing? (w : Worksheet) (mode : Mode) :
    ((w.curve mode).missing? w.env).map (fun missing => (missing.coordinate, missing.name)) =
      (mode.coordinates.filterMap fun c =>
        ((w.formula c).firstUndeclared? w.env).map fun name => (c, name)).head? := by
  have hentry : ∀ c, (((w.formula c).firstUndeclared? w.env).map fun name =>
      (⟨c, (w.formula c).source, name⟩ : Missing)).map
        (fun missing => (missing.coordinate, missing.name)) =
      ((w.formula c).firstUndeclared? w.env).map fun name => (c, name) := fun c => by
    rw [Option.map_map]
    rfl
  rw [List.head?_filterMap, Curve.missing?, formulas_curve, List.findSome?_map,
    List.map_findSome?]
  simp only [Function.comp_def, hentry]

/-- Worksheets that agree on a plot both have all its variables declared, or they miss the same one
first. -/
theorem AgreeOn.missing? (h : w.AgreeOn other mode) :
    ((w.curve mode).missing? w.env).map (fun missing => (missing.coordinate, missing.name)) =
      ((other.curve mode).missing? other.env).map
        fun missing => (missing.coordinate, missing.name) := by
  have hfirst : ∀ c ∈ mode.coordinates, (w.formula c).firstUndeclared? w.env =
      (other.formula c).firstUndeclared? other.env := fun c hc =>
    Program.firstUndeclared?_of_actions (h.actions c hc) h.declared
  rw [map_missing?, map_missing?, List.filterMap_congr fun c hc => by rw [hfirst c hc]]

/-- **A plot depends on what its formulas load.** Two worksheets that agree on this either both
start the plot, and then it has the same points in both for ever, or they both refuse to start it
for the same variable of the same coordinate.

**Proof sketch.** Whether a plot starts depends on the declared names and on the loaded ones. A
point of the plot is the answer of its position (`Sweep.next_after`), and the formulas have the same
value there, since the swept variable is bound to the same number and the others that are loaded
agree (`Curve.valueOf_congr`). -/
theorem AgreeOn.sweeps_alike (h : w.AgreeOn other mode) :
    (∃ later later' sweep sweep', w.startSweep mode = .ok (later, sweep) ∧
      other.startSweep mode = .ok (later', sweep') ∧
      ∀ asked, (sweep.after asked).next.1 = (sweep'.after asked).next.1) ∨
    ∃ missing missing', w.startSweep mode = .error missing ∧
      other.startSweep mode = .error missing' ∧
      missing.coordinate = missing'.coordinate ∧ missing.name = missing'.name := by
  have hmissing := h.missing?
  unfold startSweep
  cases hw : (w.curve mode).missing? w.env with
  | none =>
    cases hother : (other.curve mode).missing? other.env with
    | none =>
      refine .inl ⟨_, _, _, _, rfl, rfl, fun asked => ?_⟩
      rw [Sweep.next_after rfl rfl, Sweep.next_after rfl rfl, h.answer]
    | some missing' => simp [hw, hother] at hmissing
  | some missing =>
    cases hother : (other.curve mode).missing? other.env with
    | none => simp [hw, hother] at hmissing
    | some missing' =>
      obtain ⟨hcoordinate, hname⟩ : missing.coordinate = missing'.coordinate ∧
        missing.name = missing'.name := by simpa [hw, hother] using hmissing
      exact .inr ⟨missing, missing', rfl, rfl, hcoordinate, hname⟩

/-- The name of a variable becomes a formula. -/
theorem Reachable.express_name (h : w.Reachable) (c : Coordinate) {name : String}
    (hname : isName name) (hfree : Builtin.find? name = none) (hdeclared : name ∈ w.declared) :
    Reachable { w with formulas := w.formulas.set c ⟨name, [⟨.load name, .all name⟩]⟩ } := by
  have hmeaning : meaning? w.declared name = some .variable :=
    meaning?_eq_variable_iff.2 ⟨fun f hf => by simp [hfree] at hf, hdeclared⟩
  have hedit : Edit.apply w (.express c name) = .ok _ :=
    express_eq_ok_iff.2 ⟨_, Formula.ofSource_name hname hmeaning, rfl⟩
  exact h.edit hedit

/-- A worksheet whose parametric plot goes along a line: the first coordinate is the variable `k`,
the second one the parameter `t`. -/
def line (w : Worksheet) : Worksheet :=
  { w with
    formulas := (w.formulas.set .x ⟨"k", [⟨.load "k", .all "k"⟩]⟩).set .y
      ⟨"t", [⟨.load "t", .all "t"⟩]⟩
    parameter := "t" }

/-- A worksheet with two variables can have a line. -/
theorem Reachable.line (h : w.Reachable) (hk : "k" ∈ w.declared) (ht : "t" ∈ w.declared) :
    w.line.Reachable := by
  have hx := h.express_name .x (by decide : isName "k") (by decide +kernel) hk
  have hy := hx.express_name .y (by decide : isName "t") (by decide +kernel) ht
  refine hy.edit (?_ : Edit.apply _ (.parameter "t") = .ok w.line)
  rfl

/-- Lines depend on the variable `k`, and not on the old value of the parameter. -/
theorem agreeOn_line {w other : Worksheet} (hnames : w.env.names = other.env.names)
    (hrange : ∀ role, (w.range.get role).value = (other.range.get role).value)
    (hk : w.env.get? "k" = other.env.get? "k") : w.line.AgreeOn other.line .parametric := by
  refine ⟨fun name => ?_, hrange, rfl, fun c hc => ?_,
    fun c hc operation hoperation name hload hne => ?_⟩
  · have henv : ∀ w : Worksheet, w.line.env = w.env := fun _ => rfl
    rw [Bool.eq_iff_iff, henv, henv, ← Environment.mem_names_iff, ← Environment.mem_names_iff,
      hnames]
  · cases c <;> first | rfl | simp [Mode.coordinates] at hc
  · cases c with
    | x =>
      obtain rfl : operation = ⟨.load "k", .all "k"⟩ := List.mem_singleton.1 hoperation
      cases hload
      exact hk
    | y =>
      obtain rfl : operation = ⟨.load "t", .all "t"⟩ := List.mem_singleton.1 hoperation
      cases hload
      exact absurd rfl hne
    | r | t => simp [Mode.coordinates] at hc

/-- A worksheet with a variable `k`. -/
def plain : Worksheet :=
  initial.after [.declare "k" 2]

/-- A worksheet with the same variables. Those other than `k` have other values, and it differs in a
formula, in its name, in its precision and in the name of the angle. -/
def fancy : Worksheet :=
  initial.after [.declare "k" 2, .declare "t" 7, .declare "a" 5, .express .r "a", .rename "spiral",
    .precision 9, .angle "u"]

/-- The lines of two worksheets that differ in the old value of the parameter, among others. -/
theorem sweeps_alike_line :
    plain.line.Reachable ∧ fancy.line.Reachable ∧
      plain.line.env.get? "t" ≠ fancy.line.env.get? "t" ∧
      plain.line.AgreeOn fancy.line .parametric ∧
      ∃ later later' sweep sweep', plain.line.startSweep .parametric = .ok (later, sweep) ∧
        fancy.line.startSweep .parametric = .ok (later', sweep') ∧
        ∀ asked, (sweep.after asked).next.1 = (sweep'.after asked).next.1 := by
  have hdeclared : ("k" ∈ plain.declared ∧ "t" ∈ plain.declared) ∧
      "k" ∈ fancy.declared ∧ "t" ∈ fancy.declared := by
    decide +kernel
  have henv : plain.env.names = fancy.env.names ∧ plain.env.get? "k" = fancy.env.get? "k" ∧
      plain.line.env.get? "t" ≠ fancy.line.env.get? "t" := by
    decide +kernel
  have hrange : ∀ role ∈ Bound.Role.all,
      (plain.range.get role).value = (fancy.range.get role).value := by
    decide +kernel
  have hnone : (plain.line.curve .parametric).missing? plain.line.env = none := by
    decide +kernel
  obtain ⟨hnames, hk, ht⟩ := henv
  have hagree : plain.line.AgreeOn fancy.line .parametric :=
    agreeOn_line hnames (fun role => hrange role (by cases role <;> decide)) hk
  refine ⟨Reachable.line (Reachable.initial.after _) hdeclared.1.1 hdeclared.1.2,
    Reachable.line (Reachable.initial.after _) hdeclared.2.1 hdeclared.2.2, ht, hagree, ?_⟩
  rcases hagree.sweeps_alike with hstart | ⟨missing, missing', hmissing, -⟩
  · exact hstart
  · simp [startSweep, hnone] at hmissing

end Worksheet

end Grapher
