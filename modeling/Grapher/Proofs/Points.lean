import Grapher.Proofs.Environments
import Grapher.Proofs.Faults
import Grapher.Proofs.Sessions

set_option relaxedAutoImplicit false
set_option autoImplicit false

/-!
# The points of a sweep

From one point to the next a sweep keeps its position, the variables and the stack. None of this
shows in the points: the variables differ from those at the start only in the swept one, which is
bound anew for every point, and what is left on the stack does not matter. So the point at a
position depends on nothing but the position, and there is one as long as no number up to there is
past the end.

The formulas of a plot have values at all these points: their programs are sound, and what they load
was declared at the start and stays declared.

## Main definitions

* `Sweep.Reaches`, `Sweep.answer` — whether there is a point at a position, and the point.
* `Sweep.At`, `Sweep.after` — a sweep after a number of points have been asked for.
* `Worksheet.Plots` — the point that a mode has at a number, where its formulas have values.

## Main results

* `Sweep.At.next`, `Sweep.At.take` — the next point, and the next ones, wherever a sweep stands.
* `Worksheet.plots_point` — the formulas of a sweep that starts have values at all numbers.
-/

namespace Grapher

/-! ## Kept stacks -/

namespace Curve

/-- A formula has the same value on every stack. -/
theorem valueOn_fst (formula : Formula) (env : Environment) (stack : List Float) :
    ((valueOn formula env).run stack).1 = valueOf formula env := by
  have houtcome := Program.outcome_eq_run formula.program env stack
  unfold valueOf Formula.value valueOn
  rw [← houtcome, Program.outcome, StateT.run_bind]
  rcases (formula.program.evaluate env).run.run stack with ⟨_ | value, later⟩ <;> rfl

/-- **A point is the same on every stack.** -/
theorem pointOn_fst (curve : Curve) (value : Float) (env : Environment) (stack : List Float) :
    ((curve.pointOn value env).run stack).1 = curve.point value env := by
  cases curve with
  | explicit y => exact congrArg (Point.mk value) (valueOn_fst y env stack)
  | parametric x y =>
    exact congrArg₂ Point.mk (valueOn_fst x env stack) (valueOn_fst y env _)
  | radial r => exact congrArg (fun r => Polar.toPoint ⟨r, value⟩) (valueOn_fst r env stack)
  | angular t => exact congrArg (fun t => Polar.toPoint ⟨value, t⟩) (valueOn_fst t env stack)

end Curve

/-! ## Positions -/

namespace Sweep

/-- A number that is not past the end is a number, and not above the end. -/
theorem not_isPast_iff {sweep : Sweep} {number : Float} :
    ¬ sweep.isPast number ↔ ¬ number.isNaN ∧ ¬ sweep.finish < number := by
  simp [isPast, and_comm]

/-- Whether no number up to a position is past the end. -/
def Reaches (sweep : Sweep) (position : Nat) : Prop :=
  ∀ j ≤ position, ¬ sweep.isPast (sweep.number j)

instance (sweep : Sweep) (position : Nat) : Decidable (sweep.Reaches position) :=
  inferInstanceAs (Decidable (∀ j ≤ position, ¬ sweep.isPast (sweep.number j)))

/-- The point at a position, if the sweep gets there. -/
def answer (sweep : Sweep) (position : Nat) : Option Point :=
  if sweep.Reaches position then some (sweep.point position) else none

/-- A sweep that gets to a position gives the point there. -/
theorem answer_eq_some_iff {sweep : Sweep} {position : Nat} {point : Point} :
    sweep.answer position = some point ↔
      sweep.Reaches position ∧ sweep.point position = point := by
  unfold answer
  split <;> simp_all

/-- A sweep that gives no point at a position does not get there. -/
theorem answer_eq_none_iff {sweep : Sweep} {position : Nat} :
    sweep.answer position = none ↔ ¬ sweep.Reaches position := by
  unfold answer
  split <;> simp_all

/-- A sweep that has not got somewhere gets no further. -/
theorem answer_eq_none_of_le {sweep : Sweep} {m n : Nat} (hle : m ≤ n) (h : sweep.answer m = none) :
    sweep.answer n = none :=
  answer_eq_none_iff.2 fun hn => answer_eq_none_iff.1 h fun j hj => hn j (hj.trans hle)

/-- A sweep after points have been asked for. What it has kept is that of the start, but for the
value of the swept variable, and it stands where no number before was past the end, or it has
ended. -/
structure At (origin : Sweep) (asked : Nat) (sweep : Sweep) : Prop where
  /-- The curve is kept. -/
  curve : sweep.curve = origin.curve
  /-- The swept variable is kept. -/
  swept : sweep.swept = origin.swept
  /-- The variables are kept, the swept one apart. -/
  env : ∀ value, sweep.env.set origin.swept value = origin.env.set origin.swept value
  /-- The numbers are kept. -/
  number : sweep.number = origin.number
  /-- The end is kept. -/
  isPast : sweep.isPast = origin.isPast
  /-- The sweep stands at the next position, or it has ended. -/
  progress : sweep.ended = false ∧ sweep.position = asked ∧
      (∀ j < asked, ¬ origin.isPast (origin.number j)) ∨
    sweep.ended = true ∧ ∃ j < asked, origin.isPast (origin.number j)

variable {origin sweep : Sweep} {asked : Nat}

/-- A sweep at its start. -/
theorem at_start (hposition : origin.position = 0) (hended : origin.ended = false) :
    At origin 0 origin :=
  ⟨rfl, rfl, fun _ => rfl, rfl, rfl, .inl ⟨hended, hposition, fun _ h => nomatch h⟩⟩

/-- A sweep ends where a number is past the end. -/
theorem next_of_isPast (hended : sweep.ended = false)
    (hpast : sweep.isPast (sweep.number sweep.position)) :
    sweep.next = (none, { sweep with ended := true }) := by
  unfold Sweep.next
  rw [if_neg (by simp [hended]), if_pos hpast]

/-- A sweep gives the point of its position, whatever its stack holds, and moves on. -/
theorem next_of_not_isPast (hended : sweep.ended = false)
    (hpast : ¬ sweep.isPast (sweep.number sweep.position)) :
    ∃ stack, sweep.next = (some (sweep.point sweep.position), { sweep with
      env := sweep.env.set sweep.swept (sweep.number sweep.position)
      position := sweep.position + 1
      stack := stack }) := by
  unfold Sweep.next
  rw [if_neg (by simp [hended]), if_neg hpast, point, ← Curve.pointOn_fst _ _ _ sweep.stack]
  exact ⟨_, rfl⟩

/-- A sweep that is not at its start has the points of the start. -/
theorem At.point (h : At origin asked sweep) (position : Nat) :
    sweep.point position = origin.point position := by
  rw [Sweep.point, Sweep.point, h.curve, h.number, h.swept, h.env]

/-- **The next point is that of the position**, wherever a sweep stands. -/
theorem At.next (h : At origin asked sweep) :
    sweep.next.1 = origin.answer asked ∧ At origin (asked + 1) sweep.next.2 := by
  rcases h.progress with ⟨hended, rfl, hbefore⟩ | ⟨hended, j, hj, hpast⟩
  · by_cases hpast : origin.isPast (origin.number sweep.position)
    · rw [next_of_isPast hended (by rw [h.isPast, h.number, hpast])]
      refine ⟨(if_neg fun hreaches => hreaches _ le_rfl hpast).symm, ?_⟩
      exact ⟨h.curve, h.swept, h.env, h.number, h.isPast, .inr ⟨rfl, _, Nat.lt_succ_self _, hpast⟩⟩
    · have hreaches : origin.Reaches sweep.position := by
        intro j hj
        rcases Nat.lt_or_eq_of_le hj with hlt | rfl
        · exact hbefore j hlt
        · exact hpast
      obtain ⟨stack, hnext⟩ := next_of_not_isPast hended (by rwa [h.isPast, h.number])
      rw [hnext, answer, if_pos hreaches, h.point]
      refine ⟨rfl, h.curve, h.swept, fun value => ?_, h.number, h.isPast, .inl ⟨hended, rfl, ?_⟩⟩
      · rw [h.swept, Environment.set_set, h.env]
      · exact fun j hj => hreaches j (Nat.le_of_lt_succ hj)
  · rw [next_of_ended hended]
    refine ⟨(if_neg fun hreaches => hreaches j hj.le hpast).symm, ?_⟩
    exact ⟨h.curve, h.swept, h.env, h.number, h.isPast,
      .inr ⟨hended, j, Nat.lt_succ_of_lt hj, hpast⟩⟩

/-- The sweep after a number of points have been asked for. -/
def after (sweep : Sweep) (asked : Nat) : Sweep :=
  (fun sweep => sweep.next.2)^[asked] sweep

/-- **Wherever a sweep stands, it gets further by what is asked for.** -/
theorem At.after (h : At origin asked sweep) (more : Nat) :
    At origin (asked + more) (sweep.after more) := by
  induction more with
  | zero => exact h
  | succ more ih =>
    rw [Sweep.after, Function.iterate_succ_apply']
    exact ih.next.2

/-- **The points of a sweep are its answers**, one after the other. -/
theorem next_after (hposition : origin.position = 0) (hended : origin.ended = false)
    (asked : Nat) : (origin.after asked).next.1 = origin.answer asked := by
  simpa only [Nat.zero_add] using ((at_start hposition hended).after asked).next.1

/-- Where there is no point any more, asking for further ones changes nothing. -/
theorem At.of_answer_eq_none (h : At origin (asked + 1) sweep) (hnone : origin.answer asked = none)
    {later : Nat} (hle : asked < later) : At origin later sweep := by
  refine ⟨h.curve, h.swept, h.env, h.number, h.isPast, ?_⟩
  rcases h.progress with ⟨-, -, hbefore⟩ | ⟨hended, j, hj, hpast⟩
  · exact absurd (fun j hj => hbefore j (Nat.lt_succ_of_le hj)) (answer_eq_none_iff.1 hnone)
  · exact .inr ⟨hended, j, by omega, hpast⟩

/-- The next points behind those of `before`. -/
theorem At.takeAfter (count : Nat) :
    ∀ {asked : Nat} {sweep : Sweep} (before : List Point), At origin asked sweep →
      (Sweep.takeAfter before count sweep).1 =
          before.reverse ++ (List.range count).filterMap (fun i => origin.answer (asked + i)) ∧
        At origin (asked + count) (Sweep.takeAfter before count sweep).2 := by
  induction count with
  | zero =>
    intro asked sweep before h
    exact ⟨by simp [Sweep.takeAfter], h⟩
  | succ count ih =>
    intro asked sweep before h
    obtain ⟨hanswer, hlater⟩ := h.next
    rw [Sweep.takeAfter]
    rcases hnext : sweep.next with ⟨_ | point, later⟩
    · rw [hnext] at hanswer hlater
      have hnone : ∀ i, origin.answer (asked + i) = none := fun i =>
        answer_eq_none_of_le (Nat.le_add_right _ _) hanswer.symm
      refine ⟨?_, hlater.of_answer_eq_none hanswer.symm (by omega)⟩
      simp [hnone]
    · rw [hnext] at hanswer hlater
      obtain ⟨hpoints, hat⟩ := ih (point :: before) hlater
      have hshift : ∀ i, asked + 1 + i = asked + (i + 1) := by omega
      have hfirst : origin.answer (asked + 0) = some point := hanswer.symm
      refine ⟨?_, by rwa [← hshift]⟩
      rw [hpoints, List.range_succ_eq_map,
        List.filterMap_cons_some (f := fun i => origin.answer (asked + i)) hfirst,
        List.filterMap_map, List.reverse_cons, List.append_assoc, List.singleton_append]
      simp only [hshift]
      rfl

/-- **The next points are those of the positions** up to the end, wherever a sweep stands. -/
theorem At.take (h : At origin asked sweep) (count : Nat) :
    (sweep.take count).1 = (List.range count).filterMap (fun i => origin.answer (asked + i)) ∧
      At origin (asked + count) (sweep.take count).2 :=
  h.takeAfter count []

end Sweep

/-! ## Values -/

namespace Worksheet

/-- The point that a mode has at a number of its range, where the formulas have their values with
the swept variable bound to the number. In the radial mode the number is the angle of the point, and
in the angular mode it is the distance of the point from the origin. -/
inductive Plots (w : Worksheet) (number : Float) : Mode → Point → Prop
  | explicit {y : Float} (hy : (w.formula .y).value (w.env.set "x" number) = .ok y) :
      Plots w number .explicit ⟨number, y⟩
  | parametric {x y : Float} (hx : (w.formula .x).value (w.env.set w.parameter number) = .ok x)
      (hy : (w.formula .y).value (w.env.set w.parameter number) = .ok y) :
      Plots w number .parametric ⟨x, y⟩
  | radial {r : Float} (hr : (w.formula .r).value (w.env.set w.angle number) = .ok r) :
      Plots w number .radial ⟨r * Float.cos number, r * Float.sin number⟩
  | angular {t : Float} (ht : (w.formula .t).value (w.env.set w.radius number) = .ok t) :
      Plots w number .angular ⟨number * Float.cos t, number * Float.sin t⟩

variable {w : Worksheet}

/-- A formula of a reachable worksheet keeps its value when its variables are declared and one is
bound anew. -/
theorem Reachable.valueOf_eq_ok (h : w.Reachable) {c : Coordinate}
    (hfirst : (w.formula c).firstUndeclared? w.env = none) (name : String) (number : Float) :
    (w.formula c).value (w.env.set name number) =
      .ok (Curve.valueOf (w.formula c) (w.env.set name number)) := by
  have hnames : ∀ other ∈ (w.formula c).program.names, (w.env.set name number).contains other :=
    fun other hother => Environment.contains_set
      (by simpa using List.find?_eq_none.1 hfirst other hother) name number
  obtain ⟨value, hvalue⟩ : ∃ value, (w.formula c).value (w.env.set name number) = .ok value :=
    Program.exists_run (h.sound.formula_valid c).check hnames
  rw [Curve.valueOf, hvalue]

/-- **The formulas of a sweep that starts have values** at all numbers of its range. -/
theorem Reachable.plots_point (h : w.Reachable) {mode : Mode}
    (hmissing : (w.curve mode).missing? w.env = none) (position : Nat) :
    w.Plots ((w.sweep mode).number position) mode ((w.sweep mode).point position) := by
  have hfirst : ∀ c, (c, w.formula c) ∈ (w.curve mode).formulas →
      (w.formula c).firstUndeclared? w.env = none := fun c hc => by
    simpa using List.findSome?_eq_none_iff.1 hmissing _ hc
  cases mode with
  | explicit => exact .explicit (h.valueOf_eq_ok (hfirst .y (.head _)) _ _)
  | parametric =>
    exact .parametric (h.valueOf_eq_ok (hfirst .x (.head _)) _ _)
      (h.valueOf_eq_ok (hfirst .y (.tail _ (.head _))) _ _)
  | radial => exact .radial (h.valueOf_eq_ok (hfirst .r (.head _)) _ _)
  | angular => exact .angular (h.valueOf_eq_ok (hfirst .t (.head _)) _ _)

end Worksheet

end Grapher
