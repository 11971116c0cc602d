import Grapher.Proofs.Points

set_option relaxedAutoImplicit false
set_option autoImplicit false

/-!
# Interleaved plots

A plot gives the points that its worksheet describes at the moment of its start. What happens
afterwards does not matter: edits of the worksheet, points that are taken from other plots, and
copies. A copy continues where its original stands. So all that has to be known of a plot is how
many points have been asked of it and of the plots that it was copied from.

## Main definitions

* `Session.Progress` — how many points have been asked of a plot, for every key that has it or a
  copy of it.
* `Session.track` — the progress along a row of steps.

## Main results

* `Session.Keeps.perform` — every step keeps a plot where its progress says.
* `Session.plot_points` — the points of a plot, whatever happens after its start.
-/

namespace Grapher

namespace Session

/-- How many points have been asked of a plot, for every key that has it or a copy of it. -/
abbrev Progress := String → Option Nat

namespace Progress

/-- A plot under one key only, of which no point has been asked. -/
def start (key other : String) : Option Nat :=
  if other = key then some 0 else none

/-- The progress after a step that is not refused. Starting a plot puts another one under its key,
and a copy has been asked as often as its original. -/
def after (progress : Progress) (step : Step) (other : String) : Option Nat :=
  match step with
  | .edit _ => progress other
  | .start key _ => if other = key then none else progress other
  | .copy source target => if other = target then progress source else progress other
  | .advance key count =>
    if other = key then (progress key).map (· + count) else progress other

end Progress

/-- The progress along a row of steps. A refused step changes nothing. -/
def track (s : Session) (progress : Progress) : List Step → Progress
  | [] => progress
  | step :: rest =>
    match s.perform step with
    | .ok (later, _) => later.track (progress.after step) rest
    | .error _ => s.track progress rest

/-- A session has a plot where its progress says, under every key that has it or a copy of it. -/
def Keeps (origin : Sweep) (s : Session) (progress : Progress) : Prop :=
  ∀ key asked, progress key = some asked →
    ∃ sweep, s.sweep? key = some sweep ∧ Sweep.At origin asked sweep

variable {origin : Sweep} {s later : Session} {progress : Progress} {step : Step}
  {points : List Point}

/-- **A step keeps a plot where its progress says.**

**Proof sketch.** An edit touches no plot, and a start only the key under which it puts another one.
A copy is the plot itself, and taking points leads as far as points are asked for. -/
theorem Keeps.moves (h : Keeps origin s progress) (hmoves : s.Moves step later points) :
    Keeps origin later (progress.after step) := by
  intro other asked hasked
  cases hmoves with
  | edit => exact h other asked hasked
  | start hstart =>
    rw [sweep?_keep]
    rw [Progress.after] at hasked
    split at hasked
    · cases hasked
    · next hne =>
      rw [if_neg hne]
      exact h other asked hasked
  | copy hsource =>
    rw [sweep?_keep]
    rw [Progress.after] at hasked
    split at hasked
    · next heq =>
      obtain ⟨original, horiginal, hat⟩ := h _ asked hasked
      rw [if_pos heq, ← hsource, horiginal]
      exact ⟨original, rfl, hat⟩
    · next hne =>
      rw [if_neg hne]
      exact h other asked hasked
  | @advance key count sweep hkey =>
    rw [sweep?_keep]
    rw [Progress.after] at hasked
    split at hasked
    · next heq =>
      obtain ⟨before, hbefore, rfl⟩ := Option.map_eq_some_iff.1 hasked
      obtain ⟨original, horiginal, hat⟩ := h _ before hbefore
      obtain rfl := Option.some.inj (hkey.symm.trans horiginal)
      rw [if_pos heq]
      exact ⟨_, rfl, (hat.take count).2⟩
    · next hne =>
      rw [if_neg hne]
      exact h other asked hasked

/-- **A row of steps keeps a plot where its progress says**, refused ones among them. -/
theorem Keeps.after (steps : List Step) :
    ∀ {s : Session} {progress : Progress}, Keeps origin s progress →
      Keeps origin (s.after steps) (s.track progress steps) := by
  induction steps with
  | nil => exact fun h => h
  | cons step rest ih =>
    intro s progress h
    rw [Session.after, List.foldl_cons, track, attempt]
    cases hperform : s.perform step with
    | error trouble => exact ih h
    | ok result => exact ih (h.moves (moves_of_perform hperform))

/-- A plot that starts has been asked for no points. -/
theorem keeps_start {key : String} {mode : Mode}
    (hstart : s.perform (.start key mode) = .ok (later, points)) :
    (s.worksheet.curve mode).missing? s.worksheet.env = none ∧
      Keeps (s.worksheet.sweep mode) later (Progress.start key) := by
  cases moves_of_perform hstart with
  | @start key mode worksheet sweep hsweep =>
    obtain ⟨hmissing, -, rfl⟩ := Worksheet.startSweep_eq_ok hsweep
    refine ⟨hmissing, fun other asked hasked => ?_⟩
    rw [Progress.start] at hasked
    split at hasked
    · next heq =>
      obtain rfl := Option.some.inj hasked
      exact ⟨_, by rw [sweep?_keep, if_pos heq], Sweep.at_start rfl rfl⟩
    · cases hasked

/-- **The points of a plot, whatever happens after its start.** A plot that starts on a reachable
worksheet has a fixed row of answers. There is a point at a position exactly if none of the numbers
up to there is no number or behind the end of the range, and it is the point that the worksheet had
there at the start: its formulas have values with the swept variable bound to the number. Where
there is no point, there is none further on. After any row of steps, refused ones among them,
whoever takes points from the plot or from a copy of it gets the answers at the next positions,
counted from the start of the plot through all copies.

**Proof sketch.** A step keeps the plot where its progress says (`Session.Keeps.moves`), which is
all that the next points depend on (`Sweep.At.take`). The formulas are sound and what they load is
declared, also with one variable bound anew (`Worksheet.Reachable.plots_point`). -/
theorem plot_points {s started : Session} {key : String} {mode : Mode} {points : List Point}
    (hs : s.worksheet.Reachable)
    (hstart : s.perform (.start key mode) = .ok (started, points)) :
    ∃ answer : Nat → Option Point,
      (∀ n, (∃ point, answer n = some point) ↔ ∀ j ≤ n,
        ¬ (s.worksheet.range.start.value +
            s.worksheet.range.step.value * Float.ofNat j).isNaN ∧
          ¬ s.worksheet.range.finish.value <
            s.worksheet.range.start.value + s.worksheet.range.step.value * Float.ofNat j) ∧
      (∀ n point, answer n = some point → s.worksheet.Plots
        (s.worksheet.range.start.value + s.worksheet.range.step.value * Float.ofNat n) mode point) ∧
      (∀ m n, m ≤ n → answer m = none → answer n = none) ∧
      ∀ steps other asked, started.track (Progress.start key) steps other = some asked →
        ∀ count, ∃ later, (started.after steps).perform (.advance other count) =
          .ok (later, (List.range count).filterMap fun i => answer (asked + i)) := by
  obtain ⟨hmissing, hkeeps⟩ := keeps_start hstart
  refine ⟨(s.worksheet.sweep mode).answer, fun n => ?_, fun n point hpoint => ?_,
    fun m n => Sweep.answer_eq_none_of_le, fun steps other asked hasked count => ?_⟩
  · rw [← Option.ne_none_iff_exists', Ne, Sweep.answer_eq_none_iff, not_not]
    exact forall₂_congr fun j _ => Sweep.not_isPast_iff
  · obtain ⟨-, rfl⟩ := Sweep.answer_eq_some_iff.1 hpoint
    exact hs.plots_point hmissing n
  · obtain ⟨sweep, hsweep, hat⟩ := hkeeps.after steps other asked hasked
    refine ⟨(started.after steps).keep other (sweep.take count).2, ?_⟩
    rw [← (hat.take count).1, perform, hsweep]

/-- A session whose worksheet has a parabola, a spiral and a straight line through the origin over
the numbers zero and one. -/
def curves : Session where
  worksheet := Worksheet.initial.after [.declare "a" 2, .express .y "x x + a",
    .express .r "a t", .express .t "a", .bound .start "0", .bound .finish "1", .bound .step "1"]
  sweeps := []

/-- Steps after the start of a plot `p` that copy it and then change all that it was started from,
plot something else and use the plot up. The last one is refused. -/
def disturbance : List Step :=
  [.advance "p" 1, .copy "p" "q", .edit (.declare "a" 9), .edit (.express .y "0"),
    .edit (.express .r "0"), .edit (.express .t "0"), .start "o" .explicit, .advance "o" 1,
    .advance "p" 7, .copy "r" "q"]

/-- The copies of a plot of the parabola, of one of the spiral and of one of the line give the
second point: it has the distance two and the angle one on the spiral, and on the line the distance
one and the angle two. -/
theorem plot_points_curves :
    curves.worksheet.Reachable ∧
      ∀ entry ∈ [(Mode.explicit, (⟨1, 3⟩ : Point)),
          (.radial, ⟨2 * Float.cos 1, 2 * Float.sin 1⟩),
          (.angular, ⟨1 * Float.cos 2, 1 * Float.sin 2⟩)],
        ∃ started points, curves.perform (.start "p" entry.1) = .ok (started, points) ∧
          ∃ later, (started.after disturbance).perform (.advance "q" 1) =
            .ok (later, [entry.2]) := by
  have hreachable : curves.worksheet.Reachable := Worksheet.Reachable.initial.after _
  -- what the answers of a plot are is said by `plot_points`, mode by mode
  have hsecond : ∀ mode, (∃ result ∈ (curves.perform (.start "p" mode)).toOption,
      result.1.track (Progress.start "p") disturbance "q" = some 1) →
      ∃ point, curves.worksheet.Plots 1 mode point ∧
        ∃ started points, curves.perform (.start "p" mode) = .ok (started, points) ∧
          ∃ later, (started.after disturbance).perform (.advance "q" 1) = .ok (later, [point]) := by
    rintro mode ⟨⟨started, points⟩, hstart, htrack⟩
    have hstart := eq_ok_of_toOption hstart
    obtain ⟨answer, hiff, hplots, -, hsteps⟩ := plot_points hreachable hstart
    obtain ⟨point, hpoint⟩ := (hiff 1).2 (by decide +kernel)
    obtain ⟨later, hlater⟩ := hsteps disturbance "q" 1 htrack 1
    have hnumber : curves.worksheet.range.start.value +
        curves.worksheet.range.step.value * Float.ofNat 1 = 1 := by
      decide +kernel
    have hplots := hplots 1 point hpoint
    rw [hnumber] at hplots
    refine ⟨point, hplots, started, points, hstart, later, ?_⟩
    rw [hlater]
    simp [hpoint]
  refine ⟨hreachable, ?_⟩
  simp only [List.forall_mem_cons, List.not_mem_nil, false_imp_iff, implies_true, and_true]
  refine ⟨?_, ?_, ?_⟩
  · obtain ⟨point, hplots, hperform⟩ := hsecond .explicit (by decide +kernel)
    have hvalue : ((curves.worksheet.formula .y).value
        (curves.worksheet.env.set "x" 1)).toOption = some 3 := by
      decide +kernel
    cases hplots with
    | @explicit y hy =>
      rw [hy] at hvalue
      obtain rfl : y = 3 := Option.some.inj hvalue
      exact hperform
  · obtain ⟨point, hplots, hperform⟩ := hsecond .radial (by decide +kernel)
    have hvalue : ((curves.worksheet.formula .r).value
        (curves.worksheet.env.set curves.worksheet.angle 1)).toOption = some 2 := by
      decide +kernel
    cases hplots with
    | @radial r hr =>
      rw [hr] at hvalue
      obtain rfl : r = 2 := Option.some.inj hvalue
      exact hperform
  · obtain ⟨point, hplots, hperform⟩ := hsecond .angular (by decide +kernel)
    have hvalue : ((curves.worksheet.formula .t).value
        (curves.worksheet.env.set curves.worksheet.radius 1)).toOption = some 2 := by
      decide +kernel
    cases hplots with
    | @angular t ht =>
      rw [ht] at hvalue
      obtain rfl : t = 2 := Option.some.inj hvalue
      exact hperform

end Session

end Grapher
