import Grapher.Proofs.Invariant
import Grapher.Session

set_option relaxedAutoImplicit false
set_option autoImplicit false

/-!
# Steps of a session

What a step of a session does, whichever step it is: it edits the worksheet, or it keeps one sweep
under one key. A sweep that is kept is at its start, a copy of an open one, or an open one from
which points were taken.

## Main definitions

* `Session.Moves` — the steps that are not refused, and what they do.
* `Session.attempt`, `Session.after` — the session after a step that may be refused, and after a row
  of them.
* `Session.asked` — the number of points that a row of steps asks for.

## Main results

* `Session.moves_of_perform` — what a step does.
* `Session.reachable_after` — the worksheet of a session stays reachable.
* `Session.curvesReachable_after` — the curve of an open sweep is that of a reachable worksheet.
* `Session.positionsAtMost_after` — an open sweep is no further than points have been asked for.
-/

namespace Grapher

namespace Session

/-- A step that is not refused, the session after it, and the points that it gives. -/
inductive Moves (s : Session) : Step → Session → List Point → Prop
  | edit {edit : Edit} {worksheet : Worksheet} (hedit : edit.apply s.worksheet = .ok worksheet) :
      Moves s (.edit edit) { s with worksheet := worksheet } []
  | start {key : String} {mode : Mode} {worksheet : Worksheet} {sweep : Sweep}
      (hstart : s.worksheet.startSweep mode = .ok (worksheet, sweep)) :
      Moves s (.start key mode) ({ s with worksheet := worksheet }.keep key sweep) []
  | copy {source target : String} {sweep : Sweep} (hsource : s.sweep? source = some sweep) :
      Moves s (.copy source target) (s.keep target sweep) []
  | advance {key : String} {count : Nat} {sweep : Sweep} (hkey : s.sweep? key = some sweep) :
      Moves s (.advance key count) (s.keep key (sweep.take count).2) (sweep.take count).1

variable {s later : Session} {step : Step} {points : List Point}

/-- **What a step does.** -/
theorem moves_of_perform (h : s.perform step = .ok (later, points)) :
    s.Moves step later points := by
  unfold perform at h
  cases step with
  | edit edit =>
    cases hedit : edit.apply s.worksheet with
    | error refusal => simp [hedit] at h
    | ok worksheet =>
      simp only [hedit, Except.ok.injEq, Prod.mk.injEq] at h
      obtain ⟨rfl, rfl⟩ := h
      exact .edit hedit
  | start key mode =>
    cases hstart : s.worksheet.startSweep mode with
    | error missing => simp [hstart] at h
    | ok started =>
      simp only [hstart, Except.ok.injEq, Prod.mk.injEq] at h
      obtain ⟨rfl, rfl⟩ := h
      exact .start hstart
  | copy source target =>
    cases hsource : s.sweep? source with
    | none => simp [hsource] at h
    | some sweep =>
      simp only [hsource, Except.ok.injEq, Prod.mk.injEq] at h
      obtain ⟨rfl, rfl⟩ := h
      exact .copy hsource
  | advance key count =>
    cases hkey : s.sweep? key with
    | none => simp [hkey] at h
    | some sweep =>
      simp only [hkey, Except.ok.injEq, Prod.mk.injEq] at h
      obtain ⟨rfl, rfl⟩ := h
      exact .advance hkey

/-! ## Rows of steps -/

/-- The session after a step. A refused step changes nothing. -/
def attempt (s : Session) (step : Step) : Session :=
  match s.perform step with
  | .ok (later, _) => later
  | .error _ => s

/-- The session after a row of steps, refused ones among them. -/
def after (s : Session) (steps : List Step) : Session :=
  steps.foldl attempt s

/-- A step is refused, or it is not. -/
theorem attempt_cases (s : Session) (step : Step) :
    (∃ points, s.Moves step (s.attempt step) points) ∨
      (∃ trouble, s.perform step = .error trouble) ∧ s.attempt step = s := by
  unfold attempt
  cases h : s.perform step with
  | error trouble => exact .inr ⟨⟨trouble, rfl⟩, rfl⟩
  | ok result => exact .inl ⟨result.2, moves_of_perform h⟩

end Session

/-! ## Worksheets of sessions -/

namespace Worksheet

/-- A sweep starts with what the worksheet has at the time, and all variables that its formulas load
are declared. -/
theorem startSweep_eq_ok {w later : Worksheet} {mode : Mode} {sweep : Sweep}
    (h : w.startSweep mode = .ok (later, sweep)) :
    (w.curve mode).missing? w.env = none ∧ later = { w with mode := mode } ∧
      sweep = w.sweep mode := by
  unfold startSweep at h
  cases hmissing : (w.curve mode).missing? w.env with
  | some missing => simp [hmissing] at h
  | none =>
    simp only [hmissing, Except.ok.injEq, Prod.mk.injEq] at h
    exact ⟨rfl, h.1.symm, h.2.symm⟩

/-- Starting a sweep is an edit of the worksheet. -/
theorem Reachable.startSweep {w later : Worksheet} (h : w.Reachable) {mode : Mode} {sweep : Sweep}
    (hstart : w.startSweep mode = .ok (later, sweep)) : later.Reachable := by
  have hedit : Edit.apply w (.plot mode) = .ok later := by simp [Edit.apply, hstart]
  exact h.edit hedit

end Worksheet

namespace Session

variable {s later : Session} {step : Step} {points : List Point}

/-- A step that is not refused keeps the worksheet reachable. -/
theorem Moves.reachable (h : s.Moves step later points) (hs : s.worksheet.Reachable) :
    later.worksheet.Reachable := by
  cases h with
  | edit hedit => exact hs.edit hedit
  | start hstart => exact hs.startSweep hstart
  | copy | advance => exact hs

/-- A step keeps the worksheet reachable. -/
theorem reachable_attempt (hs : s.worksheet.Reachable) (step : Step) :
    (s.attempt step).worksheet.Reachable := by
  rcases s.attempt_cases step with ⟨points, hmoves⟩ | ⟨-, heq⟩
  · exact hmoves.reachable hs
  · rw [heq]
    exact hs

/-- **The worksheet of a session stays reachable.** -/
theorem reachable_after (steps : List Step) :
    ∀ {s : Session}, s.worksheet.Reachable → (s.after steps).worksheet.Reachable := by
  induction steps with
  | nil => exact fun h => h
  | cons step rest ih => exact fun h => ih (reachable_attempt h step)

end Session

/-! ## Curves of open sweeps -/

namespace Session

/-- What is true of all open sweeps and of one that is kept is true of all open sweeps then. -/
theorem forall_sweep?_keep {s : Session} {p : Sweep → Prop} {key : String} {sweep : Sweep}
    (h : ∀ other kept, s.sweep? other = some kept → p kept) (hsweep : p sweep) :
    ∀ other kept, (s.keep key sweep).sweep? other = some kept → p kept := by
  intro other kept hother
  rw [sweep?_keep] at hother
  split at hother
  · exact Option.some.inj hother ▸ hsweep
  · exact h other kept hother

end Session

namespace Sweep

/-- A point is taken from one and the same curve. -/
theorem curve_next (sweep : Sweep) : sweep.next.2.curve = sweep.curve := by
  unfold next
  split
  · rfl
  · dsimp only
    split <;> rfl

/-- Taking points from a sweep keeps its curve. -/
theorem curve_takeAfter (count : Nat) :
    ∀ (before : List Point) (sweep : Sweep),
      (takeAfter before count sweep).2.curve = sweep.curve := by
  induction count with
  | zero => exact fun _ _ => rfl
  | succ count ih =>
    intro before sweep
    have hcurve := curve_next sweep
    rw [takeAfter]
    rcases hnext : sweep.next with ⟨_ | point, later⟩
    · rw [hnext] at hcurve
      exact hcurve
    · rw [hnext] at hcurve
      exact (ih _ later).trans hcurve

end Sweep

namespace Session

/-- The curve of every open sweep is that of a reachable worksheet. -/
def CurvesReachable (s : Session) : Prop :=
  ∀ key sweep, s.sweep? key = some sweep →
    ∃ (w : Worksheet) (mode : Mode), w.Reachable ∧ sweep.curve = w.curve mode

variable {s later : Session} {step : Step} {points : List Point}

/-- A step keeps sweeps whose curves are those of reachable worksheets. -/
theorem Moves.curvesReachable (h : s.Moves step later points) (hs : s.worksheet.Reachable)
    (hcurves : s.CurvesReachable) : later.CurvesReachable := by
  cases h with
  | edit => exact hcurves
  | @start key mode worksheet sweep hstart =>
    obtain ⟨-, -, rfl⟩ := Worksheet.startSweep_eq_ok hstart
    have hcurves : CurvesReachable { s with worksheet := worksheet } := hcurves
    exact forall_sweep?_keep hcurves ⟨s.worksheet, mode, hs, rfl⟩
  | copy hsource => exact forall_sweep?_keep hcurves (hcurves _ _ hsource)
  | @advance key count sweep hkey =>
    refine forall_sweep?_keep hcurves ?_
    rw [Sweep.take, Sweep.curve_takeAfter]
    exact hcurves _ _ hkey

/-- **The curve of an open sweep is that of a reachable worksheet.** -/
theorem curvesReachable_after (steps : List Step) :
    ∀ {s : Session}, s.worksheet.Reachable → s.CurvesReachable →
      (s.after steps).CurvesReachable := by
  induction steps with
  | nil => exact fun _ h => h
  | cons step rest ih =>
    intro s hs hcurves
    refine ih (reachable_attempt hs step) ?_
    rcases s.attempt_cases step with ⟨points, hmoves⟩ | ⟨-, heq⟩
    · exact hmoves.curvesReachable hs hcurves
    · rw [heq]
      exact hcurves

end Session

/-! ## Positions of open sweeps -/

namespace Sweep

/-- A sweep gets at most one position further for one point. -/
theorem position_next_le (sweep : Sweep) : sweep.next.2.position ≤ sweep.position + 1 := by
  unfold next
  split
  · exact Nat.le_succ _
  · dsimp only
    split
    · exact Nat.le_succ _
    · exact Nat.le_refl _

/-- A sweep gets no further than points are taken from it. -/
theorem position_takeAfter_le (count : Nat) :
    ∀ (before : List Point) (sweep : Sweep),
      (takeAfter before count sweep).2.position ≤ sweep.position + count := by
  induction count with
  | zero => exact fun _ _ => Nat.le_refl _
  | succ count ih =>
    intro before sweep
    have hposition := position_next_le sweep
    rw [takeAfter]
    rcases hnext : sweep.next with ⟨_ | point, later⟩
    · rw [hnext] at hposition
      dsimp only at hposition ⊢
      omega
    · rw [hnext] at hposition
      have hlater := ih (point :: before) later
      dsimp only at hposition ⊢
      omega

end Sweep

namespace Session

/-- The number of points that a step asks for. -/
def Step.asked : Step → Nat
  | .advance _ count => count
  | .edit _ | .start .. | .copy .. => 0

/-- The number of points that a row of steps asks for. -/
def asked (steps : List Step) : Nat :=
  (steps.map Step.asked).sum

/-- No open sweep is further than a bound. -/
def PositionsAtMost (s : Session) (bound : Nat) : Prop :=
  ∀ key sweep, s.sweep? key = some sweep → sweep.position ≤ bound

variable {s later : Session} {step : Step} {points : List Point} {bound : Nat}

/-- A bound may be exchanged for a greater one. -/
theorem PositionsAtMost.mono (h : s.PositionsAtMost bound) {more : Nat} (hle : bound ≤ more) :
    s.PositionsAtMost more :=
  fun key sweep hsweep => (h key sweep hsweep).trans hle

/-- A step takes no open sweep further than it asks for points. -/
theorem Moves.positionsAtMost (h : s.Moves step later points) (hs : s.PositionsAtMost bound) :
    later.PositionsAtMost (bound + step.asked) := by
  cases h with
  | edit => exact hs
  | @start key mode worksheet sweep hstart =>
    obtain ⟨-, -, rfl⟩ := Worksheet.startSweep_eq_ok hstart
    have hs : PositionsAtMost { s with worksheet := worksheet } bound := hs
    exact forall_sweep?_keep hs (Nat.zero_le _)
  | copy hsource => exact forall_sweep?_keep hs (hs _ _ hsource)
  | @advance key count sweep hkey =>
    have hfurther := Sweep.position_takeAfter_le count [] sweep
    have hbefore := hs _ _ hkey
    exact forall_sweep?_keep (hs.mono (Nat.le_add_right _ _))
      (hfurther.trans (Nat.add_le_add_right hbefore _))

/-- **An open sweep is no further than points have been asked for.** -/
theorem positionsAtMost_after (steps : List Step) :
    ∀ {s : Session} {bound : Nat}, s.PositionsAtMost bound →
      (s.after steps).PositionsAtMost (bound + asked steps) := by
  induction steps with
  | nil => exact fun h => h
  | cons step rest ih =>
    intro s bound hs
    have hsum : bound + asked (step :: rest) = bound + step.asked + asked rest := by
      rw [asked, List.map_cons, List.sum_cons, ← Nat.add_assoc]
      rfl
    rw [hsum]
    refine ih ?_
    rcases s.attempt_cases step with ⟨points, hmoves⟩ | ⟨-, heq⟩
    · exact hmoves.positionsAtMost hs
    · rw [heq]
      exact hs.mono (Nat.le_add_right _ _)

end Session

end Grapher
