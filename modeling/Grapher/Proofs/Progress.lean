import Grapher.Proofs.Interleaving
import Grapher.Proofs.RoundedOperations

set_option relaxedAutoImplicit false
set_option autoImplicit false

/-!
# How far a sweep gets

The number at a position is rounded twice, once as a product and once as a sum. Both keep the order,
so the numbers of a sweep never fall. But they need not rise: where the step is too small against
the start, the sum is rounded to the start again. A sweep ends exactly if the number at the last
position that can be counted is past the end, and not every range leads that far.

## Main definitions

* `Sweep.Proper` — the start, the end and the step are such as a worksheet has.
* `Sweep.Yields` — the number of points that a sweep gives from where it stands.

## Main results

* `Sweep.Proper.value_number_mono` — the numbers of a sweep never fall.
* `Sweep.Proper.yields_iff` — the number of points of a sweep, by the numbers around its end.
* `Worksheet.Reachable.ends_iff` — which sweeps end, as long as positions can be counted.
-/

namespace Grapher

namespace Sweep

open Binary64

/-! ## The numbers of a sweep -/

/-- The range of a sweep is one that a worksheet can have. -/
structure Proper (sweep : Sweep) : Prop where
  /-- The start is finite. -/
  start : sweep.start.isFinite
  /-- The end is finite. -/
  finish : sweep.finish.isFinite
  /-- The step is finite. -/
  step : sweep.step.isFinite
  /-- The step is positive. -/
  pos : 0 < sweep.step

variable {sweep : Sweep} {m n : ℕ}

theorem Proper.value_step_pos (h : sweep.Proper) : 0 < value sweep.step := by
  have hlt := (lt_iff_value rfl (isNaN_of_isFinite h.step)).1 h.pos
  rwa [value_zero] at hlt

/-- The distance of a number from the start, before it is added. -/
theorem Proper.mul_isNearest (h : sweep.Proper) (hn : n ≤ positions) :
    IsNearest (sweep.step * Float.ofNat n) (value sweep.step * value (Float.ofNat n)) :=
  Binary64.mul_isNearest h.step (isFinite_ofNat hn)

/-- At the positions that can be counted there are numbers. -/
theorem Proper.isNaN_number (h : sweep.Proper) (hn : n ≤ positions) :
    (sweep.number n).isNaN = false :=
  isNaN_add h.start (h.mul_isNearest hn).isNaN

/-- **The numbers of a sweep never fall.** -/
theorem Proper.value_number_mono (h : sweep.Proper) (hle : m ≤ n) (hn : n ≤ positions) :
    value (sweep.number m) ≤ value (sweep.number n) := by
  have hm : m ≤ positions := hle.trans hn
  refine value_add_le h.start (h.mul_isNearest hm).isNaN (h.mul_isNearest hn).isNaN ?_
  rw [(h.mul_isNearest hm).value, (h.mul_isNearest hn).value]
  refine clamp_mono (nearest_mono ?_)
  exact mul_le_mul_of_nonneg_left (value_ofNat_mono hle) h.value_step_pos.le

theorem Proper.isPast_number_iff (h : sweep.Proper) (hn : n ≤ positions) :
    sweep.isPast (sweep.number n) ↔ value sweep.finish < value (sweep.number n) := by
  rw [isPast, h.isNaN_number hn, Bool.or_false, decide_eq_true_iff,
    lt_iff_value (isNaN_of_isFinite h.finish) (h.isNaN_number hn)]

/-- Behind a number that is past the end, all are. -/
theorem Proper.isPast_of_le (h : sweep.Proper) (hle : m ≤ n) (hn : n ≤ positions)
    (hpast : sweep.isPast (sweep.number m)) : sweep.isPast (sweep.number n) := by
  rw [h.isPast_number_iff (hle.trans hn)] at hpast
  rw [h.isPast_number_iff hn]
  exact hpast.trans_le (h.value_number_mono hle hn)

/-- A sweep gets to a position if the number there is not past the end. -/
theorem Proper.reaches_iff (h : sweep.Proper) (hn : n ≤ positions) :
    sweep.Reaches n ↔ ¬ sweep.isPast (sweep.number n) :=
  ⟨fun hreaches => hreaches n le_rfl, fun hnot _ hj hpast => hnot (h.isPast_of_le hj hn hpast)⟩

/-- **A step that is not too small leads past the end.**

**Proof sketch.** The last position is above `2 ^ 63`. So many steps lead to `2 ^ 62` steps above
zero at least, and rounding passes neither of these numbers, as both are on the grid. -/
theorem Proper.isPast_of_le_mul (h : sweep.Proper)
    (hstart : -(2 ^ 61 * value sweep.step) ≤ value sweep.start)
    (hfinish : value sweep.finish ≤ 2 ^ 61 * value sweep.step) :
    sweep.isPast (sweep.number (positions - 1)) := by
  have hlast : positions - 1 ≤ positions := Nat.sub_le _ _
  have hpos := h.value_step_pos
  have htop : value sweep.finish < top :=
    (abs_lt.1 ((isFinite_iff (isNaN_of_isFinite h.finish)).1 h.finish)).2
  have hproduct := h.mul_isNearest hlast
  have hcount : (2 : ℚ) ^ 63 ≤ value (Float.ofNat (positions - 1)) := by
    rw [← value_ofNat_two_pow (show 63 < 1024 by norm_num)]
    exact value_ofNat_mono (by decide)
  have hdistance : clamp (2 ^ 63 * value sweep.step) ≤
      value (sweep.step * Float.ofNat (positions - 1)) := by
    rw [hproduct.value, ← nearest_mul_value h.step]
    exact clamp_mono (nearest_mono (by nlinarith))
  rw [h.isPast_number_iff hlast]
  by_cases hfinite : (sweep.step * Float.ofNat (positions - 1)).isFinite
  · have hlow : 2 ^ 63 * value sweep.step ≤ value (sweep.step * Float.ofNat (positions - 1)) := by
      have hlt := (abs_lt.1 ((isFinite_iff hproduct.isNaN).1 hfinite)).2
      by_contra hgt
      exact absurd (lt_clamp (not_le.1 hgt) hlt) (not_lt.2 hdistance)
    have hsum : 2 ^ 62 * value sweep.step ≤
        nearest (value sweep.start + value (sweep.step * Float.ofNat (positions - 1))) := by
      rw [← nearest_mul_value h.step]
      exact nearest_mono (by linarith)
    rw [number, (add_isNearest h.start hfinite).value]
    exact lt_clamp (by linarith) htop
  · rw [number, (add_infinite h.start hproduct.isNaN hfinite).2]
    exact (lt_clamp (by linarith) htop).trans_le hdistance

/-! ## The number of points -/

/-- The number of points that a sweep gives from where it stands: so many times there is a next
one, and then there is none. -/
def Yields (sweep : Sweep) (n : ℕ) : Prop :=
  (∀ m < n, (sweep.after m).next.1 ≠ none) ∧ (sweep.after n).next.1 = none

theorem after_after (sweep : Sweep) (m n : ℕ) : (sweep.after m).after n = sweep.after (m + n) := by
  rw [after, after, after, ← Function.iterate_add_apply, Nat.add_comm]

variable (hposition : sweep.position = 0) (hended : sweep.ended = false)
include hposition hended

/-- There is no next point exactly where the number is past the end. -/
theorem Proper.next_after_eq_none_iff (h : sweep.Proper) (hn : n ≤ positions) :
    (sweep.after n).next.1 = none ↔ sweep.isPast (sweep.number n) := by
  rw [next_after hposition hended, answer_eq_none_iff, h.reaches_iff hn, not_not]

/-- **The points that are left are those before the first number that is past the end**, wherever a
sweep stands. -/
theorem Proper.yields_after_iff (h : sweep.Proper) (hn : m + n < positions) :
    (sweep.after m).Yields n ↔
      (∀ k < n, ¬ sweep.isPast (sweep.number (m + k))) ∧
        sweep.isPast (sweep.number (m + n)) := by
  unfold Yields
  simp only [after_after]
  refine and_congr (forall₂_congr fun k hk => not_congr ?_) ?_
  · exact h.next_after_eq_none_iff hposition hended (by omega)
  · exact h.next_after_eq_none_iff hposition hended hn.le

/-- **The points of a sweep are those before the first number that is past the end.** -/
theorem Proper.yields_iff (h : sweep.Proper) (hn : n < positions) :
    sweep.Yields n ↔
      (∀ m < n, ¬ sweep.isPast (sweep.number m)) ∧ sweep.isPast (sweep.number n) := by
  have hafter := h.yields_after_iff (m := 0) hposition hended (by rwa [Nat.zero_add])
  simp only [Nat.zero_add] at hafter
  exact hafter

/-- **A sweep ends exactly if the number at the last position is past the end.** -/
theorem Proper.exists_yields_iff (h : sweep.Proper) :
    (∃ n < positions, sweep.Yields n) ↔ sweep.isPast (sweep.number (positions - 1)) := by
  have hlast : positions - 1 ≤ positions := Nat.sub_le _ _
  constructor
  · rintro ⟨n, hn, hyields⟩
    rw [h.yields_iff hposition hended hn] at hyields
    exact h.isPast_of_le (Nat.le_sub_one_of_lt hn) hlast hyields.2
  · intro hpast
    have hexists : ∃ n, sweep.isPast (sweep.number n) := ⟨_, hpast⟩
    have hfind : Nat.find hexists < positions :=
      (Nat.find_min' hexists hpast).trans_lt (Nat.sub_lt (by decide) one_pos)
    exact ⟨Nat.find hexists, hfind, (h.yields_iff hposition hended hfind).2
      ⟨fun m hm => Nat.find_min hexists hm, Nat.find_spec hexists⟩⟩

end Sweep

/-! ## Sweeps that end -/

namespace Worksheet

variable {w later : Worksheet} {mode : Mode} {sweep : Sweep}

/-- A sweep starts where nothing is missing. -/
theorem startSweep_of_missing (h : (w.curve mode).missing? w.env = none) :
    w.startSweep mode = .ok ({ w with mode := mode }, w.sweep mode) := by
  rw [startSweep, h]

/-- The range of a reachable worksheet is one to sweep over. -/
theorem Reachable.proper_sweep (h : w.Reachable) (mode : Mode) : (w.sweep mode).Proper where
  start := (h.sound.bound_valid .start).finite
  finish := (h.sound.bound_valid .finish).finite
  step := (h.sound.bound_valid .step).finite
  pos := (h.sound.bound_valid .step).positive rfl

/-- **Which sweeps end.** A sweep that starts on a reachable worksheet gives a number of points that
can be counted, and then no more, exactly if the number at the last position that can be counted is
past the end. It is if neither the start nor the end is more than `2 ^ 61` steps away from zero on
its side.

**Proof sketch.** The numbers of the sweep never fall (`Sweep.Proper.value_number_mono`), so it ends
at the first one that is past the end, if there is one (`Sweep.Proper.exists_yields_iff`). -/
theorem Reachable.ends_iff (h : w.Reachable) (hstart : w.startSweep mode = .ok (later, sweep)) :
    ((∃ n < Sweep.positions, sweep.Yields n) ↔
        sweep.finish < sweep.number (Sweep.positions - 1)) ∧
      (-(2 ^ 61 * Binary64.value sweep.step) ≤ Binary64.value sweep.start →
        Binary64.value sweep.finish ≤ 2 ^ 61 * Binary64.value sweep.step →
          ∃ n < Sweep.positions, sweep.Yields n) := by
  obtain ⟨-, -, rfl⟩ := startSweep_eq_ok hstart
  have hproper := h.proper_sweep mode
  have hiff := hproper.exists_yields_iff rfl rfl
  refine ⟨?_, fun hlow hhigh => hiff.2 (hproper.isPast_of_le_mul hlow hhigh)⟩
  rw [hiff, Sweep.isPast, hproper.isNaN_number (Nat.sub_le _ _), Bool.or_false, decide_eq_true_iff]

/-- The sweep of the first worksheet ends. -/
theorem ends_iff_initial : ∃ later sweep, initial.startSweep .explicit = .ok (later, sweep) ∧
    ∃ n < Sweep.positions, sweep.Yields n := by
  have hstart : initial.startSweep .explicit = .ok (_, _) :=
    startSweep_of_missing (by decide +kernel)
  exact ⟨_, _, hstart, (Reachable.initial.ends_iff hstart).1.2 (by decide +kernel)⟩

/-- A worksheet whose range has one number, with a step that is too small to leave it. -/
def stalled : Worksheet :=
  initial.after [.bound .start "1", .bound .finish "1", .bound .step "1e-300"]

/-- The sweep of a worksheet with a step that is too small does not end, as long as positions can be
counted. -/
theorem endless_stalled : stalled.Reachable ∧ ∃ later sweep,
    stalled.startSweep .explicit = .ok (later, sweep) ∧
      ¬ ∃ n < Sweep.positions, sweep.Yields n := by
  have hreachable : stalled.Reachable := Reachable.initial.after _
  have hstart : stalled.startSweep .explicit = .ok (_, _) :=
    startSweep_of_missing (by decide +kernel)
  refine ⟨hreachable, _, _, hstart, ?_⟩
  rw [(hreachable.proper_sweep .explicit).exists_yields_iff rfl rfl]
  decide +kernel

end Worksheet

end Grapher
