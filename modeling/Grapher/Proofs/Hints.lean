import Grapher.Proofs.Progress
import Grapher.Proofs.RoundedQuotients

set_option relaxedAutoImplicit false
set_option autoImplicit false

/-!
# How many points are left

A sweep says beforehand how many points are left, give or take one. It divides the width of the
range by the step, while the points are counted by the numbers that are not past the end, each of
which is rounded by itself. Counted in steps, the errors of both are parts of `2 ^ 53` of how far
the range reaches. Where it reaches no further than `2 ^ 50` steps they come to less than one step,
which the hint allows for. Where the step is small against the spacing of the numbers around the
start, they come to any number of steps.

## Main definitions

* `Sweep.ratio`, `Sweep.quotient` — the number of steps in the range, and the same as computed.
* `Sweep.Near` — the range reaches no further than the hint can be trusted.

## Main results

* `Sweep.Near.abs_value_quotient_sub_le` — the error of the number of steps.
* `Sweep.Near.not_isPast_of_le`, `Sweep.Near.isPast_of_le` — what the numbers around the end are
  worth.
* `Worksheet.Reachable.remaining_brackets` — the number of points that are left is between the
  bounds of the hint.
-/

namespace Grapher

namespace Sweep

open Binary64

variable {sweep : Sweep} {n : ℕ}

/-! ## The number of steps -/

/-- The number of steps from the start to the end. -/
def ratio (sweep : Sweep) : ℚ :=
  (value sweep.finish - value sweep.start) / value sweep.step

/-- The number of steps from the start to the end, as it is computed. -/
def quotient (sweep : Sweep) : Float :=
  (sweep.finish - sweep.start) / sweep.step

/-- The range of a sweep is not too wide and not too far away, both counted in steps. -/
structure Near (sweep : Sweep) : Prop extends sweep.Proper where
  /-- The start is not too far from zero. -/
  abs_start : |value sweep.start| ≤ 2 ^ 50 * value sweep.step
  /-- The end is not too far from zero. -/
  abs_finish : |value sweep.finish| ≤ 2 ^ 50 * value sweep.step
  /-- The number of steps is computed without an overflow. -/
  finite_quotient : sweep.quotient.isFinite

namespace Near

/-- The distance of the bounds, counted in steps. -/
theorem finish_sub_start (h : sweep.Near) :
    value sweep.finish - value sweep.start = sweep.ratio * value sweep.step :=
  (div_mul_cancel₀ _ h.value_step_pos.ne').symm

/-- There are not too many steps. -/
theorem abs_ratio_le (h : sweep.Near) : |sweep.ratio| ≤ 2 ^ 51 := by
  have hpos := h.value_step_pos
  have hstart := h.abs_start
  have hfinish := h.abs_finish
  rw [ratio, abs_div, abs_of_pos hpos, div_le_iff₀ hpos]
  calc |value sweep.finish - value sweep.start|
      ≤ |value sweep.finish| + |value sweep.start| := abs_sub _ _
    _ ≤ 2 ^ 51 * value sweep.step := by linarith

/-- The distance of the bounds is rounded once. -/
theorem sub_isNearest (h : sweep.Near) :
    IsNearest (sweep.finish - sweep.start) (value sweep.finish - value sweep.start) :=
  Binary64.sub_isNearest h.finish h.start

/-- The distance of the bounds is finite, as the number of steps is. -/
theorem isFinite_sub (h : sweep.Near) : (sweep.finish - sweep.start).isFinite :=
  isFinite_of_div h.sub_isNearest.isNaN h.step h.finite_quotient

/-- The difference of the bounds is rounded with a small error, counted in steps. -/
theorem abs_difference_sub_le (h : sweep.Near) :
    |value (sweep.finish - sweep.start) / value sweep.step - sweep.ratio| ≤
      |sweep.ratio| / 2 ^ 53 := by
  have hpos := h.value_step_pos
  have hfinest : Finest (value sweep.finish - value sweep.start) := by
    rw [sub_eq_add_neg]
    exact (finest_value h.finish).add (finest_value h.start).neg
  have herror := hfinest.abs_nearest_sub_le
  rw [← h.sub_isNearest.value_of_isFinite h.isFinite_sub, h.finish_sub_start, abs_mul,
    abs_of_pos hpos] at herror
  have hsplit : value (sweep.finish - sweep.start) / value sweep.step - sweep.ratio =
      (value (sweep.finish - sweep.start) - sweep.ratio * value sweep.step) / value sweep.step := by
    rw [sub_div, mul_div_cancel_right₀ _ hpos.ne']
  rw [hsplit, abs_div, abs_of_pos hpos, div_le_iff₀ hpos]
  linarith

/-- **The number of steps is computed with an error of little more than one half.**

**Proof sketch.** The difference and the quotient are rounded, each with an error of one part of
`2 ^ 53`. There are `2 ^ 51` steps at most, so each error is about one quarter of a step. -/
theorem abs_value_quotient_sub_le (h : sweep.Near) :
    |value sweep.quotient - sweep.ratio| ≤ 33 / 64 := by
  have hratio := h.abs_ratio_le
  have htiny : (2 : ℚ) ^ (-1075 : ℤ) ≤ 1 / 128 := by
    calc (2 : ℚ) ^ (-1075 : ℤ) ≤ 2 ^ (-7 : ℤ) := zpow_le_zpow_right₀ one_le_two (by norm_num)
      _ = 1 / 128 := by norm_num
  have hdifference := h.abs_difference_sub_le
  have hquotient : |value sweep.quotient - value (sweep.finish - sweep.start) / value sweep.step| ≤
      |value (sweep.finish - sweep.start) / value sweep.step| / 2 ^ 53 + 2 ^ (-1075 : ℤ) := by
    rw [quotient, (div_isNearest h.isFinite_sub h.step h.value_step_pos.ne').value_of_isFinite
      h.finite_quotient]
    exact abs_nearest_sub_le _
  have hsize : |value (sweep.finish - sweep.start) / value sweep.step| ≤ 2 ^ 51 + 1 / 4 := by
    have htriangle := abs_sub_abs_le_abs_sub
      (value (sweep.finish - sweep.start) / value sweep.step) sweep.ratio
    linarith
  have htriangle := abs_sub_le (value sweep.quotient)
    (value (sweep.finish - sweep.start) / value sweep.step) sweep.ratio
  linarith

/-! ## Numbers around the end -/

/-- The distance of the bounds is below the top. -/
theorem finish_sub_start_lt_top (h : sweep.Near) :
    value sweep.finish - value sweep.start < top := by
  have hlt := (abs_lt.1 ((isFinite_iff h.sub_isNearest.isNaN).1 h.isFinite_sub)).2
  rw [h.sub_isNearest.value_of_isFinite h.isFinite_sub, ← nearest_top] at hlt
  exact nearest_mono.reflect_lt hlt

/-- The distance of a number from the start is rounded with a small error. -/
theorem abs_nearest_mul_sub_le (h : sweep.Near) (n : ℕ) :
    |nearest (value sweep.step * n) - value sweep.step * n| ≤ value sweep.step * n / 2 ^ 53 := by
  have hnonneg : 0 ≤ value sweep.step * n := mul_nonneg h.value_step_pos.le (Nat.cast_nonneg n)
  have herror := ((finest_value h.step).mul_natCast n).abs_nearest_sub_le
  rwa [abs_of_nonneg hnonneg] at herror

/-- The distance of a number from the start is rounded once. -/
theorem mul_isNearest (h : sweep.Near) (hn : n < 2 ^ 53) :
    IsNearest (sweep.step * Float.ofNat n) (value sweep.step * n) := by
  have hproduct := h.toProper.mul_isNearest (hn.le.trans (by decide : 2 ^ 53 ≤ positions))
  rwa [value_ofNat hn] at hproduct

/-- No number is rounded below the start. -/
theorem nearest_mul_nonneg (h : sweep.Near) (n : ℕ) : 0 ≤ nearest (value sweep.step * n) :=
  nearest_nonneg (mul_nonneg h.value_step_pos.le (Nat.cast_nonneg n))

/-- No number is computed below the start. -/
theorem value_mul_nonneg (h : sweep.Near) (hn : n < 2 ^ 53) :
    0 ≤ value (sweep.step * Float.ofNat n) := by
  rw [(h.mul_isNearest hn).value]
  exact clamp_nonneg (h.nearest_mul_nonneg n)

/-- **A number is not past the end** if there is room for the error of its distance from the start.
The sum adds no error, as it keeps the order and the end is a binary64 number itself. -/
theorem not_isPast_of_le (h : sweep.Near) (hn : n < 2 ^ 53) (hle : n + n / 2 ^ 53 ≤ sweep.ratio) :
    ¬ sweep.isPast (sweep.number n) := by
  have hpositions : n ≤ positions := hn.le.trans (by decide : 2 ^ 53 ≤ positions)
  have hpos := h.value_step_pos
  have hproduct := h.mul_isNearest hn
  have herror := abs_le.1 (h.abs_nearest_mul_sub_le n)
  have hroom : value sweep.step * n + value sweep.step * n / 2 ^ 53 ≤
      value sweep.finish - value sweep.start := by
    rw [h.finish_sub_start, mul_comm sweep.ratio, mul_div_assoc, ← mul_add]
    exact mul_le_mul_of_nonneg_left hle hpos.le
  have hlow := h.value_mul_nonneg hn
  have hhigh : value (sweep.step * Float.ofNat n) ≤ value sweep.finish - value sweep.start := by
    rw [hproduct.value]
    exact (clamp_le (h.nearest_mul_nonneg n)).trans (by linarith)
  have hfinite : (sweep.step * Float.ofNat n).isFinite := by
    rw [isFinite_iff hproduct.isNaN, abs_of_nonneg hlow]
    exact hhigh.trans_lt h.finish_sub_start_lt_top
  rw [h.isPast_number_iff hpositions, not_lt, number, (add_isNearest h.start hfinite).value,
    (isNearest_self h.finish).value]
  exact clamp_mono (nearest_mono (by linarith))

/-- **A number is past the end** if it is a part of a step behind it, which is more than the errors
of the product and of the sum. -/
theorem isPast_of_le (h : sweep.Near) (hn : n < 2 ^ 53)
    (hle : sweep.ratio + 1 / 5 ≤ n - n / 2 ^ 53) : sweep.isPast (sweep.number n) := by
  have hpositions : n ≤ positions := hn.le.trans (by decide : 2 ^ 53 ≤ positions)
  have hpos := h.value_step_pos
  have hproduct := h.mul_isNearest hn
  have htop : value sweep.finish < top :=
    (abs_lt.1 ((isFinite_iff (isNaN_of_isFinite h.finish)).1 h.finish)).2
  have herror := abs_le.1 (h.abs_nearest_mul_sub_le n)
  have hroom : value sweep.finish - value sweep.start + value sweep.step / 5 ≤
      value sweep.step * n - value sweep.step * n / 2 ^ 53 := by
    have hscaled := mul_le_mul_of_nonneg_left hle hpos.le
    rw [h.finish_sub_start]
    linarith
  rw [h.isPast_number_iff hpositions, number]
  by_cases hfinite : (sweep.step * Float.ofNat n).isFinite
  · have hdistance := hproduct.value_of_isFinite hfinite
    have hfinest := (finest_value h.start).add (finest_value hfinite)
    have hsum := abs_le.1 hfinest.abs_nearest_sub_le
    obtain ⟨hlow, hhigh⟩ := abs_le.1 h.abs_finish
    rw [(add_isNearest h.start hfinite).value]
    refine lt_clamp ?_ htop
    rcases abs_cases (value sweep.start + value (sweep.step * Float.ofNat n)) with
      ⟨habs, -⟩ | ⟨habs, -⟩ <;> rw [habs] at hsum <;> linarith
  · rw [(add_infinite h.start hproduct.isNaN hfinite).2]
    rw [isFinite_iff hproduct.isNaN, abs_of_nonneg (h.value_mul_nonneg hn), not_lt] at hfinite
    exact htop.trans_le hfinite

end Near

/-! ## Hints -/

/-- The number of points that a hint expects to be left: those of a range without rounding errors,
where `count` is the number of whole steps in it. -/
def expected (count : ℤ) (position : ℕ) : ℕ :=
  (count + 1 - position).toNat

/-- **What a hint is computed from**, where no number is too large to be exact. -/
theorem remaining_of_floor (hended : sweep.ended = false) (hquotient : sweep.quotient.isFinite)
    (hfloor : |⌊value sweep.quotient⌋| < 2 ^ 52) (hposition : sweep.position < 2 ^ 52) :
    sweep.remaining = (expected ⌊value sweep.quotient⌋ sweep.position - 1,
      expected ⌊value sweep.quotient⌋ sweep.position + 1) := by
  obtain ⟨hlow, hhigh⟩ := abs_lt.1 hfloor
  generalize hcount : ⌊value sweep.quotient⌋ = count at hlow hhigh ⊢
  have hsteps : IsNearest (Arithmetic.floor sweep.quotient) count := by
    rw [← hcount]
    exact floor_isNearest hquotient
  obtain ⟨hfinite, hvalue⟩ := hsteps.value_intCast (abs_lt.2 ⟨by omega, by omega⟩)
  have htotal : IsNearest (Arithmetic.floor sweep.quotient + 1) ((count + 1 : ℤ) : ℚ) := by
    have hsum := add_isNearest hfinite (y := 1) rfl
    rw [hvalue, value_one] at hsum
    exact_mod_cast hsum
  obtain ⟨hfinite', hvalue'⟩ := htotal.value_intCast (abs_lt.2 ⟨by omega, by omega⟩)
  have hleft : IsNearest (Arithmetic.floor sweep.quotient + 1 - Float.ofNat sweep.position)
      ((count + 1 - sweep.position : ℤ) : ℚ) := by
    have hdifference := Binary64.sub_isNearest hfinite'
      (isFinite_ofNat (show sweep.position ≤ 2 ^ 64 by omega))
    rw [hvalue', value_ofNat (by omega)] at hdifference
    exact_mod_cast hdifference
  obtain ⟨-, hvalue''⟩ := hleft.value_intCast (abs_lt.2 ⟨by omega, by omega⟩)
  obtain ⟨hnum, hgreatest⟩ := value_greatest hleft.isNaN (y := 0) rfl
  have hexpected :
      max ((count + 1 - sweep.position : ℤ) : ℚ) 0 = expected count sweep.position := by
    have hcast : ((expected count sweep.position : ℕ) : ℤ) = max (count + 1 - sweep.position) 0 :=
      Int.ofNat_toNat _
    exact_mod_cast hcast.symm
  rw [hvalue'', value_zero, hexpected] at hgreatest
  have hnat := toNat_toUInt64 hnum hgreatest (by unfold expected; omega)
  unfold remaining
  rw [if_neg (by simp [hended])]
  exact Prod.ext (congrArg (· - 1) hnat) (congrArg (· + 1) hnat)

/-- The range is kept from one point to the next. -/
theorem next_range (sweep : Sweep) : sweep.next.2.start = sweep.start ∧
    sweep.next.2.finish = sweep.finish ∧ sweep.next.2.step = sweep.step := by
  unfold next
  split
  · exact ⟨rfl, rfl, rfl⟩
  · dsimp only
    split <;> exact ⟨rfl, rfl, rfl⟩

/-- The number of steps is kept, wherever a sweep stands. -/
theorem quotient_after (sweep : Sweep) (asked : ℕ) :
    (sweep.after asked).quotient = sweep.quotient := by
  induction asked with
  | zero => rfl
  | succ asked ih =>
    obtain ⟨hstart, hfinish, hstep⟩ := (sweep.after asked).next_range
    rw [← ih, after, Function.iterate_succ_apply', quotient, quotient]
    exact congrArg₂ _ (congrArg₂ _ hfinish hstart) hstep

namespace Near

/-- The number of whole steps, as it is computed, is at most two steps off. -/
theorem floor_bounds (h : sweep.Near) :
    sweep.ratio - 97 / 64 < (⌊value sweep.quotient⌋ : ℚ) ∧
      (⌊value sweep.quotient⌋ : ℚ) ≤ sweep.ratio + 33 / 64 := by
  obtain ⟨hlow, hhigh⟩ := abs_le.1 h.abs_value_quotient_sub_le
  have hfloor := Int.floor_le (value sweep.quotient)
  have hnext := Int.lt_floor_add_one (value sweep.quotient)
  constructor <;> linarith

/-- There are not too many whole steps, as they are computed. -/
theorem abs_floor_le (h : sweep.Near) : |⌊value sweep.quotient⌋| ≤ 2 ^ 51 + 2 := by
  obtain ⟨hlow, hhigh⟩ := h.floor_bounds
  obtain ⟨hmin, hmax⟩ := abs_le.1 h.abs_ratio_le
  have hcast : |(⌊value sweep.quotient⌋ : ℚ)| ≤ ((2 ^ 51 + 2 : ℤ) : ℚ) := by
    push_cast
    rw [abs_le]
    constructor <;> linarith
  exact_mod_cast hcast

/-- Two steps behind the last whole one the sweep is past its end. -/
theorem isPast_of_floor_le (h : sweep.Near) (hle : ⌊value sweep.quotient⌋ + 2 ≤ n)
    (hn : n ≤ positions) : sweep.isPast (sweep.number n) := by
  obtain ⟨hlow, hhigh⟩ := h.floor_bounds
  obtain ⟨hmin, hmax⟩ := abs_le.1 h.abs_floor_le
  obtain ⟨k, hk⟩ : ∃ k : ℕ, k = (⌊value sweep.quotient⌋ + 2).toNat := ⟨_, rfl⟩
  have hfloor : (⌊value sweep.quotient⌋ : ℚ) + 2 ≤ k := by
    exact_mod_cast (show ⌊value sweep.quotient⌋ + 2 ≤ (k : ℤ) by omega)
  have hsmall : (k : ℚ) ≤ 2 ^ 51 + 4 := by
    exact_mod_cast (show k ≤ 2 ^ 51 + 4 by omega)
  refine h.toProper.isPast_of_le (show k ≤ n by omega) hn (h.isPast_of_le (by omega) ?_)
  linarith

/-- One step before the last whole one the sweep is not past its end. -/
theorem not_isPast_of_le_floor (h : sweep.Near) (hle : (n : ℤ) + 1 ≤ ⌊value sweep.quotient⌋) :
    ¬ sweep.isPast (sweep.number n) := by
  obtain ⟨hlow, hhigh⟩ := h.floor_bounds
  obtain ⟨hmin, hmax⟩ := abs_le.1 h.abs_floor_le
  have hfloor : (n : ℚ) + 1 ≤ ⌊value sweep.quotient⌋ := by exact_mod_cast hle
  have hsmall : (n : ℚ) ≤ 2 ^ 51 + 1 := by
    exact_mod_cast (show n ≤ 2 ^ 51 + 1 by omega)
  refine h.not_isPast_of_le (by omega) ?_
  linarith

/-- **A hint brackets the number of points that are left.** -/
theorem brackets (h : sweep.Near) (hposition : sweep.position = 0) (hended : sweep.ended = false)
    {asked : ℕ} (hrunning : (sweep.after asked).ended = false)
    (hyields : (sweep.after asked).Yields n) :
    (sweep.after asked).remaining.1 ≤ n ∧ n ≤ (sweep.after asked).remaining.2 := by
  obtain ⟨hmin, hmax⟩ := abs_le.1 h.abs_floor_le
  have hat := (at_start hposition hended).after asked
  rw [Nat.zero_add] at hat
  obtain ⟨-, hasked, hbefore⟩ := hat.progress.resolve_right fun hother => by
    simp [hrunning] at hother
  have hsmall : asked ≤ 2 ^ 51 + 4 := by
    by_contra hlarge
    refine hbefore (2 ^ 51 + 4) (not_le.1 hlarge) (h.isPast_of_floor_le ?_ (by decide))
    push_cast
    omega
  have hremaining : (sweep.after asked).remaining =
      (expected ⌊value sweep.quotient⌋ asked - 1, expected ⌊value sweep.quotient⌋ asked + 1) := by
    have hhint := remaining_of_floor hrunning (by rw [quotient_after]; exact h.finite_quotient)
      (by rw [quotient_after]; exact abs_lt.2 ⟨by omega, by omega⟩) (by omega)
    rwa [quotient_after, hasked] at hhint
  have hnone : ∀ m, asked + m ≤ positions →
      (((sweep.after asked).after m).next.1 = none ↔ sweep.isPast (sweep.number (asked + m))) := by
    intro m hm
    rw [after_after]
    exact h.next_after_eq_none_iff hposition hended hm
  have hpositions : 2 ^ 53 ≤ positions := by decide
  obtain ⟨hpoints, hlast⟩ := hyields
  rw [hremaining]
  unfold expected
  constructor
  · by_contra hlt
    have hpast := (hnone n (by omega)).1 hlast
    exact h.not_isPast_of_le_floor (by push_cast; omega) hpast
  · by_contra hgt
    have hpast := h.isPast_of_floor_le
      (n := asked + ((⌊value sweep.quotient⌋ + 1 - asked).toNat + 1)) (by omega) (by omega)
    exact hpoints _ (not_le.1 hgt) ((hnone _ (by omega)).2 hpast)

end Near

/-- After its end a sweep has no points left, and the hint says so. -/
theorem remaining_of_ended (h : sweep.ended = true) :
    sweep.remaining = (0, 0) ∧ sweep.Yields 0 := by
  refine ⟨if_pos h, fun m hm => absurd hm (Nat.not_lt_zero m), ?_⟩
  exact congrArg Prod.fst (next_of_ended h)

end Sweep

/-! ## Hints of worksheets -/

namespace Worksheet

variable {w later : Worksheet} {mode : Mode} {sweep : Sweep}

/-- **What a hint is worth.** A sweep that starts on a reachable worksheet has no points left after
its end, and the hint says so. Before it, the hint brackets the number of points that are left,
wherever the sweep stands, if the number of steps is computed without an overflow and neither the
start nor the end is more than `2 ^ 50` steps away from zero.

**Proof sketch.** The number of steps is computed with an error of little more than one half
(`Sweep.Near.abs_value_quotient_sub_le`), and the numbers of the sweep with an error of less than
one half of a step around the end. So the sweep ends between one step before and two steps after
the last whole one. -/
theorem Reachable.remaining_brackets (h : w.Reachable)
    (hstart : w.startSweep mode = .ok (later, sweep)) (asked : ℕ) :
    ((sweep.after asked).ended = true →
        (sweep.after asked).remaining = (0, 0) ∧ (sweep.after asked).Yields 0) ∧
      (|Binary64.value sweep.start| ≤ 2 ^ 50 * Binary64.value sweep.step →
        |Binary64.value sweep.finish| ≤ 2 ^ 50 * Binary64.value sweep.step →
          ((sweep.finish - sweep.start) / sweep.step).isFinite →
            ∀ n, (sweep.after asked).Yields n →
              (sweep.after asked).remaining.1 ≤ n ∧ n ≤ (sweep.after asked).remaining.2) := by
  obtain ⟨-, -, rfl⟩ := startSweep_eq_ok hstart
  refine ⟨Sweep.remaining_of_ended, fun hlow hhigh hquotient n hyields => ?_⟩
  cases hended : ((w.sweep mode).after asked).ended with
  | true =>
    obtain ⟨hremaining, -, hnone⟩ := Sweep.remaining_of_ended hended
    obtain rfl : n = 0 := Nat.eq_zero_of_not_pos fun hpos => hyields.1 0 hpos hnone
    rw [hremaining]
    exact ⟨le_rfl, le_rfl⟩
  | false =>
    have hnear : (w.sweep mode).Near := ⟨h.proper_sweep mode, hlow, hhigh, hquotient⟩
    exact hnear.brackets rfl rfl hended hyields

/-- The hint of the first worksheet brackets its points. -/
theorem remaining_brackets_initial : ∃ later sweep,
    initial.startSweep .explicit = .ok (later, sweep) ∧ (sweep.after 1).Yields 40 ∧
      (sweep.after 1).remaining.1 ≤ 40 ∧ 40 ≤ (sweep.after 1).remaining.2 := by
  have hstart : initial.startSweep .explicit = .ok (_, _) :=
    startSweep_of_missing (by decide +kernel)
  have hyields : ((initial.sweep .explicit).after 1).Yields 40 := by
    rw [(Reachable.initial.proper_sweep .explicit).yields_after_iff rfl rfl (by decide)]
    decide +kernel
  refine ⟨_, _, hstart, hyields, ?_⟩
  exact (Reachable.initial.remaining_brackets hstart 1).2 (by decide +kernel) (by decide +kernel)
    (by decide +kernel) 40 hyields

/-- A worksheet whose range has one number, with a step that moves it only after a while. -/
def crawling : Worksheet :=
  initial.after [.bound .start "1", .bound .finish "1", .bound .step "1e-17"]

/-- The hint of a worksheet with a small step says that two points are left at most, where there are
twelve. -/
theorem twelve_points_crawling : crawling.Reachable ∧ ∃ later sweep,
    crawling.startSweep .explicit = .ok (later, sweep) ∧
      ((sweep.finish - sweep.start) / sweep.step).isFinite ∧ sweep.Yields 12 ∧
      sweep.remaining = (0, 2) ∧ ¬ 12 ≤ sweep.remaining.2 := by
  have hreachable : crawling.Reachable := Reachable.initial.after _
  have hstart : crawling.startSweep .explicit = .ok (_, _) :=
    startSweep_of_missing (by decide +kernel)
  refine ⟨hreachable, _, _, hstart, by decide +kernel, ?_, by decide +kernel, by decide +kernel⟩
  rw [(hreachable.proper_sweep .explicit).yields_iff rfl rfl (by decide)]
  decide +kernel

end Worksheet

end Grapher
