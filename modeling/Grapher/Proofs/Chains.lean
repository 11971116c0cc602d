set_option relaxedAutoImplicit false
set_option autoImplicit false

/-!
# Chains of steps

Steps that are made one after the other until one is refused. A step is a function from a state to
the next one, or a change of a state in place; what is said of the one is said of the other.

## Main definitions

* `settled` — what a change leaves that is made as a whole or not at all.

## Main results

* `foldlM_cons_eq_ok_iff` — a row of steps is made when each of them is.
* `foldlM_eq_error_iff` — a row of steps is refused as its first step that is refused by itself.
* `run_bind`, `run_forM` — steps in place, one after the other.
-/

namespace Grapher

variable {α β ε σ : Type}

/-! ## Steps to the next state -/

/-- Two steps succeed one after the other when each of them does. -/
theorem bind_eq_ok_iff {x : Except ε α} {f : α → Except ε β} {b : β} :
    x >>= f = .ok b ↔ ∃ a, x = .ok a ∧ f a = .ok b := by
  cases x <;> simp [bind, Except.bind]

/-- What is left when the failures are forgotten is a success. -/
theorem eq_ok_of_toOption {x : Except ε α} {a : α} (h : x.toOption = some a) : x = .ok a := by
  cases x with
  | error e => cases h
  | ok b => exact congrArg _ (Option.some_inj.1 h)

/-- No steps leave what there is. -/
theorem foldlM_nil_eq_ok_iff {f : β → α → Except ε β} {b later : β} :
    ([] : List α).foldlM f b = .ok later ↔ b = later := by
  rw [List.foldlM_nil]
  exact Except.ok.injEq b later ▸ Iff.rfl

/-- A row of steps starts with the first one. -/
theorem foldlM_cons_eq_ok_iff {f : β → α → Except ε β} {b later : β} {a : α} {rest : List α} :
    (a :: rest).foldlM f b = .ok later ↔
      ∃ middle, f b a = .ok middle ∧ rest.foldlM f middle = .ok later := by
  rw [List.foldlM_cons, bind_eq_ok_iff]

/-- **A row of steps is refused as its first step that is refused by itself**, if what a step is
refused for does not depend on the steps before it, as long as they keep `P`. -/
theorem foldlM_eq_error_iff {f : σ → α → Except ε σ} {refusal? : α → Option ε} (P : σ → Prop)
    (hkeeps : ∀ s a later, P s → f s a = .ok later → P later)
    (hrefused : ∀ s a e, P s → (f s a = .error e ↔ refusal? a = some e)) {l : List α} :
    ∀ {s : σ} {e : ε}, P s → (l.foldlM f s = .error e ↔ l.findSome? refusal? = some e) := by
  induction l with
  | nil => exact fun _ => ⟨nofun, nofun⟩
  | cons a rest ih =>
    intro s e hs
    rw [List.foldlM_cons, List.findSome?_cons]
    cases hstep : f s a with
    | error first =>
      rw [(hrefused s a first hs).1 hstep]
      exact ⟨fun h => congrArg some (Except.error.inj h),
        fun h => congrArg Except.error (Option.some.inj h)⟩
    | ok later =>
      -- a step that is made is not refused by itself, so the first refusal comes later
      have hnone : refusal? a = none := by
        cases hrefusal : refusal? a with
        | none => rfl
        | some first => cases hstep.symm.trans ((hrefused s a first hs).2 hrefusal)
      rw [hnone]
      exact ih (hkeeps s a later hs hstep)

/-! ## Steps in place -/

/-- What a change of `s` leaves that is made as a whole or, if it is refused, not at all. -/
def settled (s : σ) : Except ε (σ × α) → Except ε α × σ
  | .ok (later, a) => (.ok a, later)
  | .error e => (.error e, s)

/-- Two steps in place, one after the other. The state of a step that is refused stays. -/
theorem run_bind (x : ExceptT ε (StateM σ) α) (f : α → ExceptT ε (StateM σ) β) (s : σ) :
    (x >>= f).run.run s =
      match x.run.run s with
      | (.ok a, later) => (f a).run.run later
      | (.error e, later) => (.error e, later) := by
  rw [ExceptT.run_bind, StateT.run_bind]
  change (match x.run.run s with | (result, later) => _) = _
  rcases x.run.run s with ⟨_ | a, later⟩ <;> rfl

/-- A step in place goes on where the step before it has left the state. -/
theorem run_bind_of_ok {x : ExceptT ε (StateM σ) α} {s later : σ} {a : α}
    (h : x.run.run s = (.ok a, later)) (f : α → ExceptT ε (StateM σ) β) :
    (x >>= f).run.run s = (f a).run.run later := by
  rw [run_bind, h]

/-- Nothing is made after a step that is refused. -/
theorem run_bind_of_error {x : ExceptT ε (StateM σ) α} {s : σ} {e : ε}
    (h : (x.run.run s).1 = .error e) (f : α → ExceptT ε (StateM σ) β) :
    ((x >>= f).run.run s).1 = .error e := by
  rw [run_bind]
  generalize x.run.run s = result at h
  obtain ⟨_, later⟩ := result
  obtain rfl := h
  rfl

theorem run_get (s : σ) : (get : ExceptT ε (StateM σ) σ).run.run s = (.ok s, s) := rfl

/-- **A row of steps in place** is made or refused as the row of the steps that they do. Of a row
that is refused the steps before the refusal stay made. -/
theorem run_forM {f : α → ExceptT ε (StateM σ) PUnit} {g : σ → α → Except ε σ}
    (hf : ∀ a s, (f a).run.run s = settled s ((g s a).map (·, ()))) {l : List α} :
    ∀ {s : σ},
      (∀ later, l.foldlM g s = .ok later → (l.forM f).run.run s = (.ok (), later)) ∧
        ∀ e, l.foldlM g s = .error e → ((l.forM f).run.run s).1 = .error e := by
  induction l with
  | nil =>
    intro s
    exact ⟨fun later h => congrArg (Except.ok (), ·) (foldlM_nil_eq_ok_iff.1 h), nofun⟩
  | cons a rest ih =>
    intro s
    rw [List.foldlM_cons, List.forM, run_bind, hf]
    cases g s a with
    | error first => exact ⟨nofun, fun e h => congrArg Except.error (Except.error.inj h)⟩
    | ok middle => exact ih

end Grapher
