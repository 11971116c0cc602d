import Grapher.Proofs.Chains
import Grapher.Proofs.Sessions

set_option relaxedAutoImplicit false
set_option autoImplicit false

/-!
# Edits in place

The edits of a worksheet and the steps of a session as changes of one state in place. Such a change
may write before it is refused, and what it has written then stays, so whether a refused edit leaves
the worksheet alone depends on the order of its tests and its writes. Every edit tests first, but
for restoring: an archive is read text by text, and what was read stays when a text is refused. It
is read aside for that reason, and the worksheet is written when all is read.

## Main definitions

* `InPlace` — changes of a state in place that may be refused.
* `InPlace.edit`, `InPlace.perform` — the edits of a worksheet, and the steps of a session.
* `InPlace.performAll` — a row of steps, refused ones among them.

## Main results

* `InPlace.run_edit`, `InPlace.run_perform` — an edit or a step in place is made as a whole or not
  at all.
* `InPlace.run_performAll` — a row of steps in place leads to the same session as ever.
-/

namespace Grapher

/-- A change of a state in place. It may be refused, and what it has written before stays. -/
abbrev InPlace (ε σ : Type) := ExceptT ε (StateM σ)

namespace InPlace

/-! ## Edits of a worksheet -/

/-- A text becomes the formula of a coordinate. -/
def express (c : Coordinate) (source : String) : InPlace Refusal Worksheet Unit := do
  match Formula.ofSource (← get).declared source with
  | .error rejection => throw (.formula rejection)
  | .ok formula => modify fun w => { w with formulas := w.formulas.set c formula }

/-- A text becomes a bound of the range, without the blanks around it. -/
def setBound (role : Bound.Role) (source : String) : InPlace Refusal Worksheet Unit := do
  let text := Text.trimmed source
  match (← get).evaluate text with
  | .error refusal => throw (.about (.bound role) refusal)
  | .ok value =>
    if !value.isFinite then throw (.about (.bound role) (.infinite text))
    if role = .step ∧ value ≤ 0 then throw (.about (.bound role) (.notPositive text))
    modify fun w => { w with range := w.range.set role ⟨value, text⟩ }

/-- The formula that is archived for a coordinate is read. -/
def readFormula (archive : Archive) (c : Coordinate) : InPlace Refusal Worksheet Unit :=
  (express c (archive.expressions.get c)).adapt (.about (.expression c))

/-- The texts of an archive are read, one after the other. What was read before a text that is
refused stays. -/
def readAll (archive : Archive) : InPlace Refusal Worksheet Unit := do
  Coordinate.all.forM (readFormula archive)
  Bound.Role.all.forM fun role => setBound role (archive.boundText role)

/-- A worksheet is replaced by that of an archive, which is read aside. -/
def restore (archive : Archive) : InPlace Refusal Worksheet Unit :=
  match (readAll archive).run.run archive.blank with
  | (.ok (), restored) => set restored
  | (.error refusal, _) => throw refusal

/-- A sweep starts if all variables that its curve loads are declared. The worksheet then keeps the
mode. -/
def startSweep (mode : Mode) : InPlace Refusal Worksheet Sweep := do
  let w ← get
  match (w.curve mode).missing? w.env with
  | some missing => throw (.missing missing)
  | none =>
    modify fun w => { w with mode := mode }
    return (← get).sweep mode

/-- An edit of a worksheet. -/
def edit : Edit → InPlace Refusal Worksheet Unit
  | .express c source => express c source
  | .bound role source => setBound role source
  | .declare name value => modify fun w => w.declare name value
  | .undeclare name => modify fun w => w.undeclare name
  | .rename name => modify fun w => { w with name := name }
  | .parameter name => modify fun w => { w with parameter := name }
  | .radius name => modify fun w => { w with radius := name }
  | .angle name => modify fun w => { w with angle := name }
  | .precision places => modify fun w => { w with precision := places }
  | .mode text =>
    match Mode.ofText? text with
    | some chosen => modify fun w => { w with mode := chosen }
    | none => throw (.unknownMode text)
  | .restore archive => restore archive
  | .reopen => do restore (← get).archive
  | .plot chosen => do let _ ← startSweep chosen

/-! ## Steps of a session -/

/-- A change of the worksheet of a session. -/
def onWorksheet {α : Type} (change : InPlace Refusal Worksheet α) :
    InPlace Session.Trouble Session α := do
  let (result, worksheet) := change.run.run (← get).worksheet
  modify fun s => { s with worksheet := worksheet }
  match result with
  | .ok a => return a
  | .error refusal => throw (.refused refusal)

/-- A step of a session, with the points that it gives. -/
def perform : Session.Step → InPlace Session.Trouble Session (List Point)
  | .edit change => do
    onWorksheet (edit change)
    return []
  | .start key mode => do
    let sweep ← onWorksheet (startSweep mode)
    modify fun s => s.keep key sweep
    return []
  | .copy source target => do
    match (← get).sweep? source with
    | some sweep =>
      modify fun s => s.keep target sweep
      return []
    | none => throw (.noSweep source)
  | .advance key count => do
    match (← get).sweep? key with
    | some sweep =>
      modify fun s => s.keep key (sweep.take count).2
      return (sweep.take count).1
    | none => throw (.noSweep key)

/-- A row of steps. The one after a refused step finds the session as that step leaves it. -/
def performAll (steps : List Session.Step) : StateM Session Unit :=
  steps.forM fun step => do let _ ← (perform step).run

/-! ## Edits as a whole -/

/-- A formula is expressed in place. -/
theorem run_express (c : Coordinate) (source : String) (w : Worksheet) :
    (express c source).run.run w = settled w ((w.express c source).map (·, ())) := by
  rw [express, run_bind, run_get, Worksheet.express]
  dsimp only
  cases Formula.ofSource w.declared source <;> rfl

/-- A bound is set in place. -/
theorem run_setBound (role : Bound.Role) (source : String) (w : Worksheet) :
    (setBound role source).run.run w = settled w ((w.setBound role source).map (·, ())) := by
  rw [setBound, run_bind, run_get, Worksheet.setBound, Worksheet.boundOf]
  dsimp only
  cases w.evaluate (Text.trimmed source) with
  | error refusal => rfl
  | ok value =>
    by_cases hinfinite : (!value.isFinite) = true
    · simp only [if_pos hinfinite]
      rfl
    · by_cases hstep : role = .step ∧ value ≤ 0
      · simp only [if_neg hinfinite, if_pos hstep]
        rfl
      · simp only [if_neg hinfinite, if_neg hstep]
        rfl

/-- A formula of an archive is read in place. -/
theorem run_readFormula (archive : Archive) (c : Coordinate) (w : Worksheet) :
    (readFormula archive c).run.run w =
      settled w ((archive.readFormula w c).map (·, ())) := by
  have hadapt : (readFormula archive c).run.run w =
      (((express c (archive.expressions.get c)).run.run w).1.mapError (.about (.expression c)),
        ((express c (archive.expressions.get c)).run.run w).2) := rfl
  rw [hadapt, run_express, Archive.readFormula]
  cases w.express c (archive.expressions.get c) <;> rfl

/-- The texts of an archive are all read, or refused as the archive is. -/
theorem run_readAll (archive : Archive) :
    (∀ restored, archive.restore = .ok restored →
        (readAll archive).run.run archive.blank = (.ok (), restored)) ∧
      ∀ refusal, archive.restore = .error refusal →
        ((readAll archive).run.run archive.blank).1 = .error refusal := by
  have hformulas := run_forM (run_readFormula archive) (l := Coordinate.all) (s := archive.blank)
  have hbounds := fun w => run_forM (l := Bound.Role.all) (s := w)
    (fun role => run_setBound role (archive.boundText role))
  unfold readAll Archive.restore
  cases hread : Coordinate.all.foldlM archive.readFormula archive.blank with
  | error first =>
    refine ⟨nofun, fun refusal h => ?_⟩
    obtain rfl : first = refusal := Except.error.inj h
    exact run_bind_of_error (hformulas.2 first hread) _
  | ok w =>
    rw [run_bind_of_ok (hformulas.1 w hread)]
    exact hbounds w

/-- **Restoring replaces the worksheet or leaves it alone.** -/
theorem run_restore (archive : Archive) (w : Worksheet) :
    (restore archive).run.run w = settled w (archive.restore.map (·, ())) := by
  obtain ⟨hok, herror⟩ := run_readAll archive
  cases hrestore : archive.restore with
  | ok restored =>
    rw [restore, hok restored hrestore]
    rfl
  | error refusal =>
    have hrefused := herror refusal hrestore
    unfold restore
    -- what was read before the refusal is dropped with the worksheet that was read aside
    generalize (readAll archive).run.run archive.blank = read at hrefused
    obtain ⟨_, half⟩ := read
    obtain rfl := hrefused
    rfl

/-- A sweep is started in place. -/
theorem run_startSweep (mode : Mode) (w : Worksheet) :
    (startSweep mode).run.run w = settled w ((w.startSweep mode).mapError .missing) := by
  rw [startSweep, run_bind, run_get, Worksheet.startSweep]
  dsimp only
  cases (w.curve mode).missing? w.env <;> rfl

/-- **An edit in place is made as a whole or not at all.** -/
theorem run_edit (change : Edit) (w : Worksheet) :
    (edit change).run.run w = settled w ((change.apply w).map (·, ())) := by
  cases change with
  | express c source => exact run_express c source w
  | bound role source => exact run_setBound role source w
  | declare | undeclare | rename | parameter | radius | angle | precision => rfl
  | mode text =>
    simp only [edit, Edit.apply]
    cases Mode.ofText? text <;> rfl
  | restore archive => exact run_restore archive w
  | reopen =>
    rw [edit, run_bind, run_get]
    exact run_restore w.archive w
  | plot chosen =>
    rw [edit, run_bind, run_startSweep, Edit.apply]
    rcases w.startSweep chosen with missing | ⟨later, sweep⟩ <;> rfl

/-! ## Steps as a whole -/

variable {α : Type}

/-- A change of the worksheet of a session is made as a whole if the change of the worksheet is. -/
theorem run_onWorksheet {change : InPlace Refusal Worksheet α} {s : Session}
    {result : Except Refusal (Worksheet × α)}
    (h : change.run.run s.worksheet = settled s.worksheet result) :
    (onWorksheet change).run.run s = settled s
      ((result.map fun made => ({ s with worksheet := made.1 }, made.2)).mapError .refused) := by
  rw [onWorksheet, run_bind, run_get]
  dsimp only
  rw [h]
  cases result <;> rfl

/-- **A step in place is made as a whole or not at all.** -/
theorem run_perform (step : Session.Step) (s : Session) :
    (perform step).run.run s = settled s (s.perform step) := by
  cases step with
  | edit change =>
    rw [perform, run_bind, run_onWorksheet (run_edit change s.worksheet), Session.perform]
    cases change.apply s.worksheet <;> rfl
  | start key mode =>
    rw [perform, run_bind, run_onWorksheet (run_startSweep mode s.worksheet), Session.perform]
    rcases s.worksheet.startSweep mode with missing | ⟨later, sweep⟩ <;> rfl
  | copy source target =>
    rw [perform, run_bind, run_get, Session.perform]
    dsimp only
    cases s.sweep? source <;> rfl
  | advance key count =>
    rw [perform, run_bind, run_get, Session.perform]
    dsimp only
    cases s.sweep? key <;> rfl

/-- **A row of steps in place leads to the same session as ever.** -/
theorem run_performAll (steps : List Session.Step) :
    ∀ s : Session, ((performAll steps).run s).2 = s.after steps := by
  induction steps with
  | nil => exact fun _ => rfl
  | cons step rest ih =>
    intro s
    have hstep : ((performAll (step :: rest)).run s).2 =
        ((performAll rest).run ((perform step).run.run s).2).2 := rfl
    have hattempt : ((perform step).run.run s).2 = s.attempt step := by
      rw [run_perform, Session.attempt]
      cases s.perform step <;> rfl
    rw [hstep, hattempt, ih]
    rfl

end InPlace

end Grapher
