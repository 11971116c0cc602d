import Grapher.Proofs.Shunting

set_option relaxedAutoImplicit false
set_option autoImplicit false

/-!
# Running programs with guards

The check and the run of a program, with every partial operation in them written out: an operation
knows of its variable or its function only the place, and takes the name from the source; heights
are subtracted, the stack is split and functions are called only within their domains. The
operations of a formula stand in its text under the names that they use, and a function is called
only when the stack has its arguments, so nothing lapses.

## Main definitions

* `Guarded.subtract`, `Guarded.splitOff`, `Body.call` — the partial operations.
* `Guarded.check`, `Guarded.evaluate` — the check, and the run on a kept stack.
* `Guarded.Follows` — computations on a kept stack that do what others do that cannot lapse.

## Main results

* `Guarded.check_gives`, `Guarded.evaluate_follows` — operations that stand in a source are checked
  and run without a lapse.
-/

namespace Grapher

/-! ## Partial operations -/

namespace Body

/-- The value of a function at a row of arguments, of which there must be as many as it expects. -/
def call (body : Body) (args : List Float) : Except Lapse Float :=
  if h : args.length = body.count then .ok (body.rule ⟨args.toArray, body.size_toArray h⟩)
  else .error .argumentCount

/-- A call gives the value of the function, where it has one. -/
theorem call_eq_ok_iff {body : Body} {args : List Float} {value : Float} :
    body.call args = .ok value ↔ body.valueAt? args = some value := by
  unfold call valueAt?
  split <;> simp

end Body

/-- **A function can be called** with as many arguments as its arity says, and with no others. -/
theorem Callable.exists_call_iff (f : Callable) (args : List Float) :
    (∃ value, f.body.call args = .ok value) ↔ args.length = f.arity := by
  simp only [Body.call_eq_ok_iff, ← f.valueAt?_isSome, Option.isSome_iff_exists, valueAt?]

namespace Guarded

/-- The difference of two numbers, which must not be negative. -/
def subtract (m n : Nat) : Except Lapse Nat :=
  if n ≤ m then .ok (m - n) else .error .underflow

/-- The lowest numbers of a stack, as a stack, and the others in the order in which they were put
on it. -/
def splitOff (kept : Nat) (stack : List Float) : Except Lapse (List Float × List Float) :=
  if kept ≤ stack.length then .ok ((stack.reverse.take kept).reverse, stack.reverse.drop kept)
  else .error .split

/-- A number is subtracted within its domain. -/
theorem subtract_of_le {m n : Nat} (h : n ≤ m) : subtract m n = .ok (m - n) :=
  if_pos h

/-- What a function takes from the top of a stack. -/
theorem splitOff_of_le {arity : Nat} {stack : List Float} (h : arity ≤ stack.length) :
    splitOff (stack.length - arity) stack = .ok (stack.drop arity, (stack.take arity).reverse) := by
  have hlower : (stack.reverse.take (stack.length - arity)).reverse = stack.drop arity := by
    rw [List.take_reverse, List.reverse_reverse]
    congr 1
    omega
  have hupper : stack.reverse.drop (stack.length - arity) = (stack.take arity).reverse := by
    rw [List.drop_reverse]
    congr 2
    omega
  rw [splitOff, if_pos (Nat.sub_le _ _), hlower, hupper]

/-! ## The check -/

/-- The height of the stack after a call of a function that faults call by `name`. -/
def checkCall (name : String) (f : Callable) (height : Nat) (operation : Operation) :
    Guarded Fault Nat := do
  if height < f.arity then throw ⟨.missingArguments name f.arity height, some operation⟩
  let kept ← subtract height f.arity
  return kept + 1

/-- The height of the stack after an operation. -/
def checkStep (source : String) (height : Nat) (operation : Operation) : Guarded Fault Nat :=
  match operation.action with
  | .push _ | .load _ => return height + 1
  | .apply op => checkCall op.callable.name op.callable height operation
  | .call f => do
    let name ← operation.place.cut source
    checkCall name f height operation

/-- Follows the height of the stack through a program and finds its first fault. -/
def check (source : String) (program : Program) : Guarded Fault Unit := do
  if program.isEmpty then throw ⟨.empty, none⟩
  let height ← program.foldlM (checkStep source) 0
  if height = 1 then return () else throw ⟨.leftover height, none⟩

/-- The check of a call does not lapse. -/
theorem checkCall_gives (f : Callable) (height : Nat) (operation : Operation) :
    (checkCall f.name f height operation).Gives
      (if f.arity ≤ height then .ok (height - f.arity + 1)
        else .error ⟨.missingArguments f.name f.arity height, some operation⟩) := by
  unfold checkCall
  by_cases h : f.arity ≤ height
  · rw [if_neg (Nat.not_lt.2 h), if_pos h]
    exact Gives.bind_ok (gives_lift (subtract_of_le h)) rfl
  · rw [if_pos (Nat.not_le.1 h), if_neg h]
    rfl

/-- The check of an operation that stands in the text does not lapse. -/
theorem checkStep_gives {source : String} {operation : Operation} (h : operation.ReadFrom source)
    (height : Nat) :
    (checkStep source height operation).Gives (Program.checkStep height operation) := by
  unfold checkStep Program.checkStep
  cases haction : operation.action with
  | push | load => rfl
  | apply op => exact checkCall_gives op.callable height operation
  | call f =>
    refine Gives.bind_ok (gives_lift h.place.cut) ?_
    rw [(h.call f haction).1]
    exact checkCall_gives f height operation

/-- **A program is checked as ever**, without a lapse. -/
theorem check_gives {source : String} {program : Program}
    (h : ∀ operation ∈ program, operation.ReadFrom source) :
    (check source program).Gives program.check := by
  have hfold : ∀ height, (program.foldlM (checkStep source) height).Gives
      (program.foldlM Program.checkStep height) := by
    induction program with
    | nil => exact fun _ => rfl
    | cons operation rest ih =>
      intro height
      exact (checkStep_gives (h operation (by simp)) height).bind fun later _ =>
        ih (fun other hother => h other (by simp [hother])) later
  unfold check Program.check
  cases program with
  | nil => rfl
  | cons operation rest =>
    refine (hfold 0).bind fun height _ => ?_
    unfold Program.checkEnd
    split <;> rfl

/-! ## The run -/

/-- A computation on a kept stack that ends in a lapse, or else in a result or a fault. -/
abbrev Machine := ExceptT Fault (StateT (List Float) (Except Lapse))

/-- The value of a function that faults call by `name`. Its arguments are taken from the stack. -/
def runCall (name : String) (f : Callable) (operation : Operation) : Machine Float := do
  let stack ← get
  if stack.length < f.arity then
    throw ⟨.missingArguments name f.arity stack.length, some operation⟩
  let kept ← subtract stack.length f.arity
  let (lower, args) ← splitOff kept stack
  set lower
  f.body.call args

/-- The value that an operation puts on the stack. -/
def operate (source : String) (env : Environment) (operation : Operation) : Machine Float :=
  match operation.action with
  | .push value => return value
  | .load _ => do
    let name ← operation.place.cut source
    match env.get? name with
    | some value => return value
    | none => throw ⟨.undeclared name, some operation⟩
  | .apply op => runCall op.callable.name op.callable operation
  | .call f => do
    let name ← operation.place.cut source
    runCall name f operation

/-- An operation on the kept stack. -/
def perform (source : String) (env : Environment) (operation : Operation) : Machine Unit := do
  let value ← operate source env operation
  modify fun stack => value :: stack

/-- The one number that is left at the end is taken from the kept stack. -/
def takeResult : Machine Float := do
  match Program.runEnd (← get) with
  | .ok value =>
    set ([] : List Float)
    return value
  | .error fault => throw fault

/-- The value of a program in an environment, or its first fault, on a kept stack. -/
def evaluate (source : String) (program : Program) (env : Environment) : Machine Float := do
  if program.isEmpty then throw ⟨.empty, none⟩
  set ([] : List Float)
  program.forM (perform source env)
  takeResult

section Machine

variable {α β : Type} {stack : List Float}

/-- A computation on a kept stack does what another one does, which cannot lapse. -/
def Follows (x : Machine α) (y : Program.Machine α) : Prop :=
  ∀ stack, x.run.run stack = .ok (y.run.run stack)

/-- A guarded operation that does not lapse leaves the stack alone. -/
theorem run_lift_bind {x : Except Lapse α} {a : α} (h : x = .ok a) (f : α → Machine β) :
    ((liftM x : Machine α) >>= f).run.run stack = (f a).run.run stack := by
  subst h
  rfl

/-- Two computations, one after the other. -/
theorem Follows.bind {x : Machine α} {y : Program.Machine α} {f : α → Machine β}
    {g : α → Program.Machine β} (hx : Follows x y) (hf : ∀ a, Follows (f a) (g a)) :
    Follows (x >>= f) (y >>= g) := by
  intro stack
  rw [ExceptT.run_bind, StateT.run_bind, hx stack, run_bind]
  rcases y.run.run stack with ⟨_ | a, later⟩
  · rfl
  · exact hf a later

/-- The stack is read. -/
theorem run_get_bind (f : List Float → Machine β) :
    ((get : Machine (List Float)) >>= f).run.run stack = (f stack).run.run stack := rfl

/-- The stack is replaced. -/
theorem run_set_bind (later : List Float) (f : PUnit → Machine β) :
    ((set later : Machine PUnit) >>= f).run.run stack = (f ⟨⟩).run.run later := rfl

/-- A call takes its arguments from the stack. -/
theorem run_runCall_of_le {f : Callable} {value : Float} (operation : Operation)
    (h : f.arity ≤ stack.length) (hvalue : f.valueAt? (stack.take f.arity).reverse = some value) :
    (runCall f.name f operation).run.run stack = .ok (.ok value, stack.drop f.arity) := by
  have hcall : f.body.call (stack.take f.arity).reverse = .ok value :=
    Body.call_eq_ok_iff.2 hvalue
  unfold runCall
  rw [run_get_bind, if_neg (Nat.not_lt.2 h), run_lift_bind (subtract_of_le h),
    run_lift_bind (splitOff_of_le h), run_set_bind, hcall]
  rfl

/-- A call of which arguments are missing leaves the stack alone. -/
theorem run_runCall_of_lt {f : Callable} (operation : Operation) (h : stack.length < f.arity) :
    (runCall f.name f operation).run.run stack =
      .ok (.error ⟨.missingArguments f.name f.arity stack.length, some operation⟩, stack) := by
  unfold runCall
  rw [run_get_bind, if_pos h]
  rfl

/-- A value is put on the stack that an operation leaves. -/
theorem run_perform_of_ok {source : String} {env : Environment} {operation : Operation}
    {value : Float} {later : List Float}
    (h : (operate source env operation).run.run stack = .ok (.ok value, later)) :
    (perform source env operation).run.run stack = .ok (.ok (), value :: later) := by
  rw [perform, ExceptT.run_bind, StateT.run_bind, h]
  rfl

/-- An operation with a fault leaves the stack alone. -/
theorem run_perform_of_error {source : String} {env : Environment} {operation : Operation}
    {fault : Fault} (h : (operate source env operation).run.run stack = .ok (.error fault, stack)) :
    (perform source env operation).run.run stack = .ok (.error fault, stack) := by
  rw [perform, ExceptT.run_bind, StateT.run_bind, h]
  rfl

/-- An operation that calls a function does on the kept stack what it does in a run. -/
theorem run_perform_call {source : String} {env : Environment} {operation : Operation}
    {f : Callable} (hoperate : (operate source env operation).run.run stack =
      (runCall f.name f operation).run.run stack)
    (hstep : Program.runStep env stack operation = Program.reduce operation f stack) :
    (perform source env operation).run.run stack =
      .ok ((Program.perform env operation).run.run stack) := by
  rw [Program.run_perform, hstep, Program.reduce]
  by_cases h : f.arity ≤ stack.length
  · obtain ⟨value, hvalue⟩ : ∃ value, f.valueAt? (stack.take f.arity).reverse = some value := by
      rw [← Option.isSome_iff_exists, Callable.valueAt?_isSome]
      simpa using h
    rw [hvalue]
    exact run_perform_of_ok (hoperate.trans (run_runCall_of_le operation h hvalue))
  · have hnone : f.valueAt? (stack.take f.arity).reverse = none := by
      rw [← Option.not_isSome_iff_eq_none, Callable.valueAt?_isSome]
      simp only [List.length_reverse, List.length_take]
      omega
    rw [hnone]
    exact run_perform_of_error (hoperate.trans (run_runCall_of_lt operation (Nat.not_le.1 h)))

/-- **An operation does on the kept stack what it does in a run**, without a lapse. -/
theorem perform_follows {source : String} {operation : Operation} (h : operation.ReadFrom source)
    (env : Environment) :
    Follows (perform source env operation) (Program.perform env operation) := by
  intro stack
  cases haction : operation.action with
  | push value =>
    rw [Program.run_perform, Program.runStep, haction]
    refine run_perform_of_ok ?_
    rw [operate, haction]
    rfl
  | load name =>
    rw [Program.run_perform, Program.runStep, haction]
    cases hname : env.get? name with
    | some value =>
      simp only [hname]
      refine run_perform_of_ok ?_
      simp only [operate, haction]
      rw [run_lift_bind h.place.cut, (h.load name haction).1, hname]
      rfl
    | none =>
      simp only [hname]
      refine run_perform_of_error ?_
      simp only [operate, haction]
      rw [run_lift_bind h.place.cut, (h.load name haction).1, hname]
      rfl
  | apply op =>
    refine run_perform_call ?_ (by rw [Program.runStep, haction])
    rw [operate, haction]
  | call f =>
    refine run_perform_call ?_ (by rw [Program.runStep, haction])
    simp only [operate, haction]
    rw [run_lift_bind h.place.cut, (h.call f haction).1]

/-- The result is taken as ever. -/
theorem takeResult_follows : Follows takeResult Program.takeResult := by
  intro stack
  unfold takeResult Program.takeResult
  rw [run_get_bind, run_bind, run_get]
  dsimp only
  cases Program.runEnd stack <;> rfl

/-- **A program is evaluated as ever**, without a lapse. -/
theorem evaluate_follows {source : String} {program : Program}
    (h : ∀ operation ∈ program, operation.ReadFrom source) (env : Environment) :
    Follows (evaluate source program env) (program.evaluate env) := by
  have hforM : Follows (program.forM (perform source env))
      (program.forM (Program.perform env)) := by
    induction program with
    | nil => exact fun _ => rfl
    | cons operation rest ih =>
      exact (perform_follows (h operation (by simp)) env).bind fun _ =>
        ih fun other hother => h other (by simp [hother])
  unfold evaluate Program.evaluate
  cases program with
  | nil => exact fun _ => rfl
  | cons operation rest =>
    exact Follows.bind (x := set ([] : List Float)) (fun _ => rfl) fun _ => hforM.bind fun _ =>
      takeResult_follows

end Machine

end Guarded

end Grapher
