import Grapher.Proofs.Tree

set_option relaxedAutoImplicit false
set_option autoImplicit false

/-!
# The first fault of a program

A run and a check both stop at their first fault. An operation is at fault where it loads a
variable that is not declared or where its arguments are missing, and for the latter only the
height of the stack matters. So a check, which follows nothing but this height, finds every fault
that a run finds, except for an undeclared variable.

## Main definitions

* `Operation.cause?` — what is wrong with an operation on a stack of some height.
* `Program.height` — the height of the stack behind operations of which none is at fault.
* `Program.Faultless`, `Program.Fails` — whether an operation is at fault, and the fault of a
  program.
* `Program.Follows` — steps that stop at a fault and follow the height of the stack otherwise.
* `Program.outcome` — what an evaluation gives on a stack that an earlier one has left.

## Main results

* `Program.run_eq_error_iff`, `Program.check_eq_error_iff` — a run and a check give the fault of
  the program, where the check takes every variable to be declared.
* `Program.outcome_eq_run` — what an earlier run has left does not matter.
* `Program.outcome_agrees` — how check, run and the first undeclared variable are related.
-/

namespace Grapher

/-! ## What is wrong with an operation -/

/-- What is wrong with a function that finds a stack of the given height. -/
def Callable.cause? (f : Callable) (height : Nat) : Option Fault.Cause :=
  if f.arity ≤ height then none else some (.missingArguments f.name f.arity height)

namespace Operation

/-- What is wrong with an operation that finds a stack of the given height, where `declared` says
which variables are declared. -/
def cause? (declared : String → Bool) (height : Nat) (operation : Operation) :
    Option Fault.Cause :=
  match operation.action with
  | .push _ => none
  | .load name => if declared name then none else some (.undeclared name)
  | .apply op => op.callable.cause? height
  | .call f => f.cause? height

/-- The height of the stack behind an operation that is not at fault. -/
def heightAfter (height : Nat) (operation : Operation) : Nat :=
  height - operation.action.arity + 1

/-- Which variables are declared matters only for the one that an operation loads. -/
theorem cause?_congr {declared others : String → Bool} {operation : Operation} (height : Nat)
    (h : ∀ name, operation.action = .load name → declared name = others name) :
    operation.cause? declared height = operation.cause? others height := by
  unfold cause?
  cases haction : operation.action with
  | load name => simp only [h name haction]
  | push | apply | call => rfl

/-- An operation that is at fault only where its variable is undeclared loads that variable. -/
theorem load_of_cause? {declared : String → Bool} {height : Nat} {operation : Operation}
    {cause : Fault.Cause} (h : operation.cause? declared height = some cause)
    (htrue : operation.cause? (fun _ => true) height = none) :
    ∃ name, operation.action = .load name ∧ declared name = false ∧ cause = .undeclared name := by
  unfold cause? at h htrue
  cases haction : operation.action with
  | load name =>
    simp only [haction] at h
    cases hname : declared name with
    | true => simp [hname] at h
    | false => exact ⟨name, rfl, hname, by simpa [hname, eq_comm] using h⟩
  | push => simp [haction] at h
  | apply op =>
    simp only [haction] at h htrue
    simp [h] at htrue
  | call f =>
    simp only [haction] at h htrue
    simp [h] at htrue

/-- Where nothing is wrong, the arguments are there and the variable is declared. -/
theorem arity_le_of_cause? {declared : String → Bool} {height : Nat} {operation : Operation}
    (h : operation.cause? declared height = none) :
    operation.action.arity ≤ height ∧ ∀ name, operation.action = .load name → declared name := by
  unfold cause? at h
  cases haction : operation.action with
  | push => simp [Action.arity, Action.callable?]
  | load name => simpa [haction, Action.arity, Action.callable?] using h
  | apply op | call f =>
    simp only [haction, Callable.cause?] at h
    simpa [Action.arity, Action.callable?] using h

end Operation

/-! ## The fault of a program -/

namespace Program

/-- The height of the stack behind operations of which none is at fault. -/
def height (program : Program) : Nat :=
  program.foldl Operation.heightAfter 0

/-- No operation of a program is at fault. -/
def Faultless (declared : String → Bool) (program : Program) : Prop :=
  ∀ before operation after, program = before ++ operation :: after →
    operation.cause? declared (height before) = none

/-- The fault of a program: that of the first operation at fault in the order of the program, and
if there is none, that it is empty or does not leave exactly one number. -/
inductive Fails (declared : String → Bool) (program : Program) : Fault → Prop
  | empty (hnil : program = []) : Fails declared program ⟨.empty, none⟩
  | operation {before after : Program} {operation : Operation} {cause : Fault.Cause}
      (hprogram : program = before ++ operation :: after) (hbefore : before.Faultless declared)
      (hcause : operation.cause? declared before.height = some cause) :
      Fails declared program ⟨cause, some operation⟩
  | leftover (hne : program ≠ []) (hfaultless : program.Faultless declared)
      (hheight : program.height ≠ 1) : Fails declared program ⟨.leftover program.height, none⟩

section Faultless

variable {declared others : String → Bool} {program : Program} {operation : Operation}

@[simp]
theorem height_nil : height [] = 0 := rfl

@[simp]
theorem height_concat (program : Program) (operation : Operation) :
    height (program ++ [operation]) = operation.heightAfter program.height := by
  rw [height, List.foldl_append]
  rfl

theorem faultless_nil : Faultless declared [] := by
  intro before operation after h
  simp at h

/-- A longer program is faultless when its last operation is not at fault either. -/
theorem faultless_concat_iff :
    Faultless declared (program ++ [operation]) ↔
      program.Faultless declared ∧ operation.cause? declared program.height = none := by
  constructor
  · intro h
    exact ⟨fun before other after hprogram => h before other (after ++ [operation])
      (by rw [hprogram, List.append_assoc, List.cons_append]), h program operation [] rfl⟩
  · rintro ⟨hprogram, hoperation⟩ before other after h
    rcases List.eq_nil_or_concat after with rfl | ⟨rest, last, rfl⟩
    · obtain ⟨rfl, hlast⟩ := List.append_inj' h rfl
      obtain rfl : operation = other := by simpa using hlast
      exact hoperation
    · refine hprogram before other rest ?_
      rw [List.concat_eq_append, ← List.cons_append, ← List.append_assoc] at h
      exact (List.append_inj' h rfl).1

/-- A program of which some operation is at fault has a first such operation. -/
theorem exists_first_of_not_faultless :
    ∀ {program : Program}, ¬ program.Faultless declared →
      ∃ (before : Program) (operation : Operation) (after : Program) (cause : Fault.Cause),
        program = before ++ operation :: after ∧ before.Faultless declared ∧
          operation.cause? declared before.height = some cause := by
  intro program
  induction program using List.reverseRecOn with
  | nil => exact fun h => absurd faultless_nil h
  | append_singleton program operation ih =>
    intro h
    by_cases hprogram : Faultless declared program
    · obtain ⟨cause, hcause⟩ := Option.ne_none_iff_exists'.1 fun hnone =>
        h (faultless_concat_iff.2 ⟨hprogram, hnone⟩)
      exact ⟨program, operation, [], cause, rfl, hprogram, hcause⟩
    · obtain ⟨before, other, after, cause, rfl, hbefore, hcause⟩ := ih hprogram
      exact ⟨before, other, after ++ [operation], cause, by simp, hbefore, hcause⟩

/-- Which variables are declared matters only for those that a program loads. -/
theorem Faultless.congr (h : program.Faultless declared)
    (hnames : ∀ name ∈ program.names, declared name = others name) :
    program.Faultless others := by
  intro before operation after hprogram
  rw [← Operation.cause?_congr _ fun name hname =>
    hnames name (mem_names.2 ⟨operation, by simp [hprogram], hname⟩)]
  exact h before operation after hprogram

/-- The variables that a faultless program loads are declared. -/
theorem Faultless.declared_of_load (h : program.Faultless declared)
    (hoperation : operation ∈ program) {name : String} (hload : operation.action = .load name) :
    declared name := by
  obtain ⟨front, back, hsplit⟩ := List.append_of_mem hoperation
  exact (Operation.arity_le_of_cause? (h front operation back hsplit)).2 name hload

/-- A program without a fault has none where every variable is declared. -/
theorem Faultless.of_true (h : program.Faultless declared) :
    program.Faultless fun _ => true := by
  intro before operation after hprogram
  have hnone := h before operation after hprogram
  rw [← Operation.cause?_congr _ fun name hname =>
    (Operation.arity_le_of_cause? hnone).2 name hname]
  exact hnone

/-- Which variables are declared matters only for those that a program loads. -/
theorem Fails.congr {fault : Fault} (h : program.Fails declared fault)
    (hnames : ∀ name ∈ program.names, declared name = others name) :
    program.Fails others fault := by
  cases h with
  | empty hnil => exact .empty hnil
  | @operation before after operation cause hprogram hbefore hcause =>
    subst hprogram
    refine .operation rfl (hbefore.congr fun name hname => hnames name ?_) ?_
    · obtain ⟨other, hother, hload⟩ := mem_names.1 hname
      exact mem_names.2 ⟨other, by simp [hother], hload⟩
    · rw [← Operation.cause?_congr _ fun name hname =>
        hnames name (mem_names.2 ⟨operation, by simp, hname⟩)]
      exact hcause
  | leftover hne hfaultless hheight => exact .leftover hne (hfaultless.congr hnames) hheight

/-- A fault belongs to an operation of its program, if it belongs to one. -/
theorem Fails.mem {fault : Fault} (h : program.Fails declared fault)
    (hoperation : fault.operation = some operation) : operation ∈ program := by
  cases h with
  | empty | leftover => cases hoperation
  | operation hprogram =>
    obtain rfl := Option.some.inj hoperation
    simp [hprogram]

end Faultless

/-! ## Steps that follow the height -/

/-- Steps that stop where an operation is at fault, and that follow the height of the stack
otherwise. -/
structure Follows {σ : Type} (declared : String → Bool) (heightOf : σ → Nat)
    (step : σ → Operation → Except Fault σ) : Prop where
  /-- A step stops where the operation is at fault. -/
  stops : ∀ {state operation cause}, operation.cause? declared (heightOf state) = some cause →
    step state operation = .error ⟨cause, some operation⟩
  /-- A step succeeds where the operation is not at fault. -/
  goesOn : ∀ {state operation}, operation.cause? declared (heightOf state) = none →
    ∃ later, step state operation = .ok later ∧
      heightOf later = operation.heightAfter (heightOf state)

namespace Follows

variable {σ : Type} {declared : String → Bool} {heightOf : σ → Nat}
  {step : σ → Operation → Except Fault σ} {state : σ} {program : Program}

/-- The steps of a faultless program succeed and leave its height.

**Proof sketch.** Induction on the program from the right. -/
theorem foldlM_of_faultless (h : Follows declared heightOf step) (hstate : heightOf state = 0) :
    ∀ {program : Program}, program.Faultless declared →
      ∃ later, program.foldlM step state = .ok later ∧ heightOf later = program.height := by
  intro program
  induction program using List.reverseRecOn with
  | nil => exact fun _ => ⟨state, rfl, hstate⟩
  | append_singleton program operation ih =>
    intro hfaultless
    obtain ⟨hprogram, hoperation⟩ := faultless_concat_iff.1 hfaultless
    obtain ⟨middle, hfold, hheight⟩ := ih hprogram
    rw [← hheight] at hoperation
    obtain ⟨later, hstep, hlater⟩ := h.goesOn hoperation
    refine ⟨later, ?_, by rw [hlater, hheight, height_concat]⟩
    rw [List.foldlM_append, hfold]
    exact foldlM_cons_eq_ok_iff.2 ⟨later, hstep, rfl⟩

/-- The steps of a program stop at its first operation at fault. -/
theorem foldlM_of_first (h : Follows declared heightOf step) (hstate : heightOf state = 0)
    {before after : Program} {operation : Operation} {cause : Fault.Cause}
    (hbefore : before.Faultless declared)
    (hcause : operation.cause? declared before.height = some cause) :
    (before ++ operation :: after).foldlM step state = .error ⟨cause, some operation⟩ := by
  obtain ⟨middle, hfold, hheight⟩ := h.foldlM_of_faultless hstate hbefore
  rw [← hheight] at hcause
  rw [List.foldlM_append, hfold]
  simp only [bind, Except.bind, List.foldlM_cons, h.stops hcause]

/-- **Steps that follow the height give the fault of the program**, provided that what comes after
them compares the height with one. -/
theorem eq_error_iff {β : Type} (h : Follows declared heightOf step) (hstate : heightOf state = 0)
    {ending : σ → Except Fault β}
    (hone : ∀ {later}, heightOf later = 1 → ∃ result, ending later = .ok result)
    (hother : ∀ {later}, heightOf later ≠ 1 →
      ending later = .error ⟨.leftover (heightOf later), none⟩) (fault : Fault) :
    (if program.isEmpty then .error ⟨.empty, none⟩
      else program.foldlM step state >>= ending) = .error fault ↔ program.Fails declared fault := by
  by_cases hnil : program = []
  · subst hnil
    simp only [List.isEmpty_nil, if_true, Except.error.injEq]
    refine ⟨fun heq => heq ▸ .empty rfl, fun hfails => ?_⟩
    cases hfails with
    | empty => rfl
    | operation hprogram => simp at hprogram
    | leftover hne => exact absurd rfl hne
  rw [if_neg (by simpa using hnil)]
  by_cases hfaultless : program.Faultless declared
  · obtain ⟨later, hfold, hheight⟩ := h.foldlM_of_faultless hstate hfaultless
    rw [hfold, show (Except.ok later >>= ending) = ending later from rfl]
    have hfails : ∀ fault, program.Fails declared fault →
        program.height ≠ 1 ∧ fault = ⟨.leftover program.height, none⟩ := by
      intro fault hfails
      cases hfails with
      | empty hempty => exact absurd hempty hnil
      | operation hprogram _ hcause =>
        rw [hfaultless _ _ _ hprogram] at hcause
        cases hcause
      | leftover _ _ hheight => exact ⟨hheight, rfl⟩
    by_cases hlater : program.height = 1
    · obtain ⟨result, hresult⟩ := hone (hheight.trans hlater)
      rw [hresult]
      exact ⟨fun heq => (nomatch heq), fun hfault => absurd hlater (hfails _ hfault).1⟩
    · rw [hother (hheight ▸ hlater), hheight, Except.error.injEq]
      exact ⟨fun heq => heq ▸ .leftover hnil hfaultless hlater,
        fun hfault => (hfails _ hfault).2.symm⟩
  · have hstop : ∀ fault, program.Fails declared fault →
        program.foldlM step state = .error fault := by
      intro fault hfails
      cases hfails with
      | empty hempty => exact absurd hempty hnil
      | operation hprogram hbefore hcause =>
        rw [hprogram]
        exact h.foldlM_of_first hstate hbefore hcause
      | leftover _ hnone => exact absurd hnone hfaultless
    obtain ⟨before, operation, after, cause, hprogram, hbefore, hcause⟩ :=
      exists_first_of_not_faultless hfaultless
    have hfirst : program.Fails declared ⟨cause, some operation⟩ :=
      .operation hprogram hbefore hcause
    rw [hstop _ hfirst]
    refine ⟨fun heq => Except.error.inj heq ▸ hfirst, fun hfault => ?_⟩
    rw [← hstop _ hfirst, hstop _ hfault]
    rfl

end Follows

/-! ## Check and run -/

/-- The check follows the height, and takes every variable to be declared. -/
theorem follows_checkStep : Follows (fun _ => true) id checkStep where
  stops {height operation cause} h := by
    unfold checkStep
    unfold Operation.cause? at h
    cases haction : operation.action with
    | push | load => simp [haction] at h
    | apply op | call f =>
      simp only [haction, Callable.cause?, id] at h
      split at h <;> cases h
      next harity => simp only [Action.callable?, if_neg harity]
  goesOn {height operation} h :=
    ⟨_, checkStep_eq_ok_iff.2 ⟨(Operation.arity_le_of_cause? h).1, rfl⟩, rfl⟩

/-- A function that lacks arguments stops the run. -/
theorem reduce_of_cause? {operation : Operation} {f : Callable} {stack : List Float}
    {cause : Fault.Cause} (h : f.cause? stack.length = some cause) :
    reduce operation f stack = .error ⟨cause, some operation⟩ := by
  unfold Callable.cause? at h
  split at h <;> cases h
  next harity =>
    have hnone : f.valueAt? (stack.take f.arity).reverse = none := by
      rw [← Option.not_isSome_iff_eq_none, Callable.valueAt?_isSome, List.length_reverse,
        List.length_take]
      omega
    rw [reduce, hnone]

/-- The run follows the height of its stack, and needs the variables of its environment. -/
theorem follows_runStep (env : Environment) : Follows env.contains List.length (runStep env) where
  stops {stack operation cause} h := by
    unfold runStep
    unfold Operation.cause? at h
    cases haction : operation.action with
    | push => simp [haction] at h
    | load name =>
      simp only [haction, Environment.contains] at h
      cases hname : env.get? name with
      | some value => simp [hname] at h
      | none =>
        obtain rfl : cause = .undeclared name := by simpa [hname, eq_comm] using h
        simp only [hname]
    | apply op | call f =>
      simp only [haction] at h
      exact reduce_of_cause? h
  goesOn {stack operation} h := by
    obtain ⟨harity, hload⟩ := Operation.arity_le_of_cause? h
    set args := (stack.take operation.action.arity).reverse with hargs
    have hlength : args.length = operation.action.arity := by
      rw [hargs, List.length_reverse, List.length_take]
      omega
    obtain ⟨value, hvalue⟩ := Action.exists_valueAt? hlength hload
    have hstep := runStep_append hlength hvalue (stack.drop operation.action.arity)
    rw [hargs, List.reverse_reverse, List.take_append_drop] at hstep
    exact ⟨_, hstep, by rw [List.length_cons, List.length_drop, Operation.heightAfter]⟩

/-- **A check gives the fault of the program** where every variable is declared. -/
theorem check_eq_error_iff {program : Program} {fault : Fault} :
    program.check = .error fault ↔ program.Fails (fun _ => true) fault :=
  follows_checkStep.eq_error_iff rfl (fun h => ⟨(), if_pos h⟩) (fun h => if_neg h) fault

/-- **A run gives the fault of the program** in its environment. -/
theorem run_eq_error_iff {program : Program} {env : Environment} {fault : Fault} :
    program.run env = .error fault ↔ program.Fails env.contains fault := by
  refine (follows_runStep env).eq_error_iff rfl (fun h => ?_) (fun {stack} h => ?_) fault
  · obtain ⟨value, rfl⟩ := List.length_eq_one_iff.1 h
    exact ⟨value, rfl⟩
  · rcases stack with _ | ⟨value, _ | ⟨other, rest⟩⟩
    · rfl
    · exact absurd rfl h
    · rfl

/-! ## A kept stack -/

theorem run_perform (env : Environment) (operation : Operation) (stack : List Float) :
    (perform env operation).run.run stack =
      match runStep env stack operation with
      | .ok later => (.ok (), later)
      | .error fault => (.error fault, stack) := by
  rw [perform, run_bind, run_get]
  dsimp only
  cases runStep env stack operation <;> rfl

theorem run_takeResult (stack : List Float) :
    (takeResult.run.run stack).1 = runEnd stack := by
  rw [takeResult, run_bind, run_get]
  dsimp only
  cases runEnd stack <;> rfl

/-- What an evaluation gives on a stack that may hold what an earlier one has left. -/
def outcome (program : Program) (env : Environment) (scratch : List Float) :
    Except Fault Float :=
  ((program.evaluate env).run.run scratch).1

/-- **What an earlier evaluation has left does not matter**: an evaluation on any stack is a run. -/
theorem outcome_eq_run (program : Program) (env : Environment) (scratch : List Float) :
    program.outcome env scratch = program.run env := by
  unfold outcome evaluate run
  by_cases hnil : program.isEmpty
  · rw [if_pos hnil, if_pos hnil]
    rfl
  rw [if_neg hnil, if_neg hnil]
  have hcleared : ((program.forM (perform env) >>= fun _ => takeResult).run.run []).1 =
      program.foldlM (runStep env) [] >>= runEnd := by
    have hperform : ∀ operation stack, (perform env operation).run.run stack =
        settled stack ((runStep env stack operation).map (·, ())) := fun operation stack => by
      rw [run_perform]
      cases runStep env stack operation <;> rfl
    obtain ⟨hok, herror⟩ := run_forM hperform (l := program) (s := [])
    cases hfold : program.foldlM (runStep env) [] with
    | error fault => exact run_bind_of_error (herror fault hfold) _
    | ok later =>
      rw [run_bind_of_ok (hok later hfold)]
      exact run_takeResult later
  exact hcleared

/-! ## Undeclared variables -/

/-- Taking repeated elements away does not change which one is found first. -/
theorem find?_eraseDups {α : Type} [BEq α] [LawfulBEq α] (p : α → Bool) :
    ∀ l : List α, l.eraseDups.find? p = l.find? p
  | [] => rfl
  | a :: rest => by
    have hlength : (rest.filter fun b => !b == a).length < rest.length + 1 :=
      Nat.lt_succ_of_le (List.length_filter_le _ _)
    rw [List.eraseDups_cons]
    cases hp : p a with
    | true => rw [List.find?_cons_of_pos hp, List.find?_cons_of_pos hp]
    | false =>
      have hneg : ¬ p a = true := by simp [hp]
      rw [List.find?_cons_of_neg hneg, List.find?_cons_of_neg hneg, find?_eraseDups p,
        List.find?_filter]
      congr 1
      funext b
      by_cases hb : b = a <;> simp [hb, hp]
termination_by l => l.length

/-- The first undeclared variable is the one of the first operation that loads any. -/
theorem firstUndeclared?_eq (program : Program) (env : Environment) :
    program.firstUndeclared? env =
      (program.filterMap Operation.loaded?).find? fun name => !env.contains name :=
  find?_eraseDups _ _

theorem loaded?_eq_some_iff {operation : Operation} {name : String} :
    operation.loaded? = some name ↔ operation.action = .load name := by
  unfold Operation.loaded?
  cases operation.action <;> simp

/-- **The first undeclared variable** is that of the first operation that loads one. -/
theorem firstUndeclared?_eq_some_iff {program : Program} {env : Environment} {name : String} :
    program.firstUndeclared? env = some name ↔
      ∃ before operation after, program = before ++ operation :: after ∧
        operation.action = .load name ∧ env.contains name = false ∧
        ∀ other ∈ before, ∀ earlier, other.action = .load earlier → env.contains earlier := by
  rw [firstUndeclared?_eq, List.find?_filterMap, Option.bind_eq_some_iff]
  simp only [List.find?_eq_some_iff_append]
  constructor
  · rintro ⟨operation, ⟨hundeclared, before, after, hprogram, hbefore⟩, hloaded⟩
    refine ⟨before, operation, after, hprogram, loaded?_eq_some_iff.1 hloaded,
      by simpa [hloaded] using hundeclared, fun other hother earlier hload => ?_⟩
    simpa [loaded?_eq_some_iff.2 hload] using hbefore other hother
  · rintro ⟨before, operation, after, hprogram, hload, hundeclared, hbefore⟩
    have hloaded : operation.loaded? = some name := loaded?_eq_some_iff.2 hload
    refine ⟨operation, ⟨by simp [hloaded, hundeclared], before, after, hprogram,
      fun other hother => ?_⟩, hloaded⟩
    cases hearlier : other.loaded? with
    | none => rfl
    | some earlier => simp [hbefore other hother earlier (loaded?_eq_some_iff.1 hearlier)]

/-- Where the arguments of a program are there, its fault is that of the first operation that loads
the first undeclared variable.

**Proof sketch.** The fault cannot be one that the check finds, so it is that of an operation which
loads an undeclared variable. No operation before it is at fault, so all variables that are loaded
before it are declared. -/
theorem Fails.eq_of_check {program : Program} {env : Environment} {fault : Fault}
    (h : program.Fails env.contains fault) (hcheck : program.check = .ok ()) :
    ∃ name, program.firstUndeclared? env = some name ∧
      fault = ⟨.undeclared name,
        program.find? fun operation => operation.loaded? == some name⟩ := by
  have hsound : ∀ other, ¬ program.Fails (fun _ => true) other := by
    intro other hother
    rw [← check_eq_error_iff, hcheck] at hother
    cases hother
  cases h with
  | empty hnil => exact absurd (.empty hnil) (hsound _)
  | leftover hne hfaultless hheight =>
    exact absurd (.leftover hne hfaultless.of_true hheight) (hsound _)
  | @operation before after operation cause hprogram hbefore hcause =>
    have hnone : operation.cause? (fun _ => true) before.height = none := by
      by_contra hsome
      obtain ⟨other, hother⟩ := Option.ne_none_iff_exists'.1 hsome
      exact hsound _ (.operation hprogram hbefore.of_true hother)
    obtain ⟨name, hload, hname, rfl⟩ := Operation.load_of_cause? hcause hnone
    have hloaded : operation.loaded? = some name := loaded?_eq_some_iff.2 hload
    refine ⟨name, ?_, ?_⟩
    · exact firstUndeclared?_eq_some_iff.2 ⟨before, operation, after, hprogram, hload, hname,
        fun other hother earlier hearlier => hbefore.declared_of_load hother hearlier⟩
    · rw [Fault.mk.injEq]
      refine ⟨rfl, (List.find?_eq_some_iff_append.2 ⟨by simp [hloaded], before, after, hprogram,
        fun other hother => ?_⟩).symm⟩
      by_contra hsame
      have hsame : other.loaded? = some name := by simpa using hsame
      have hcontains := hbefore.declared_of_load hother (loaded?_eq_some_iff.1 hsame)
      rw [hname] at hcontains
      cases hcontains

/-- A sound program has a value where all its variables are declared. -/
theorem exists_run {program : Program} {env : Environment} (hcheck : program.check = .ok ())
    (hnames : ∀ name ∈ program.names, env.contains name) :
    ∃ value, program.run env = .ok value := by
  cases hrun : program.run env with
  | ok value => exact ⟨value, rfl⟩
  | error fault =>
    obtain ⟨name, hfirst, -⟩ := (run_eq_error_iff.1 hrun).eq_of_check hcheck
    have hundeclared := List.find?_some hfirst
    rw [hnames name (List.mem_of_find?_eq_some hfirst)] at hundeclared
    cases hundeclared

/-! ## Agreement -/

/-- **How check, run and the first undeclared variable are related**, whatever an earlier evaluation
has left on the stack.

Where all variables of the program are declared, an evaluation has a fault exactly if the check has
one, and it is the same fault. Where the check has none, an evaluation has one exactly if a variable
of the program is not declared, and it is that of the first operation that loads the first such
variable. In general it is the fault of the first operation at fault, be it an undeclared variable
or missing arguments, and only if no operation is at fault that of the end of the program.

**Proof sketch.** Both the run and the check follow the height of the stack and stop at the first
operation at fault (`Program.run_eq_error_iff`, `Program.check_eq_error_iff`), and a kept stack is
cleared first (`Program.outcome_eq_run`). -/
theorem outcome_agrees (program : Program) (env : Environment) (scratch : List Float) :
    ((∀ name ∈ program.names, env.contains name) →
        ∀ fault, program.outcome env scratch = .error fault ↔ program.check = .error fault) ∧
      (program.check = .ok () →
        ((∃ fault, program.outcome env scratch = .error fault) ↔
          ∃ name ∈ program.names, ¬ env.contains name) ∧
        ∀ fault, program.outcome env scratch = .error fault →
          ∃ name, program.firstUndeclared? env = some name ∧
            fault = ⟨.undeclared name,
              program.find? fun operation => operation.loaded? == some name⟩) ∧
      (∀ fault, program.outcome env scratch = .error fault ↔
        program.Fails env.contains fault) ∧
      ∀ other, program.outcome env other = program.outcome env scratch := by
  refine ⟨fun hnames fault => ?_, fun hcheck => ?_, fun fault => ?_, fun other => ?_⟩
  · rw [outcome_eq_run, run_eq_error_iff, check_eq_error_iff]
    exact ⟨fun h => h.congr hnames, fun h => h.congr fun name hname => (hnames name hname).symm⟩
  · simp only [outcome_eq_run, run_eq_error_iff]
    refine ⟨⟨?_, ?_⟩, fun fault hfails => hfails.eq_of_check hcheck⟩
    · rintro ⟨fault, hfails⟩
      obtain ⟨name, hname, -⟩ := hfails.eq_of_check hcheck
      exact ⟨name, List.mem_of_find?_eq_some hname, by simpa using List.find?_some hname⟩
    · rintro ⟨name, hname, hundeclared⟩
      obtain ⟨operation, hoperation, hload⟩ := mem_names.1 hname
      have hfault : ¬ program.Faultless env.contains := fun hfaultless =>
        hundeclared (hfaultless.declared_of_load hoperation hload)
      obtain ⟨before, other, after, cause, hprogram, hbefore, hcause⟩ :=
        exists_first_of_not_faultless hfault
      exact ⟨_, .operation hprogram hbefore hcause⟩
  · rw [outcome_eq_run, run_eq_error_iff]
  · rw [outcome_eq_run, outcome_eq_run]

/-- The program of `x +`, in which the sum lacks an argument. -/
def lopsided : Program :=
  [⟨.load "x", ⟨0, "x"⟩⟩, ⟨.apply .add, ⟨2, "+"⟩⟩]

/-- The agreement at a sum that lacks an argument, and at a difference whose variable is not
declared, on stacks that still hold numbers. -/
theorem outcome_agrees_lopsided :
    (∀ name ∈ lopsided.names, (Environment.empty.set "x" 5).contains name) ∧
      lopsided.outcome (Environment.empty.set "x" 5) [7, 8] =
        .error ⟨.missingArguments "add" 2 1, some ⟨.apply .add, ⟨2, "+"⟩⟩⟩ ∧
      Tree.difference.postorder.check = .ok () ∧
      ∃ operation, Tree.difference.postorder.outcome .empty [7, 8] =
        .error ⟨.undeclared "x", operation⟩ := by
  have hnames : ∀ name ∈ lopsided.names, (Environment.empty.set "x" 5).contains name := by
    decide +kernel
  have hcheck : Tree.difference.postorder.check = .ok () :=
    Tree.difference_ranked.check_postorder
  have hfirst : Tree.difference.postorder.firstUndeclared? .empty = some "x" := by
    decide +kernel
  obtain ⟨hfails, hfault⟩ :=
    (outcome_agrees Tree.difference.postorder .empty [7, 8]).2.1 hcheck
  obtain ⟨fault, hdifference⟩ := hfails.2 ⟨"x", by decide +kernel, by decide +kernel⟩
  obtain ⟨name, hname, rfl⟩ := hfault fault hdifference
  obtain rfl : "x" = name := Option.some.inj (hfirst.symm.trans hname)
  exact ⟨hnames, ((outcome_agrees lopsided _ [7, 8]).1 hnames _).2 rfl, hcheck, _, hdifference⟩

end Program

end Grapher
