import Grapher.Proofs.Embedding
import Grapher.Proofs.Gaps

set_option relaxedAutoImplicit false
set_option autoImplicit false

/-!
# Formulas that are made of others

The formula of a text in parentheses has the program of the text, the formula of a call has the
programs of its arguments one after the other and then the call, and an operator between formulas in
parentheses has their programs and then the operator. This holds of everything that is a formula,
within the grammar or without. Since an operator computes what the function of its name computes,
writing the one or calling the other gives the same value.

## Main definitions

* `Formula.Compiled` — a formula is what its text becomes.
* `Formula.group`, `Formula.call`, `Formula.signed`, `Formula.joined` — what formulas are made into.
* `Program.Leaves` — a program leaves some values on any stack.
* `Program.plain` — a program with the functions of its operators.

## Main results

* `Reading.program_comma`, `Reading.program_group`, `Reading.program_call`, `Reading.program_sign`,
  `Reading.program_operator` — the programs of texts that are made of others.
* `Program.run_plain` — an operator computes what its function computes.
* `Formula.compiled_composed` — formulas are made of others, and an operator has the value of the
  call of its function.
-/

namespace Grapher

/-! ## Programs of texts -/

/-- The name of a builtin function is a name. -/
theorem Builtin.isName_name {f : Callable} (h : f ∈ functions) : isName f.name := by
  have hall : ∀ g ∈ functions, isName g.name := by decide
  exact hall f h

/-- The function of an operator is builtin. -/
theorem Operator.callable_mem_functions (op : Operator) : op.callable ∈ Builtin.functions :=
  List.mem_append_left _ (List.mem_append_left _ (List.mem_map_of_mem op.mem_all))

namespace Reading

variable {declared : List String} {a b : String} {p q : Program}

/-- A text that is read is scanned to its end. -/
theorem stop_of_program (ha : Reading.program declared a = .ok p) :
    (Token.scan a).stop = none :=
  (program_eq_ok_iff.1 ha).1

/-- The program of two texts with a comma between them. -/
theorem program_comma (ha : Reading.program declared a = .ok p)
    (hb : Reading.program declared b = .ok q) :
    Reading.program declared (a ++ "," ++ b) = .ok (p ++ q.shift (a.utf8ByteSize + 1)) := by
  have hfirst := embeds_of_program ha 0
  rw [Token.map_shift_zero, Program.shift_zero] at hfirst
  exact (hfirst.comma rfl (embeds_of_program hb _)).program_eq_ok
    (Token.scan_comma (stop_of_program ha) (stop_of_program hb))

/-- The program of a text in parentheses. -/
theorem program_group (ha : Reading.program declared a = .ok p) :
    Reading.program declared ("(" ++ a ++ ")") = .ok (p.shift 1) :=
  ((embeds_of_program ha 1).group rfl rfl).program_eq_ok (Token.scan_group (stop_of_program ha))

/-- The program of the call of a function. -/
theorem program_call {f : Callable} (hf : f ∈ Builtin.functions)
    (ha : Reading.program declared a = .ok p) :
    Reading.program declared (f.name ++ "(" ++ a ++ ")") =
      .ok (p.shift (f.name.utf8ByteSize + 1) ++ [⟨.call f, .all f.name⟩]) := by
  have hscan := Token.scan_call (Builtin.isName_name hf) (stop_of_program ha)
  exact ((embeds_of_program ha _).call rfl rfl rfl (Builtin.find?_name hf)).program_eq_ok hscan

/-- The program of a sign before a text in parentheses. -/
theorem program_sign {op : Operator} (hop : op.standsBefore)
    (ha : Reading.program declared a = .ok p) :
    Reading.program declared (String.singleton op.symbol ++ "(" ++ a ++ ")") =
      .ok (p.shift 2 ++ [⟨.apply op, .all (String.singleton op.symbol)⟩]) :=
  ((embeds_of_program ha 2).sign rfl rfl rfl hop).program_eq_ok
    (Token.scan_sign hop (stop_of_program ha))

/-- The program of an operator between two texts in parentheses. -/
theorem program_operator {op : Operator} (hop : op.standsBefore = false)
    (ha : Reading.program declared a = .ok p) (hb : Reading.program declared b = .ok q) :
    Reading.program declared
        ("(" ++ a ++ ")" ++ String.singleton op.symbol ++ "(" ++ b ++ ")") =
      .ok (p.shift 1 ++ q.shift (a.utf8ByteSize + 4) ++
        [⟨.apply op, ⟨a.utf8ByteSize + 2, String.singleton op.symbol⟩⟩]) := by
  have hscan := Token.scan_operator hop (stop_of_program ha) (stop_of_program hb)
  have hsecond := embeds_of_program hb (a.utf8ByteSize + 4)
  exact ((embeds_of_program ha 1).operator rfl rfl rfl hop rfl rfl hsecond).program_eq_ok hscan

end Reading

/-! ## The check -/

namespace Program

/-- A program leaves some values on top of any stack, and takes none from below. -/
def Leaves (count : Nat) (program : Program) : Prop :=
  ∀ height, program.foldlM checkStep height = .ok (height + count)

variable {program others : Program} {count more : Nat}

/-- A program that passes the check leaves one value. -/
theorem leaves_one_iff : Leaves 1 program ↔ program.check = .ok () := by
  refine ⟨fun h => check_eq_ok_iff.2 (h 0), fun h => ?_⟩
  obtain ⟨tree, hranked, rfl⟩ := Tree.exists_postorder_of_check h
  exact Tree.foldlM_checkStep_postorder hranked

/-- The check does not depend on where the operations are asked for. -/
theorem Leaves.shift (h : Leaves count program) (bytes : Nat) :
    Leaves count (program.shift bytes) :=
  fun height => foldlM_checkStep_map (f := Operation.shift bytes) (fun _ => rfl) (h height)

theorem Leaves.append (h : Leaves count program) (h' : Leaves more others) :
    Leaves (count + more) (program ++ others) := by
  intro height
  rw [List.foldlM_append, h height]
  refine (h' (height + count)).trans ?_
  rw [Nat.add_assoc]

/-- A function takes as many values as its arity says and leaves one. -/
theorem Leaves.concat (h : Leaves count program) {operation : Operation}
    (harity : operation.action.arity = count) : Leaves 1 (program ++ [operation]) := by
  intro height
  refine foldlM_checkStep_concat.2 ⟨height + count, h height, checkStep_eq_ok_iff.2 ?_⟩
  omega

end Program

/-! ## The value -/

/-- What an action does, with the function of an operator in place of the operator. -/
def Action.plain : Action → Action
  | .apply op => .call op.callable
  | action => action

namespace Program

/-- The operations with the functions of the operators, wherever they are asked for. -/
def plain (program : Program) : Program :=
  program.map fun operation => ⟨operation.action.plain, .all ""⟩

@[simp]
theorem plain_nil : plain [] = [] := rfl

@[simp]
theorem plain_cons (operation : Operation) (rest : Program) :
    plain (operation :: rest) = ⟨operation.action.plain, .all ""⟩ :: plain rest := rfl

@[simp]
theorem plain_append (program others : Program) :
    plain (program ++ others) = plain program ++ plain others :=
  List.map_append

@[simp]
theorem plain_shift (bytes : Nat) (program : Program) :
    plain (program.shift bytes) = plain program := by
  simp [plain, shift, Operation.shift, Function.comp_def]

variable {env : Environment}

/-- Two computations that go alike, one after the other, up to what is told of their errors. -/
theorem mapError_bind_congr {ε δ α β : Type} {tell : ε → δ} {x y : Except ε α}
    {f g : α → Except ε β} (hx : x.mapError tell = y.mapError tell)
    (hf : ∀ a, (f a).mapError tell = (g a).mapError tell) :
    (x >>= f).mapError tell = (y >>= g).mapError tell := by
  cases x with
  | error e =>
    cases y with
    | error e' => exact congrArg Except.error (Except.error.inj hx)
    | ok b => cases hx
  | ok a =>
    cases y with
    | error e' => cases hx
    | ok b =>
      obtain rfl := Except.ok.inj hx
      exact hf a

/-- An operator does what its function does, and fails as it does. -/
theorem runStep_plain (stack : List Float) (operation : Operation) :
    (runStep env stack ⟨operation.action.plain, .all ""⟩).mapError Fault.cause =
      (runStep env stack operation).mapError Fault.cause := by
  obtain ⟨action, place⟩ := operation
  cases action with
  | push value => rfl
  | load name =>
    simp only [Action.plain, runStep]
    cases env.get? name <;> rfl
  | apply op =>
    simp only [Action.plain, runStep, reduce]
    cases op.callable.valueAt? (stack.take op.callable.arity).reverse <;> rfl
  | call f =>
    simp only [Action.plain, runStep, reduce]
    cases f.valueAt? (stack.take f.arity).reverse <;> rfl

theorem foldlM_runStep_plain (program : Program) :
    ∀ stack, (program.plain.foldlM (runStep env) stack).mapError Fault.cause =
      (program.foldlM (runStep env) stack).mapError Fault.cause := by
  induction program with
  | nil => exact fun _ => rfl
  | cons operation rest ih =>
    intro stack
    rw [plain, List.map_cons, List.foldlM_cons, List.foldlM_cons]
    exact mapError_bind_congr (runStep_plain stack operation) ih

/-- **An operator computes what its function computes**, wherever the operations are asked for. -/
theorem run_plain (program : Program) :
    (run program.plain env).mapError Fault.cause = (run program env).mapError Fault.cause := by
  cases program with
  | nil => rfl
  | cons operation rest =>
    exact mapError_bind_congr (foldlM_runStep_plain (operation :: rest) []) fun _ => rfl

end Program

/-! ## Formulas -/

namespace Formula

/-- A formula is what its text becomes where the given variables are declared. -/
def Compiled (declared : List String) (formula : Formula) : Prop :=
  ofSource declared formula.source = .ok formula

/-- A formula in parentheses. -/
def group (a : Formula) : Formula :=
  ⟨"(" ++ a.source ++ ")", a.program.shift 1⟩

/-- The programs of formulas whose texts stand one after the other with commas between them. -/
def listed : List Formula → Program
  | [] => []
  | a :: rest => a.program ++ (listed rest).shift (a.source.utf8ByteSize + 1)

/-- The call of a function. -/
def call (f : Callable) (arguments : List Formula) : Formula :=
  ⟨f.name ++ "(" ++ String.intercalate "," (arguments.map source) ++ ")",
    (listed arguments).shift (f.name.utf8ByteSize + 1) ++ [⟨.call f, .all f.name⟩]⟩

/-- A sign before a formula in parentheses. -/
def signed (op : Operator) (a : Formula) : Formula :=
  ⟨String.singleton op.symbol ++ "(" ++ a.source ++ ")",
    a.program.shift 2 ++ [⟨.apply op, .all (String.singleton op.symbol)⟩]⟩

/-- An operator between two formulas in parentheses. -/
def joined (op : Operator) (a b : Formula) : Formula :=
  ⟨"(" ++ a.source ++ ")" ++ String.singleton op.symbol ++ "(" ++ b.source ++ ")",
    a.program.shift 1 ++ b.program.shift (a.source.utf8ByteSize + 4) ++
      [⟨.apply op, ⟨a.source.utf8ByteSize + 2, String.singleton op.symbol⟩⟩]⟩

variable {declared : List String}

theorem compiled_iff {a : Formula} :
    Compiled declared a ↔
      Reading.program declared a.source = .ok a.program ∧ a.program.Leaves 1 := by
  rw [Compiled, ofSource_eq_ok_iff, Program.leaves_one_iff]
  simp

/-- The program of the arguments of a call. -/
theorem program_listed {arguments : List Formula} (hne : arguments ≠ [])
    (h : ∀ argument ∈ arguments, Compiled declared argument) :
    Reading.program declared (String.intercalate "," (arguments.map source)) =
      .ok (listed arguments) := by
  induction arguments with
  | nil => exact absurd rfl hne
  | cons a rest ih =>
    have ha := (compiled_iff.1 (h a (by simp))).1
    cases rest with
    | nil => simpa [listed, Program.shift] using ha
    | cons b rest =>
      have hrest := ih (by simp) fun argument hmem => h argument (by simp [hmem])
      rw [List.map_cons, List.map_cons, String.intercalate_cons_cons]
      exact Reading.program_comma ha hrest

/-- The arguments of a call leave one value each. -/
theorem leaves_listed {arguments : List Formula}
    (h : ∀ argument ∈ arguments, Compiled declared argument) :
    (listed arguments).Leaves arguments.length := by
  induction arguments with
  | nil => exact fun _ => rfl
  | cons a rest ih =>
    have ha := (compiled_iff.1 (h a (by simp))).2
    have hrest := ih fun argument hmem => h argument (by simp [hmem])
    rw [List.length_cons, Nat.add_comm]
    exact ha.append (hrest.shift _)

/-- The call of a function with as many formulas as its arity says. -/
theorem compiled_call {f : Callable} (hf : f ∈ Builtin.functions) {arguments : List Formula}
    (hlength : arguments.length = f.arity)
    (h : ∀ argument ∈ arguments, Compiled declared argument) :
    Compiled declared (call f arguments) := by
  have hne : arguments ≠ [] := by
    have hpositive := Builtin.arity_pos (Builtin.find?_name hf)
    rintro rfl
    rw [← hlength] at hpositive
    cases hpositive
  exact compiled_iff.2 ⟨Reading.program_call hf (program_listed hne h),
    ((leaves_listed h).shift _).concat hlength.symm⟩

theorem compiled_group {a : Formula} (ha : Compiled declared a) : Compiled declared (group a) := by
  obtain ⟨hprogram, hleaves⟩ := compiled_iff.1 ha
  exact compiled_iff.2 ⟨Reading.program_group hprogram, hleaves.shift 1⟩

theorem compiled_signed {op : Operator} (hop : op.standsBefore) {a : Formula}
    (ha : Compiled declared a) : Compiled declared (signed op a) := by
  obtain ⟨hprogram, hleaves⟩ := compiled_iff.1 ha
  have harity : op.callable.arity = 1 := by rw [op.arity_callable, if_pos hop]
  exact compiled_iff.2 ⟨Reading.program_sign hop hprogram, (hleaves.shift 2).concat harity⟩

theorem compiled_joined {op : Operator} (hop : op.standsBefore = false) {a b : Formula}
    (ha : Compiled declared a) (hb : Compiled declared b) : Compiled declared (joined op a b) := by
  obtain ⟨hprogram, hleaves⟩ := compiled_iff.1 ha
  obtain ⟨hprogram', hleaves'⟩ := compiled_iff.1 hb
  have harity : op.callable.arity = 2 := by rw [op.arity_callable, if_neg (by simp [hop])]
  exact compiled_iff.2 ⟨Reading.program_operator hop hprogram hprogram',
    ((hleaves.shift 1).append (hleaves'.shift _)).concat harity⟩

/-- Programs that are the same with the functions of their operators have the same value. -/
theorem value_of_plain {a b : Formula} (h : a.program.plain = b.program.plain)
    (env : Environment) :
    (a.value env).mapError Fault.cause = (b.value env).mapError Fault.cause := by
  rw [value, value, ← Program.run_plain, h, Program.run_plain]

/-- **Formulas are made of others.** Where the given variables are declared, the call of a builtin
function with as many formulas as its arity says becomes a formula whose program is the programs of
the arguments one after the other and then the call. A formula in parentheses has the program of the
formula, a sign before it comes behind its program, and an operator between two formulas in
parentheses behind theirs. The places move with the texts. In every environment the operator has
the value of the call of the function of its name, or fails for the same cause.

**Proof sketch.** A formula is read in parentheses and between commas as it is on its own
(`Reading.embeds_of_program`), and its program passes the check on top of any stack
(`Program.leaves_one_iff`). An operator computes what its function computes
(`Program.run_plain`). -/
theorem compiled_composed (declared : List String) :
    (∀ f ∈ Builtin.functions, ∀ arguments : List Formula, arguments.length = f.arity →
      (∀ argument ∈ arguments, Compiled declared argument) →
        Compiled declared (call f arguments)) ∧
    ∀ a, Compiled declared a →
      Compiled declared (group a) ∧
      (∀ op : Operator, op.standsBefore →
        Compiled declared (signed op a) ∧ Compiled declared (call op.callable [a]) ∧
          ∀ env, ((signed op a).value env).mapError Fault.cause =
            ((call op.callable [a]).value env).mapError Fault.cause) ∧
      ∀ op : Operator, op.standsBefore = false → ∀ b, Compiled declared b →
        Compiled declared (joined op a b) ∧ Compiled declared (call op.callable [a, b]) ∧
          ∀ env, ((joined op a b).value env).mapError Fault.cause =
            ((call op.callable [a, b]).value env).mapError Fault.cause := by
  refine ⟨fun f hf arguments hlength h => compiled_call hf hlength h, fun a ha =>
    ⟨compiled_group ha, fun op hop => ?_, fun op hop b hb => ?_⟩⟩
  · have harity : [a].length = op.callable.arity := by rw [op.arity_callable, if_pos hop]; rfl
    have hcall : Compiled declared (call op.callable [a]) :=
      compiled_call op.callable_mem_functions harity (by simpa using ha)
    have hplain : (signed op a).program.plain = (call op.callable [a]).program.plain := by
      simp [signed, call, listed, Action.plain]
    exact ⟨compiled_signed hop ha, hcall, value_of_plain hplain⟩
  · have harity : [a, b].length = op.callable.arity := by
      rw [op.arity_callable, if_neg (by simp [hop])]; rfl
    have hcall : Compiled declared (call op.callable [a, b]) :=
      compiled_call op.callable_mem_functions harity (by simp [ha, hb])
    have hplain : (joined op a b).program.plain = (call op.callable [a, b]).program.plain := by
      simp [joined, call, listed, Action.plain]
    exact ⟨compiled_joined hop ha hb, hcall, value_of_plain hplain⟩

/-- A text outside of the grammar, whose operator stands behind its operands, is a formula, and so
are the texts that are made of it. -/
theorem compiled_composed_postfix :
    ∃ a b : Formula, a.source = "1,2+" ∧ Compiled ["x"] a ∧ b.source = "x" ∧ Compiled ["x"] b ∧
      (joined .pow a b).source = "(1,2+)^(x)" ∧ Compiled ["x"] (joined .pow a b) ∧
      (call (Operator.callable .pow) [a, b]).source = "pow(1,2+,x)" ∧
      Compiled ["x"] (call (Operator.callable .pow) [a, b]) := by
  have hexists : ∀ source ∈ ["1,2+", "x"], ∃ a : Formula, a.source = source ∧
      Compiled ["x"] a := by
    intro source hsource
    have hok : (ofSource ["x"] source).isOk := by
      have hall : ∀ source ∈ ["1,2+", "x"], (ofSource ["x"] source).isOk := by decide +kernel
      exact hall source hsource
    cases hformula : ofSource ["x"] source with
    | error rejection => simp [hformula, Except.isOk, Except.toBool] at hok
    | ok a =>
      obtain ⟨rfl, -⟩ := ofSource_eq_ok_iff.1 hformula
      exact ⟨a, rfl, hformula⟩
  obtain ⟨a, hsource, ha⟩ := hexists "1,2+" (by simp)
  obtain ⟨b, hsource', hb⟩ := hexists "x" (by simp)
  obtain ⟨hjoined, hcall, -⟩ := ((compiled_composed ["x"]).2 a ha).2.2 .pow rfl b hb
  refine ⟨a, b, hsource, ha, hsource', hb, ?_, hjoined, ?_, hcall⟩
  · simp only [joined, hsource, hsource']
    decide
  · simp only [call, List.map_cons, List.map_nil, hsource, hsource']
    decide

end Formula

end Grapher
