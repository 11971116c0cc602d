import Grapher.Program
import Grapher.Proofs.Chains
import Mathlib.Data.List.Induction

set_option relaxedAutoImplicit false
set_option autoImplicit false

/-!
# Programs as trees

A program without a fault is an ordered tree written down in postorder: the children of a node
come before its operation, and an operation has as many children as it takes arguments. The
check follows nothing but the height of the stack, yet it accepts exactly these listings, and a
listing has one tree only. A run takes the values of the children from the stack, so it computes
the value of the tree.

## Main definitions

* `Action.arity`, `Action.valueAt?` — how many arguments an action takes, and its value at them.
* `Tree`, `Tree.Ranked` — ordered trees of operations, and those with the right number of children.
* `Tree.postorder`, `Tree.value?` — the listing of a tree, and its value in an environment.

## Main results

* `Program.check_iff_postorder` — the check accepts exactly the postorder listings of ranked
  trees, a listing has one tree, and a run has the value of that tree.
-/

namespace Grapher

/-! ## Actions -/

namespace Action

/-- The number of arguments that an action takes from the stack. -/
def arity (action : Action) : Nat :=
  (action.callable?.map Callable.arity).getD 0

/-- The value of an action at its arguments. A number and a variable take none. -/
def valueAt? (env : Environment) (args : List Float) : Action → Option Float
  | .push value => some value
  | .load name => env.get? name
  | .apply op => op.callable.valueAt? args
  | .call f => f.valueAt? args

/-- An action has a value at as many arguments as it takes, provided that the variable it may
load is declared. -/
theorem exists_valueAt? {env : Environment} {args : List Float} {action : Action}
    (hargs : args.length = action.arity)
    (hload : ∀ name, action = .load name → env.contains name) :
    ∃ value, action.valueAt? env args = some value := by
  rw [← Option.isSome_iff_exists]
  cases action with
  | push value => rfl
  | load name => exact hload name rfl
  | apply op => exact (Callable.valueAt?_isSome op.callable args).2 hargs
  | call f => exact (Callable.valueAt?_isSome f args).2 hargs

end Action

/-! ## Trees -/

/-- An ordered tree of operations. -/
inductive Tree
  | node (operation : Operation) (children : List Tree)

namespace Tree

/-- The tree of an operation without arguments. -/
def leaf (operation : Operation) : Tree :=
  .node operation []

/-- A tree is ranked when every node has as many children as its operation takes arguments. -/
inductive Ranked : Tree → Prop
  | node {operation : Operation} {children : List Tree}
      (hlength : children.length = operation.action.arity)
      (hchildren : ∀ child ∈ children, Ranked child) : Ranked (.node operation children)

mutual

/-- The operations of a tree, those of the children before that of their parent. -/
def postorder : Tree → Program
  | .node operation children => postorders children ++ [operation]

/-- The operations of a row of trees, from the left. -/
def postorders : List Tree → Program
  | [] => []
  | tree :: rest => tree.postorder ++ postorders rest

end

mutual

/-- The value of a tree in an environment: the value of its root at the values of the children,
in their order. There is none where a variable is not declared. -/
def value? (env : Environment) : Tree → Option Float
  | .node operation children =>
    (values? env children).bind fun args => operation.action.valueAt? env args

/-- The values of a row of trees, in their order. -/
def values? (env : Environment) : List Tree → Option (List Float)
  | [] => some []
  | tree :: rest =>
    (tree.value? env).bind fun value => (values? env rest).map fun values => value :: values

end

@[simp]
theorem postorder_leaf (operation : Operation) : (leaf operation).postorder = [operation] := rfl

theorem leaf_ranked {operation : Operation} (h : operation.action.arity = 0) :
    (leaf operation).Ranked :=
  .node h.symm (by simp)

/-- Listing two rows of trees one after the other. -/
theorem postorders_append (trees others : List Tree) :
    postorders (trees ++ others) = postorders trees ++ postorders others := by
  induction trees with
  | nil => rfl
  | cons tree rest ih => simp [postorders, ih]

/-- The listing of a row ends with the root of its last tree, before which stand the trees to the
left and the children of that root. -/
theorem postorders_concat_node (trees children : List Tree) (operation : Operation) :
    postorders (trees ++ [.node operation children]) =
      postorders (trees ++ children) ++ [operation] := by
  simp [postorders_append, postorders, postorder]

/-- No tree has an empty listing. -/
theorem postorder_ne_nil (tree : Tree) : tree.postorder ≠ [] := by
  cases tree
  simp [postorder]

/-- Only the empty row has an empty listing. -/
theorem postorders_eq_nil_iff {trees : List Tree} : postorders trees = [] ↔ trees = [] := by
  cases trees with
  | nil => simp [postorders]
  | cons tree rest => simp [postorders, postorder_ne_nil]

end Tree

/-! ## The check -/

namespace Program

/-- An operation passes the check when its arguments are there; it takes them and leaves a value. -/
theorem checkStep_eq_ok_iff {height later : Nat} {operation : Operation} :
    checkStep height operation = .ok later ↔
      operation.action.arity ≤ height ∧ later = height - operation.action.arity + 1 := by
  unfold checkStep Action.arity
  cases operation.action.callable? with
  | none => simp [eq_comm]
  | some f =>
    by_cases h : f.arity ≤ height
    · simp [h, eq_comm]
    · simp [h]

/-- The check of a program followed by one more operation. -/
theorem foldlM_checkStep_concat {height later : Nat} {program : Program} {operation : Operation} :
    (program ++ [operation]).foldlM checkStep height = .ok later ↔
      ∃ middle, program.foldlM checkStep height = .ok middle ∧
        checkStep middle operation = .ok later := by
  rw [List.foldlM_append, bind_eq_ok_iff]
  refine exists_congr fun middle => and_congr_right fun _ => ?_
  rw [foldlM_cons_eq_ok_iff]
  simp [pure, Except.pure]

/-- The check of a program follows only what its operations take. -/
theorem foldlM_checkStep_map {f : Operation → Operation} {program : Program}
    (harity : ∀ operation : Operation, (f operation).action.arity = operation.action.arity) :
    ∀ {height later : Nat}, program.foldlM checkStep height = .ok later →
      (program.map f).foldlM checkStep height = .ok later := by
  induction program using List.reverseRecOn with
  | nil => exact fun h => h
  | append_singleton program operation ih =>
    intro height later h
    obtain ⟨middle, hprogram, hstep⟩ := foldlM_checkStep_concat.1 h
    rw [List.map_append, List.map_singleton]
    refine foldlM_checkStep_concat.2 ⟨middle, ih hprogram, ?_⟩
    rw [checkStep_eq_ok_iff] at hstep ⊢
    rwa [harity]

/-- A program passes the check when it is not empty and leaves one value. -/
theorem check_eq_ok_iff {program : Program} :
    program.check = .ok () ↔ program.foldlM checkStep 0 = .ok 1 := by
  unfold check
  cases program with
  | nil => simp [pure, Except.pure]
  | cons operation rest =>
    rw [if_neg (by simp)]
    cases (operation :: rest).foldlM checkStep 0 with
    | error fault => simp [bind, Except.bind]
    | ok height => by_cases h : height = 1 <;> simp [bind, Except.bind, checkEnd, h]

end Program

namespace Tree

mutual

/-- The listing of a ranked tree raises the height of the stack by one. -/
theorem foldlM_checkStep_postorder :
    ∀ {tree : Tree}, tree.Ranked → ∀ height : Nat,
      tree.postorder.foldlM Program.checkStep height = .ok (height + 1)
  | .node operation children, .node hlength hchildren, height => by
    rw [postorder, Program.foldlM_checkStep_concat]
    refine ⟨height + children.length, foldlM_checkStep_postorders hchildren height, ?_⟩
    rw [Program.checkStep_eq_ok_iff]
    omega

/-- The listing of a row of ranked trees raises the height of the stack by one for each tree. -/
theorem foldlM_checkStep_postorders :
    ∀ {trees : List Tree}, (∀ tree ∈ trees, tree.Ranked) → ∀ height : Nat,
      (postorders trees).foldlM Program.checkStep height = .ok (height + trees.length)
  | [], _, height => rfl
  | tree :: rest, h, height => by
    obtain ⟨htree, hrest⟩ := List.forall_mem_cons.1 h
    rw [postorders, List.foldlM_append, foldlM_checkStep_postorder htree height]
    simp only [bind, Except.bind]
    rw [foldlM_checkStep_postorders hrest (height + 1), List.length_cons]
    congr 1
    omega

end

/-- **Every checked program is the listing of a row of ranked trees,** one for each number that it
leaves.

**Proof sketch.** Induction from the right. The last operation takes the last trees of the row
before it as its children. -/
theorem exists_postorders_of_foldlM_checkStep {program : Program} :
    ∀ {height : Nat}, program.foldlM Program.checkStep 0 = .ok height →
      ∃ trees : List Tree, trees.length = height ∧ (∀ tree ∈ trees, tree.Ranked) ∧
        postorders trees = program := by
  induction program using List.reverseRecOn with
  | nil =>
    intro height h
    exact ⟨[], by simpa [pure, Except.pure] using h, by simp, rfl⟩
  | append_singleton program operation ih =>
    intro height h
    obtain ⟨middle, hprogram, hstep⟩ := Program.foldlM_checkStep_concat.1 h
    obtain ⟨harity, rfl⟩ := Program.checkStep_eq_ok_iff.1 hstep
    obtain ⟨trees, rfl, hranked, rfl⟩ := ih hprogram
    set others := trees.take (trees.length - operation.action.arity) with hothers
    set children := trees.drop (trees.length - operation.action.arity) with hchildren
    have hsplit : others ++ children = trees := List.take_append_drop _ _
    have hroot : (node operation children).Ranked := by
      refine .node ?_ fun child hchild => hranked child (List.mem_of_mem_drop hchild)
      rw [hchildren, List.length_drop]
      omega
    refine ⟨others ++ [.node operation children], ?_, ?_, ?_⟩
    · rw [List.length_append, hothers, List.length_take]
      simp
    · intro tree htree
      rcases List.mem_append.1 htree with h | h
      · exact hranked tree (List.mem_of_mem_take h)
      · rw [List.mem_singleton.1 h]
        exact hroot
    · rw [postorders_concat_node, hsplit]

/-- The last operation of a listing is the root of the last tree. Without the root, the children
join the trees to their left. -/
theorem exists_eq_concat_node {trees : List Tree} {program : Program} {operation : Operation}
    (hranked : ∀ tree ∈ trees, tree.Ranked) (h : postorders trees = program ++ [operation]) :
    ∃ first children, trees = first ++ [.node operation children] ∧
      children.length = operation.action.arity ∧
      (∀ tree ∈ first ++ children, tree.Ranked) ∧ postorders (first ++ children) = program := by
  rcases List.eq_nil_or_concat trees with rfl | ⟨first, ⟨root, children⟩, rfl⟩
  · simp [postorders] at h
  rw [List.concat_eq_append] at hranked h ⊢
  rw [postorders_concat_node] at h
  obtain ⟨hprogram, hroot⟩ := List.append_inj' h rfl
  obtain rfl : root = operation := by simpa using hroot
  cases hranked (.node root children) (by simp) with
  | node hlength hchildren =>
    refine ⟨first, children, rfl, hlength, fun tree htree => ?_, hprogram⟩
    rcases List.mem_append.1 htree with h | h
    · exact hranked tree (by simp [h])
    · exact hchildren tree h

/-- **A listing determines the row of ranked trees that it lists.**

**Proof sketch.** Induction on the listing from the right. Its last operation is the root of the
last tree of both rows. Take the root away from both; the rows that are left have the same
listing, and the children of both roots are equally many trees at their ends. -/
theorem postorders_injective {program : Program} :
    ∀ {trees others : List Tree}, (∀ tree ∈ trees, tree.Ranked) → (∀ tree ∈ others, tree.Ranked) →
      postorders trees = program → postorders others = program → trees = others := by
  induction program using List.reverseRecOn with
  | nil =>
    intro trees others _ _ htrees hothers
    rw [postorders_eq_nil_iff.1 htrees, postorders_eq_nil_iff.1 hothers]
  | append_singleton program operation ih =>
    intro trees others hranked hranked' htrees hothers
    obtain ⟨first, children, rfl, hlength, hfirst, hrest⟩ := exists_eq_concat_node hranked htrees
    obtain ⟨first', children', rfl, hlength', hfirst', hrest'⟩ :=
      exists_eq_concat_node hranked' hothers
    have happend : first ++ children = first' ++ children' := ih hfirst hfirst' hrest hrest'
    obtain ⟨rfl, rfl⟩ := List.append_inj' happend (hlength.trans hlength'.symm)
    rfl

/-- The listing of a ranked tree passes the check. -/
theorem Ranked.check_postorder {tree : Tree} (h : tree.Ranked) :
    tree.postorder.check = .ok () :=
  Program.check_eq_ok_iff.2 (foldlM_checkStep_postorder h 0)

/-- The listing of a row of one tree is the listing of that tree. -/
theorem postorders_singleton (tree : Tree) : postorders [tree] = tree.postorder :=
  List.append_nil _

/-- A program that passes the check is the listing of a ranked tree. -/
theorem exists_postorder_of_check {program : Program} (h : program.check = .ok ()) :
    ∃ tree : Tree, tree.Ranked ∧ tree.postorder = program := by
  obtain ⟨trees, hlength, hranked, hlisting⟩ :=
    exists_postorders_of_foldlM_checkStep (Program.check_eq_ok_iff.1 h)
  obtain ⟨tree, rfl⟩ := List.length_eq_one_iff.1 hlength
  exact ⟨tree, hranked tree (by simp), (postorders_singleton tree).symm.trans hlisting⟩

/-- Two ranked trees with the same listing are the same tree. -/
theorem Ranked.eq_of_postorder_eq {tree other : Tree} (h : tree.Ranked) (h' : other.Ranked)
    (hlisting : tree.postorder = other.postorder) : tree = other := by
  have hrow : [tree] = [other] :=
    postorders_injective (by simpa using h) (by simpa using h') (postorders_singleton tree)
      ((postorders_singleton other).trans hlisting.symm)
  exact (List.cons.inj hrow).1

end Tree

/-! ## The run -/

namespace Program

/-- A name belongs to the variables of a program when an operation loads it. -/
theorem mem_names {program : Program} {name : String} :
    name ∈ program.names ↔ ∃ operation ∈ program, operation.action = .load name := by
  simp only [names, List.mem_eraseDups, List.mem_filterMap, Operation.loaded?]
  refine exists_congr fun operation => and_congr_right fun _ => ?_
  cases operation.action <;> simp

/-- An operation takes its arguments from the top of the stack, the last one first, and leaves
its value there. -/
theorem runStep_append {env : Environment} {operation : Operation} {args : List Float}
    {value : Float} (hargs : args.length = operation.action.arity)
    (hvalue : operation.action.valueAt? env args = some value) (stack : List Float) :
    runStep env (args.reverse ++ stack) operation = .ok (value :: stack) := by
  have hreduce : ∀ f : Callable, args.length = f.arity → f.valueAt? args = some value →
      reduce operation f (args.reverse ++ stack) = .ok (value :: stack) := by
    intro f hlength hf
    have hlength' : args.reverse.length = f.arity := by rw [List.length_reverse, hlength]
    rw [reduce, List.take_left' hlength', List.drop_left' hlength', List.reverse_reverse, hf]
  unfold runStep
  rcases h : operation.action with number | name | op | f <;> rw [h] at hargs hvalue
  · obtain rfl : args = [] := List.length_eq_zero_iff.1 hargs
    obtain rfl : number = value := by simpa [Action.valueAt?] using hvalue
    rfl
  · obtain rfl : args = [] := List.length_eq_zero_iff.1 hargs
    have hget : env.get? name = some value := hvalue
    simp [hget]
  · exact hreduce op.callable hargs hvalue
  · exact hreduce f hargs hvalue

end Program

namespace Tree

/-- The children of a ranked node have as many values as the node takes arguments. -/
theorem length_of_values? {env : Environment} :
    ∀ {trees : List Tree} {values : List Float}, values? env trees = some values →
      values.length = trees.length
  | [], values, h => by
    obtain rfl : [] = values := by simpa [values?] using h
    rfl
  | tree :: rest, values, h => by
    rw [values?, Option.bind_eq_some_iff] at h
    obtain ⟨value, _, h⟩ := h
    obtain ⟨others, hothers, rfl⟩ := Option.map_eq_some_iff.1 h
    rw [List.length_cons, List.length_cons, length_of_values? hothers]

mutual

/-- Running the listing of a ranked tree leaves the value of the tree on the stack. -/
theorem foldlM_runStep_postorder {env : Environment} :
    ∀ {tree : Tree} {value : Float}, tree.Ranked → tree.value? env = some value →
      ∀ stack : List Float,
        tree.postorder.foldlM (Program.runStep env) stack = .ok (value :: stack)
  | .node operation children, value, .node hlength hchildren, hvalue, stack => by
    rw [value?, Option.bind_eq_some_iff] at hvalue
    obtain ⟨args, hargs, hvalue⟩ := hvalue
    rw [postorder, List.foldlM_append, foldlM_runStep_postorders hchildren hargs stack]
    simp only [bind, Except.bind, List.foldlM_cons, List.foldlM_nil,
      Program.runStep_append ((length_of_values? hargs).trans hlength) hvalue]
    rfl

/-- Running the listing of a row of ranked trees leaves their values on the stack, the last one
on top. -/
theorem foldlM_runStep_postorders {env : Environment} :
    ∀ {trees : List Tree} {values : List Float}, (∀ tree ∈ trees, tree.Ranked) →
      values? env trees = some values → ∀ stack : List Float,
        (postorders trees).foldlM (Program.runStep env) stack = .ok (values.reverse ++ stack)
  | [], values, _, hvalues, stack => by
    obtain rfl : [] = values := by simpa [values?] using hvalues
    rfl
  | tree :: rest, values, h, hvalues, stack => by
    obtain ⟨htree, hrest⟩ := List.forall_mem_cons.1 h
    rw [values?, Option.bind_eq_some_iff] at hvalues
    obtain ⟨value, hvalue, hvalues⟩ := hvalues
    obtain ⟨others, hothers, rfl⟩ := Option.map_eq_some_iff.1 hvalues
    rw [postorders, List.foldlM_append, foldlM_runStep_postorder htree hvalue stack]
    simp only [bind, Except.bind]
    rw [foldlM_runStep_postorders hrest hothers (value :: stack)]
    simp

end

mutual

/-- A ranked tree has a value where all variables that it loads are declared. -/
theorem exists_value? {env : Environment} :
    ∀ {tree : Tree}, tree.Ranked →
      (∀ operation ∈ tree.postorder, ∀ name, operation.action = .load name →
        env.contains name) → ∃ value, tree.value? env = some value
  | .node operation children, .node hlength hchildren, hload => by
    obtain ⟨args, hargs⟩ := exists_values? hchildren fun other hother =>
      hload other (List.mem_append_left _ hother)
    obtain ⟨value, hvalue⟩ := Action.exists_valueAt? ((length_of_values? hargs).trans hlength)
      (hload operation (by simp [postorder]))
    exact ⟨value, by rw [value?, hargs, Option.bind_some, hvalue]⟩

/-- A row of ranked trees has values where all variables that it loads are declared. -/
theorem exists_values? {env : Environment} :
    ∀ {trees : List Tree}, (∀ tree ∈ trees, tree.Ranked) →
      (∀ operation ∈ postorders trees, ∀ name, operation.action = .load name →
        env.contains name) → ∃ values, values? env trees = some values
  | [], _, _ => ⟨[], rfl⟩
  | tree :: rest, h, hload => by
    obtain ⟨htree, hrest⟩ := List.forall_mem_cons.1 h
    obtain ⟨value, hvalue⟩ := exists_value? htree fun other hother =>
      hload other (List.mem_append_left _ hother)
    obtain ⟨values, hvalues⟩ := exists_values? hrest fun other hother =>
      hload other (List.mem_append_right _ hother)
    exact ⟨value :: values, by simp [values?, hvalue, hvalues]⟩

end

/-- **A run of the listing of a ranked tree has the value of the tree** in every environment that
declares the variables of the listing. -/
theorem Ranked.run_postorder {tree : Tree} (h : tree.Ranked) {env : Environment}
    (hload : ∀ name ∈ tree.postorder.names, env.contains name) :
    ∃ value, tree.value? env = some value ∧ tree.postorder.run env = .ok value := by
  have hdeclared : ∀ operation ∈ tree.postorder, ∀ name, operation.action = .load name →
      env.contains name := fun operation hoperation name hname =>
    hload name (Program.mem_names.2 ⟨operation, hoperation, hname⟩)
  obtain ⟨value, hvalue⟩ := exists_value? h hdeclared
  refine ⟨value, hvalue, ?_⟩
  rw [Program.run, if_neg (by simp [postorder_ne_nil]), foldlM_runStep_postorder h hvalue []]
  rfl

end Tree

/-! ## The characterisation -/

/-- **The check accepts exactly the postorder listings of ranked trees.** A listing has one tree,
and in an environment that declares its variables a run has the value of that tree.

**Proof sketch.** A checked program is a row of trees, one for each number that it leaves
(`Tree.exists_postorders_of_foldlM_checkStep`), and no other row has the same listing
(`Tree.postorders_injective`). A run of a listing puts the values of the trees on the stack
(`Tree.foldlM_runStep_postorders`). -/
theorem Program.check_iff_postorder (program : Program) :
    (program.check = .ok () ↔ ∃ tree : Tree, tree.Ranked ∧ tree.postorder = program) ∧
      (∀ tree other : Tree, tree.Ranked → other.Ranked →
        tree.postorder = program → other.postorder = program → tree = other) ∧
      ∀ tree : Tree, tree.Ranked → tree.postorder = program →
        ∀ env : Environment, (∀ name ∈ program.names, env.contains name) →
          ∃ value, tree.value? env = some value ∧ program.run env = .ok value := by
  refine ⟨⟨Tree.exists_postorder_of_check, ?_⟩, ?_, ?_⟩
  · rintro ⟨tree, hranked, rfl⟩
    exact hranked.check_postorder
  · rintro tree other hranked hranked' rfl hlisting
    exact hranked.eq_of_postorder_eq hranked' hlisting.symm
  · rintro tree hranked rfl env hload
    exact hranked.run_postorder hload

/-- The tree of `x - 2`, whose two operands must not change places. -/
def Tree.difference : Tree :=
  .node ⟨.apply .sub, ⟨2, "-"⟩⟩ [.leaf ⟨.load "x", ⟨0, "x"⟩⟩, .leaf ⟨.push 2, ⟨4, "2"⟩⟩]

theorem Tree.difference_ranked : difference.Ranked :=
  .node rfl fun child hchild => by
    simp only [List.mem_cons, List.not_mem_nil, or_false] at hchild
    rcases hchild with rfl | rfl <;> exact leaf_ranked rfl

/-- The characterisation at a difference: its run takes the second operand from the first. -/
theorem Program.run_postorder_difference :
    Tree.difference.Ranked ∧ (Environment.empty.set "x" 5).contains "x" ∧
      ∃ value, Tree.difference.value? (Environment.empty.set "x" 5) = some value ∧
        Tree.difference.postorder.run (Environment.empty.set "x" 5) = .ok value ∧ value = 3 := by
  have hload : ∀ name ∈ Tree.difference.postorder.names,
      (Environment.empty.set "x" 5).contains name := by
    decide +kernel
  obtain ⟨value, hvalue, hrun⟩ :=
    (Program.check_iff_postorder Tree.difference.postorder).2.2 Tree.difference
      Tree.difference_ranked rfl (Environment.empty.set "x" 5) hload
  refine ⟨Tree.difference_ranked, by decide +kernel, value, hvalue, hrun, ?_⟩
  have hthree : Tree.difference.value? (Environment.empty.set "x" 5) = some 3 := by
    decide +kernel
  exact Option.some.inj (hvalue.symm.trans hthree)

end Grapher
