import Grapher.Proofs.Environments
import Grapher.Proofs.Widening
import Mathlib.Data.Set.Card

set_option relaxedAutoImplicit false
set_option autoImplicit false

/-!
# Histories of variables

An environment comes from a list of pairs and from the changes that are made to it: variables are
set and removed, in any order. What is left is a finite map, in which a variable has the value that
it was set to last, unless it was removed after that. All views of the environment show this map,
with one entry for each variable, and how it has come about makes no difference to any use of it.

## Main definitions

* `Environment.Change`, `Environment.after` — a change, and an environment after a row of changes.
* `Environment.Writes` — whether a history writes a value to a variable last.
* `Environment.Shows` — whether all views of an environment show the same finite map.
* `Environment.Indistinguishable` — whether two environments are alike in all uses.

## Main results

* `Environment.get?_after_iff` — the value of a variable is the one that was written last.
* `Environment.withdraw_eq` — a removal gives back what looking the variable up gives.
* `Environment.shows_get?` — the views of an environment agree.
* `Environment.shows_after` — the views after a history, and what tells two histories apart.
-/

namespace Grapher

namespace Environment

/-! ## Removals that give back a value -/

/-- What is taken from sorted entries is the value of the name, and the other entries are left. -/
theorem takeEntry_eq (name : String) {entries : List (String × Float)}
    (h : entries.Pairwise fun a b => a.1 < b.1) :
    takeEntry name entries = (entries.lookup name, entries.filter (·.1 != name)) := by
  induction entries with
  | nil => rfl
  | cons entry rest ih =>
    obtain ⟨key, value⟩ := entry
    obtain ⟨hkey, hrest⟩ := List.pairwise_cons.1 h
    rw [takeEntry, lookup_entry]
    by_cases heq : name = key
    · subst heq
      -- no later entry has the name of the first one, so the search can end here
      have hlater : ∀ later ∈ rest, (later.1 != name) = true := fun later hmem =>
        bne_iff_ne.2 (String.ne_of_lt (hkey later hmem)).symm
      simp [List.filter_eq_self.2 hlater]
    · simp [heq, ih hrest, Ne.symm heq]

/-- **A removal gives back the value** that looking the variable up gives, and it leaves the
environment without the variable. -/
theorem withdraw_eq (env : Environment) (name : String) :
    env.withdraw name = (env.get? name, env.remove name) := by
  simp only [withdraw, get?, remove, takeEntry_eq name env.ascending]

/-! ## Histories -/

/-- A change of the variables. -/
inductive Change
  | set (name : String) (value : Float)
  | remove (name : String)
deriving DecidableEq

namespace Change

/-- The variable that is changed. -/
def name : Change → String
  | set name _ => name
  | remove name => name

/-- The value of this variable after the change. -/
def value? : Change → Option Float
  | set _ value => some value
  | remove _ => none

/-- The change that declares a variable as in a list of pairs. -/
def ofPair (pair : String × Float) : Change :=
  .set pair.1 pair.2

end Change

/-- The environment after a change. -/
def change (env : Environment) : Change → Environment
  | .set name value => env.set name value
  | .remove name => (env.withdraw name).2

/-- The environment after a row of changes. -/
def after (env : Environment) (changes : List Change) : Environment :=
  changes.foldl change env

/-- A history writes a value to a variable last: at some point it sets the variable to it, and after
that the variable is neither set nor removed. -/
def Writes (history : List Change) (name : String) (value : Float) : Prop :=
  ∃ before after, history = before ++ .set name value :: after ∧
    ∀ change ∈ after, change.name ≠ name

variable {env other : Environment} {name : String} {value : Float}

/-- What a change does to a variable. -/
theorem get?_change (env : Environment) (change : Change) (name : String) :
    (env.change change).get? name =
      if name = change.name then change.value? else env.get? name := by
  cases change with
  | set key value => exact get?_set env key name value
  | remove key =>
    rw [Environment.change, withdraw_eq]
    exact get?_remove env key name

/-- The last change of a variable decides, if the last change is one of it. -/
theorem writes_concat {history : List Change} {change : Change} :
    Writes (history ++ [change]) name value ↔
      if name = change.name then change.value? = some value else Writes history name value := by
  constructor
  · rintro ⟨before, after, hsplit, hafter⟩
    rcases List.eq_nil_or_concat' after with rfl | ⟨more, last, rfl⟩
    · obtain ⟨-, hlast⟩ := List.append_inj' hsplit rfl
      obtain rfl : change = .set name value := List.singleton_inj.1 hlast
      simp [Change.name, Change.value?]
    · rw [← List.cons_append, ← List.append_assoc] at hsplit
      obtain ⟨rfl, hlast⟩ := List.append_inj' hsplit rfl
      obtain rfl : change = last := List.singleton_inj.1 hlast
      rw [if_neg (hafter change (by simp)).symm]
      exact ⟨before, more, rfl, fun later hlater => hafter later (by simp [hlater])⟩
  · split
    · next hname =>
      intro hvalue
      cases change with
      | set key written =>
        obtain rfl : written = value := Option.some_inj.1 hvalue
        obtain rfl : name = key := hname
        exact ⟨history, [], rfl, by simp⟩
      | remove key => cases hvalue
    · next hname =>
      rintro ⟨before, after, rfl, hafter⟩
      refine ⟨before, after ++ [change], by simp, fun later hlater => ?_⟩
      rcases List.mem_append.1 hlater with hlater | hlater
      · exact hafter later hlater
      · rw [List.mem_singleton.1 hlater]
        exact Ne.symm hname

/-- **The value of a variable is the one that was written last.** -/
theorem get?_after_iff (history : List Change) (name : String) (value : Float) :
    (empty.after history).get? name = some value ↔ Writes history name value := by
  induction history using List.reverseRecOn with
  | nil => simp [after, Writes, get?_empty]
  | append_singleton history change ih =>
    have hlast : empty.after (history ++ [change]) = (empty.after history).change change := by
      simp [after]
    rw [hlast, get?_change, writes_concat]
    split
    · rfl
    · exact ih

/-- A list of pairs is a history that sets a variable for each of them. -/
theorem ofList_after (pairs : List (String × Float)) (changes : List Change) :
    (ofList pairs).after changes = empty.after (pairs.map Change.ofPair ++ changes) := by
  rw [after, after, List.foldl_append, List.foldl_map]
  rfl

/-! ## Views -/

/-- All views of an environment show the same finite map, and they show each variable once. -/
structure Shows (env : Environment) (map : String → Float → Prop) : Prop where
  /-- Looking a variable up gives its value. -/
  get?_iff : ∀ name value, env.get? name = some value ↔ map name value
  /-- The declared variables are those with a value. -/
  contains_iff : ∀ name, env.contains name ↔ ∃ value, map name value
  /-- They are the names. -/
  mem_names : ∀ name, name ∈ env.names ↔ ∃ value, map name value
  /-- Each name is listed once. -/
  nodup_names : env.names.Nodup
  /-- The entries are the variables with their values. -/
  mem_entries : ∀ name value, (name, value) ∈ env.entries ↔ map name value
  /-- Each variable has one entry. -/
  nodup_entries : (env.entries.map Prod.fst).Nodup
  /-- The size is the number of variables. -/
  size_eq : env.size = {name | ∃ value, map name value}.ncard
  /-- An environment is empty if no variable has a value. -/
  isEmpty_iff : env.isEmpty ↔ ∀ name value, ¬ map name value

/-- A declared variable has a value. -/
theorem contains_iff_exists : env.contains name ↔ ∃ value, env.get? name = some value :=
  Option.isSome_iff_exists

/-- No name is listed twice. -/
theorem nodup_names (env : Environment) : env.names.Nodup :=
  (List.pairwise_map.2 env.ascending).imp fun h => String.ne_of_lt h

/-- **The views of an environment agree.** -/
theorem shows_get? (env : Environment) :
    env.Shows fun name value => env.get? name = some value where
  get?_iff _ _ := Iff.rfl
  contains_iff _ := contains_iff_exists
  mem_names _ := mem_names_iff.trans contains_iff_exists
  nodup_names := env.nodup_names
  mem_entries _ _ := mem_entries_iff
  nodup_entries := env.nodup_names
  size_eq := by
    have hnames : {name | ∃ value, env.get? name = some value} = ↑env.names.toFinset := by
      ext name
      simp only [Set.mem_ofPred_eq, List.coe_toFinset, mem_names_iff, contains_iff_exists]
    rw [hnames, Set.ncard_coe_finset, List.toFinset_card_of_nodup env.nodup_names, size, names,
      List.length_map]
  isEmpty_iff := by
    simp only [isEmpty, List.isEmpty_iff, List.eq_nil_iff_forall_not_mem, Prod.forall,
      mem_entries_iff]

end Environment

/-! ## Uses -/

namespace Worksheet

/-- A change of the variables of a worksheet. -/
def vary (w : Worksheet) : Environment.Change → Worksheet
  | .set name value => w.declare name value
  | .remove name => w.undeclare name

/-- **Changes of the variables of a worksheet** are changes of its environment and of nothing
else. -/
theorem foldl_vary (w : Worksheet) (changes : List Environment.Change) :
    changes.foldl vary w = { w with env := w.env.after changes } := by
  induction changes generalizing w with
  | nil => rfl
  | cons change rest ih =>
    have hchange : w.vary change = { w with env := w.env.change change } := by
      cases change with
      | set name value => rfl
      | remove name => simp only [vary, undeclare, Environment.change, Environment.withdraw_eq]
    rw [List.foldl_cons, ih, hchange]
    rfl

end Worksheet

namespace Environment

/-- Two environments are alike in all uses. Compilation sees the names, in some order, evaluation
the values, and a plot starts if the variables that it loads are declared. -/
structure Indistinguishable (env other : Environment) : Prop where
  /-- Each text is compiled alike, however the names are listed. -/
  compile : ∀ source names others, names.Perm env.names → others.Perm other.names →
    Formula.Alike (Formula.ofSource names source) (Formula.ofSource others source)
  /-- Each program has the same value or the same fault, and leaves the same stack. -/
  evaluate : ∀ (program : Program) (stack : List Float),
    ((program.evaluate env).run).run stack = ((program.evaluate other).run).run stack
  /-- Each plot starts alike, or does not for the same undeclared variable. -/
  start : ∀ (w : Worksheet) (mode : Mode),
    Worksheet.startSweep { w with env := env } mode =
      Worksheet.startSweep { w with env := other } mode

/-- **Environments with the same values are indistinguishable.** -/
theorem indistinguishable_of_get? {env other : Environment}
    (h : ∀ name, env.get? name = other.get? name) : env.Indistinguishable other := by
  obtain rfl := eq_of_get? h
  refine ⟨fun source names others hnames hothers => Formula.ofSource_alike (fun name => ?_) source,
    fun _ _ => rfl, fun _ _ => rfl⟩
  simp only [mem_loadable_iff, (hnames.trans hothers.symm).mem_iff]

/-- **The last write wins, and all views show it.** For each list of pairs and each row of changes,
a variable has the value that it was set to last, unless it was removed after that, and all views of
the environment show this map, with each variable once. A removal gives back what looking the
variable up would have given just before. Histories that leave the same values are
indistinguishable to compilation, to evaluation and to plots that start. A worksheet whose variables
are changed holds the environment of these changes.

**Proof sketch.** By induction from the end of the history, the last change of a variable decides
(`Environment.get?_after_iff`). The entries are in ascending order, so no view sees a second one of
a name, and there is one environment only for each map (`Environment.eq_of_get?`). What becomes of a
text depends on the names that are declared, not on their order (`Formula.ofSource_alike`). -/
theorem shows_after (pairs : List (String × Float)) (changes : List Change) :
    ((ofList pairs).after changes).Shows (Writes (pairs.map Change.ofPair ++ changes)) ∧
      (∀ name, ((ofList pairs).after changes).withdraw name =
        (((ofList pairs).after changes).get? name,
          (ofList pairs).after (changes ++ [.remove name]))) ∧
      (∀ (pairs' : List (String × Float)) (changes' : List Change),
        (∀ name, ((ofList pairs).after changes).get? name =
          ((ofList pairs').after changes').get? name) →
        ((ofList pairs).after changes).Indistinguishable ((ofList pairs').after changes')) ∧
      ∀ w : Worksheet, changes.foldl Worksheet.vary { w with env := ofList pairs } =
        { w with env := (ofList pairs).after changes } := by
  refine ⟨?_, fun name => ?_, fun _ _ => indistinguishable_of_get?,
    fun w => Worksheet.foldl_vary _ changes⟩
  · have hwritten : Writes (pairs.map Change.ofPair ++ changes) =
        fun name value => ((ofList pairs).after changes).get? name = some value := by
      funext name value
      rw [ofList_after, get?_after_iff]
    exact hwritten ▸ shows_get? _
  · have hafter : (ofList pairs).after (changes ++ [.remove name]) =
        (((ofList pairs).after changes).withdraw name).2 := by
      simp only [after, List.foldl_append, List.foldl_cons, List.foldl_nil, change]
    rw [hafter, withdraw_eq]

/-- Two histories that leave the same variables. In the first one of two values of `a` the later one
wins, `b` is removed and comes back, and `c` comes and goes. -/
theorem shows_after_recalled :
    ∃ env other, env = (ofList [("a", 1), ("b", 2), ("a", 3)]).after
        [.remove "b", .set "c" 4, .set "b" 5, .remove "c"] ∧
      other = (ofList [("b", 5)]).after [.set "a" 7, .set "a" 3] ∧
      env.entries = [("a", 3), ("b", 5)] ∧ (env.withdraw "b").1 = some 5 ∧
      (env.withdraw "c").1 = none ∧ env.Indistinguishable other := by
  have hsame : (ofList [("a", 1), ("b", 2), ("a", 3)]).after
      [.remove "b", .set "c" 4, .set "b" 5, .remove "c"] =
        (ofList [("b", 5)]).after [.set "a" 7, .set "a" 3] := by
    decide +kernel
  obtain ⟨-, hwithdraw, hsames, -⟩ := shows_after [("a", 1), ("b", 2), ("a", 3)]
    [.remove "b", .set "c" 4, .set "b" 5, .remove "c"]
  refine ⟨_, _, rfl, rfl, by decide +kernel, ?_, ?_, hsames _ _ fun name => by rw [hsame]⟩
  · rw [hwithdraw]
    decide +kernel
  · rw [hwithdraw]
    decide +kernel

end Environment

end Grapher
