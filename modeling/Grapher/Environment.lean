set_option relaxedAutoImplicit false
set_option autoImplicit false

/-!
# Environments

An environment gives values to the declared variables. It keeps one entry for each of them, in
ascending order of the names by code point, so two environments with the same variables and
values are equal, whatever happened to either of them before.

## Main definitions

* `Environment` — an ascending list of names with their values.
* `Environment.get?`, `Environment.contains`, `Environment.names` — its views.
* `Environment.set`, `Environment.remove` — its two changes.
* `Environment.withdraw` — a variable removed, with the value that it had.
* `Environment.ofList` — the environment of a list of pairs, of which later ones win.
* `Environment.initial` — the variables that are declared from the start.

## Main results

* `Environment.get?_set`, `Environment.get?_remove` — each change seen through `get?`.
-/

namespace Grapher

/-- The declared variables and their values. -/
structure Environment where
  /-- One entry for each variable, in ascending order of the names. -/
  entries : List (String × Float)
  /-- The names are in strictly ascending order. -/
  ascending : entries.Pairwise (fun a b => a.1 < b.1)
deriving DecidableEq

namespace Environment

/-- Two environments are equal when they have the same entries. -/
theorem ext {env other : Environment} (h : env.entries = other.entries) : env = other := by
  cases env; cases other; simp_all

/-! ## Views -/

/-- The value of a variable, if it is declared. -/
def get? (env : Environment) (name : String) : Option Float :=
  env.entries.lookup name

/-- Whether a variable is declared. -/
def contains (env : Environment) (name : String) : Bool :=
  (env.get? name).isSome

/-- The declared names, in ascending order. -/
def names (env : Environment) : List String :=
  env.entries.map (·.1)

/-- The number of declared variables. -/
def size (env : Environment) : Nat :=
  env.entries.length

/-- Whether no variable is declared. -/
def isEmpty (env : Environment) : Bool :=
  env.entries.isEmpty

/-! ## Changes -/

/-- The environment without variables. -/
def empty : Environment :=
  ⟨[], .nil⟩

/-- The entries with one variable set. -/
def setEntry (name : String) (value : Float) :
    List (String × Float) → List (String × Float)
  | [] => [(name, value)]
  | entry :: rest =>
    if name < entry.1 then (name, value) :: entry :: rest
    else if name = entry.1 then (name, value) :: rest
    else entry :: setEntry name value rest

/-- Every name among the entries with one variable set was there before or is that variable. -/
theorem mem_setEntry {name : String} {value : Float} {entry : String × Float}
    {entries : List (String × Float)} (h : entry ∈ setEntry name value entries) :
    entry = (name, value) ∨ entry ∈ entries := by
  induction entries with
  | nil => simpa [setEntry] using h
  | cons head rest ih =>
    rw [setEntry] at h
    split at h
    · simpa using h
    · split at h
      · rcases List.mem_cons.1 h with h | h
        · exact .inl h
        · exact .inr (by simp [h])
      · rcases List.mem_cons.1 h with h | h
        · exact .inr (by simp [h])
        · exact (ih h).imp id (by simp +contextual)

/-- Of two different names that are not in ascending order, the other comes first. -/
theorem lt_of_not_lt_of_ne {name other : String} (h : ¬ name < other) (hne : name ≠ other) :
    other < name :=
  Decidable.byContradiction fun h' =>
    hne (String.le_antisymm (String.not_lt.1 h') (String.not_lt.1 h))

theorem setEntry_ascending (name : String) (value : Float) {entries : List (String × Float)}
    (h : entries.Pairwise (fun a b => a.1 < b.1)) :
    (setEntry name value entries).Pairwise (fun a b => a.1 < b.1) := by
  induction entries with
  | nil => simp [setEntry]
  | cons head rest ih =>
    obtain ⟨hhead, hrest⟩ := List.pairwise_cons.1 h
    rw [setEntry]
    split
    · next hlt =>
      refine List.pairwise_cons.2 ⟨fun entry hentry => ?_, h⟩
      rcases List.mem_cons.1 hentry with rfl | hentry
      · exact hlt
      · exact String.lt_trans hlt (hhead entry hentry)
    · next hlt =>
      split
      · next heq =>
        exact List.pairwise_cons.2 ⟨fun entry hentry => heq ▸ hhead entry hentry, hrest⟩
      · next hne =>
        refine List.pairwise_cons.2 ⟨fun entry hentry => ?_, ih hrest⟩
        rcases mem_setEntry hentry with rfl | hentry
        · exact lt_of_not_lt_of_ne hlt hne
        · exact hhead entry hentry

/-- The environment with one variable declared or changed. -/
def set (env : Environment) (name : String) (value : Float) : Environment :=
  ⟨setEntry name value env.entries, setEntry_ascending name value env.ascending⟩

/-- The environment without one variable. -/
def remove (env : Environment) (name : String) : Environment :=
  ⟨env.entries.filter (·.1 != name), env.ascending.filter _⟩

/-- The value of the first entry of a name, if there is one, and the other entries. -/
def takeEntry (name : String) : List (String × Float) → Option Float × List (String × Float)
  | [] => (none, [])
  | entry :: rest =>
    if name = entry.1 then (some entry.2, rest)
    else
      let (value, others) := takeEntry name rest
      (value, entry :: others)

theorem takeEntry_sublist (name : String) (entries : List (String × Float)) :
    (takeEntry name entries).2.Sublist entries := by
  induction entries with
  | nil => exact .slnil
  | cons entry rest ih =>
    rw [takeEntry]
    split
    · exact List.sublist_cons_self entry rest
    · exact ih.cons_cons entry

/-- One variable is removed: the value that it had, if it was declared, and the environment
without it. -/
def withdraw (env : Environment) (name : String) : Option Float × Environment :=
  let taken := takeEntry name env.entries
  (taken.1, ⟨taken.2, env.ascending.sublist (takeEntry_sublist name env.entries)⟩)

/-- The environment of a list of pairs, of which later ones win. -/
def ofList (pairs : List (String × Float)) : Environment :=
  pairs.foldl (fun env pair => env.set pair.1 pair.2) empty

/-- The variables that are declared from the start, all zero. -/
def initial : Environment :=
  ofList (["a", "b", "c", "x", "y", "t"].map fun name => (name, 0))

/-! ## Changes seen through the views -/

theorem get?_empty (name : String) : empty.get? name = none := rfl

/-- Looking a name up in a list of entries compares it with the first one. -/
theorem lookup_entry {α : Type} (name key : String) (value : α) (rest : List (String × α)) :
    ((key, value) :: rest).lookup name = if name = key then some value else rest.lookup name := by
  rw [List.lookup_cons]
  by_cases h : name = key
  · simp [h]
  · simp [beq_false_of_ne h, h]

/-- Looking a name up where all entries of one name are taken out. -/
theorem lookup_filter_ne {α : Type} (name key : String) (entries : List (String × α)) :
    (entries.filter (·.1 != key)).lookup name =
      if name = key then none else entries.lookup name := by
  induction entries with
  | nil => simp
  | cons entry rest ih =>
    obtain ⟨k, value⟩ := entry
    by_cases hk : k = key
    · rw [List.filter_cons_of_neg (by simp [hk]), ih, lookup_entry]
      by_cases h : name = key <;> simp [h, hk]
    · rw [List.filter_cons_of_pos (by simp [hk]), lookup_entry, lookup_entry, ih]
      by_cases h : name = k
      · simp [h, hk]
      · simp [h]

/-- **The last write wins,** and no other variable sees it. -/
theorem get?_set (env : Environment) (name other : String) (value : Float) :
    (env.set name value).get? other = if other = name then some value else env.get? other := by
  simp only [get?, set]
  induction env.entries with
  | nil => exact lookup_entry other name value []
  | cons entry rest ih =>
    obtain ⟨key, old⟩ := entry
    rw [setEntry]
    split
    · rw [lookup_entry]
    · split
      · next heq =>
        obtain rfl : name = key := heq
        simp only [lookup_entry]
        split <;> rfl
      · next hne =>
        have hne : name ≠ key := hne
        rw [lookup_entry, ih, lookup_entry]
        by_cases h : other = key
        · have : other ≠ name := fun e => hne (e ▸ h)
          simp [h, Ne.symm hne]
        · simp [h]

/-- **A removed variable has no value,** and every other keeps its own. -/
theorem get?_remove (env : Environment) (name other : String) :
    (env.remove name).get? other = if other = name then none else env.get? other :=
  lookup_filter_ne other name env.entries

end Environment

end Grapher
