import Grapher.Environment
import Mathlib.Data.List.Sort

set_option relaxedAutoImplicit false
set_option autoImplicit false

/-!
# Environments as maps

An environment is determined by what looking names up in it gives: its entries are in ascending
order, so a list of them can be had back from its members.

## Main results

* `Environment.eq_of_get?` — environments with the same values are the same.
* `Environment.names_eq_of_contains` — environments that declare the same names list them alike.
* `Environment.set_set` — of two values of a variable only the later one is kept.
-/

namespace Grapher

namespace Environment

variable {env other : Environment} {name : String}

/-! ## Members -/

/-- The entries are those that can be looked up. -/
theorem mem_entries_iff {value : Float} :
    (name, value) ∈ env.entries ↔ env.get? name = some value := by
  obtain ⟨entries, hascending⟩ := env
  simp only [get?]
  induction entries with
  | nil => simp
  | cons entry rest ih =>
    obtain ⟨key, first⟩ := entry
    obtain ⟨hkey, hrest⟩ := List.pairwise_cons.1 hascending
    rw [lookup_entry, List.mem_cons, ih hrest]
    split
    · next heq =>
      subst heq
      -- no later entry has the name of the first one
      have hlater : rest.lookup name ≠ some value := fun h =>
        String.lt_irrefl name (hkey _ ((ih hrest).2 h))
      simp [hlater, eq_comm]
    · next hne => simp [hne]

/-- A variable is declared exactly if it is among the names. -/
theorem mem_names_iff : name ∈ env.names ↔ env.contains name := by
  rw [contains, get?, List.lookup_isSome_iff, names, List.mem_map]
  exact exists_congr fun entry => and_congr_right fun _ => by rw [beq_iff_eq, eq_comm]

/-! ## Extensionality -/

/-- **Environments with the same values are the same.** -/
theorem eq_of_get? (h : ∀ name, env.get? name = other.get? name) : env = other := by
  have : Std.Irrefl fun a b : String × Float => a.1 < b.1 := ⟨fun a => String.lt_irrefl a.1⟩
  have : Std.Antisymm fun a b : String × Float => a.1 < b.1 :=
    ⟨fun _ _ hlt hgt => absurd (String.lt_trans hlt hgt) (String.lt_irrefl _)⟩
  refine ext (env.ascending.eq_of_mem_iff other.ascending fun entry => ?_)
  obtain ⟨name, value⟩ := entry
  rw [mem_entries_iff, mem_entries_iff, h]

/-- **Environments that declare the same names list them alike.** -/
theorem names_eq_of_contains (h : ∀ name, env.contains name = other.contains name) :
    env.names = other.names := by
  have hascending : ∀ env : Environment, env.names.Pairwise (· < ·) := fun env =>
    List.pairwise_map.2 env.ascending
  refine (hascending env).eq_of_mem_iff (hascending other) fun name => ?_
  rw [mem_names_iff, mem_names_iff, h]

/-! ## Variables that are set again -/

theorem setEntry_setEntry (name : String) (value old : Float) (entries : List (String × Float)) :
    setEntry name value (setEntry name old entries) = setEntry name value entries := by
  induction entries with
  | nil => simp [setEntry]
  | cons entry rest ih =>
    by_cases hlt : name < entry.1
    · simp [setEntry, hlt]
    · by_cases heq : name = entry.1
      · simp [setEntry, heq]
      · simp [setEntry, hlt, heq, ih]

/-- Of two values of a variable only the later one is kept. -/
theorem set_set (env : Environment) (name : String) (value old : Float) :
    (env.set name old).set name value = env.set name value :=
  ext (setEntry_setEntry name value old env.entries)

/-- A declared variable stays declared when any variable is set. -/
theorem contains_set (h : env.contains name) (key : String) (value : Float) :
    (env.set key value).contains name := by
  rw [contains, get?_set]
  split
  · rfl
  · exact h

end Environment

end Grapher
