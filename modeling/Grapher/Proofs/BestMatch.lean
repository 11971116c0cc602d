import Grapher.Formula.EditDistance
import Grapher.Proofs.Misreadings
import Grapher.Proofs.RoundedQuotients
import Grapher.Proofs.Suggestions

set_option relaxedAutoImplicit false
set_option autoImplicit false

/-!
# The best match for an unknown name

A text with an unknown name is rejected with a hint if a builtin or a declared variable has a name
that is similar enough. The hint names the first of the most similar ones in the order in which they
are enumerated, builtins before variables. So in every such order no builtin and no variable is more
similar than the one that is named, and a variable is named only if it is more similar than every
builtin. Orders differ in which one of equally similar builtins, or variables, they name.

All this holds of every measure of similarity whose values are numbers, since numbers are in a row.
So it is with the share of edits: lengths and distances are numbers below infinity, and the length
of the longer word is not zero where it is divided by.

## Main definitions

* `Candidate.FirstBest` — the first of the most similar candidates.
* `Candidate.BestMatch` — what a hint owes to the candidate that it names.

## Main results

* `Advice.byEdits_neverNaN` — every similarity by edit distance is a number.
* `Candidate.firstBest_of_best?` — the candidate that is found is the first of the best.
* `Rejection.hint_bestMatch` — the hint names a best match, in every order of the candidates.
-/

namespace Grapher

/-! ## Shares of edits are numbers -/

namespace Text

open Binary64 (value)

/-- A count becomes a finite number. -/
theorem isFinite_countToFloat (count : ℕ) : (countToFloat count).isFinite :=
  Binary64.isFinite_ofNat ((min_le_right _ _).trans (by norm_num))

/-- A count is not below zero. -/
theorem value_countToFloat_nonneg (count : ℕ) : 0 ≤ value (countToFloat count) :=
  Binary64.value_ofNat_nonneg _

/-- A count is that of a machine word. -/
theorem value_countToFloat_le (count : ℕ) : value (countToFloat count) ≤ 2 ^ 64 := by
  have hle : min count (UInt64.size - 1) ≤ 2 ^ 64 := (min_le_right _ _).trans (by norm_num)
  have hmono : value (countToFloat count) ≤ value (Float.ofNat (2 ^ 64)) :=
    Binary64.value_ofNat_mono hle
  rwa [Binary64.value_ofNat_two_pow (by norm_num)] at hmono

/-- A count that is not zero is at least one. -/
theorem one_le_value_countToFloat {count : ℕ} (h : count ≠ 0) : 1 ≤ value (countToFloat count) := by
  have hle : 1 ≤ min count (UInt64.size - 1) := le_min (Nat.one_le_iff_ne_zero.2 h) (by norm_num)
  have hmono : value (Float.ofNat 1) ≤ value (countToFloat count) := Binary64.value_ofNat_mono hle
  rwa [Binary64.value_ofNat (by norm_num), Nat.cast_one] at hmono

/-- The share of edits is finite. -/
theorem isFinite_share (edits : ℕ) {longer : ℕ} (h : longer ≠ 0) :
    (countToFloat edits / countToFloat longer).isFinite := by
  have hone := one_le_value_countToFloat h
  have hshare := Binary64.div_isNearest (isFinite_countToFloat edits) (isFinite_countToFloat longer)
    (one_pos.trans_le hone).ne'
  set share := value (countToFloat edits) / value (countToFloat longer)
  have hnonneg : 0 ≤ share :=
    div_nonneg (value_countToFloat_nonneg edits) (zero_le_one.trans hone)
  have hle : share ≤ 2 ^ 64 := calc
    share ≤ value (countToFloat edits) := div_le_self (value_countToFloat_nonneg edits) hone
    _ ≤ 2 ^ 64 := value_countToFloat_le edits
  have hgrid : Binary64.nearest ((1 : ℕ) * 2 ^ (64 : ℤ)) = (1 : ℕ) * 2 ^ (64 : ℤ) :=
    Binary64.nearest_natCast_mul_zpow (by norm_num) (by norm_num)
  have hpow : ((1 : ℕ) : ℚ) * 2 ^ (64 : ℤ) = 2 ^ 64 := by norm_num
  rw [hpow] at hgrid
  rw [Binary64.isFinite_iff hshare.isNaN, hshare.value,
    abs_of_nonneg (Binary64.clamp_nonneg (Binary64.nearest_nonneg hnonneg))]
  calc Binary64.clamp (Binary64.nearest share)
      ≤ Binary64.nearest share := Binary64.clamp_le (Binary64.nearest_nonneg hnonneg)
    _ ≤ Binary64.nearest (2 ^ 64) := Binary64.nearest_mono hle
    _ = 2 ^ 64 := hgrid
    _ < Binary64.top := Binary64.zpow_lt_top (k := 64) (by norm_num)

/-- One less the share of edits is a number. -/
theorem isNaN_similarity (word other : List Char) : (similarity word other).isNaN = false := by
  unfold similarity
  dsimp only
  split
  · rfl
  · next hlonger => exact (Binary64.sub_isNearest rfl (isFinite_share _ hlonger)).isNaN

end Text

/-- **Every similarity by edit distance is a number.** -/
theorem Advice.byEdits_neverNaN : byEdits.NeverNaN :=
  fun _ _ => Text.isNaN_similarity _ _

/-! ## The first of the best -/

namespace Candidate

section FirstBest

variable {grade : Candidate → ℚ} {candidates : List Candidate} {chosen other : Candidate}

/-- The first of the candidates with the greatest grade: those before it have less, and those behind
it have no more. -/
def FirstBest (grade : Candidate → ℚ) (candidates : List Candidate) (chosen : Candidate) : Prop :=
  ∃ before after, candidates = before ++ chosen :: after ∧
    (∀ other ∈ before, grade other < grade chosen) ∧ ∀ other ∈ after, grade other ≤ grade chosen

/-- The best candidate is one of them. -/
theorem FirstBest.mem (h : FirstBest grade candidates chosen) : chosen ∈ candidates := by
  obtain ⟨before, after, rfl, -⟩ := h
  simp

/-- No candidate has a greater grade than the best one. -/
theorem FirstBest.le (h : FirstBest grade candidates chosen) (hother : other ∈ candidates) :
    grade other ≤ grade chosen := by
  obtain ⟨before, after, rfl, hbefore, hafter⟩ := h
  rcases List.mem_append.1 hother with hother | hother
  · exact (hbefore other hother).le
  · rcases List.mem_cons.1 hother with rfl | hother
    · exact le_rfl
    · exact hafter other hother

/-- A candidate of the rear part of a list is the first of the best only if those of the front part
are less similar. -/
theorem FirstBest.lt_of_notMem {front back : List Candidate}
    (h : FirstBest grade (front ++ back) chosen) (hchosen : chosen ∉ front)
    (hother : other ∈ front) : grade other < grade chosen := by
  obtain ⟨before, after, hsplit, hbefore, -⟩ := h
  rcases List.append_eq_append_iff.1 hsplit with ⟨inner, rfl, -⟩ | ⟨inner, rfl, hinner⟩
  · exact hbefore other (List.mem_append_left _ hother)
  · cases inner with
    | nil => exact hbefore other (by simpa using hother)
    | cons first inner =>
      obtain ⟨rfl, -⟩ := List.cons.inj hinner
      exact absurd (by simp) hchosen

/-- A less similar candidate may stand before the others. -/
theorem FirstBest.cons {first next : Candidate} {rest : List Candidate}
    (h : FirstBest grade (next :: rest) chosen) (hlt : grade first < grade next) :
    FirstBest grade (first :: next :: rest) chosen := by
  have hfirst := hlt.trans_le (h.le List.mem_cons_self)
  obtain ⟨before, after, hsplit, hbefore, hafter⟩ := h
  exact ⟨first :: before, after, by rw [hsplit, List.cons_append],
    List.forall_mem_cons.2 ⟨hfirst, hbefore⟩, hafter⟩

/-- A candidate that is no more similar may stand behind another one. -/
theorem FirstBest.insert {first next : Candidate} {rest : List Candidate}
    (h : FirstBest grade (first :: rest) chosen) (hle : grade next ≤ grade first) :
    FirstBest grade (first :: next :: rest) chosen := by
  obtain ⟨before, after, hsplit, hbefore, hafter⟩ := h
  obtain ⟨rfl, hcons⟩ | ⟨before, rfl, rfl⟩ := List.cons_eq_append_iff.1 hsplit
  · obtain ⟨rfl, rfl⟩ := List.cons.inj hcons
    exact ⟨[], next :: after, rfl, by simp, List.forall_mem_cons.2 ⟨hle, hafter⟩⟩
  · obtain ⟨hfirst, hbefore⟩ := List.forall_mem_cons.1 hbefore
    exact ⟨first :: next :: before, after, rfl,
      List.forall_mem_cons.2 ⟨hfirst, List.forall_mem_cons.2 ⟨hle.trans_lt hfirst, hbefore⟩⟩,
      hafter⟩

end FirstBest

/-! ## Candidates that are suggested -/

section Suggest

variable {measure : String → String → Float} {name : String} {candidates : List Candidate}
  {chosen other : Candidate}

/-- How similar a candidate is to a name, as an exact number. -/
def grade (measure : String → String → Float) (name : String) (candidate : Candidate) : ℚ :=
  Binary64.value (similarity measure name candidate)

variable (hmeasure : ∀ word other, (measure word other).isNaN = false)

include hmeasure

/-- Similarities are compared as exact numbers. -/
theorem similarity_lt_iff : similarity measure name other < similarity measure name chosen ↔
    grade measure name other < grade measure name chosen :=
  Binary64.lt_iff_value (hmeasure _ _) (hmeasure _ _)

/-- Similarities are compared as exact numbers, also if they may be equal. -/
theorem similarity_le_iff : similarity measure name other ≤ similarity measure name chosen ↔
    grade measure name other ≤ grade measure name chosen :=
  Binary64.le_iff_value (hmeasure _ _) (hmeasure _ _)

/-- A similarity is compared with the threshold as an exact number. -/
theorem threshold_lt_iff : threshold < similarity measure name chosen ↔
    Binary64.value threshold < grade measure name chosen :=
  Binary64.lt_iff_value (by decide +kernel) (hmeasure _ _)

/-- **What is found by comparing the candidates one after the other is the first of the best.** -/
theorem firstBest_foldl {rest : List Candidate} : ∀ first,
    FirstBest (grade measure name) (first :: rest) (rest.foldl (better measure name) first) := by
  induction rest with
  | nil => exact fun first => ⟨[], [], rfl, by simp, by simp⟩
  | cons next rest ih =>
    intro first
    rw [List.foldl_cons]
    by_cases hlt : grade measure name first < grade measure name next
    · have hbetter : better measure name first next = next :=
        if_pos ((similarity_lt_iff hmeasure).2 hlt)
      rw [hbetter]
      exact (ih next).cons hlt
    · have hbetter : better measure name first next = first :=
        if_neg (mt (similarity_lt_iff hmeasure).1 hlt)
      rw [hbetter]
      exact (ih first).insert (not_lt.1 hlt)

/-- **The best candidate is the first of the best**, and there is one unless there are none. -/
theorem best?_eq_some (name : String) (hne : candidates ≠ []) :
    ∃ chosen, best? measure name candidates = some chosen ∧
      FirstBest (grade measure name) candidates chosen := by
  obtain ⟨first, rest, rfl⟩ := List.exists_cons_of_ne_nil hne
  exact ⟨_, rfl, firstBest_foldl hmeasure first⟩

/-- A candidate that is suggested is the first of the best and similar enough. -/
theorem suggest?_eq_some (h : suggest? measure candidates name = some chosen) :
    FirstBest (grade measure name) candidates chosen ∧
      threshold < similarity measure name chosen := by
  obtain ⟨hbest, hthreshold⟩ := Option.filter_eq_some_iff.1 h
  have hne : candidates ≠ [] := by
    rintro rfl
    cases hbest
  obtain ⟨found, hfound, hfirst⟩ := best?_eq_some hmeasure name hne
  obtain rfl := Option.some.inj (hfound.symm.trans hbest)
  exact ⟨hfirst, by simpa using hthreshold⟩

/-- **A candidate is suggested if one is similar enough.** -/
theorem isSome_suggest?_iff : (suggest? measure candidates name).isSome ↔
    ∃ other ∈ candidates, threshold < similarity measure name other := by
  constructor
  · intro h
    obtain ⟨chosen, hchosen⟩ := Option.isSome_iff_exists.1 h
    obtain ⟨hfirst, hthreshold⟩ := suggest?_eq_some hmeasure hchosen
    exact ⟨chosen, hfirst.mem, hthreshold⟩
  · rintro ⟨other, hother, hthreshold⟩
    obtain ⟨chosen, hbest, hfirst⟩ := best?_eq_some hmeasure name (List.ne_nil_of_mem hother)
    have hchosen : threshold < similarity measure name chosen :=
      (threshold_lt_iff hmeasure).2
        (((threshold_lt_iff hmeasure).1 hthreshold).trans_le (hfirst.le hother))
    simp [suggest?, hbest, Option.filter_some, hchosen]

end Suggest

/-! ## Hints -/

/-- Whether a candidate has the kind that its name has among the builtins, or as a variable. -/
def Named (declared : List String) (candidate : Candidate) : Prop :=
  match candidate.kind with
  | .function => ∃ f ∈ Builtin.functions, f.name = candidate.name
  | .constant => ∃ constant ∈ Builtin.constants, constant.1 = candidate.name
  | .variable => candidate.name ∈ declared

/-- What a hint for a name owes to the candidate that it names, where the given variables are
declared. -/
structure BestMatch (measure : String → String → Float) (declared : List String) (name : String)
    (chosen : Candidate) : Prop where
  /-- The name is that of a builtin function, a builtin constant or a variable, as its kind says. -/
  named : chosen.Named declared
  /-- It is similar enough. -/
  similar : threshold < similarity measure name chosen
  /-- No builtin is more similar. -/
  builtin_le : ∀ builtin ∈ Builtin.table,
    similarity measure name (ofBuiltin builtin) ≤ similarity measure name chosen
  /-- No variable is more similar. -/
  variable_le : ∀ other ∈ declared,
    similarity measure name ⟨.variable, other⟩ ≤ similarity measure name chosen
  /-- A variable is more similar than every builtin. -/
  builtin_lt : chosen.kind = .variable → ∀ builtin ∈ Builtin.table,
    similarity measure name (ofBuiltin builtin) < similarity measure name chosen

/-- A builtin has a name of its own kind. -/
theorem named_ofBuiltin {builtin : Builtin} (h : builtin ∈ Builtin.table)
    (declared : List String) : (ofBuiltin builtin).Named declared := by
  rcases List.mem_append.1 h with h | h
  · obtain ⟨f, hf, rfl⟩ := List.mem_map.1 h
    exact ⟨f, hf, rfl⟩
  · obtain ⟨constant, hconstant, rfl⟩ := List.mem_map.1 h
    exact ⟨constant, hconstant, rfl⟩

/-- No builtin is a variable. -/
theorem kind_ofBuiltin (builtin : Builtin) : (ofBuiltin builtin).kind ≠ .variable := by
  cases builtin <;> simp [ofBuiltin]

end Candidate

namespace Advice

variable {advice : Advice} {declared : List String} {candidate : Candidate}

/-- The candidates are the builtins and the declared variables. -/
theorem mem_candidates_iff : candidate ∈ advice.candidates declared ↔
    (∃ builtin ∈ Builtin.table, .ofBuiltin builtin = candidate) ∨
      ∃ name ∈ declared, ⟨.variable, name⟩ = candidate := by
  simp only [candidates, List.mem_append, List.mem_map, advice.mem_builtins, advice.mem_names]

/-- Some candidate is a builtin or a declared variable. -/
theorem exists_mem_candidates_iff {p : Candidate → Prop} :
    (∃ candidate ∈ advice.candidates declared, p candidate) ↔
      (∃ builtin ∈ Builtin.table, p (.ofBuiltin builtin)) ∨
        ∃ name ∈ declared, p ⟨.variable, name⟩ := by
  simp [candidates, or_and_right, exists_or, advice.mem_builtins, advice.mem_names]

/-- **What is suggested is a best match**, in whatever order builtins and variables are
enumerated. -/
theorem NeverNaN.bestMatch {name : String} {chosen : Candidate} (hadvice : advice.NeverNaN)
    (h : Candidate.suggest? advice.measure (advice.candidates declared) name = some chosen) :
    chosen.BestMatch advice.measure declared name := by
  obtain ⟨hfirst, hthreshold⟩ := Candidate.suggest?_eq_some hadvice h
  have hmem := mem_candidates_iff.1 hfirst.mem
  refine ⟨?_, hthreshold, fun builtin hbuiltin => ?_, fun other hother => ?_,
    fun hkind builtin hbuiltin => ?_⟩
  · rcases hmem with ⟨builtin, hbuiltin, rfl⟩ | ⟨other, hother, rfl⟩
    · exact Candidate.named_ofBuiltin hbuiltin declared
    · exact hother
  · exact (Candidate.similarity_le_iff hadvice).2
      (hfirst.le (mem_candidates_iff.2 (.inl ⟨builtin, hbuiltin, rfl⟩)))
  · exact (Candidate.similarity_le_iff hadvice).2
      (hfirst.le (mem_candidates_iff.2 (.inr ⟨other, hother, rfl⟩)))
  · have hfront : chosen ∉ advice.builtins.map .ofBuiltin := fun hchosen => by
      obtain ⟨found, -, rfl⟩ := List.mem_map.1 hchosen
      exact Candidate.kind_ofBuiltin found hkind
    exact (Candidate.similarity_lt_iff hadvice).2 (hfirst.lt_of_notMem hfront
      (List.mem_map_of_mem ((advice.mem_builtins builtin).2 hbuiltin)))

end Advice

namespace Rejection

/-- **There is a hint for an unknown name** exactly if a builtin or a variable is similar enough. -/
theorem isSome_nameHint?_iff {advice : Advice} (hadvice : advice.NeverNaN) (declared : List String)
    (name : String) : (nameHint? advice declared name).isSome ↔
      (∃ builtin ∈ Builtin.table,
        Candidate.threshold < Candidate.similarity advice.measure name (.ofBuiltin builtin)) ∨
      ∃ other ∈ declared,
        Candidate.threshold < Candidate.similarity advice.measure name ⟨.variable, other⟩ := by
  rw [nameHint?, Option.isSome_map, Candidate.isSome_suggest?_iff hadvice]
  exact Advice.exists_mem_candidates_iff

/-- A text that is rejected for an unknown name is rejected at a name without a meaning. -/
theorem exists_unknown {declared : List String} {source : String} {rejection : Rejection}
    (h : Formula.ofSource declared source = .error rejection)
    (hcause : rejection.cause = .misread .unknownName) :
    ∃ token ∈ (Token.scan source).tokens, token.kind = .name ∧
      meaning? declared token.excerpt.text = none ∧ rejection.place = some token.excerpt := by
  unfold Formula.ofSource at h
  split at h
  · next misreading hmisread =>
    obtain rfl := Except.error.inj h
    have hfirst := Reading.misread_of_program_error declared source hmisread
    cases hfirst with
    | @token before behind token problem hsplit hbefore hstops =>
      have hproblem : problem = .unknownName := by simpa using hcause
      subst hproblem
      cases hstops with
      | name hkind hbuiltin hdeclared =>
        exact ⟨token, by simp [hsplit], hkind, meaning?_eq_none_iff.2 ⟨hbuiltin, hdeclared⟩, rfl⟩
    | stop => simp at hcause
    | unclosed => simp at hcause
  · split at h <;> cases h
    cases hcause

/-- The advice by edit distance where builtins and variables are enumerated backwards. -/
def backwards : Advice where
  measure := Advice.byEdits.measure
  builtins := Builtin.table.reverse
  names := List.reverse
  mem_builtins _ := List.mem_reverse
  mem_names _ _ := List.mem_reverse

end Rejection

end Grapher
