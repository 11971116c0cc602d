import Grapher.Proofs.Accounts
import Grapher.Proofs.Composition
import Grapher.Proofs.Stars

set_option relaxedAutoImplicit false
set_option autoImplicit false

/-!
# Products without a sign

Two operands side by side are multiplied as if a star stood between them. So a text in which these
stars are written means no product without a sign any more, and becomes the same formula, up to the
places of its operations, or is rejected for the same cause.

A reading looks at the places of tokens only to remember them. What else it remembers is its trace,
and what comes next depends on the trace and on the kinds and the texts of the tokens.

## Main definitions

* `Reading.Trace`, `Reading.trace` — what has been read, without places.
* `Formula.joints` — the tokens before which a product without a sign is meant.
* `Formula.starred` — the text with a star before each of them.
* `Formula.outcome` — what becomes of a text, without places.

## Main results

* `Reading.result_step` — a step depends on the trace.
* `Reading.foldlM_starred` — a run over tokens with stars before the joints.
* `Formula.outcome_starred` — a product without a sign is only notation.
-/

namespace Grapher

/-! ## What has been read, without places -/

/-- Results that are the same but for what is left out are both successes or both failures. -/
theorem cases_of_map_eq {α β ε δ : Type} {f : α → β} {g : ε → δ} {x y : Except ε α}
    (h : (x.map f).mapError g = (y.map f).mapError g) :
    (∃ e e', x = .error e ∧ y = .error e' ∧ g e = g e') ∨
      ∃ a b, x = .ok a ∧ y = .ok b ∧ f a = f b := by
  cases x <;> cases y <;> simp_all [Except.map, Except.mapError]

/-- What an action does when an operator arrives, if it still waits. -/
def Action.yieldsTo (action : Action) (arriving : Operator) : Bool :=
  match action with
  | .apply op => op.yieldsTo arriving
  | _ => true

/-- The action that is due once the operands are complete. -/
def Waiting.action (waiting : Waiting) : Action :=
  waiting.operation.action

@[simp]
theorem Waiting.action_operation (waiting : Waiting) :
    waiting.operation.action = waiting.action := rfl

@[simp]
theorem Waiting.yieldsTo_action (waiting : Waiting) (op : Operator) :
    waiting.action.yieldsTo op = waiting.yieldsTo op := by
  cases waiting <;> rfl

namespace Reading

/-- What has been read of a formula, without places. -/
structure Trace where
  /-- The program so far, the latest action first. -/
  output : List Action
  /-- What waits since the innermost open parenthesis, the latest first. -/
  waiting : List Action
  /-- What waits around the open parentheses, the innermost first. -/
  levels : List (List Action)
  /-- What the last token was. -/
  last : Last

/-- A reading without its places. -/
def trace (reading : Reading) : Trace :=
  ⟨reading.output.map Operation.action, reading.waiting.map Waiting.action,
    reading.levels.map fun level => level.around.map Waiting.action, reading.last⟩

section Trace

variable {declared : List String} {reading other : Reading} {token written : Token}

theorem trace_eq_iff : reading.trace = other.trace ↔
    reading.output.map Operation.action = other.output.map Operation.action ∧
      reading.waiting.map Waiting.action = other.waiting.map Waiting.action ∧
      (reading.levels.map fun level => level.around.map Waiting.action) =
        (other.levels.map fun level => level.around.map Waiting.action) ∧
      reading.last = other.last := by
  simp [trace]

theorem trace_emit (h : reading.trace = other.trace) (action : Action) (place place' : Excerpt) :
    (reading.emit action place).trace = (other.emit action place').trace := by
  simp_all [trace, emit]

theorem trace_ending (h : reading.trace = other.trace) (last : Last) :
    (reading.ending last).trace = (other.ending last).trace := by
  simp_all [trace, ending]

theorem trace_settle (h : reading.trace = other.trace) :
    reading.settle.trace = other.settle.trace := by
  simp_all [trace, settle, Function.comp_def]

/-- What yields to an operator does not depend on places. -/
theorem trace_arrive (h : reading.trace = other.trace) (op : Operator) (place place' : Excerpt) :
    (reading.arrive op place).trace = (other.arrive op place').trace := by
  obtain ⟨houtput, hwaiting, hlevels, hlast⟩ := trace_eq_iff.1 h
  have hcomplete : ∀ r : Reading,
      (if op.standsBefore then [] else r.waiting.takeWhile fun waiting => waiting.yieldsTo op).map
          Waiting.action =
        if op.standsBefore then []
        else (r.waiting.map Waiting.action).takeWhile fun action => action.yieldsTo op := by
    intro r
    split <;> simp [List.takeWhile_map, Function.comp_def]
  have hall := (hcomplete reading).trans ((hwaiting ▸ hcomplete other).symm)
  have hlength := congrArg List.length hall
  simp only [List.length_map] at hlength
  refine trace_eq_iff.2 ⟨?_, ?_, hlevels, hlast⟩
  · simp only [arrive, List.map_append, List.map_reverse, List.map_map, Function.comp_def,
      Waiting.action_operation, hall, houtput]
  · simp only [arrive, List.map_cons, List.map_drop, hwaiting, hlength]
    rfl

/-- A function before a parenthesis that is closed is called, wherever it stands. -/
theorem trace_close (h : reading.trace = other.trace) {level level' : Level}
    {outer outer' : List Level}
    (haround : level.around.map Waiting.action = level'.around.map Waiting.action)
    (houter : (outer.map fun level => level.around.map Waiting.action) =
      outer'.map fun level => level.around.map Waiting.action) :
    (reading.close level outer).trace = (other.close level' outer').trace := by
  obtain ⟨houtput, -, -, hlast⟩ := trace_eq_iff.1 (trace_settle h)
  unfold close
  rcases hleft : level.around with _ | ⟨⟨op, place⟩ | ⟨f, place⟩, around⟩ <;>
    rcases hright : level'.around with _ | ⟨⟨op', place'⟩ | ⟨f', place'⟩, around'⟩ <;>
    simp_all [trace, emit, Waiting.action, Waiting.operation]

theorem trace_multiply (h : reading.trace = other.trace) (hkind : token.kind = written.kind) :
    (reading.multiply token).trace = (other.multiply written).trace := by
  have hlast : reading.last = other.last := congrArg Trace.last h
  unfold multiply
  rw [hlast, hkind]
  split
  · exact trace_arrive h _ _ _
  · exact h

/-- A reading or the problem with it, without places. -/
def result (reading : Except Misreading Reading) : Except Problem Trace :=
  (reading.map trace).mapError Misreading.problem

/-- **A step depends on the trace**, and on the kind and the text of the token. -/
theorem result_step (h : reading.trace = other.trace) (hface : token.face = written.face) :
    result (step declared reading token) = result (step declared other written) := by
  obtain ⟨hkind, htext⟩ := Prod.mk.inj hface
  have hmultiply := trace_multiply h hkind
  unfold step
  rw [← hkind]
  generalize reading.multiply token = reading at hmultiply
  generalize other.multiply written = other at hmultiply
  have hok : ∀ {a b : Reading}, a.trace = b.trace →
      result (.ok a) = result (.ok b) := fun hab => congrArg Except.ok hab
  cases token.kind with
  | number =>
    simp only [number, htext]
    cases Decimal.read? written.excerpt.text.toList with
    | none => rfl
    | some decimal => exact hok (trace_ending (trace_emit hmultiply _ _ _) _)
  | name =>
    simp only [name, htext]
    rcases meaning? declared written.excerpt.text with _ | f | _ | value
    · rfl
    · exact hok (by simp_all [trace, ending, Waiting.action, Waiting.operation])
    · exact hok (trace_ending (trace_emit hmultiply _ _ _) _)
    · exact hok (trace_ending (trace_emit hmultiply _ _ _) _)
  | operator op => exact hok (trace_ending (trace_arrive hmultiply _ _ _) _)
  | comma => exact hok (trace_ending (trace_settle hmultiply) _)
  | opening => exact hok (by simp_all [trace, ending])
  | closing =>
    have hlevels := (trace_eq_iff.1 hmultiply).2.2.1
    rcases hleft : reading.levels with _ | ⟨level, outer⟩ <;>
      rcases hright : other.levels with _ | ⟨level', outer'⟩ <;>
      simp only [hleft, hright] at hlevels ⊢
    · rfl
    · cases hlevels
    · cases hlevels
    · obtain ⟨haround, houter⟩ := List.cons.inj hlevels
      exact hok (trace_ending (trace_close hmultiply haround houter) _)

/-- What the end of the text makes of a reading depends on the trace. -/
theorem finish_congr (h : reading.trace = other.trace) :
    (reading.finish.map fun program => program.map Operation.action).mapError Misreading.problem =
      (other.finish.map fun program => program.map Operation.action).mapError
        Misreading.problem := by
  have hlevels := (trace_eq_iff.1 h).2.2.1
  have houtput : reading.settle.output.map Operation.action =
      other.settle.output.map Operation.action := (trace_eq_iff.1 (trace_settle h)).1
  unfold finish
  rcases hleft : reading.levels with _ | ⟨level, outer⟩ <;>
    rcases hright : other.levels with _ | ⟨level', outer'⟩ <;>
    simp only [hleft, hright] at hlevels ⊢
  · simp only [Except.map, Except.mapError, List.map_reverse, houtput]
  · cases hlevels
  · cases hlevels
  · rfl

end Trace

/-! ## Products that are written -/

/-- The tokens before which a product without a sign is meant, as far as they are read. -/
def joints (declared : List String) : Reading → List Token → List Token
  | _, [] => []
  | reading, token :: rest =>
    (if juxtaposed reading.last token.kind then [token] else []) ++
      match step declared reading token with
      | .ok later => joints declared later rest
      | .error _ => []

section Joints

variable {declared : List String} {reading other : Reading} {token written : Token}

theorem mem_of_mem_joints {tokens : List Token} :
    ∀ {reading : Reading}, token ∈ joints declared reading tokens → token ∈ tokens := by
  induction tokens with
  | nil => exact fun h => h
  | cons first rest ih =>
    intro reading h
    rw [joints] at h
    rcases List.mem_append.1 h with h | h
    · split at h
      · exact List.mem_singleton.1 h ▸ List.mem_cons_self
      · cases h
    · split at h
      · exact List.mem_cons_of_mem _ (ih h)
      · cases h

/-- The last token decides what a reading remembers of it. -/
theorem last_of_foldlM {tokens : List Token} {later : Reading}
    (h : tokens.foldlM (step declared) start = .ok later) :
    later.last = Token.lastOf tokens.getLast? := by
  induction tokens using List.reverseRecOn with
  | nil => exact congrArg Reading.last (foldlM_nil_eq_ok_iff.1 h).symm
  | append_singleton tokens token _ =>
    rw [List.foldlM_append, bind_eq_ok_iff] at h
    obtain ⟨middle, -, hlast⟩ := h
    obtain ⟨after, hstep, hnil⟩ := foldlM_cons_eq_ok_iff.1 hlast
    rw [← foldlM_nil_eq_ok_iff.1 hnil, (step_eq_ok hstep).2.1, List.getLast?_concat]
    rfl

/-- The first token is a joint if it meets the reading. -/
theorem mem_joints_head {rest : List Token} (hnot : token ∉ rest) :
    token ∈ joints declared reading (token :: rest) ↔ juxtaposed reading.last token.kind := by
  rw [joints]
  refine ⟨fun h => ?_, fun h => by simp [h]⟩
  rcases List.mem_append.1 h with h | h
  · by_contra hapart
    simp [hapart] at h
  · split at h
    · exact absurd (mem_of_mem_joints h) hnot
    · cases h

/-- Another token is a joint if it is one behind the first. -/
theorem mem_joints_tail {next : Token} {later : Reading} {rest : List Token} (hne : next ≠ token)
    (hstep : step declared reading token = .ok later) :
    next ∈ joints declared reading (token :: rest) ↔ next ∈ joints declared later rest := by
  rw [joints, hstep]
  refine List.mem_append.trans (or_iff_right fun h => ?_)
  split at h
  · exact hne (List.mem_singleton.1 h)
  · cases h

/-- **The joints** are the tokens that are reached and that meet the reading so far. -/
theorem mem_joints_iff {tokens : List Token} :
    ∀ {reading : Reading}, token ∈ joints declared reading tokens ↔
      ∃ earlier later between, tokens = earlier ++ token :: later ∧
        earlier.foldlM (step declared) reading = .ok between ∧
        juxtaposed between.last token.kind := by
  induction tokens with
  | nil => simp [joints]
  | cons first rest ih =>
    intro reading
    rw [joints, List.mem_append]
    constructor
    · rintro (h | h)
      · split at h
        · next hmeant =>
          obtain rfl := List.mem_singleton.1 h
          exact ⟨[], rest, reading, rfl, rfl, hmeant⟩
        · cases h
      · split at h
        · next middle hstep =>
          obtain ⟨earlier, later, between, rfl, hfold, hmeant⟩ := ih.1 h
          exact ⟨first :: earlier, later, between, rfl,
            foldlM_cons_eq_ok_iff.2 ⟨middle, hstep, hfold⟩, hmeant⟩
        · cases h
    · rintro ⟨earlier, later, between, htokens, hfold, hmeant⟩
      obtain ⟨rfl, hcons⟩ | ⟨earlier, rfl, rfl⟩ := List.cons_eq_append_iff.1 htokens
      · obtain ⟨rfl, -⟩ := List.cons.inj hcons
        obtain rfl := foldlM_nil_eq_ok_iff.1 hfold
        exact .inl (by simp [hmeant])
      · obtain ⟨middle, hstep, hrest⟩ := foldlM_cons_eq_ok_iff.1 hfold
        refine .inr ?_
        rw [hstep]
        exact ih.2 ⟨earlier, later, between, rfl, hrest, hmeant⟩

/-- **A product without a sign is one with a star.** A step that multiplies goes as the step with a
star and then the step with the token. -/
theorem step_star (declared : List String) (h : reading.trace = other.trace) {star : Token}
    (hstar : star.face = (.operator .mul, "*")) (hface : token.face = written.face)
    (hmeant : juxtaposed reading.last token.kind) :
    ∃ middle, step declared other star = .ok middle ∧ middle.last = .other ∧
      result (step declared middle written) = result (step declared reading token) := by
  have hkind : star.kind = .operator .mul := congrArg Prod.fst hstar
  have hmultiply : reading.multiply token = reading.arrive .mul token.excerpt.opening :=
    if_pos hmeant
  have hother : other.multiply star = other := by
    unfold multiply
    rw [hkind, if_neg]
    cases other.last <;> simp [juxtaposed]
  have hagain : ((reading.multiply token).ending .other).multiply token =
      (reading.multiply token).ending .other := multiply_of_due rfl token
  refine ⟨(other.arrive .mul star.excerpt).ending .other, ?_, rfl, ?_⟩
  · unfold step
    rw [hother, hkind]
  · rw [← step_of_multiply hagain, hmultiply]
    exact result_step (trace_ending (trace_arrive h.symm _ _ _) _) hface.symm

/-- **A run over tokens with stars before the joints** means no product without a sign, and goes as
the run over the tokens.

**Proof sketch.** Induction on the tokens. Whether a star stands before the first one or not, the
step behind it means no product and goes as the step without a star (`Reading.step_star`). -/
theorem foldlM_starred {places : List Nat} {tokens : List Token} :
    ∀ {reading other : Reading} {written : List Token}, reading.trace = other.trace →
      (tokens.Pairwise fun token next => token.excerpt.start ≠ next.excerpt.start) →
      (∀ token ∈ tokens,
        token.excerpt.start ∈ places ↔ token ∈ joints declared reading tokens) →
      written.map Token.face = Token.starredFaces places tokens →
      joints declared other written = [] ∧
        result (written.foldlM (step declared) other) =
          result (tokens.foldlM (step declared) reading) := by
  induction tokens with
  | nil =>
    intro reading other written htrace _ _ hwritten
    obtain rfl : written = [] := by simpa [Token.starredFaces] using hwritten
    exact ⟨rfl, congrArg Except.ok htrace.symm⟩
  | cons token rest ih =>
    intro reading other written htrace happart hplaces hwritten
    obtain ⟨hfirst, hrest⟩ := List.pairwise_cons.1 happart
    -- behind a star or without one, the token itself means no product
    have hstep : ∀ {middle : Reading} {first : Token} {others : List Token},
        ¬ juxtaposed middle.last first.kind →
        result (step declared middle first) = result (step declared reading token) →
        others.map Token.face = Token.starredFaces places rest →
        joints declared middle (first :: others) = [] ∧
          result ((first :: others).foldlM (step declared) middle) =
            result ((token :: rest).foldlM (step declared) reading) := by
      intro middle first others hapart hresult hothers
      rw [joints, if_neg hapart, List.nil_append, List.foldlM_cons, List.foldlM_cons]
      rcases cases_of_map_eq hresult with ⟨e, e', hleft, hright, hproblem⟩ |
        ⟨later', later, hleft, hright, hlater⟩
      · rw [hleft, hright]
        exact ⟨rfl, congrArg Except.error hproblem⟩
      · rw [hleft, hright]
        refine ih hlater.symm hrest (fun next hnext => ?_) hothers
        have hne : next ≠ token := fun heq => hfirst next hnext (heq ▸ rfl)
        rw [hplaces next (List.mem_cons_of_mem _ hnext), mem_joints_tail hne hright]
    have hplace : token.excerpt.start ∈ places ↔ juxtaposed reading.last token.kind := by
      rw [hplaces token List.mem_cons_self, mem_joints_head fun h => hfirst token h rfl]
    rw [Token.starredFaces_cons] at hwritten
    by_cases hmeant : juxtaposed reading.last token.kind
    · rw [if_pos (hplace.2 hmeant)] at hwritten
      obtain ⟨star, behind, rfl, hstar, hbehind⟩ := List.map_eq_cons_iff.1 hwritten
      obtain ⟨first, others, rfl, hface, hothers⟩ := List.map_eq_cons_iff.1 hbehind
      obtain ⟨middle, hmiddle, hlast, hresult⟩ :=
        step_star declared htrace hstar hface.symm hmeant
      have hstarkind : star.kind = .operator .mul := congrArg Prod.fst hstar
      obtain ⟨hjoints, hrun⟩ := hstep (by simp [hlast, juxtaposed]) hresult hothers
      rw [joints, List.foldlM_cons, hmiddle, hstarkind]
      refine ⟨?_, hrun⟩
      rw [if_neg (by cases other.last <;> simp [juxtaposed]), List.nil_append]
      exact hjoints
    · rw [if_neg (mt hplace.1 hmeant), List.nil_append] at hwritten
      obtain ⟨first, others, rfl, hface, hothers⟩ := List.map_eq_cons_iff.1 hwritten
      have hlast : reading.last = other.last := congrArg Trace.last htrace
      have hkind : first.kind = token.kind := congrArg Prod.fst hface
      refine hstep (by rwa [hkind, ← hlast]) (result_step htrace.symm hface) hothers

end Joints

end Reading

/-! ## The check -/

namespace Program

/-- **The check does not depend on places**, nor does what it finds. -/
theorem check_congr {program others : Program}
    (h : program.map Operation.action = others.map Operation.action) :
    program.check.mapError Fault.cause = others.check.mapError Fault.cause := by
  have hstep : ∀ (height : Nat) {a b : Operation}, a.action = b.action →
      (checkStep height a).mapError Fault.cause = (checkStep height b).mapError Fault.cause := by
    intro height a b hab
    unfold checkStep
    rw [hab]
    cases b.action.callable? with
    | none => rfl
    | some f => dsimp only; split <;> rfl
  have hfold : ∀ {program others : Program},
      program.map Operation.action = others.map Operation.action → ∀ height,
        (program.foldlM checkStep height >>= checkEnd).mapError Fault.cause =
          (others.foldlM checkStep height >>= checkEnd).mapError Fault.cause := by
    intro program
    induction program with
    | nil =>
      intro others hmap height
      obtain rfl : others = [] := by simpa using hmap.symm
      rfl
    | cons a rest ih =>
      intro others hmap height
      obtain ⟨b, behind, rfl, hab, hbehind⟩ := List.map_eq_cons_iff.1 hmap.symm
      rw [List.foldlM_cons, List.foldlM_cons, bind_assoc, bind_assoc]
      exact mapError_bind_congr (hstep height hab.symm) (ih hbehind.symm)
  have hempty : program.isEmpty = others.isEmpty := by
    rw [← List.isEmpty_map (f := Operation.action), h, List.isEmpty_map]
  unfold check
  rw [hempty]
  split
  · rfl
  · exact hfold h 0

end Program

/-! ## Formulas -/

namespace Formula

/-- The tokens of a text before which a product without a sign is meant. -/
def joints (declared : List String) (source : String) : List Token :=
  Reading.start.joints declared (Token.scan source).tokens

/-- The text with a star directly before each of these tokens. -/
def starred (declared : List String) (source : String) : String :=
  String.ofList (Token.starredFrom ((joints declared source).map fun token => token.excerpt.start) 0
    source.toList)

/-- What becomes of a text, without places: the actions of the formula, or why there is none. -/
def outcome (declared : List String) (source : String) : Except Rejection.Cause (List Action) :=
  ((ofSource declared source).map fun formula => formula.program.map Operation.action).mapError
    Rejection.cause

/-- What becomes of a text is decided by what is read of it, and then by the check. -/
theorem outcome_eq (declared : List String) (source : String) :
    outcome declared source =
      match Reading.program declared source with
      | .error misreading => .error (.misread misreading.problem)
      | .ok program =>
        match program.check with
        | .error fault => .error (.unsound fault.cause)
        | .ok () => .ok (program.map Operation.action) := by
  unfold outcome ofSource
  cases Reading.program declared source with
  | error misreading => rfl
  | ok program => cases hcheck : program.check <;> simp only [hcheck] <;> rfl

/-- Places do not matter for what becomes of a text. -/
theorem outcome_congr {declared : List String} {source other : String}
    (h : ((Reading.program declared source).map fun program =>
          program.map Operation.action).mapError Misreading.problem =
        ((Reading.program declared other).map fun program =>
          program.map Operation.action).mapError Misreading.problem) :
    outcome declared source = outcome declared other := by
  rw [outcome_eq, outcome_eq]
  rcases cases_of_map_eq h with ⟨misreading, misreading', hleft, hright, hproblem⟩ |
    ⟨program, others, hleft, hright, hactions⟩
  · rw [hleft, hright]
    exact congrArg (fun problem => Except.error (Rejection.Cause.misread problem)) hproblem
  · have hcheck := Program.check_congr hactions
    rw [hleft, hright]
    cases hfirst : program.check <;> cases hsecond : others.check <;>
      simp_all [Except.mapError]

variable {declared : List String} {source : String} {token : Token}

/-- The joints of a text are those tokens that meet the token before, up to the first that cannot
be read. -/
theorem mem_joints_iff : token ∈ joints declared source ↔
    ∃ earlier later, (Token.scan source).tokens = earlier ++ token :: later ∧
      (earlier.foldlM (Reading.step declared) Reading.start).isOk ∧
      ∃ last ∈ earlier.getLast?, last.Meets token := by
  have hmeets : ∀ {earlier : List Token} {between : Reading},
      earlier.foldlM (Reading.step declared) Reading.start = .ok between →
      (Reading.juxtaposed between.last token.kind ↔
        ∃ last ∈ earlier.getLast?, last.Meets token) := by
    intro earlier between hfold
    rw [Reading.last_of_foldlM hfold]
    cases earlier.getLast? with
    | none => simp [Token.lastOf, Reading.juxtaposed]
    | some last => simp [Token.lastOf, Token.meets_iff]
  rw [joints, Reading.mem_joints_iff]
  constructor
  · rintro ⟨earlier, later, between, htokens, hfold, hmeant⟩
    exact ⟨earlier, later, htokens, by rw [hfold]; rfl, (hmeets hfold).1 hmeant⟩
  · rintro ⟨earlier, later, htokens, hok, hlast⟩
    cases hfold : earlier.foldlM (Reading.step declared) Reading.start with
    | error misreading => rw [hfold] at hok; cases hok
    | ok between => exact ⟨earlier, later, between, htokens, hfold, (hmeets hfold).2 hlast⟩

/-- The tokens of a text start at different places. -/
theorem nodup_start (source : String) :
    ((Token.scan source).tokens.map fun token => token.excerpt.start).Nodup := by
  have hdivides := Token.divides_scan source
  have hascending := (List.pairwise_append.1 hdivides.ascending).1
  rw [List.pairwise_map] at hascending
  refine List.pairwise_map.2 (hascending.imp_of_mem fun {token next} htoken _ hle => ?_)
  have hpos := (hdivides.places token.excerpt
    (List.mem_append_left _ (List.mem_map_of_mem htoken))).2
  omega

/-- Texts of which the same is read, up to places, and whose scans end alike, become the same. -/
theorem outcome_of_result {declared : List String} {source other : String}
    (hrun : Reading.result ((Token.scan source).tokens.foldlM (Reading.step declared)
          Reading.start) =
        Reading.result ((Token.scan other).tokens.foldlM (Reading.step declared) Reading.start))
    (hstop : (Token.scan source).stop.map Prod.fst = (Token.scan other).stop.map Prod.fst) :
    outcome declared source = outcome declared other := by
  refine outcome_congr ?_
  unfold Reading.program Reading.ofScan
  rcases cases_of_map_eq hrun with ⟨misreading, misreading', hleft, hright, hproblem⟩ |
    ⟨reading, reading', hleft, hright, htrace⟩
  · rw [hleft, hright]
    exact congrArg Except.error hproblem
  · rw [hleft, hright]
    rcases hfirst : (Token.scan source).stop with _ | ⟨obstacle, place⟩ <;>
      rcases hsecond : (Token.scan other).stop with _ | ⟨obstacle', place'⟩ <;>
      rw [hfirst, hsecond] at hstop
    · exact Reading.finish_congr htrace
    · cases hstop
    · cases hstop
    · obtain rfl : obstacle = obstacle' := Option.some.inj hstop
      rfl

/-- **A product without a sign is only notation.** It is meant before the tokens that meet the token
before them, up to the first token that cannot be read. Where a star is written directly before each
of these, no product without a sign is meant any more, and the text becomes a formula with the same
actions, or is rejected for the same cause.

**Proof sketch.** The tokens of the text with stars are those of the text and the stars
(`Token.scan_starred`). What is read of them is the same, up to places, after each token
(`Reading.foldlM_starred`), so the programs have the same actions, and the check looks at nothing
else (`Program.check_congr`). -/
theorem outcome_starred (declared : List String) (source : String) :
    (∀ token, token ∈ joints declared source ↔
      ∃ earlier later, (Token.scan source).tokens = earlier ++ token :: later ∧
        (earlier.foldlM (Reading.step declared) Reading.start).isOk ∧
        ∃ last ∈ earlier.getLast?, last.Meets token) ∧
    joints declared (starred declared source) = [] ∧
      outcome declared (starred declared source) = outcome declared source := by
  set places := (joints declared source).map fun token => token.excerpt.start with hplaces
  have hfit : ∀ place ∈ places, ∃ token ∈ (Token.scan source).tokens,
      token.excerpt.start = place ∧ ∀ op, token.kind ≠ .operator op := by
    intro place hplace
    obtain ⟨token, htoken, rfl⟩ := List.mem_map.1 hplace
    obtain ⟨earlier, later, htokens, -, last, -, -, hkind, -⟩ := mem_joints_iff.1 htoken
    refine ⟨token, by simp [htokens], rfl, fun op hop => ?_⟩
    simp [hop] at hkind
  obtain ⟨hfaces, hstop⟩ := Token.scan_starred hfit
  have hstarts : ∀ token ∈ (Token.scan source).tokens,
      token.excerpt.start ∈ places ↔
        token ∈ Reading.start.joints declared (Token.scan source).tokens := by
    intro token htoken
    refine ⟨fun h => ?_, fun h => List.mem_map_of_mem h⟩
    obtain ⟨other, hother, hsame⟩ := List.mem_map.1 h
    have hmem := Reading.mem_of_mem_joints hother
    exact List.inj_on_of_nodup_map (nodup_start source) hmem htoken hsame ▸ hother
  obtain ⟨hjoints, hrun⟩ :=
    Reading.foldlM_starred rfl (List.pairwise_map.1 (nodup_start source)) hstarts hfaces
  exact ⟨fun token => mem_joints_iff, hjoints, outcome_of_result hrun hstop⟩

example : starred ["x"] "2e(x) 3 4sin(1)2e5x" = "2*e*(x) *3 4*sin(1)*2e5*x" := by decide +kernel

end Formula

end Grapher
