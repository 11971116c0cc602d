set_option relaxedAutoImplicit false
set_option autoImplicit false

/-!
# Excerpts of a source text

An excerpt is a part of a source text together with the place where it stands. Places are counted
in bytes of the UTF-8 encoding, as is the length of an excerpt.

## Main definitions

* `Excerpt` — a text and the byte at which it starts.
* `Excerpt.In` — the relation between an excerpt and the source it is taken from.
* `Excerpt.underline` — the carets that point at an excerpt when printed below its source.

## Main results

* `Excerpt.In.start_add_size_le` — an excerpt ends within its source.
-/

namespace Grapher

/-- A part of a source text and the byte at which it starts. -/
structure Excerpt where
  /-- The byte of the source at which the text starts. -/
  start : Nat
  /-- The text itself. -/
  text : String
deriving DecidableEq, Repr

namespace Excerpt

/-- The length in bytes. -/
def size (e : Excerpt) : Nat :=
  e.text.utf8ByteSize

/-- The excerpt that is all of a text. -/
def all (text : String) : Excerpt :=
  ⟨0, text⟩

/-- The empty excerpt at the start of another. -/
def opening (e : Excerpt) : Excerpt :=
  ⟨e.start, ""⟩

/-- An excerpt is taken from a source when the source is a text of `start` bytes, then the
excerpt's own text, then the rest. -/
def In (e : Excerpt) (source : String) : Prop :=
  ∃ before after : String, source = before ++ e.text ++ after ∧ before.utf8ByteSize = e.start

/-- Carets below an excerpt, to be printed under its source: a space for every byte before it and
a caret for every byte of it, but one caret at least. -/
def underline (e : Excerpt) : String :=
  String.ofList (List.replicate e.start ' ' ++ List.replicate (max e.size 1) '^')

/-! ## Places -/

theorem In.start_add_size_le {e : Excerpt} {source : String} (h : e.In source) :
    e.start + e.size ≤ source.utf8ByteSize := by
  obtain ⟨before, after, rfl, hb⟩ := h
  simp only [String.utf8ByteSize_append, size]
  omega

theorem all_in (text : String) : (all text).In text :=
  ⟨"", "", by simp [all], rfl⟩

theorem In.opening {e : Excerpt} {source : String} (h : e.In source) : e.opening.In source := by
  obtain ⟨before, after, rfl, hb⟩ := h
  exact ⟨before, e.text ++ after, by simp [Excerpt.opening, String.append_assoc], hb⟩

end Excerpt

end Grapher
