import Mathlib.Algebra.Ring.Nat
import Mathlib.Data.List.Basic

/-!
# Streams

A stream is a log whose entries have ids, in the order of their ids. An id is a text of the form
`<milliseconds>-<number>`; the number may be missing.

* `streamRank`: the place of an id in the order of all ids.
* `Stream.after`: the entries after an id, `Stream.range`: the first of them.
* `Stream.after_length_lt`: after the id of an entry there is less than before it.
-/

namespace Lob

structure StreamEntry (α : Type) where
  id : String
  value : α

abbrev Stream (α : Type) := List (StreamEntry α)

/-- A 64-bit number in decimal digits. -/
def decimal64 (s : List Char) : Option Nat :=
  let n := s.foldl (fun n c => n * 10 + (c.toNat - '0'.toNat)) 0
  if s ≠ [] ∧ s.all Char.isDigit ∧ n < 2 ^ 64 then some n else none

/-- The place of an id in the order of all ids; `none` if the text is not an id. -/
def streamRank (id : String) : Option Nat :=
  match id.toList.span (· ≠ '-') with
  | (ms, []) => (decimal64 ms).map (· * 2 ^ 64)
  | (ms, _ :: seq) => (decimal64 ms).bind fun m => (decimal64 seq).map (m * 2 ^ 64 + ·)

namespace Stream

variable {α : Type}

/-- The entries after the id `start`, or all entries; `none` if `start` is not an id. -/
def after (s : Stream α) (start : Option String) : Option (List (StreamEntry α)) :=
  match start with
  | none => some s
  | some id => (streamRank id).map fun k => s.filter fun e => k < (streamRank e.id).getD 0

/-- The first `count` entries after the id `start`. -/
def range (s : Stream α) (start : Option String) (count : Nat) : Option (List (StreamEntry α)) :=
  (s.after start).map (·.take count)

variable {s : Stream α} {start : Option String} {es : List (StreamEntry α)}

theorem mem_of_after (h : s.after start = some es) {e : StreamEntry α} (he : e ∈ es) : e ∈ s := by
  cases start with
  | none =>
    cases h
    exact he
  | some id =>
    obtain ⟨k, -, rfl⟩ := Option.map_eq_some_iff.mp h
    exact (List.mem_filter.mp he).1

theorem mem_of_range {count : Nat} (h : s.range start count = some es) {e : StreamEntry α} (he : e ∈ es) :
    e ∈ s := by
  obtain ⟨after, ha, rfl⟩ := Option.map_eq_some_iff.mp h
  exact mem_of_after ha (List.mem_of_mem_take he)

/-- After the id of an entry there is less than before it. -/
theorem after_length_lt {id : String} (h : s.after (some id) = some es) {e : StreamEntry α} (he : e ∈ es) :
    ((s.after (some e.id)).getD []).length < es.length := by
  obtain ⟨k, hk, rfl⟩ := Option.map_eq_some_iff.mp h
  obtain ⟨hmem, hlt⟩ := List.mem_filter.mp he
  have hlt := of_decide_eq_true hlt
  cases hr : streamRank e.id with
  | none =>
    rw [after, hr]
    exact List.length_pos_of_mem he
  | some k' =>
    rw [hr, Option.getD_some] at hlt
    rw [after, hr]
    show (s.filter fun x => k' < (streamRank x.id).getD 0).length < _
    have hsub : (s.filter fun x => decide (k' < (streamRank x.id).getD 0)) =
        (s.filter fun x => decide (k < (streamRank x.id).getD 0)).filter
          fun x => decide (k' < (streamRank x.id).getD 0) := by
      rw [List.filter_filter]
      refine List.filter_congr fun x _ => ?_
      by_cases hx : k' < (streamRank x.id).getD 0
      · simp [hx, Nat.lt_trans hlt hx]
      · simp [hx]
    rw [hsub]
    refine List.length_filter_lt_length_iff_exists.mpr ⟨e, he, ?_⟩
    simp [hr]

end Stream

end Lob
