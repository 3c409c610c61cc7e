import Mathlib.Data.List.Nodup

/-!
# Announcements in a log

A log of what happens to things with an identity: something acts for `i` (`acted`), or it is announced that
`i` settles, with an amount (`settled`). The log comes from entries, one for each thing, in turn.

* `Announced`: each thing that settles is announced once, after all it did, and nothing else is announced.
* `announced_iff`: no entry that settles lacks its announcement.
-/

namespace Lob

inductive Note (ι : Type) where
  | acted (i : ι)
  | settled (i : ι) (amount : Int)
  deriving DecidableEq

/-- What happens to `i`: `acts` times something, then it settles with the amount `settles`, if any. -/
structure Entry (ι : Type) where
  i : ι
  acts : Nat
  settles : Option Int
  announced : Bool

variable {ι : Type}

def Note.subject : Note ι → ι
  | .acted i | .settled i _ => i

def Entry.notes (x : Entry ι) : List (Note ι) :=
  List.replicate x.acts (.acted x.i) ++ if x.announced then x.settles.toList.map (.settled x.i) else []

/-- The notes of things that each have the notes of an entry. -/
theorem Entry.flatMap_notes {α β : Type} {xs : List α} {events : α → List β} {note : β → Option (Note ι)}
    {entry : α → Entry ι} (h : ∀ x ∈ xs, (events x).filterMap note = (entry x).notes) :
    (xs.flatMap events).filterMap note = (xs.map entry).flatMap Entry.notes := by
  rw [List.filterMap_flatMap, List.flatMap_map]
  exact List.flatMap_congr h

def Entry.amount (x : Entry ι) : Option (ι × Int) := x.settles.map (x.i, ·)

/-- Each thing that settled is announced exactly once, behind all its other notes and with its amount, and
nothing else is announced. -/
structure Announced (notes : List (Note ι)) (settled : List (ι × Int)) : Prop where
  once : ∀ i q, (i, q) ∈ settled → ∃ pre post, notes = pre ++ .settled i q :: post ∧
    (∀ q', Note.settled i q' ∉ pre ++ post) ∧ .acted i ∉ post
  only : ∀ i q, .settled i q ∈ notes → (i, q) ∈ settled

theorem Entry.subject_notes {x : Entry ι} {n : Note ι} (h : n ∈ x.notes) : n.subject = x.i := by
  unfold Entry.notes at h
  rcases List.mem_append.mp h with h | h
  · rw [List.eq_of_mem_replicate h]
    rfl
  · split at h
    · obtain ⟨q, -, rfl⟩ := List.mem_map.mp h
      rfl
    · cases h

theorem Entry.settled_notes {x : Entry ι} {i : ι} {q : Int} (h : .settled i q ∈ x.notes) :
    x.announced = true ∧ x.i = i ∧ x.settles = some q := by
  unfold Entry.notes at h
  rcases List.mem_append.mp h with h | h
  · cases List.eq_of_mem_replicate h
  · split at h
    · next ha =>
      obtain ⟨q', hq', heq⟩ := List.mem_map.mp h
      cases heq
      exact ⟨ha, rfl, Option.mem_toList.mp hq'⟩
    · cases h

theorem Entry.mem_amounts {xs : List (Entry ι)} {i : ι} {q : Int} :
    (i, q) ∈ xs.filterMap Entry.amount ↔ ∃ x ∈ xs, x.i = i ∧ x.settles = some q := by
  rw [List.mem_filterMap]
  refine exists_congr fun x => and_congr_right fun _ => ?_
  rw [Entry.amount, Option.map_eq_some_iff]
  constructor
  · rintro ⟨q', hq', heq⟩
    cases heq
    exact ⟨rfl, hq'⟩
  · rintro ⟨rfl, hq⟩
    exact ⟨q, hq, rfl⟩

theorem announced_iff {xs : List (Entry ι)} (hnd : (xs.map (·.i)).Nodup) :
    Announced (xs.flatMap Entry.notes) (xs.filterMap Entry.amount) ↔
      ∀ x ∈ xs, x.settles.isSome = true → x.announced = true := by
  constructor
  · intro h x hx hs
    obtain ⟨q, hq⟩ := Option.isSome_iff_exists.mp hs
    obtain ⟨pre, post, heq, -, -⟩ := h.once x.i q (Entry.mem_amounts.mpr ⟨x, hx, rfl, hq⟩)
    have hmem : Note.settled x.i q ∈ xs.flatMap Entry.notes := by
      rw [heq]
      exact List.mem_append_right _ (List.mem_cons_self ..)
    obtain ⟨y, hy, hn⟩ := List.mem_flatMap.mp hmem
    obtain ⟨ha, hi, -⟩ := Entry.settled_notes hn
    rw [← List.inj_on_of_nodup_map hnd hy hx hi]
    exact ha
  · intro h
    refine ⟨fun i q hq => ?_, fun i q hn => ?_⟩
    · obtain ⟨x, hx, rfl, hs⟩ := Entry.mem_amounts.mp hq
      have ha := h x hx (Option.isSome_iff_exists.mpr ⟨q, hs⟩)
      obtain ⟨A, B, rfl⟩ := List.append_of_mem hx
      -- The other entries are about other things.
      have hother : ∀ n : Note ι, n.subject = x.i → n ∉ A.flatMap Entry.notes ∧ n ∉ B.flatMap Entry.notes := by
        intro n hi
        rw [List.map_append, List.map_cons] at hnd
        refine ⟨fun hn => ?_, fun hn => ?_⟩
        · obtain ⟨y, hy, hn⟩ := List.mem_flatMap.mp hn
          refine (List.nodup_append.mp hnd).2.2 y.i (List.mem_map_of_mem hy) x.i (List.mem_cons_self ..) ?_
          exact (y.subject_notes hn).symm.trans hi
        · obtain ⟨y, hy, hn⟩ := List.mem_flatMap.mp hn
          refine (List.nodup_cons.mp (List.nodup_append.mp hnd).2.1).1 ?_
          rw [← hi, y.subject_notes hn]
          exact List.mem_map_of_mem hy
      refine ⟨A.flatMap Entry.notes ++ List.replicate x.acts (.acted x.i), B.flatMap Entry.notes, ?_, fun q' hn => ?_,
        (hother _ rfl).2⟩
      · have hnotes : x.notes = List.replicate x.acts (.acted x.i) ++ [.settled x.i q] := by
          unfold Entry.notes
          rw [if_pos ha, hs]
          rfl
        rw [List.flatMap_append, List.flatMap_cons, hnotes]
        simp
      · rcases List.mem_append.mp hn with hn | hn
        · rcases List.mem_append.mp hn with hn | hn
          · exact (hother _ rfl).1 hn
          · cases List.eq_of_mem_replicate hn
        · exact (hother _ rfl).2 hn
    · obtain ⟨x, hx, hn⟩ := List.mem_flatMap.mp hn
      obtain ⟨-, hi, hs⟩ := Entry.settled_notes hn
      exact Entry.mem_amounts.mpr ⟨x, hx, hi, hs⟩

end Lob
