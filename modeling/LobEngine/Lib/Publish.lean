import Mathlib.Data.List.Basic

/-!
# Events that show a state

A call returns a list of numbered events, and one of them shows the state. `Publishes` says that it is
the only one, that it shows the state at the end of the call, and that no event has a number beyond the
one of that state.

* `publishes_iff`: for a list in which the event that shows a state is known.
* `numbered`: the events that are stamped with the numbers after one.
* `publishes_numbered`: the event that shows a state is stamped too, and shows its own number.
-/

namespace Lob

section

variable {α σ : Type} {shows : α → Option σ} {number : α → Option Int} {numberOf : σ → Int}

/-- Exactly one of the events shows a state, namely `final`, and none has a higher number. -/
def Publishes (shows : α → Option σ) (number : α → Option Int) (numberOf : σ → Int) (events : List α)
    (final : σ) : Prop :=
  (∃ A e B, events = A ++ e :: B ∧ (∀ x ∈ A ++ B, shows x = none) ∧ shows e = some final) ∧
    ∀ x ∈ events, ∀ n, number x = some n → n ≤ numberOf final

theorem publishes_iff {A B : List α} {e : α} {s final : σ} (h : ∀ x ∈ A ++ B, shows x = none)
    (he : shows e = some s) (hn : ∀ x ∈ A ++ e :: B, ∀ n, number x = some n → n ≤ numberOf final) :
    Publishes shows number numberOf (A ++ e :: B) final ↔ s = final := by
  constructor
  · rintro ⟨⟨A', e', B', heq, -, he'⟩, -⟩
    have hmem : e' ∈ A ++ e :: B := by rw [heq]; simp
    rw [List.mem_append, List.mem_cons] at hmem
    have hnot : e' ∉ A ++ B := fun hm => by
      rw [h e' hm] at he'
      cases he'
    rw [List.mem_append, not_or] at hnot
    rcases hmem with hm | rfl | hm
    · exact absurd hm hnot.1
    · rw [he] at he'
      exact Option.some.inj he'
    · exact absurd hm hnot.2
  · rintro rfl
    exact ⟨⟨A, e, B, rfl, h, he⟩, hn⟩

end

/-! ## Stamped events -/

/-- The bodies, stamped with the numbers after `n`. -/
def numbered {α β : Type} (stamp : Int → β → α) : Int → List β → List α
  | _, [] => []
  | n, e :: es => stamp (n + 1) e :: numbered stamp (n + 1) es

section

variable {α β γ σ : Type} {stamp : Int → β → α} {n : Int}

theorem numbered_append (n : Int) (A B : List β) :
    numbered stamp n (A ++ B) = numbered stamp n A ++ numbered stamp (n + A.length) B := by
  induction A generalizing n with
  | nil => simp [numbered]
  | cons e A ih =>
    have hlen : n + 1 + (A.length : Int) = n + ((e :: A).length : Int) := by
      rw [List.length_cons]
      omega
    rw [List.cons_append, numbered, numbered, ih, List.cons_append, hlen]

/-- What is picked of an event is what is picked of its body. -/
theorem numbered_filterMap {f : α → Option γ} {g : β → Option γ} (h : ∀ k e, f (stamp k e) = g e) (n : Int)
    (es : List β) : (numbered stamp n es).filterMap f = es.filterMap g := by
  induction es generalizing n with
  | nil => rfl
  | cons e es ih => rw [numbered, List.filterMap_cons, List.filterMap_cons, h, ih]

theorem mem_numbered {es : List β} {x : α} (hx : x ∈ numbered stamp n es) :
    ∃ k, ∃ e ∈ es, x = stamp k e ∧ k ≤ n + es.length := by
  induction es generalizing n with
  | nil => cases hx
  | cons e es ih =>
    rw [List.length_cons]
    rcases List.mem_cons.mp hx with rfl | hx
    · exact ⟨n + 1, e, List.mem_cons_self, rfl, by omega⟩
    · obtain ⟨k, y, hy, rfl, hk⟩ := ih hx
      exact ⟨k, y, List.mem_cons_of_mem _ hy, rfl, by omega⟩

variable {shows : α → Option σ} {number : α → Option Int} {numberOf : σ → Int} {u : β} (shown : Int → σ)

/-- Stamped events of which one, `u`, shows a state with its own number: it shows the state in the end, if it is the
last event. -/
theorem publishes_numbered (hnumber : ∀ k e, number (stamp k e) = some k) (hu : ∀ k, shows (stamp k u) = some (shown k))
    (hshown : ∀ k, numberOf (shown k) = k) {A B : List β} (hA : ∀ e ∈ A, ∀ k, shows (stamp k e) = none)
    (hB : ∀ e ∈ B, ∀ k, shows (stamp k e) = none) :
    Publishes shows number numberOf (numbered stamp n (A ++ [u] ++ B)) (shown (n + (A ++ [u] ++ B).length)) ↔
      B = [] := by
  have hnum : ∀ x ∈ numbered stamp n (A ++ [u] ++ B), ∀ m, number x = some m →
      m ≤ numberOf (shown (n + (A ++ [u] ++ B).length)) := by
    intro x hx m hm
    obtain ⟨k, e, -, rfl, hk⟩ := mem_numbered hx
    rw [hnumber, Option.some_inj] at hm
    rw [hshown, ← hm]
    exact hk
  have hnone : ∀ {es : List β} {k : Int}, (∀ e ∈ es, ∀ k, shows (stamp k e) = none) →
      ∀ x ∈ numbered stamp k es, shows x = none := by
    intro es k h x hx
    obtain ⟨j, e, he, rfl, -⟩ := mem_numbered hx
    exact h e he j
  rw [List.append_assoc, List.singleton_append] at hnum ⊢
  rw [numbered_append, numbered] at hnum ⊢
  rw [publishes_iff (fun x hx => (List.mem_append.mp hx).elim (hnone hA x) (hnone hB x)) (hu _) hnum,
    ← List.length_eq_zero_iff]
  have hlen : n + ((A ++ u :: B).length : Int) = n + A.length + 1 + B.length := by
    rw [List.length_append, List.length_cons]
    omega
  rw [hlen]
  constructor
  · intro h
    have h := congrArg numberOf h
    rw [hshown, hshown] at h
    omega
  · intro h
    rw [h, Int.natCast_zero, Int.add_zero]

end

end Lob
