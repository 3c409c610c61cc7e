import Mathlib.Algebra.Order.BigOperators.Group.List
import Mathlib.Algebra.Order.Group.Int
import Mathlib.Tactic.Linarith

/-!
# The greedy walk over a priority list

`walk accept qty reduce q L` is what price-time priority means: take items from the front of `L`
while quantity is left and the front item is acceptable, the smaller of the two quantities each
time. An item taken whole leaves the list; the last one taken may stay, reduced.

* `walk_left`: what is left of `q` is `q` minus what was taken.
* `walk_split`: the rest of the list is a suffix, with at most its first item reduced.
* `walk_map`: the walk depends on the items only through their acceptability and quantity.
* `walk_filter`: the walk does not depend on the items that it does not take.
-/

namespace Lob

variable {α β : Type}

/-- What a walk took (each item with the quantity taken from it), what is left of the quantity,
and the rest of the list. -/
structure WalkResult (α : Type) where
  fills : List (α × Int)
  left : Int
  rest : List α
  deriving DecidableEq

def walk (accept : α → Bool) (qty : α → Int) (reduce : Int → α → α) :
    Int → List α → WalkResult α
  | q, [] => ⟨[], q, []⟩
  | q, a :: as =>
    if q ≤ 0 ∨ accept a = false then ⟨[], q, a :: as⟩
    else if qty a ≤ q then
      let w := walk accept qty reduce (q - qty a) as
      ⟨(a, qty a) :: w.fills, w.left, w.rest⟩
    else ⟨[(a, q)], 0, reduce q a :: as⟩

/-- The quantity taken. -/
def WalkResult.taken (w : WalkResult α) : Int := (w.fills.map Prod.snd).sum

section Walk

variable {accept : α → Bool} {qty : α → Int} {reduce : Int → α → α}

/-- The walk does not start. -/
theorem walk_stopped {q : Int} {a : α} {as : List α} (h : q ≤ 0 ∨ accept a = false) :
    walk accept qty reduce q (a :: as) = ⟨[], q, a :: as⟩ := by
  rw [walk, if_pos h]

/-- The walk takes the first item whole. -/
theorem walk_whole {q : Int} {a : α} {as : List α} (hq : 0 < q) (ha : accept a = true)
    (hle : qty a ≤ q) : walk accept qty reduce q (a :: as) =
      ⟨(a, qty a) :: (walk accept qty reduce (q - qty a) as).fills,
        (walk accept qty reduce (q - qty a) as).left,
        (walk accept qty reduce (q - qty a) as).rest⟩ := by
  rw [walk, if_neg (by simp [ha, hq]), if_pos hle]

/-- The walk ends inside the first item. -/
theorem walk_part {q : Int} {a : α} {as : List α} (hq : 0 < q) (ha : accept a = true)
    (hlt : q < qty a) : walk accept qty reduce q (a :: as) = ⟨[(a, q)], 0, reduce q a :: as⟩ := by
  rw [walk, if_neg (by simp [ha, hq]), if_neg (by omega)]

/-- Induction over a walk: it stops, it takes an item whole and goes on, or it ends inside an
item. -/
theorem walk_induction (accept : α → Bool) (qty : α → Int) {motive : Int → List α → Prop}
    (nil : ∀ q, motive q [])
    (stop : ∀ q a as, q ≤ 0 ∨ accept a = false → motive q (a :: as))
    (whole : ∀ q a as, 0 < q → accept a = true → qty a ≤ q → motive (q - qty a) as →
      motive q (a :: as))
    (part : ∀ q a as, 0 < q → accept a = true → q < qty a → motive q (a :: as)) :
    ∀ q L, motive q L := by
  intro q L
  induction L generalizing q with
  | nil => exact nil q
  | cons a as ih =>
    by_cases hs : q ≤ 0 ∨ accept a = false
    · exact stop q a as hs
    · rw [not_or, Bool.not_eq_false, not_le] at hs
      by_cases hle : qty a ≤ q
      · exact whole q a as hs.1 hs.2 hle (ih _)
      · exact part q a as hs.1 hs.2 (not_le.mp hle)

/-- What is left is the quantity minus what was taken. -/
theorem walk_left (q : Int) (L : List α) :
    (walk accept qty reduce q L).left = q - (walk accept qty reduce q L).taken := by
  unfold WalkResult.taken
  induction q, L using walk_induction accept qty with
  | nil q => simp [walk]
  | stop q a as h => simp [walk_stopped h]
  | whole q a as hq ha hle ih =>
    rw [walk_whole hq ha hle]
    simp only [List.map_cons, List.sum_cons]
    omega
  | part q a as hq ha hlt => simp [walk_part hq ha hlt]

theorem walk_left_nonneg {q : Int} (L : List α) (h : 0 ≤ q) :
    0 ≤ (walk accept qty reduce q L).left := by
  induction q, L using walk_induction accept qty with
  | nil q => exact h
  | stop q a as hs => rw [walk_stopped hs]; exact h
  | whole q a as hq ha hle ih => rw [walk_whole hq ha hle]; exact ih (by omega)
  | part q a as hq ha hlt => rw [walk_part hq ha hlt]

/-- Each quantity taken is positive, and at most what the item has. -/
theorem walk_fills {q : Int} {L : List α} (hL : ∀ a ∈ L, 0 < qty a) :
    ∀ f ∈ (walk accept qty reduce q L).fills,
      f.1 ∈ L ∧ accept f.1 = true ∧ 0 < f.2 ∧ f.2 ≤ qty f.1 := by
  induction q, L using walk_induction accept qty with
  | nil q => simp [walk]
  | stop q a as h => simp [walk_stopped h]
  | whole q a as hq ha hle ih =>
    rw [walk_whole hq ha hle]
    intro f hf
    rcases List.mem_cons.mp hf with rfl | hf
    · exact ⟨List.mem_cons_self, ha, hL a List.mem_cons_self, le_rfl⟩
    · obtain ⟨h₁, h₂⟩ := ih (fun b hb => hL b (List.mem_cons_of_mem _ hb)) f hf
      exact ⟨List.mem_cons_of_mem _ h₁, h₂⟩
  | part q a as hq ha hlt =>
    rw [walk_part hq ha hlt]
    intro f hf
    obtain rfl := List.mem_singleton.mp hf
    exact ⟨List.mem_cons_self, ha, hq, hlt.le⟩

theorem walk_taken_nonneg {q : Int} {L : List α} (hL : ∀ a ∈ L, 0 < qty a) :
    0 ≤ (walk accept qty reduce q L).taken := by
  apply List.sum_nonneg
  intro x hx
  obtain ⟨f, hf, rfl⟩ := List.mem_map.mp hx
  exact (walk_fills hL f hf).2.2.1.le

/-- The items taken whole are a prefix; the rest is what follows, with at most its first item
reduced by what was taken from it. -/
theorem walk_split (q : Int) (L : List α) :
    ∃ pre suf, L = pre ++ suf ∧
      ((walk accept qty reduce q L).fills = pre.map (fun a => (a, qty a)) ∧
          (walk accept qty reduce q L).rest = suf ∨
        ∃ a as f, suf = a :: as ∧ 0 < f ∧ f < qty a ∧
          (walk accept qty reduce q L).fills = pre.map (fun a => (a, qty a)) ++ [(a, f)] ∧
          (walk accept qty reduce q L).rest = reduce f a :: as ∧
          (walk accept qty reduce q L).left = 0) := by
  induction q, L using walk_induction accept qty with
  | nil q => exact ⟨[], [], rfl, .inl ⟨rfl, rfl⟩⟩
  | stop q a as h => exact ⟨[], a :: as, rfl, .inl (by simp [walk_stopped h])⟩
  | whole q a as hq ha hle ih =>
    obtain ⟨pre, suf, rfl, h⟩ := ih
    refine ⟨a :: pre, suf, rfl, ?_⟩
    rw [walk_whole hq ha hle]
    rcases h with ⟨h₁, h₂⟩ | ⟨b, bs, f, rfl, hf, hfb, h₁, h₂, h₃⟩
    · exact .inl ⟨by simp [h₁], h₂⟩
    · exact .inr ⟨b, bs, f, rfl, hf, hfb, by simp [h₁], h₂, h₃⟩
  | part q a as hq ha hlt =>
    refine ⟨[], a :: as, rfl, .inr ⟨a, as, q, rfl, hq, hlt, ?_⟩⟩
    rw [walk_part hq ha hlt]
    exact ⟨rfl, rfl, rfl⟩

/-- Each item taken is one of the list. -/
theorem walk_mem (q : Int) (L : List α) : ∀ f ∈ (walk accept qty reduce q L).fills, f.1 ∈ L := by
  obtain ⟨pre, suf, hL, ⟨h, -⟩ | ⟨a, as, n, rfl, -, -, h, -⟩⟩ := @walk_split α accept qty reduce q L
  · rw [h, hL]
    rintro f hf
    obtain ⟨a, ha, rfl⟩ := List.mem_map.mp hf
    exact List.mem_append_left _ ha
  · rw [h, hL]
    intro f hf
    rcases List.mem_append.mp hf with hf | hf
    · obtain ⟨b, hb, rfl⟩ := List.mem_map.mp hf
      exact List.mem_append_left _ hb
    · obtain rfl := List.mem_singleton.mp hf
      simp

/-- Each item of the rest is an item of the list, or one of which a part was taken. -/
theorem walk_rest (q : Int) (L : List α) :
    ∀ x ∈ (walk accept qty reduce q L).rest,
      ∃ a ∈ L, x = a ∨ ∃ n, 0 < n ∧ n < qty a ∧ x = reduce n a := by
  obtain ⟨pre, suf, hL, ⟨-, h⟩ | ⟨a, as, f, rfl, hf, hlt, -, h, -⟩⟩ :=
    @walk_split α accept qty reduce q L
  · rw [h, hL]
    exact fun x hx => ⟨x, List.mem_append_right _ hx, .inl rfl⟩
  · rw [h, hL]
    intro x hx
    rcases List.mem_cons.mp hx with rfl | hx
    · exact ⟨a, by simp, .inr ⟨f, hf, hlt, rfl⟩⟩
    · exact ⟨x, by simp [hx], .inl rfl⟩

/-- What taking a part does not change is, on the rest, a suffix of what it was on the list. -/
theorem walk_rest_suffix (f : α → β) (hf : ∀ n a, f (reduce n a) = f a) (q : Int) (L : List α) :
    (walk accept qty reduce q L).rest.map f <:+ L.map f := by
  obtain ⟨pre, suf, hL, ⟨-, h⟩ | ⟨a, as, n, rfl, -, -, -, h, -⟩⟩ :=
    @walk_split α accept qty reduce q L
  · rw [h, hL, List.map_append]
    exact List.suffix_append _ _
  · rw [h, hL, List.map_append, List.map_cons, hf, ← List.map_cons]
    exact List.suffix_append _ _

/-- The rest has what the list had, minus what was taken. -/
theorem walk_rest_qty (hr : ∀ n a, qty (reduce n a) = qty a - n) (q : Int) (L : List α) :
    ((walk accept qty reduce q L).rest.map qty).sum =
      (L.map qty).sum - (walk accept qty reduce q L).taken := by
  unfold WalkResult.taken
  induction q, L using walk_induction accept qty with
  | nil q => simp [walk]
  | stop q a as h => simp [walk_stopped h]
  | whole q a as hq ha hle ih =>
    rw [walk_whole hq ha hle]
    simp only [List.map_cons, List.sum_cons]
    omega
  | part q a as hq ha hlt =>
    simp only [walk_part hq ha hlt, List.map_cons, List.sum_cons, hr, List.map_nil, List.sum_nil]
    omega

/-- A weight that a partial fill does not raise. -/
theorem walk_rest_sum_le {w : α → Int} (hr : ∀ n a, 0 < n → w (reduce n a) ≤ w a) (q : Int) {L : List α}
    (hw : ∀ a ∈ L, 0 ≤ w a) : ((walk accept qty reduce q L).rest.map w).sum ≤ (L.map w).sum := by
  obtain ⟨pre, suf, hL, h⟩ := @walk_split α accept qty reduce q L
  have hpre : 0 ≤ (pre.map w).sum := List.sum_nonneg fun x hx => by
    obtain ⟨a, ha, rfl⟩ := List.mem_map.mp hx
    exact hw a (hL ▸ List.mem_append_left _ ha)
  have hsum : (L.map w).sum = (pre.map w).sum + (suf.map w).sum := by
    rw [hL, List.map_append, List.sum_append]
  rcases h with ⟨-, h⟩ | ⟨a, as, n, rfl, hn, -, -, h, -⟩
  · rw [h]
    omega
  · have := hr n a hn
    rw [List.map_cons, List.sum_cons] at hsum
    rw [h, List.map_cons, List.sum_cons]
    omega

/-- The walk through a map that keeps acceptability and quantity and commutes with `reduce`. -/
theorem walk_map {accept' : β → Bool} {qty' : β → Int} {reduce' : Int → β → β} (f : α → β)
    {L : List α} (ha : ∀ a ∈ L, accept' (f a) = accept a) (hq : ∀ a ∈ L, qty' (f a) = qty a)
    (hr : ∀ a ∈ L, ∀ n, f (reduce n a) = reduce' n (f a)) (q : Int) :
    walk accept' qty' reduce' q (L.map f) =
      ⟨(walk accept qty reduce q L).fills.map (fun x => (f x.1, x.2)),
        (walk accept qty reduce q L).left, (walk accept qty reduce q L).rest.map f⟩ := by
  induction q, L using walk_induction accept qty with
  | nil q => rfl
  | stop q a as h =>
    rw [walk_stopped h, List.map_cons, walk_stopped (by rw [ha a List.mem_cons_self]; exact h)]
    rfl
  | whole q a as hq' ha' hle ih =>
    have ih := ih (fun b hb => ha b (List.mem_cons_of_mem _ hb))
      (fun b hb => hq b (List.mem_cons_of_mem _ hb)) (fun b hb => hr b (List.mem_cons_of_mem _ hb))
    have e := hq a List.mem_cons_self
    rw [walk_whole hq' ha' hle, List.map_cons,
      walk_whole hq' (by rw [ha a List.mem_cons_self]; exact ha') (by rw [e]; exact hle), e, ih]
    rfl
  | part q a as hq' ha' hlt =>
    have e := hq a List.mem_cons_self
    rw [walk_part hq' ha' hlt, List.map_cons,
      walk_part hq' (by rw [ha a List.mem_cons_self]; exact ha') (by rw [e]; exact hlt)]
    simp [hr a List.mem_cons_self]

/-- Nothing is wanted: the walk takes nothing. -/
theorem walk_done {q : Int} (hq : q ≤ 0) (L : List α) : walk accept qty reduce q L = ⟨[], q, L⟩ := by
  cases L with
  | nil => rfl
  | cons a as => exact walk_stopped (.inl hq)

/-- No item is acceptable: the walk takes nothing. -/
theorem walk_refused {L : List α} (hL : ∀ a ∈ L, accept a = false) (q : Int) :
    walk accept qty reduce q L = ⟨[], q, L⟩ := by
  cases L with
  | nil => rfl
  | cons a as => exact walk_stopped (.inr (hL a List.mem_cons_self))

/-- Items that the walk does not take may as well be missing, if behind an item that is not acceptable
none is. -/
theorem walk_filter (p : α → Bool) (hp : ∀ n a, p (reduce n a) = p a) {q : Int} {L : List α}
    (hL : L.Pairwise fun a b => accept a = false → accept b = false)
    (hno : ∀ f ∈ (walk accept qty reduce q L).fills, p f.1 = true) :
    walk accept qty reduce q (L.filter p) =
      ⟨(walk accept qty reduce q L).fills, (walk accept qty reduce q L).left,
        (walk accept qty reduce q L).rest.filter p⟩ := by
  induction q, L using walk_induction accept qty with
  | nil q => rfl
  | stop q a as h =>
    rw [walk_stopped h]
    rcases h with h | h
    · exact walk_done h _
    · refine walk_refused (fun b hb => ?_) q
      rcases List.mem_cons.mp (List.mem_of_mem_filter hb) with rfl | hb
      · exact h
      · exact (List.pairwise_cons.mp hL).1 b hb h
  | whole q a as hq ha hle ih =>
    rw [walk_whole hq ha hle] at hno ⊢
    have hpa : p a = true := hno _ List.mem_cons_self
    rw [List.filter_cons_of_pos hpa, walk_whole hq ha hle,
      ih (List.pairwise_cons.mp hL).2 fun f hf => hno f (List.mem_cons_of_mem _ hf)]
  | part q a as hq ha hlt =>
    rw [walk_part hq ha hlt] at hno ⊢
    have hpa : p a = true := hno _ List.mem_cons_self
    rw [List.filter_cons_of_pos hpa, walk_part hq ha hlt, List.filter_cons_of_pos (by rw [hp, hpa])]

end Walk

end Lob
