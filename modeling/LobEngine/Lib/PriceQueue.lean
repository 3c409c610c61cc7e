import LobEngine.Lib.OMap
import Mathlib.Data.List.Dedup
import Mathlib.Data.List.Sort
import Mathlib.Data.List.TakeWhile
import Mathlib.Order.Basic

/-!
# Price-indexed queues and priority lists

A side of an order book is a map from a price to a FIFO queue. Its meaning is one flat list: the
best price first and, at one price, in the order of the queue. `Levels rank m holds key F` says
that the map `m` of levels stands for the flat list `F`: `F` is sorted by the rank of its keys, and
the level of `k` holds exactly the items of `F` with key `k`, in that order (`holds k l L`: the
level `l` of key `k` is the queue `L`); a key without items has no level.

* `Levels.best`, `Levels.head`: the first item of `F` heads the queue of the best key.
* `enqueue`: an item goes behind every item at least as good (`enqueue_filter`: to the end of its
  own level).
* `Levels.update`: an operation that changes one level only.
* `Levels.sorted_keys`: the keys of the map in order are the distinct keys of the list.
-/

namespace Lob

variable {ι : Type} [LinearOrder ι] {κ α Λ : Type}

section Levels

variable [DecidableEq κ]

/-- Level `o` of a key is the queue `L`: no level for no items. -/
def Slot (holds : Λ → List α → Prop) : Option Λ → List α → Prop
  | none, L => L = []
  | some l, L => L ≠ [] ∧ holds l L

/-- The map `m` of levels stands for the flat priority list `F` (module doc). -/
structure Levels (rank : κ → ι) (m : OMap κ Λ) (holds : κ → Λ → List α → Prop) (key : α → κ)
    (F : List α) : Prop where
  sorted : F.Pairwise fun a b => rank (key a) ≤ rank (key b)
  slot : ∀ k, Slot (holds k) (m.get? k) (F.filter (key · = k))

/-- Two lists sorted by rank with the same items at every key are equal. -/
theorem eq_of_sorted_filter {rank : κ → ι} (hinj : Function.Injective rank) {key : α → κ} :
    ∀ {F G : List α}, F.Pairwise (fun a b => rank (key a) ≤ rank (key b)) →
      G.Pairwise (fun a b => rank (key a) ≤ rank (key b)) →
      (∀ k, F.filter (key · = k) = G.filter (key · = k)) → F = G
  | [], G, _, _, h => by
    cases G with
    | nil => rfl
    | cons b G => have := h (key b); simp at this
  | a :: F, [], _, _, h => by have := h (key a); simp at this
  | a :: F, b :: G, hF, hG, h => by
    rw [List.pairwise_cons] at hF hG
    -- Each head is in the other list, so each key is at least as good as the other.
    have hb : b ∈ a :: F := by
      have : b ∈ (b :: G).filter (key · = key b) := by simp
      rw [← h] at this; exact List.mem_of_mem_filter this
    have ha : a ∈ b :: G := by
      have : a ∈ (a :: F).filter (key · = key a) := by simp
      rw [h] at this; exact List.mem_of_mem_filter this
    have hk : key a = key b := by
      apply hinj
      apply le_antisymm
      · rcases List.mem_cons.mp hb with e | e
        · rw [e]
        · exact hF.1 b e
      · rcases List.mem_cons.mp ha with e | e
        · rw [e]
        · exact hG.1 a e
    have hab : a = b := by
      have := h (key a)
      rw [List.filter_cons_of_pos (by simp), List.filter_cons_of_pos (by simp [hk])] at this
      exact (List.cons.inj this).1
    subst hab
    rw [eq_of_sorted_filter hinj hF.2 hG.2]
    intro k
    have := h k
    by_cases hka : key a = k
    · rw [List.filter_cons_of_pos (by simpa using hka),
        List.filter_cons_of_pos (by simpa using hka)] at this
      exact (List.cons.inj this).2
    · rwa [List.filter_cons_of_neg (by simpa using hka),
        List.filter_cons_of_neg (by simpa using hka)] at this

/-- A sorted list, one key after the other. -/
theorem flatMap_filter_dedup {rank : κ → ι} (hinj : Function.Injective rank) {key : α → κ} {L : List α}
    (hL : L.Pairwise fun x y => rank (key x) ≤ rank (key y)) :
    ((L.map key).dedup.flatMap fun k => L.filter (key · = k)) = L := by
  have hmap : (L.map key).Pairwise fun k k' => rank k ≤ rank k' := List.pairwise_map.mpr hL
  have hks := hmap.sublist (List.dedup_sublist _)
  refine eq_of_sorted_filter hinj ?_ hL fun k => ?_
  · refine List.pairwise_flatMap.mpr ⟨fun k _ => hL.sublist List.filter_sublist, ?_⟩
    refine hks.imp fun hkk x hx y hy => ?_
    rw [of_decide_eq_true (List.mem_filter.mp hx).2, of_decide_eq_true (List.mem_filter.mp hy).2]
    exact hkk
  · rw [List.filter_flatMap]
    have hone : ∀ k', (L.filter (key · = k')).filter (key · = k) =
        if k' = k then L.filter (key · = k) else [] := fun k' => by
      rw [List.filter_filter]
      split_ifs with e
      · exact List.filter_congr fun x _ => by rw [e, Bool.and_self]
      · refine List.filter_eq_nil_iff.mpr fun x _ hx => e ?_
        rw [Bool.and_eq_true, decide_eq_true_eq, decide_eq_true_eq] at hx
        exact hx.2.symm.trans hx.1
    simp only [hone]
    by_cases hk : k ∈ (L.map key).dedup
    · obtain ⟨A, B, he⟩ := List.append_of_mem hk
      have hn := List.nodup_dedup (L.map key)
      rw [he, List.nodup_append, List.nodup_cons] at hn
      have hnil : ∀ C : List κ, k ∉ C →
          C.flatMap (fun k' => if k' = k then L.filter (key · = k) else []) = [] := fun C hC =>
        List.flatMap_eq_nil_iff.mpr fun k' hk' => if_neg (ne_of_mem_of_not_mem hk' hC)
      rw [he, List.flatMap_append, List.flatMap_cons, if_pos rfl, hnil B hn.2.1.1,
        hnil A fun hA => hn.2.2 k hA k List.mem_cons_self rfl, List.append_nil, List.nil_append]
    · have hno : L.filter (key · = k) = [] := List.filter_eq_nil_iff.mpr fun x hx e =>
        hk (List.mem_dedup.mpr (List.mem_map.mpr ⟨x, hx, of_decide_eq_true e⟩))
      rw [hno]
      exact List.flatMap_eq_nil_iff.mpr fun k' _ => ite_self _

namespace Levels

variable {rank : κ → ι} {m : OMap κ Λ} {holds : κ → Λ → List α → Prop} {key : α → κ} {F : List α}

theorem empty (rank : κ → ι) (holds : κ → Λ → List α → Prop) (key : α → κ) :
    Levels rank .empty holds key [] := ⟨List.Pairwise.nil, fun _ => rfl⟩

theorem mem_keys (h : Levels rank m holds key F) {k : κ} :
    k ∈ m.keys ↔ ∃ a ∈ F, key a = k := by
  have hs := h.slot k
  rw [OMap.mem_keys]
  constructor
  · rintro ⟨l, hl⟩
    rw [hl] at hs
    obtain ⟨a, ha⟩ := List.exists_mem_of_ne_nil _ hs.1
    simp only [List.mem_filter, decide_eq_true_eq] at ha
    exact ⟨a, ha⟩
  · rintro ⟨a, ha, hk⟩
    cases hm : m.get? k with
    | some l => exact ⟨l, rfl⟩
    | none =>
      rw [hm] at hs
      have : a ∈ F.filter (key · = k) := by simp [ha, hk]
      rw [show _ = [] from hs] at this
      cases this

/-- The level of a key that is in the map. -/
theorem of_get? (h : Levels rank m holds key F) {k : κ} {l : Λ} (hl : m.get? k = some l) :
    holds k l (F.filter (key · = k)) ∧ F.filter (key · = k) ≠ [] := by
  have hs := h.slot k
  rw [hl] at hs
  exact ⟨hs.2, hs.1⟩

/-- The level of a key that some item has. -/
theorem level (h : Levels rank m holds key F) {a : α} (ha : a ∈ F) :
    ∃ l, m.get? (key a) = some l ∧ holds (key a) l (F.filter (key · = key a)) := by
  obtain ⟨l, hl⟩ := OMap.mem_keys.mp (h.mem_keys.mpr ⟨a, ha, rfl⟩)
  exact ⟨l, hl, (h.of_get? hl).1⟩

theorem nil_iff (h : Levels rank m holds key F) : F = [] ↔ m.keys = [] := by
  constructor
  · rintro rfl
    rw [List.eq_nil_iff_forall_not_mem]
    exact fun k hk => by simpa using h.mem_keys.mp hk
  · intro hm
    rw [List.eq_nil_iff_forall_not_mem]
    intro a ha
    have := h.mem_keys.mpr ⟨a, ha, rfl⟩
    rw [hm] at this
    cases this

/-- The key of the first item is the best key of the map. -/
theorem best {a : α} {F' : List α} (h : Levels rank m holds key (a :: F')) :
    key a ∈ m.keys ∧ ∀ k ∈ m.keys, rank (key a) ≤ rank k := by
  refine ⟨h.mem_keys.mpr ⟨a, List.mem_cons_self, rfl⟩, fun k hk => ?_⟩
  obtain ⟨b, hb, rfl⟩ := h.mem_keys.mp hk
  rcases List.mem_cons.mp hb with rfl | hb
  · exact le_rfl
  · exact (List.pairwise_cons.mp h.sorted).1 b hb

/-- The first item heads the queue of its level. -/
theorem head {a : α} {F' : List α} (h : Levels rank m holds key (a :: F')) :
    ∃ l, m.get? (key a) = some l ∧ holds (key a) l (a :: F'.filter (key · = key a)) := by
  obtain ⟨l, hl, hq⟩ := h.level (a := a) List.mem_cons_self
  rw [List.filter_cons_of_pos (by simp)] at hq
  exact ⟨l, hl, hq⟩

/-- An operation that changes at most the level of `k` and the items there. -/
theorem update {Λ' : Type} {m' : OMap κ Λ'} {holds' : κ → Λ' → List α → Prop} {key' : α → κ}
    {F' : List α} (h : Levels rank m holds key F) (k : κ)
    (hs : F'.Pairwise fun a b => rank (key' a) ≤ rank (key' b))
    (hk : Slot (holds' k) (m'.get? k) (F'.filter (key' · = k)))
    (ho : ∀ k', k' ≠ k → F'.filter (key' · = k') = F.filter (key · = k') ∧
      (Slot (holds k') (m.get? k') (F.filter (key · = k')) →
        Slot (holds' k') (m'.get? k') (F.filter (key · = k')))) :
    Levels rank m' holds' key' F' := by
  refine ⟨hs, fun k' => ?_⟩
  by_cases hk' : k' = k
  · exact hk' ▸ hk
  · obtain ⟨hf, hm⟩ := ho k' hk'
    rw [hf]
    exact hm (h.slot k')

/-- The same levels, seen through keys and queues that agree where it matters. -/
theorem congr {holds' : κ → Λ → List α → Prop} {key' : α → κ} (h : Levels rank m holds key F)
    (hq : ∀ k l, m.get? k = some l → holds k l (F.filter (key · = k)) →
      holds' k l (F.filter (key · = k)))
    (hk : ∀ a ∈ F, key' a = key a) : Levels rank m holds' key' F := by
  have hf : ∀ k, F.filter (key' · = k) = F.filter (key · = k) := fun k =>
    List.filter_congr fun a ha => by rw [hk a ha]
  refine ⟨?_, fun k => ?_⟩
  · refine h.sorted.imp_of_mem fun ha hb hab => ?_
    rw [hk _ ha, hk _ hb]; exact hab
  · have hs := h.slot k
    rw [hf]
    cases hm : m.get? k with
    | none => rw [hm] at hs; exact hs
    | some l => rw [hm] at hs; exact ⟨hs.1, hq k l hm hs.2⟩

/-- The keys of the map, sorted by rank, are the distinct keys of the list. -/
theorem sorted_keys (hinj : Function.Injective rank) (h : Levels rank m holds key F) :
    m.keys.insertionSort (fun k k' => rank k ≤ rank k') = (F.map key).dedup := by
  have : Std.Antisymm fun k k' => rank k ≤ rank k' := ⟨fun _ _ h h' => hinj (le_antisymm h h')⟩
  have : Std.Total fun k k' => rank k ≤ rank k' := ⟨fun _ _ => le_total _ _⟩
  have : IsTrans κ fun k k' => rank k ≤ rank k' := ⟨fun _ _ _ => le_trans⟩
  have hperm : List.Perm (m.keys.insertionSort fun k k' => rank k ≤ rank k') (F.map key).dedup := by
    refine (List.perm_insertionSort _ _).trans ?_
    rw [List.perm_ext_iff_of_nodup m.keys_nodup (List.nodup_dedup _)]
    intro k
    rw [h.mem_keys, List.mem_dedup, List.mem_map]
  have hF : (F.map key).Pairwise fun k k' => rank k ≤ rank k' := List.pairwise_map.mpr h.sorted
  exact List.Perm.eq_of_pairwise' (List.pairwise_insertionSort _ _)
    (hF.sublist (List.dedup_sublist _)) hperm

end Levels

end Levels

/-! ## Adding an item -/

/-- `a` behind every item of `F` that is at least as good. -/
def enqueue (rank : κ → ι) (key : α → κ) (a : α) (F : List α) : List α :=
  F.takeWhile (fun b => rank (key b) ≤ rank (key a)) ++
    a :: F.dropWhile (fun b => rank (key b) ≤ rank (key a))

section Enqueue

variable {rank : κ → ι} {key : α → κ} {a : α} {F : List α}

theorem enqueue_perm : (enqueue rank key a F).Perm (a :: F) := by
  unfold enqueue
  refine List.perm_middle.trans ?_
  rw [List.takeWhile_append_dropWhile]

theorem mem_enqueue {b : α} : b ∈ enqueue rank key a F ↔ b = a ∨ b ∈ F := by
  rw [enqueue_perm.mem_iff, List.mem_cons]

/-- Behind the insertion point every item is strictly worse. -/
theorem dropWhile_worse (hs : F.Pairwise fun a b => rank (key a) ≤ rank (key b)) :
    ∀ b ∈ F.dropWhile (fun b => rank (key b) ≤ rank (key a)), rank (key a) < rank (key b) := by
  induction F with
  | nil => intro b hb; cases hb
  | cons c F ih =>
    rw [List.pairwise_cons] at hs
    intro b hb
    by_cases hc : rank (key c) ≤ rank (key a)
    · rw [List.dropWhile_cons_of_pos (by simpa using hc)] at hb
      exact ih hs.2 b hb
    · rw [List.dropWhile_cons_of_neg (by simpa using hc)] at hb
      rcases List.mem_cons.mp hb with rfl | hb
      · exact lt_of_not_ge hc
      · exact lt_of_lt_of_le (lt_of_not_ge hc) (hs.1 b hb)

theorem takeWhile_better :
    ∀ b ∈ F.takeWhile (fun b => rank (key b) ≤ rank (key a)), rank (key b) ≤ rank (key a) := by
  intro b hb
  simpa using List.mem_takeWhile_imp hb

theorem enqueue_sorted (hs : F.Pairwise fun a b => rank (key a) ≤ rank (key b)) :
    (enqueue rank key a F).Pairwise fun a b => rank (key a) ≤ rank (key b) := by
  unfold enqueue
  rw [List.pairwise_append, List.pairwise_cons]
  refine ⟨hs.sublist (List.takeWhile_sublist _), ⟨fun b hb => (dropWhile_worse hs b hb).le,
    hs.sublist (List.dropWhile_sublist _)⟩, fun b hb c hc => ?_⟩
  have hba := takeWhile_better b hb
  rcases List.mem_cons.mp hc with rfl | hc
  · exact hba
  · exact hba.trans (dropWhile_worse hs c hc).le

/-- The new item is the last of its level, and no other level changes. -/
theorem enqueue_filter [DecidableEq κ] (hs : F.Pairwise fun a b => rank (key a) ≤ rank (key b)) (k : κ) :
    (enqueue rank key a F).filter (key · = k) =
      if key a = k then F.filter (key · = k) ++ [a] else F.filter (key · = k) := by
  have hF : F.filter (key · = k) =
      (F.takeWhile (fun b => rank (key b) ≤ rank (key a))).filter (key · = k) ++
        (F.dropWhile (fun b => rank (key b) ≤ rank (key a))).filter (key · = k) := by
    rw [← List.filter_append, List.takeWhile_append_dropWhile]
  unfold enqueue
  rw [List.filter_append]
  split
  · next h =>
    have hd : (F.dropWhile (fun b => rank (key b) ≤ rank (key a))).filter (key · = k) = [] := by
      rw [List.filter_eq_nil_iff]
      intro b hb
      have := dropWhile_worse hs b hb
      simp only [decide_eq_true_eq]
      rintro rfl
      rw [h] at this; exact lt_irrefl _ this
    rw [List.filter_cons_of_pos (by simpa using h), hF, hd, List.append_nil]
  · next h =>
    rw [List.filter_cons_of_neg (by simpa using h), hF]

theorem enqueue_map {β : Type} {key' : β → κ} (f : α → β) (ha : key' (f a) = key a)
    (hF : ∀ b ∈ F, key' (f b) = key b) :
    (enqueue rank key a F).map f = enqueue rank key' (f a) (F.map f) := by
  induction F with
  | nil => rfl
  | cons b F ih =>
    have ih := ih fun c hc => hF c (List.mem_cons_of_mem _ hc)
    unfold enqueue at ih ⊢
    have hb := hF b List.mem_cons_self
    by_cases hc : rank (key b) ≤ rank (key a)
    · rw [List.takeWhile_cons_of_pos (by simpa using hc),
        List.dropWhile_cons_of_pos (by simpa using hc), List.map_cons,
        List.takeWhile_cons_of_pos (by simpa [hb, ha] using hc),
        List.dropWhile_cons_of_pos (by simpa [hb, ha] using hc), List.cons_append, List.map_cons,
        ih, List.cons_append]
    · rw [List.takeWhile_cons_of_neg (by simpa using hc),
        List.dropWhile_cons_of_neg (by simpa using hc), List.map_cons,
        List.takeWhile_cons_of_neg (by simpa [hb, ha] using hc),
        List.dropWhile_cons_of_neg (by simpa [hb, ha] using hc)]
      rfl

/-- The place of an item does not depend on the other items. -/
theorem enqueue_filter_of (p : α → Bool) (hpa : p a = true)
    (hs : F.Pairwise fun a b => rank (key a) ≤ rank (key b)) :
    (enqueue rank key a F).filter p = enqueue rank key a (F.filter p) := by
  induction F with
  | nil => simp [enqueue, hpa]
  | cons b F ih =>
    rw [List.pairwise_cons] at hs
    have ih := ih hs.2
    unfold enqueue at ih ⊢
    by_cases hc : rank (key b) ≤ rank (key a)
    · rw [List.takeWhile_cons_of_pos (by simpa using hc), List.dropWhile_cons_of_pos (by simpa using hc),
        List.cons_append]
      by_cases hb : p b = true
      · rw [List.filter_cons_of_pos hb, List.filter_cons_of_pos hb, ih,
          List.takeWhile_cons_of_pos (by simpa using hc), List.dropWhile_cons_of_pos (by simpa using hc),
          List.cons_append]
      · rw [List.filter_cons_of_neg hb, List.filter_cons_of_neg hb, ih]
    · -- Everything from `b` on is worse than `a`.
      have hworse : ∀ c ∈ (b :: F).filter p, ¬ rank (key c) ≤ rank (key a) := by
        intro c hcm
        rcases List.mem_cons.mp (List.mem_of_mem_filter hcm) with rfl | hcF
        · exact hc
        · exact fun h => hc ((hs.1 c hcF).trans h)
      rw [List.takeWhile_cons_of_neg (by simpa using hc), List.dropWhile_cons_of_neg (by simpa using hc),
        List.nil_append, List.filter_cons_of_pos hpa]
      cases hF : (b :: F).filter p with
      | nil => rfl
      | cons c G =>
        have hcG := hworse c (by rw [hF]; exact List.mem_cons_self)
        rw [List.takeWhile_cons_of_neg (by simpa using hcG), List.dropWhile_cons_of_neg (by simpa using hcG)]
        rfl

end Enqueue

end Lob
