import LobEngine.Node.OrderBook

/-!
# A side of the book as a list of nodes

`SideIs h s m F` says that in the heap `h` the map `m` of side `s` is the flat list `F` of nodes:
its levels are linked queues with exact counters (`LevelIs`), and its orders may rest on `s`.

* `SideIs.frame`: what happens elsewhere in the heap does not matter.
* `SideIs.reduce`: the first order trades a part of what it has.
* `SideIs.erase`: any order leaves.
* `SideIs.push`: an order comes to rest. `SideIs.addLevel`: so do all orders of a new level.
-/

namespace Lob.Node

open Exc

/-- The price of a node's order. -/
def Heap.price (h : Heap) (r : NodeRef) : Int := (h.order r).price

/-- What is left of the orders of `Q`. -/
def Heap.remaining (h : Heap) (Q : List NodeRef) : Int :=
  (Q.map fun r => (h.order r).remainingQuantity).sum

/-- The level `l` has price `k` and is the queue `Q`, with both counters exact. -/
structure LevelIs (h : Heap) (k : Int) (l : LevelRef) (Q : List NodeRef) : Prop where
  linked : Linked h l Q
  price : (h.level l).priceTicks = k
  total : (h.level l).totalQuantity = .int (h.remaining Q)
  bound : l < h.levels

/-- The map `m` of side `s` is the flat list `F` (module doc). -/
structure SideIs (h : Heap) (s : Side) (m : OMap Int LevelRef) (F : List NodeRef) : Prop where
  levels : Levels s.rank m (LevelIs h) h.price F
  nodup : F.Nodup
  rests : ∀ r ∈ F, (h.order r).RestsOn s

section

variable {h h' : Heap} {s : Side} {m m' : OMap Int LevelRef} {F Q : List NodeRef} {k : Int}
  {l : LevelRef}

@[simp] theorem remaining_nil (h : Heap) : h.remaining [] = 0 := rfl

@[simp] theorem remaining_cons (h : Heap) (r : NodeRef) (Q : List NodeRef) :
    h.remaining (r :: Q) = (h.order r).remainingQuantity + h.remaining Q := rfl

@[simp] theorem remaining_append (h : Heap) (A B : List NodeRef) :
    h.remaining (A ++ B) = h.remaining A + h.remaining B := by
  simp [Heap.remaining]

theorem remaining_congr (he : ∀ r ∈ Q, h'.order r = h.order r) : h'.remaining Q = h.remaining Q := by
  unfold Heap.remaining
  rw [List.map_congr_left fun r hr => by rw [he r hr]]

/-- A part of a side has at most what the side has. -/
theorem SideIs.remaining_le (hs : SideIs h s m F) (hQ : Q.Sublist F) :
    0 ≤ h.remaining Q ∧ h.remaining Q ≤ h.remaining F := by
  have hpos : ∀ x ∈ F.map fun r => (h.order r).remainingQuantity, 0 ≤ x := by
    intro x hx
    obtain ⟨r, hr, rfl⟩ := List.mem_map.mp hx
    exact (hs.rests r hr).remaining.le
  have hsub := hQ.map fun r => (h.order r).remainingQuantity
  exact ⟨List.sum_nonneg fun x hx => hpos x (hsub.subset hx), hsub.sum_le_sum hpos⟩

/-! ## Frames -/

theorem LevelIs.frame (hl : LevelIs h k l Q) (hn : h.nodes ≤ h'.nodes) (hlv : h.levels ≤ h'.levels)
    (hlev : h'.level l = h.level l) (hnode : ∀ r ∈ Q, h'.node r = h.node r) : LevelIs h' k l Q where
  linked := hl.linked.frame hn hlev fun r hr => by rw [hnode r hr]; exact ⟨rfl, rfl, rfl⟩
  price := hlev ▸ hl.price
  total := by
    have e : h'.remaining Q = h.remaining Q :=
      remaining_congr fun r hr => by rw [Heap.order, hnode r hr]; rfl
    rw [hlev, hl.total, e]
  bound := hl.bound.trans_le hlv

/-- A side does not notice what happens to other nodes and other levels. -/
theorem SideIs.frame (hs : SideIs h s m F) (hn : h.nodes ≤ h'.nodes) (hlv : h.levels ≤ h'.levels)
    (hlev : ∀ l ∈ m.values, h'.level l = h.level l) (hnode : ∀ r ∈ F, h'.node r = h.node r) :
    SideIs h' s m F where
  levels := hs.levels.congr
    (fun k l hl hQ => hQ.frame hn hlv (hlev l (OMap.mem_values.mpr ⟨k, hl⟩)) fun r hr =>
      hnode r (List.mem_of_mem_filter hr))
    fun r hr => by rw [Heap.price, Heap.order, hnode r hr]; rfl
  nodup := hs.nodup
  rests := fun r hr => by rw [Heap.order, hnode r hr]; exact hs.rests r hr

/-- Two levels of one side are different objects. -/
theorem SideIs.level_ne (hs : SideIs h s m F) {k' : Int} {l' : LevelRef} (hl : m.get? k = some l)
    (hl' : m.get? k' = some l') (hk : k' ≠ k) : l' ≠ l := by
  rintro rfl
  exact hk ((hs.levels.of_get? hl').1.price.symm.trans (hs.levels.of_get? hl).1.price)

theorem SideIs.node_bound (hs : SideIs h s m F) : ∀ r ∈ F, r < h.nodes := by
  intro r hr
  obtain ⟨l, -, hl⟩ := hs.levels.level hr
  exact hl.linked.bound r (by simp [hr])

theorem SideIs.mem_level (hs : SideIs h s m F) {r : NodeRef} (hr : r ∈ F) :
    ∃ l, m.get? (h.price r) = some l ∧ (h.node r).priceLevel = some l := by
  obtain ⟨l, hl, hQ⟩ := hs.levels.level hr
  exact ⟨l, hl, hQ.linked.mem_level r (by simp [hr])⟩

/-- The levels and the nodes of the two sides are different objects. -/
theorem SideIs.disjoint {G : List NodeRef} {m' : OMap Int LevelRef} (hs : SideIs h s m F)
    (hs' : SideIs h s.opposite m' G) : (∀ r ∈ F, r ∉ G) ∧ ∀ l ∈ m.values, l ∉ m'.values := by
  have hFG : ∀ r ∈ F, r ∉ G := fun r hr hr' =>
    s.opposite_ne ((hs'.rests r hr').side.symm.trans (hs.rests r hr).side)
  refine ⟨hFG, fun l hl hl' => ?_⟩
  obtain ⟨k, hk⟩ := OMap.mem_values.mp hl
  obtain ⟨k', hk'⟩ := OMap.mem_values.mp hl'
  obtain ⟨hQ, hne⟩ := hs.levels.of_get? hk
  obtain ⟨hQ', hne'⟩ := hs'.levels.of_get? hk'
  -- Both queues would start with the head of the one level.
  obtain ⟨r, hr⟩ := List.exists_mem_of_ne_nil _ hne
  have hh := hQ.linked.head.symm.trans hQ'.linked.head
  cases hc : F.filter (h.price · = k) with
  | nil => exact hne hc
  | cons x xs =>
    rw [hc] at hh
    have hx : x ∈ F := List.mem_of_mem_filter (by rw [hc]; exact List.mem_cons_self)
    exact hFG x hx (List.mem_of_mem_filter (List.mem_of_head? hh.symm))

/-! ## Operations -/

/-- An operation that changes the queue of one price only. -/
theorem SideIs.update {F' : List NodeRef} (hs : SideIs h s m F) (k : Int)
    (hn : h.nodes ≤ h'.nodes) (hlv : h.levels ≤ h'.levels)
    (hsorted : F'.Pairwise fun a b => s.rank (h'.price a) ≤ s.rank (h'.price b))
    (hnodup : F'.Nodup) (hrests : ∀ r ∈ F', (h'.order r).RestsOn s)
    (hk : Slot (LevelIs h' k) (m'.get? k) (F'.filter (h'.price · = k)))
    (hother : ∀ k', k' ≠ k → m'.get? k' = m.get? k' ∧
      F'.filter (h'.price · = k') = F.filter (h.price · = k'))
    (hlev : ∀ k' l', k' ≠ k → m.get? k' = some l' → h'.level l' = h.level l')
    (hnode : ∀ x ∈ F, h.price x ≠ k → h'.node x = h.node x) : SideIs h' s m' F' where
  levels := by
    refine hs.levels.update k hsorted hk fun k' hk' => ⟨(hother k' hk').2, fun hslot => ?_⟩
    rw [(hother k' hk').1]
    cases hm : m.get? k' with
    | none => rw [hm] at hslot; exact hslot
    | some l' =>
      rw [hm] at hslot
      refine ⟨hslot.1, hslot.2.frame hn hlv (hlev k' l' hk' hm) fun x hx => ?_⟩
      simp only [List.mem_filter, decide_eq_true_eq] at hx
      exact hnode x hx.1 (by rw [hx.2]; exact hk')
  nodup := hnodup
  rests := hrests

/-- The first order trades a part of what it has. -/
theorem SideIs.reduce {r : NodeRef} {q : Int} (hs : SideIs h s m (r :: F))
    (hl : m.get? (h.price r) = some l) (hq : 0 < q) (hlt : q < (h.order r).remainingQuantity)
    (hn : h'.nodes = h.nodes) (hlv : h'.levels = h.levels)
    (hr : h'.node r = { h.node r with toOrder := (h.order r).filledBy q })
    (hnode : ∀ x ∈ F, h'.node x = h.node x)
    (hlev : h'.level l = { h.level l with
      totalQuantity := .int (h.remaining (r :: F.filter (h.price · = h.price r)) - q) })
    (hlev' : ∀ l' ∈ m.values, l' ≠ l → h'.level l' = h.level l') : SideIs h' s m (r :: F) := by
  have hord : h'.order r = (h.order r).filledBy q := by rw [Heap.order, hr]
  have hprice : ∀ x ∈ r :: F, h'.price x = h.price x := by
    intro x hx
    rcases List.mem_cons.mp hx with rfl | hx
    · rw [Heap.price, hord, Order.filledBy_price]; rfl
    · rw [Heap.price, Heap.order, hnode x hx]; rfl
  have hfil : ∀ k, (r :: F).filter (h'.price · = k) = (r :: F).filter (h.price · = k) := fun k =>
    List.filter_congr fun x hx => by rw [hprice x hx]
  obtain ⟨hQ, -⟩ := hs.levels.of_get? hl
  rw [List.filter_cons_of_pos (by simp)] at hQ
  have hnd := List.nodup_cons.mp hs.nodup
  refine hs.update (h.price r) hn.ge hlv.ge ?_ hs.nodup ?_ ?_ (fun k' _ => ⟨rfl, hfil k'⟩)
    (fun k' l' hk' hl' => hlev' l' (OMap.mem_values.mpr ⟨k', hl'⟩) (hs.level_ne hl hl' hk')) ?_
  · exact hs.levels.sorted.imp_of_mem fun ha hb hab => by rw [hprice _ ha, hprice _ hb]; exact hab
  · intro x hx
    rcases List.mem_cons.mp hx with rfl | hx
    · rw [hord]; exact (hs.rests x List.mem_cons_self).filledBy hq hlt
    · rw [Heap.order, hnode x hx]; exact hs.rests x (List.mem_cons_of_mem _ hx)
  · rw [hl, hfil, List.filter_cons_of_pos (by simp)]
    have hrem : h'.remaining (F.filter (h.price · = h.price r)) =
        h.remaining (F.filter (h.price · = h.price r)) := remaining_congr fun x hx => by
      rw [Heap.order, hnode x (List.mem_of_mem_filter hx)]; rfl
    refine ⟨List.cons_ne_nil _ _, ⟨?_, ?_, ?_, ?_, ?_, ?_⟩, ?_, ?_, ?_⟩
    · rw [hlev]; exact hQ.linked.head
    · rw [hlev]; exact hQ.linked.tail
    · refine hQ.linked.seg.congr fun x hx => ?_
      rcases List.mem_cons.mp hx with rfl | hx
      · rw [hr]; exact ⟨rfl, rfl, rfl⟩
      · rw [hnode x (List.mem_of_mem_filter hx)]; exact ⟨rfl, rfl, rfl⟩
    · exact hQ.linked.nodup
    · rw [hlev]; exact hQ.linked.count
    · rw [hn]; exact hQ.linked.bound
    · rw [hlev]; exact hQ.price
    · have e : h'.remaining (r :: F.filter (h.price · = h.price r)) =
          h.remaining (r :: F.filter (h.price · = h.price r)) - q := by
        rw [remaining_cons, remaining_cons, hrem, hord, Order.filledBy_remaining]; omega
      rw [hlev, e]
    · rw [hlv]; exact hQ.bound
  · intro x hx hne
    rcases List.mem_cons.mp hx with rfl | hx
    · exact absurd rfl hne
    · exact hnode x hx

/-- Any order leaves: its node is removed from its level, and an empty level from the side. -/
theorem SideIs.erase {A B : List NodeRef} {r : NodeRef} (hs : SideIs h s m (A ++ r :: B))
    (hl : m.get? (h.price r) = some l) (hn : h'.nodes = h.nodes) (hlv : h'.levels = h.levels)
    (hlinked : Linked h' l ((A ++ B).filter (h.price · = h.price r)))
    (hprice : (h'.level l).priceTicks = (h.level l).priceTicks)
    (htotal : (h'.level l).totalQuantity =
      .int (h.remaining ((A ++ B).filter (h.price · = h.price r))))
    (hord : ∀ x ∈ A ++ B, h'.order x = h.order x)
    (hnode : ∀ x ∈ A ++ B, h.price x ≠ h.price r → h'.node x = h.node x)
    (hlev' : ∀ l' ∈ m.values, l' ≠ l → h'.level l' = h.level l') :
    SideIs h' s (if (A ++ B).filter (h.price · = h.price r) = [] then m.delete (h.price r) else m)
      (A ++ B) := by
  have hsub : (A ++ B).Sublist (A ++ r :: B) :=
    List.Sublist.append_left (List.sublist_cons_self r B) A
  have hp : ∀ x ∈ A ++ B, h'.price x = h.price x := fun x hx => by rw [Heap.price, hord x hx]; rfl
  have hfil : ∀ k, (A ++ B).filter (h'.price · = k) = (A ++ B).filter (h.price · = k) := fun k =>
    List.filter_congr fun x hx => by rw [hp x hx]
  refine hs.update (h.price r) hn.ge hlv.ge ?_ (hs.nodup.sublist hsub) ?_ ?_ ?_
    (fun k' l' hk' hl' => hlev' l' (OMap.mem_values.mpr ⟨k', hl'⟩) (hs.level_ne hl hl' hk')) ?_
  · exact (hs.levels.sorted.sublist hsub).imp_of_mem fun ha hb hab => by
      rw [hp _ ha, hp _ hb]; exact hab
  · intro x hx
    rw [hord x hx]; exact hs.rests x (hsub.subset hx)
  · rw [hfil]
    split
    · next he => rw [OMap.get?_delete_self]; exact he
    · next hne =>
      rw [hl]
      refine ⟨hne, hlinked, hprice.trans (hs.levels.of_get? hl).1.price, ?_, ?_⟩
      · rw [htotal, remaining_congr fun x hx => hord x (List.mem_of_mem_filter hx)]
      · rw [hlv]; exact (hs.levels.of_get? hl).1.bound
  · intro k' hk'
    constructor
    · split
      · exact OMap.get?_delete_ne m hk'
      · rfl
    · rw [hfil, List.filter_append, List.filter_append,
        List.filter_cons_of_neg (by simpa using Ne.symm hk')]
  · intro x hx hne
    refine hnode x ?_ hne
    rcases List.mem_append.mp hx with hx | hx
    · exact List.mem_append_left _ hx
    · rcases List.mem_cons.mp hx with rfl | hx
      · exact absurd rfl hne
      · exact List.mem_append_right _ hx

/-- An order comes to rest, at the end of the queue of its price. -/
theorem SideIs.push {r : NodeRef} (hs : SideIs h s m F) (hr : r ∉ F) (hn : h.nodes ≤ h'.nodes)
    (hlv : h.levels ≤ h'.levels) (hrest : (h'.order r).RestsOn s)
    (hl : m'.get? (h'.price r) = some l)
    (hlevel : LevelIs h' (h'.price r) l (F.filter (h.price · = h'.price r) ++ [r]))
    (hm : ∀ k', k' ≠ h'.price r → m'.get? k' = m.get? k')
    (hord : ∀ x ∈ F, h'.order x = h.order x)
    (hnode : ∀ x ∈ F, h.price x ≠ h'.price r → h'.node x = h.node x)
    (hlev' : ∀ k' l', k' ≠ h'.price r → m.get? k' = some l' → h'.level l' = h.level l') :
    SideIs h' s m' (enqueue s.rank h'.price r F) := by
  have hp : ∀ x ∈ F, h'.price x = h.price x := fun x hx => by rw [Heap.price, hord x hx]; rfl
  have hfil : ∀ k, F.filter (h'.price · = k) = F.filter (h.price · = k) := fun k =>
    List.filter_congr fun x hx => by rw [hp x hx]
  have hsorted : F.Pairwise fun a b => s.rank (h'.price a) ≤ s.rank (h'.price b) :=
    hs.levels.sorted.imp_of_mem fun ha hb hab => by rw [hp _ ha, hp _ hb]; exact hab
  refine hs.update (h'.price r) hn hlv (enqueue_sorted hsorted) ?_ ?_ ?_ ?_ hlev' hnode
  · exact enqueue_perm.nodup_iff.mpr (List.nodup_cons.mpr ⟨hr, hs.nodup⟩)
  · intro x hx
    rcases mem_enqueue.mp hx with rfl | hx
    · exact hrest
    · rw [hord x hx]; exact hs.rests x hx
  · rw [hl, enqueue_filter hsorted, if_pos rfl, hfil]
    exact ⟨by simp, hlevel⟩
  · intro k' hk'
    rw [enqueue_filter hsorted, if_neg (Ne.symm hk'), hfil]
    exact ⟨hm k' hk', rfl⟩

/-- A new level with the queue `R` joins the side, at a price beyond all others. -/
theorem SideIs.addLevel {R : List NodeRef} (hs : SideIs h s m F) (hl : LevelIs h k l R) (hne : R ≠ [])
    (hprice : ∀ r ∈ R, h.price r = k) (hlast : ∀ x ∈ F, s.rank (h.price x) < s.rank k) (hnew : ∀ r ∈ R, r ∉ F)
    (hrests : ∀ r ∈ R, (h.order r).RestsOn s) : SideIs h s (m.set k l) (F ++ R) := by
  have hF : F.filter (h.price · = k) = [] := List.filter_eq_nil_iff.mpr fun x hx => by
    have := hlast x hx
    simp only [decide_eq_true_eq]
    rintro e
    rw [e] at this
    exact lt_irrefl _ this
  refine hs.update k le_rfl le_rfl ?_ ?_ (fun x hx => ?_) ?_ (fun k' hk' => ⟨OMap.get?_set_ne _ _ hk', ?_⟩)
    (fun _ _ _ _ => rfl) fun _ _ _ => rfl
  · refine List.pairwise_append.mpr ⟨hs.levels.sorted, ?_, fun x hx r hr => ?_⟩
    · exact List.Pairwise.imp_of_mem (R := fun _ _ => True)
        (fun hx hy _ => by rw [hprice _ hx, hprice _ hy]) (List.pairwise_of_forall fun _ _ => trivial)
    · rw [hprice r hr]
      exact (hlast x hx).le
  · exact List.nodup_append.mpr ⟨hs.nodup, hl.linked.nodup, fun x hx y hy e => hnew y hy (e ▸ hx)⟩
  · rcases List.mem_append.mp hx with hx | hx
    · exact hs.rests x hx
    · exact hrests x hx
  · have hR : R.filter (h.price · = k) = R := List.filter_eq_self.mpr fun r hr => by simp [hprice r hr]
    rw [OMap.get?_set_self, List.filter_append, hF, hR]
    exact ⟨hne, hl⟩
  · have hR : R.filter (h.price · = k') = [] := List.filter_eq_nil_iff.mpr fun r hr => by
      simpa [hprice r hr] using Ne.symm hk'
    rw [List.filter_append, hR, List.append_nil]

end

end Lob.Node
