import LobEngine.Depth
import LobEngine.Node.Matching
import LobEngine.Node.Spec

/-!
# A book represents a view

`Repr b F v`: the book `b` is the view `v`, with the nodes `F s` for the orders of side `s`. Besides
the two sides, the id index maps exactly the ids of the resting nodes, each to its node, and the
orders at one price stand in the order in which they came to rest.

* `Repr.snapshot_eq`: both show the same snapshot.
* `Repr.newNode`, `Repr.matchOrder`, `Repr.rest`, `Repr.remove`: the operations that change it.
-/

namespace Lob.Node

open Exc OrderBook

structure Repr (b : OrderBook) (F : Side → List NodeRef) (v : View) : Prop where
  sides : ∀ s, SideIs b.toHeap s (b.side s) (F s)
  orders : ∀ s, v.side s = (F s).map b.order
  index : ∀ id r, b.ordersById.get? id = some r ↔
    (∃ s, r ∈ F s) ∧ id = .str (b.order r).orderId
  ids : v.ids.Nodup
  history : ∀ s k, ((F s).filter (b.price · = k)).Sublist b.arrivals
  arrived : b.arrivals.Nodup ∧ ∀ r ∈ b.arrivals, r < b.nodes
  symbol : v.symbol = b.symbol
  stops : v.stops = b.stopOrdersById
  trades : v.trades = b.trades
  last : v.lastTradePriceTicks = b.lastTradePriceTicks
  sequence : v.sequence = b.sequence
  clock : v.clock = b.clock

section

variable {b b' : OrderBook} {F : Side → List NodeRef} {v : View}

theorem Repr.mem_orders (h : Repr b F v) {o : Order} :
    o ∈ v.orders ↔ ∃ s, ∃ r ∈ F s, b.order r = o := by
  rw [Depth.mem_orders]
  simp only [h.orders, List.mem_map]

theorem Repr.mem_ids (h : Repr b F v) {id : String} :
    id ∈ v.ids ↔ ∃ r, b.ordersById.get? (.str id) = some r := by
  simp only [Depth.ids, List.mem_map, h.mem_orders, h.index, JsVal.str.injEq]
  constructor
  · rintro ⟨_, ⟨s, r, hr, rfl⟩, rfl⟩; exact ⟨r, ⟨s, hr⟩, rfl⟩
  · rintro ⟨r, ⟨s, hr⟩, rfl⟩; exact ⟨_, ⟨s, r, hr, rfl⟩, rfl⟩

theorem Repr.node_bound (h : Repr b F v) {s : Side} {r : NodeRef} (hr : r ∈ F s) : r < b.nodes :=
  (h.sides s).node_bound r hr

/-- The ids of both sides are distinct. -/
theorem Repr.ids_eq (h : Repr b F v) :
    v.ids = ((F .buy).map fun r => (b.order r).orderId) ++ (F .sell).map fun r => (b.order r).orderId := by
  have hb : v.bids = _ := h.orders .buy
  have ha : v.asks = _ := h.orders .sell
  simp [Depth.ids, Depth.orders, hb, ha, Function.comp_def]

theorem Repr.side_ids (h : Repr b F v) (s : Side) :
    ((F s).map fun r => (b.order r).orderId).Nodup ∧
      ∀ x ∈ F s, ∀ y ∈ F s.opposite, (b.order x).orderId ≠ (b.order y).orderId := by
  have hn := h.ids
  rw [h.ids_eq, List.nodup_append] at hn
  cases s with
  | buy =>
    exact ⟨hn.1, fun x hx y hy => hn.2.2 _ (List.mem_map_of_mem hx) _ (List.mem_map_of_mem hy)⟩
  | sell =>
    exact ⟨hn.2.1, fun x hx y hy e =>
      hn.2.2 _ (List.mem_map_of_mem hy) _ (List.mem_map_of_mem hx) e.symm⟩

theorem Repr.hasId_eq (h : Repr b F v) (id : JsVal) :
    v.hasId id = (b.ordersById.has id || b.stopOrdersById.has id) := by
  have hmem : id ∈ v.ids.map JsVal.str ↔ b.ordersById.has id = true := by
    rw [OMap.has_iff, OMap.mem_keys, List.mem_map]
    constructor
    · rintro ⟨i, hi, rfl⟩; exact h.mem_ids.mp hi
    · rintro ⟨r, hr⟩
      have hid := ((h.index id r).mp hr).2
      exact ⟨_, h.mem_ids.mpr ⟨r, hid ▸ hr⟩, hid.symm⟩
  rw [View.hasId, h.stops, Bool.eq_iff_iff]
  simp only [Bool.or_eq_true, decide_eq_true_eq, hmem]

/-- At most as many nodes rest as there are. -/
theorem Repr.length_le (h : Repr b F v) (s : Side) : (F s).length ≤ b.nodes := by
  have := ((h.sides s).nodup.subperm fun r hr => List.mem_range.mpr (h.node_bound hr)).length_le
  rwa [List.length_range] at this

/-! ## Snapshots -/

/-- The levels of a side, sorted, are the distinct prices of its orders. -/
theorem SideIs.sorted_levels {s : Side} {m : OMap Int LevelRef} {G : List NodeRef}
    (hs : SideIs b.toHeap s m G) {β : Type} (f : LevelRef → β) (g : Int → β) (price : β → Int)
    (hf : ∀ l, price (f l) = (b.level l).priceTicks)
    (hg : ∀ k l, m.get? k = some l → f l = g k) :
    (m.values.map f).insertionSort (fun x y => s.rank (price x) ≤ s.rank (price y)) =
      (G.map b.price).dedup.map g := by
  have hp : ∀ k l, m.get? k = some l → (b.level l).priceTicks = k := fun k l hl =>
    (hs.levels.of_get? hl).1.price
  have hval : m.values.map f = m.keys.map g := by
    simp only [OMap.values, OMap.keys, List.map_map]
    exact List.map_congr_left fun e he => hg e.1 e.2 (OMap.mem_entries.mp he)
  have hgp : ∀ k ∈ m.keys, price (g k) = k := by
    intro k hk
    obtain ⟨l, hl⟩ := OMap.mem_keys.mp hk
    rw [← hg k l hl, hf, hp k l hl]
  rw [hval, ← hs.levels.sorted_keys s.rank_injective]
  refine (List.map_insertionSort _ _ g m.keys fun x hx y hy => ?_).symm
  rw [hgp x hx, hgp y hy]

theorem Repr.getBookSideSnapshot_eq (h : Repr b F v) (s : Side) :
    b.getBookSideSnapshot s = View.levelSnapshots (v.side s) := by
  have hs := h.sides s
  unfold getBookSideSnapshot View.levelSnapshots
  rw [hs.sorted_levels b.levelSnapshot _ (·.priceTicks) (fun _ => rfl) (fun k l hl => ?_), h.orders,
    List.map_map]
  · rfl
  · obtain ⟨hl, -⟩ := hs.levels.of_get? hl
    have hfil : ((F s).map b.order).filter (·.price = k) = ((F s).filter (b.price · = k)).map b.order :=
      List.filter_map
    simp only [levelSnapshot, hfil]
    rw [hl.linked.head, hl.linked.tail, hl.linked.count, hl.total, hl.price]
    simp [Heap.remaining, Function.comp_def]

theorem Repr.getBookSideRecoverySnapshot_eq (h : Repr b F v) (s : Side) :
    b.getBookSideRecoverySnapshot s = View.recoveryLevels (v.side s) := by
  have hs := h.sides s
  unfold getBookSideRecoverySnapshot View.recoveryLevels
  rw [hs.sorted_levels b.recoveryLevel _ (·.priceTicks) (fun _ => rfl) (fun k l hl => ?_), h.orders,
    List.map_map]
  · rfl
  · obtain ⟨hl, -⟩ := hs.levels.of_get? hl
    have hfil : ((F s).map b.order).filter (·.price = k) = ((F s).filter (b.price · = k)).map b.order :=
      List.filter_map
    simp only [recoveryLevel, toArray, hfil]
    rw [hl.linked.queue_eq, hl.linked.count, hl.total, hl.price]
    simp [Heap.remaining, Function.comp_def]

theorem Repr.toRecoverySnapshot_eq (h : Repr b F v) (id : Option String) :
    b.toRecoverySnapshot id = v.toRecoverySnapshot id := by
  unfold OrderBook.toRecoverySnapshot View.toRecoverySnapshot
  rw [h.getBookSideRecoverySnapshot_eq, h.getBookSideRecoverySnapshot_eq, h.symbol, h.sequence, h.last,
    h.stops]
  rfl

theorem Repr.bestPriceTicks_eq (h : Repr b F v) (s : Side) :
    b.bestPriceTicks s = (v.side s).head?.map Order.price := by
  rw [h.orders]
  cases hF : F s with
  | nil => exact bestPriceTicks_none.mpr ((h.sides s).levels.nil_iff.mp hF)
  | cons r G =>
    have hs := h.sides s
    rw [hF] at hs
    rw [bestPriceTicks_cons hs]; rfl

theorem Repr.snapshot_eq (h : Repr b F v) : b.snapshot = v.snapshot := by
  have hb : b.getBestBidPriceTicks = _ := h.bestPriceTicks_eq .buy
  have ha : b.getBestAskPriceTicks = _ := h.bestPriceTicks_eq .sell
  unfold OrderBook.snapshot View.snapshot
  rw [hb, ha, h.getBookSideSnapshot_eq, h.getBookSideSnapshot_eq, h.symbol, h.sequence, h.last, h.stops]
  rfl

/-! ## Operations -/

/-- The nodes and levels of the represented sides stay as they are. -/
theorem Repr.frame (h : Repr b F v) (hn : b.nodes ≤ b'.nodes) (hlv : b.levels ≤ b'.levels)
    (hlev : ∀ s, ∀ l ∈ (b.side s).values, b'.level l = b.level l)
    (hnode : ∀ s, ∀ r ∈ F s, b'.node r = b.node r)
    (he : b' = { b with toHeap := b'.toHeap }) : Repr b' F v := by
  have hord : ∀ s, ∀ r ∈ F s, b'.order r = b.order r := fun s r hr => by
    rw [Heap.order, hnode s r hr]; rfl
  have hside : ∀ s, b'.side s = b.side s := fun s => by rw [he]; cases s <;> rfl
  have hidx : b'.ordersById = b.ordersById := by rw [he]
  have harr : b'.arrivals = b.arrivals := by rw [he]
  refine ⟨fun s => ?_, fun s => ?_, fun id r => ?_, h.ids, fun s k => ?_, ?_, ?_, ?_, ?_, ?_, ?_, ?_⟩
  · rw [hside]; exact (h.sides s).frame hn hlv (hlev s) (hnode s)
  · rw [h.orders, List.map_congr_left fun r hr => hord s r hr]
  · rw [hidx, h.index]
    refine and_congr_right ?_
    rintro ⟨s, hr⟩
    rw [hord s r hr]
  · have hp : (F s).filter (b'.price · = k) = (F s).filter (b.price · = k) :=
      List.filter_congr fun r hr => by rw [Heap.price, hord s r hr]; rfl
    rw [hp, harr]
    exact h.history s k
  · rw [harr]; exact ⟨h.arrived.1, fun r hr => (h.arrived.2 r hr).trans_le hn⟩
  · rw [he]; exact h.symbol
  · rw [he]; exact h.stops
  · rw [he]; exact h.trades
  · rw [he]; exact h.last
  · rw [he]; exact h.sequence
  · rw [he]; exact h.clock

/-- A new node does not matter before it rests. -/
theorem Repr.newNode (h : Repr b F v) (o : Order) :
    Repr { b with toHeap := b.toHeap.newNode o } F v := by
  refine h.frame (Nat.le_succ _) le_rfl (fun _ _ _ => rfl) (fun s r hr => ?_) rfl
  have hne : r ≠ b.nodes := (h.node_bound hr).ne
  exact Function.update_of_ne hne _ _

/-- A node that may be matched: it does not rest, and its order is active. -/
structure Matchable (b : OrderBook) (F : Side → List NodeRef) (v : View) (r : NodeRef) : Prop where
  fresh : ∀ s, r ∉ F s
  symbol : (b.order r).symbol = b.symbol
  positive : 0 < (b.order r).remainingQuantity
  active : (b.order r).isActive = true
  exact₀ : (b.order r).remainingQuantity ≤ Num.maxExact
  id : (b.order r).orderId ∉ v.ids
  exact : ∀ s, b.remaining (F s) ≤ Num.maxExact

theorem Matchable.ready {r : NodeRef} (hi : Matchable b F v r) (h : Repr b F v) :
    Ready (b.order r).side r b (F (b.order r).side.opposite) where
  side := h.sides _
  fresh := hi.fresh _
  orderSide := rfl
  symbol := hi.symbol
  nonneg := hi.positive.le
  exact₀ := hi.exact₀
  active := fun _ => hi.active
  exact := hi.exact _
  ids := by
    refine List.nodup_cons.mpr ⟨fun hm => hi.id ?_, (h.side_ids _).1⟩
    obtain ⟨x, hx, e⟩ := List.mem_map.mp hm
    rw [← e, h.mem_ids]
    exact ⟨x, (h.index _ _).mpr ⟨⟨_, hx⟩, rfl⟩⟩

section

variable {r : NodeRef} {s : Side} {G : List NodeRef} {ts : List Trade} (h : Repr b F v) (hfresh : ∀ t, r ∉ F t)
  (hm : Matched s r b b' (F s.opposite) G ts)
include h hfresh hm

theorem Matched.node_own {x : NodeRef} (hx : x ∈ F s) : b'.node x = b.node x :=
  hm.node x (ne_of_mem_of_not_mem hx (hfresh _)) (((h.sides s).disjoint (h.sides _)).1 x hx)

/-- A side after the matching: the opposite side is `G`, the own side is as before. -/
theorem Matched.side_at (t : Side) : SideIs b'.toHeap t (b'.side t) (Function.update F s.opposite G t) ∧
    (Function.update F s.opposite G t).Sublist (F t) ∧
    ∀ x ∈ Function.update F s.opposite G t, (b'.order x).orderId = (b.order x).orderId ∧ b'.price x = b.price x := by
  rcases Side.eq_or_opposite s t with rfl | rfl
  · rw [Function.update_of_ne (Side.opposite_ne _).symm]
    refine ⟨?_, List.Sublist.refl _, fun x hx => ?_⟩
    · rw [hm.own]
      exact (h.sides _).frame hm.nodes.ge hm.levels.ge
        (fun l hl => hm.level l (((h.sides _).disjoint (h.sides _)).2 l hl)) fun x hx => hm.node_own h hfresh hx
    · rw [Heap.price, Heap.order, hm.node_own h hfresh hx]
      exact ⟨rfl, rfl⟩
  · rw [Function.update_self]
    refine ⟨hm.side, hm.suffix.sublist, fun x hx => ?_⟩
    rw [Heap.price, hm.filled x (hm.suffix.subset hx)]
    exact ⟨rfl, rfl⟩

/-- The ids of the nodes that left are gone, all others are kept. -/
theorem Matched.index_iff (id : JsVal) (x : NodeRef) : b'.ordersById.get? id = some x ↔
    (∃ t, x ∈ Function.update F s.opposite G t) ∧ id = .str (b'.order x).orderId := by
  constructor
  · intro hx
    have hold : b.ordersById.get? id = some x := by
      rw [← hx, hm.kept]
      rintro y hy hyG rfl
      rw [hm.gone y hy hyG] at hx
      cases hx
    obtain ⟨⟨t, ht⟩, hid⟩ := (h.index id x).mp hold
    have hmem : x ∈ Function.update F s.opposite G t := by
      rcases Side.eq_or_opposite s t with rfl | rfl
      · rwa [Function.update_of_ne (Side.opposite_ne _).symm]
      · rw [Function.update_self]
        by_contra hxG
        rw [hid, hm.gone x ht hxG] at hx
        cases hx
    exact ⟨⟨t, hmem⟩, by rw [((hm.side_at h hfresh t).2.2 x hmem).1]; exact hid⟩
  · rintro ⟨⟨t, ht⟩, hid⟩
    obtain ⟨-, hsub, hsame⟩ := hm.side_at h hfresh t
    have hxF := hsub.subset ht
    rw [(hsame x ht).1] at hid
    rw [hid, hm.kept, h.index]
    · exact ⟨⟨t, hxF⟩, rfl⟩
    · intro y hy hyG e
      rcases Side.eq_or_opposite s t with rfl | rfl
      · exact (h.side_ids _).2 x hxF y hy (JsVal.str.inj e)
      · rw [Function.update_self] at ht
        have := List.inj_on_of_nodup_map (h.side_ids _).1 hxF hy (JsVal.str.inj e)
        exact hyG (this ▸ ht)

end

/-- Matching a node: the view after the greedy walk. -/
theorem Repr.matchOrder (h : Repr b F v) {r : NodeRef} (ignore : Bool) (hi : Matchable b F v r) :
    ∃ b' G, (matchBySide r ignore).run b = (.ok (v.fillFrom (b.order r) ignore).1, b') ∧
      Matched (b.order r).side r b b' (F (b.order r).side.opposite) G
        (v.fillFrom (b.order r) ignore).1 ∧
      b'.order r = (v.fillFrom (b.order r) ignore).2.1 ∧
      Repr b' (Function.update F (b.order r).side.opposite G)
        { v with
          toDepth := (v.fillFrom (b.order r) ignore).2.2
          trades := v.trades ++ (v.fillFrom (b.order r) ignore).1 } := by
  set o := b.order r with ho
  obtain ⟨b', G, ts, hrun, hm, hts, hrest⟩ := matchLoop_ok ignore
    (Nat.lt_succ_of_le (h.length_le o.side.opposite)) (hi.ready h)
  rw [← h.orders] at hts hrest
  have hw : ts = (v.fillFrom o ignore).1 := hts
  have hside := hm.side_at h hi.fresh
  have horders : ∀ t, (v.fillFrom o ignore).2.2.side t =
      (Function.update F o.side.opposite G t).map b'.order := by
    intro t
    rcases Side.eq_or_opposite o.side t with rfl | rfl
    · rw [Function.update_of_ne (Side.opposite_ne _).symm, Depth.fillFrom,
        Depth.side_setSide_opposite, h.orders]
      exact List.map_congr_left fun x hx => by rw [Heap.order, Heap.order, hm.node_own h hi.fresh hx]
    · rw [Function.update_self, Depth.fillFrom, Depth.side_setSide, hrest]
  have hids : ∀ t, (Function.update F o.side.opposite G t).map (fun x => (b'.order x).orderId) =
      (Function.update F o.side.opposite G t).map fun x => (b.order x).orderId := fun t =>
    List.map_congr_left fun x hx => ((hside t).2.2 x hx).1
  refine ⟨b', G, ?_, hw ▸ hm, ?_, fun t => (hside t).1, horders, hm.index_iff h hi.fresh, ?_, ?_, ?_, ?_, ?_, ?_, ?_,
    ?_, ?_⟩
  · rw [← hw, matchBySide, run_get_bind, ← ho]
    unfold matchBuyOrder matchSellOrder Node.matchOrder
    cases hs : o.side <;> rw [hs] at hrun <;> exact hrun
  · rw [hm.order_incoming, hts, sum_tradesOf]
    rfl
  · have hn := h.ids
    rw [h.ids_eq] at hn
    have hd : Depth.ids (v.fillFrom o ignore).2.2 =
        ((Function.update F o.side.opposite G .buy).map fun r => (b.order r).orderId) ++
          (Function.update F o.side.opposite G .sell).map fun r => (b.order r).orderId := by
      rw [← hids, ← hids, Depth.ids, Depth.orders, List.map_append]
      have hb : (v.fillFrom o ignore).2.2.bids = _ := horders .buy
      have ha : (v.fillFrom o ignore).2.2.asks = _ := horders .sell
      rw [hb, ha, List.map_map, List.map_map]
      rfl
    rw [show Depth.ids _ = _ from hd]
    exact hn.sublist (((hside .buy).2.1.map _).append ((hside .sell).2.1.map _))
  · intro t k
    have harr : b'.arrivals = b.arrivals := by rw [hm.frame]
    rw [harr, List.filter_congr fun x hx => by rw [((hside t).2.2 x hx).2]]
    exact ((hside t).2.1.filter _).trans (h.history t k)
  · have harr : b'.arrivals = b.arrivals := by rw [hm.frame]
    rw [harr, hm.nodes]; exact h.arrived
  · rw [hm.frame]; exact h.symbol
  · rw [hm.frame]; exact h.stops
  · rw [hm.frame, ← hw]; simp [h.trades]
  · rw [hm.frame]; exact h.last
  · rw [hm.frame]; exact h.sequence
  · rw [hm.frame]; exact h.clock

/-- A node that may come to rest on side `s`. -/
structure Restable (b : OrderBook) (F : Side → List NodeRef) (v : View) (r : NodeRef) (s : Side) :
    Prop where
  bound : r < b.nodes
  fresh : ∀ t, r ∉ F t
  arrival : r ∉ b.arrivals
  links : (b.node r).prev = none ∧ (b.node r).next = none ∧ (b.node r).priceLevel = none
  rests : (b.order r).RestsOn s
  id : (b.order r).orderId ∉ v.ids
  exact : (b.order r).remainingQuantity + b.remaining (F s) ≤ Num.maxExact

theorem RestsOn.priceTicks {s : Side} {o : Order} (h : o.RestsOn s) :
    o.priceTicks = some o.price ∧ 0 < o.price := by
  obtain ⟨p, hp, hpos⟩ := h.price
  rw [Order.price, hp]
  exact ⟨rfl, hpos⟩

/-- The level of a price that no order has: it is created, and stays empty for a moment. -/
theorem levelAt_run {s : Side} {p : Int} (hp : 0 < p) :
    ∃ b₁ l, (levelAt s p).run b = (.ok l, b₁) ∧ b₁.node = b.node ∧ b₁.nodes = b.nodes ∧
      b₁ = { b with toHeap := b₁.toHeap }.setSide s (b₁.side s) ∧
      (b₁.side s).get? p = some l ∧ (∀ k, k ≠ p → (b₁.side s).get? k = (b.side s).get? k) ∧
      ((b.side s).get? p = some l ∧ b₁ = b ∨
        (b.side s).get? p = none ∧ l = b.levels ∧ b₁.toHeap = b.toHeap.newLevel p) := by
  unfold levelAt
  rw [run_get_bind]
  cases hl : (b.side s).get? p with
  | some l => exact ⟨b, l, rfl, rfl, rfl, by cases s <;> rfl, hl, fun _ _ => rfl, .inl ⟨rfl, rfl⟩⟩
  | none =>
    dsimp only
    rw [if_neg (by omega), run_modify_bind]
    refine ⟨_, b.levels, rfl, ?_, ?_, ?_, ?_, ?_, .inr ⟨rfl, rfl, ?_⟩⟩
    · rw [setSide_toHeap]; rfl
    · rw [setSide_toHeap]; rfl
    · cases s <;> rfl
    · rw [setSide_side_self]; exact OMap.get?_set_self _ _ _
    · intro k hk; rw [setSide_side_self]; exact OMap.get?_set_ne _ _ hk
    · rw [setSide_toHeap]

/-- `append` to the level of a price, which `levelAt` has found or created: what the heap is then. -/
theorem push_run {s : Side} {G : List NodeRef} {r : NodeRef} (hs : SideIs b.toHeap s (b.side s) G)
    (hr : r ∉ G) (hb : r < b.nodes) (hrest : (b.order r).RestsOn s)
    (hlinks : (b.node r).prev = none ∧ (b.node r).next = none ∧ (b.node r).priceLevel = none)
    (hmax : (b.order r).remainingQuantity + b.remaining G ≤ Num.maxExact) :
    ∃ b₁ l h, (levelAt s (b.price r)).run b = (.ok l, b₁) ∧ (append l r).run b₁.toHeap = (.ok (), h) ∧
      b₁ = { b with toHeap := b₁.toHeap }.setSide s (b₁.side s) ∧
      SideIs h s (b₁.side s) (enqueue s.rank b.price r G) ∧
      (∀ x, h.order x = b.order x) ∧ (∀ x, x ∉ G → x ≠ r → h.node x = b.node x) ∧
      (∀ k, k ∉ (b.side s).values → k < b.levels → h.level k = b.level k) ∧
      h.nodes = b.nodes ∧ b.levels ≤ h.levels := by
  obtain ⟨hp, hpos⟩ := RestsOn.priceTicks hrest
  obtain ⟨b₁, l, hrun, hnode₁, hnodes₁, hframe, hget, hother, hcase⟩ :=
    levelAt_run (b := b) (s := s) (p := b.price r) hpos
  have hord₁ : ∀ x, b₁.order x = b.order x := fun x => by rw [Heap.order, hnode₁]; rfl
  set Q := G.filter (b.price · = b.price r) with hQ
  have hslot := hs.levels.slot (b.price r)
  -- The level before the append, found or new.
  have hlev : Linked b₁.toHeap l Q ∧ (b₁.level l).priceTicks = b.price r ∧
      (b₁.level l).totalQuantity = .int (b.remaining Q) ∧ l < b₁.levels ∧ b.levels ≤ b₁.levels ∧
      ∀ k, k ≠ l → k < b.levels → b₁.level k = b.level k := by
    rcases hcase with ⟨hl, rfl⟩ | ⟨hl, rfl, hheap⟩
    · rw [hl] at hslot
      exact ⟨hslot.2.linked, hslot.2.price, hslot.2.total, hslot.2.bound, le_rfl, fun _ _ _ => rfl⟩
    · rw [hl] at hslot
      rw [show Q = [] from hslot, hheap]
      refine ⟨linked_newLevel _ _, ?_, ?_, Nat.lt_succ_self _, Nat.le_succ _, fun k hk _ => ?_⟩
      · simp [Heap.newLevel]
      · simp [Heap.newLevel]
      · exact Function.update_of_ne hk _ _
  obtain ⟨hlink, hprice, htotal, hbound, hlevels, hlevel₁⟩ := hlev
  have hrQ : r ∉ Q := fun h => hr (List.mem_of_mem_filter h)
  have hQsub : Q.Sublist G := List.filter_sublist
  obtain ⟨h, happ, hlink', hsame, htot⟩ := append_ok hlink hrQ (by rw [hnodes₁]; exact hb)
    (by rw [hnode₁, hprice]; exact hp) (by rw [hnode₁]; exact hlinks)
    (by rw [hnode₁]; exact hrest.remaining)
  have hordh : ∀ x, h.order x = b.order x := fun x => (hsame.order x).trans (hord₁ x)
  have hpriceh : h.price = b.price := funext fun x => by rw [Heap.price, hordh]; rfl
  have hremh : h.remaining Q = b.remaining Q := remaining_congr fun x _ => hordh x
  have hnodeh : ∀ x, x ∉ Q → x ≠ r → h.node x = b.node x := fun x hx hxr => by
    rw [hsame.node x (by simp [hx, hxr]), hnode₁]
  have hlevelh : ∀ k, k ≠ l → k < b.levels → h.level k = b.level k := fun k hk hkb =>
    (hsame.level k hk).trans (hlevel₁ k hk hkb)
  refine ⟨b₁, l, h, hrun, happ, hframe, ?_, hordh, fun x hx => hnodeh x fun h => hx (hQsub.subset h),
    fun k hk hkb => ?_, hsame.nodes.trans hnodes₁, hlevels.trans hsame.levels.ge⟩
  · rw [← hpriceh]
    refine hs.push hr (hsame.nodes.trans hnodes₁).ge (hlevels.trans hsame.levels.ge)
      (by rw [hordh]; exact hrest) (by rw [hpriceh]; exact hget) ?_
      (fun k hk => hother k (by rwa [hpriceh] at hk)) (fun x _ => hordh x) (fun x hx hxp => ?_)
      fun k l' hk hl' => ?_
    · rw [hpriceh]
      refine ⟨hlink', hsame.price.trans hprice, ?_, by rw [hsame.levels]; exact hbound⟩
      have hge := hs.remaining_le hQsub
      have hrem : (b₁.node r).remainingQuantity = (b.order r).remainingQuantity := by
        rw [hnode₁]; rfl
      rw [htot, htotal, remaining_append, hremh, remaining_cons, remaining_nil, hordh, add_zero, hrem]
      have := hrest.remaining
      exact Num.addInt_exact (by omega) (by omega)
    · rw [hpriceh] at hxp
      exact hnodeh x (fun h => hxp (by simpa using (List.mem_filter.mp h).2))
        (fun e => hr (e ▸ hx))
    · rw [hpriceh] at hk
      have hlb := (hs.levels.of_get? hl').1.bound
      refine hlevelh l' ?_ hlb
      rcases hcase with ⟨hl, -⟩ | ⟨-, rfl, -⟩
      · exact hs.level_ne hl hl' hk
      · exact hlb.ne
  · refine hlevelh k ?_ hkb
    rcases hcase with ⟨hl, -⟩ | ⟨-, rfl, -⟩
    · exact fun e => hk (e ▸ OMap.mem_values.mpr ⟨_, hl⟩)
    · exact hkb.ne

theorem mem_pushed {r x : NodeRef} {s t : Side} : x ∈ Function.update F s (enqueue s.rank b.price r (F s)) t ↔
    x ∈ F t ∨ t = s ∧ x = r := by
  rcases Side.eq_or_opposite s t with rfl | rfl
  · rw [Function.update_self, mem_enqueue]; tauto
  · rw [Function.update_of_ne (Side.opposite_ne s)]
    exact ⟨.inl, fun h => h.resolve_right fun h => Side.opposite_ne s h.1⟩

/-- The index with the node that comes to rest. -/
theorem Repr.index_pushed (h : Repr b F v) {r : NodeRef} (s : Side) (hid : (b.order r).orderId ∉ v.ids) (id : JsVal)
    (x : NodeRef) : (b.ordersById.set (.str (b.order r).orderId) r).get? id = some x ↔
      (∃ t, x ∈ Function.update F s (enqueue s.rank b.price r (F s)) t) ∧ id = .str (b.order x).orderId := by
  rw [OMap.get?_set]
  by_cases he : id = .str (b.order r).orderId
  · rw [if_pos he, Option.some_inj]
    constructor
    · rintro rfl
      exact ⟨⟨s, mem_pushed.mpr (.inr ⟨rfl, rfl⟩)⟩, he⟩
    · rintro ⟨⟨t, ht⟩, hx⟩
      rcases mem_pushed.mp ht with ht | ⟨-, rfl⟩
      · have hxr : (b.order x).orderId = (b.order r).orderId := JsVal.str.inj (hx.symm.trans he)
        exact absurd (h.mem_ids.mpr ⟨x, (h.index _ _).mpr ⟨⟨t, ht⟩, rfl⟩⟩) (hxr ▸ hid)
      · rfl
  · rw [if_neg he, h.index]
    refine and_congr_left fun hx => exists_congr fun t => ?_
    rw [mem_pushed]
    exact ⟨.inl, fun ht => ht.resolve_right fun h => he (h.2 ▸ hx)⟩

/-- The order in which nodes came to rest, with one more. -/
theorem Repr.history_pushed (h : Repr b F v) (r : NodeRef) (s t : Side) (k : Int) :
    ((Function.update F s (enqueue s.rank b.price r (F s)) t).filter (b.price · = k)).Sublist (b.arrivals ++ [r]) := by
  rcases Side.eq_or_opposite s t with rfl | rfl
  · rw [Function.update_self, enqueue_filter (h.sides t).levels.sorted]
    split
    · exact (h.history t k).append (List.Sublist.refl _)
    · exact (h.history t k).trans (List.sublist_append_left _ _)
  · rw [Function.update_of_ne (Side.opposite_ne s)]
    exact (h.history _ k).trans (List.sublist_append_left _ _)

/-- A node comes to rest. -/
theorem Repr.rest (h : Repr b F v) {r : NodeRef} {s : Side} (hr : Restable b F v r s) :
    ∃ b', (restRemainder r).run b = (.ok (), b') ∧
      Repr b' (Function.update F s (enqueue s.rank b.price r (F s)))
        { v with toDepth := v.rest (b.order r) } ∧
      (∀ x, b'.order x = b.order x) ∧ b'.nodes = b.nodes ∧
      b'.ordersById = b.ordersById.set (.str (b.order r).orderId) r := by
  obtain ⟨b₁, l, h₁, hlev, happ, hframe, hside, hord, hnode, hlevel, hnodes, hlevels⟩ :=
    push_run (h.sides s) (hr.fresh s) hr.bound hr.rests hr.links hr.exact
  have hprice : h₁.price = b.price := funext fun x => by rw [Heap.price, hord]; rfl
  set b' : OrderBook := { b₁ with
    toHeap := h₁, arrivals := b₁.arrivals ++ [r]
    ordersById := b₁.ordersById.set (.str (b.order r).orderId) r } with hb'
  have hrun : (restRemainder r).run b = (.ok (), b') := by
    have hadd : (addRestingOrder r).run b =
        (.ok (), { b₁ with toHeap := h₁, arrivals := b₁.arrivals ++ [r] }) := by
      unfold addRestingOrder
      rw [run_get_bind]
      dsimp only
      rw [if_neg (by simp [hr.rests.type]), hr.rests.side, show (b.order r).price = b.price r from rfl,
        run_bind_ok hlev, run_onHeap_bind happ]
      rfl
    rw [restRemainder, run_bind_ok hadd, run_modify]
    show (_, ({ b₁ with
      toHeap := h₁, arrivals := _, ordersById := b₁.ordersById.set (.str (h₁.order r).orderId) r } :
        OrderBook)) = _
    rw [hord]
  have hside' : b'.side s = b₁.side s := by cases s <;> rfl
  have hopp : b'.side s.opposite = b.side s.opposite := by
    rw [show b'.side s.opposite = b₁.side s.opposite by cases s <;> rfl, hframe, setSide_opposite_side]
    cases s <;> rfl
  have hidx : b'.ordersById = b.ordersById.set (.str (b.order r).orderId) r := by
    rw [hb']; simp only; rw [hframe, setSide_ordersById]
  have harr : b'.arrivals = b.arrivals ++ [r] := by
    rw [hb']; simp only; rw [hframe, setSide_arrivals]
  have hdis := (h.sides s).disjoint (h.sides s.opposite)
  refine ⟨b', hrun, ⟨fun t => ?_, fun t => ?_, fun id x => ?_, ?_, fun t k => ?_, ?_, ?_, ?_, ?_, ?_,
    ?_, ?_⟩, hord, hnodes, hidx⟩
  · rcases Side.eq_or_opposite s t with rfl | rfl
    · rw [Function.update_self, hside']; exact hside
    · rw [Function.update_of_ne (Side.opposite_ne s), hopp]
      refine (h.sides _).frame hnodes.ge hlevels (fun k hk => ?_) fun x hx => ?_
      · obtain ⟨p, hp⟩ := OMap.mem_values.mp hk
        exact hlevel k (fun hk' => hdis.2 k hk' hk) ((h.sides _).levels.of_get? hp).1.bound
      · exact hnode x (fun hx' => hdis.1 x hx' hx) (fun e => hr.fresh _ (e ▸ hx))
  · have hmap : ∀ G : List NodeRef, G.map b'.order = G.map b.order := fun G =>
      List.map_congr_left fun x _ => hord x
    rw [hmap]
    show (Depth.rest v.toDepth (b.order r)).side t = _
    rw [Depth.rest, hr.rests.side]
    rcases Side.eq_or_opposite s t with rfl | rfl
    · rw [Function.update_self, Depth.side_setSide, h.orders]
      exact (enqueue_map b.order rfl fun _ _ => rfl).symm
    · rw [Function.update_of_ne (Side.opposite_ne s), Depth.side_opposite_setSide, h.orders]
  · have hox : (b'.order x).orderId = (b.order x).orderId := by rw [show b'.order x = _ from hord x]
    rw [hidx, hox]
    exact h.index_pushed s hr.id id x
  · have hperm := Depth.rest_ids (d := v.toDepth) (o := b.order r)
    exact hperm.nodup_iff.mpr (List.nodup_cons.mpr ⟨hr.id, h.ids⟩)
  · have hp : b'.price = b.price := hprice
    rw [harr, hp]
    exact h.history_pushed r s t k
  · rw [harr]
    have hn : b'.nodes = b.nodes := hnodes
    refine ⟨List.nodup_append.mpr ⟨h.arrived.1, List.nodup_singleton r, fun x hx y hy e => ?_⟩,
      fun x hx => ?_⟩
    · rw [List.mem_singleton.mp hy] at e
      exact hr.arrival (e ▸ hx)
    · rw [hn]
      rcases List.mem_append.mp hx with hx | hx
      · exact h.arrived.2 x hx
      · rw [List.mem_singleton.mp hx]; exact hr.bound
  · rw [hb']; simp only; rw [hframe, setSide_symbol]; exact h.symbol
  · rw [hb']; simp only; rw [hframe, setSide_stopOrdersById]; exact h.stops
  · rw [hb']; simp only; rw [hframe, setSide_trades]; exact h.trades
  · rw [hb']; simp only; rw [hframe, setSide_last]; exact h.last
  · rw [hb']; simp only; rw [hframe, setSide_sequence]; exact h.sequence
  · rw [hb']; simp only; rw [hframe, setSide_clock]; exact h.clock

/-- `remove` and `cancel` of a resting node: what the heap is then. -/
theorem unlink_run {s : Side} {A B : List NodeRef} {r : NodeRef} (id : JsVal)
    (hs : SideIs b.toHeap s (b.side s) (A ++ r :: B)) (hmax : b.remaining (A ++ r :: B) ≤ Num.maxExact) :
    ∃ l h m, (b.node r).priceLevel = some l ∧ l ∈ (b.side s).values ∧
      (unlink id (b.order r) r l).run b = (.ok (), { b with
        toHeap := h, ordersById := b.ordersById.delete id }.setSide s m) ∧
      SideIs h s m (A ++ B) ∧ h.order r = { b.order r with status := .cancelled } ∧
      (∀ x, x ≠ r → h.order x = b.order x) ∧ (∀ x, x ∉ A ++ r :: B → h.node x = b.node x) ∧
      (∀ k, k ≠ l → h.level k = b.level k) ∧ h.nodes = b.nodes ∧ h.levels = b.levels := by
  have hmem : r ∈ A ++ r :: B := by simp
  have hrest := hs.rests r hmem
  obtain ⟨l, hl, hQ⟩ := hs.levels.level hmem
  have hfil : ∀ P : NodeRef → Bool, P r = true →
      (A ++ r :: B).filter P = A.filter P ++ r :: B.filter P := fun P hP => by
    rw [List.filter_append, List.filter_cons_of_pos hP]
  rw [hfil _ (by simp)] at hQ
  obtain ⟨h₁, hrun₁, hlink, hsame, hlinks, htot⟩ := remove_ok hQ.linked
  rw [← List.filter_append] at hlink
  have hsub : ((A ++ B).filter (b.price · = b.price r)).Sublist (A ++ r :: B) :=
    List.filter_sublist.trans (List.Sublist.append_left (List.sublist_cons_self r B) A)
  have hact : (h₁.order r).isActive = true := by rw [hsame.order]; exact hrest.isActive
  have hrun₂ := cancel_ok hact
  set h := h₁.modifyNode r fun n => { n with status := .cancelled } with hh
  have hordr : h.order r = { b.order r with status := .cancelled } := by
    rw [Heap.order, hh, Heap.modifyNode_node_self]
    show ({ h₁.order r with status := .cancelled } : Order) = _
    rw [hsame.order r]
  have hord : ∀ x, x ≠ r → h.order x = b.order x := fun x hx => by
    rw [Heap.order, hh, Heap.modifyNode_node_ne hx]; exact hsame.order x
  have hnd := List.nodup_append.mp hs.nodup
  have hrA : r ∉ A := fun hr => hnd.2.2 r hr r List.mem_cons_self rfl
  have hrB : r ∉ B := (List.nodup_cons.mp hnd.2.1).1
  have hne : ∀ x ∈ A ++ B, x ≠ r := fun x hx e => by
    rcases List.mem_append.mp hx with hx | hx
    · exact hrA (e ▸ hx)
    · exact hrB (e ▸ hx)
  have hlink' : Linked h l ((A ++ B).filter (b.price · = b.price r)) :=
    hlink.frame le_rfl rfl fun x hx => by
      rw [hh, Heap.modifyNode_node_ne (hne x (List.mem_of_mem_filter hx))]; exact ⟨rfl, rfl, rfl⟩
  have hnodes : ∀ x, x ∉ A ++ r :: B → h.node x = b.node x := fun x hx => by
    rw [hh, Heap.modifyNode_node_ne (ne_of_mem_of_not_mem hmem hx).symm]
    refine hsame.node x fun hx' => hx ?_
    simp only [List.mem_append, List.mem_cons, List.mem_filter] at hx' ⊢
    tauto
  have hrempos : 0 < (b.order r).remainingQuantity := hrest.remaining
  have htot' : (h.level l).totalQuantity =
      .int (b.remaining ((A ++ B).filter (b.price · = b.price r))) := by
    show (h₁.level l).totalQuantity = _
    have hle := hs.remaining_le hsub
    rw [htot, hQ.total, remaining_append, remaining_cons, List.filter_append, remaining_append]
    rw [List.filter_append, remaining_append] at hle
    have e : b.remaining (A.filter (b.price · = b.price r)) + ((b.order r).remainingQuantity +
        b.remaining (B.filter (b.price · = b.price r))) + -(b.order r).remainingQuantity =
        b.remaining (A.filter (b.price · = b.price r)) +
          b.remaining (B.filter (b.price · = b.price r)) := by omega
    have hx := Num.addInt_exact (a := b.remaining (A.filter (b.price · = b.price r)) +
      ((b.order r).remainingQuantity + b.remaining (B.filter (b.price · = b.price r))))
      (b := -(b.order r).remainingQuantity) (by omega) (by omega)
    rw [e] at hx
    exact hx
  refine ⟨l, h, _, hQ.linked.mem_level r (by simp), OMap.mem_values.mpr ⟨_, hl⟩, ?_,
    hs.erase hl hsame.nodes hsame.levels hlink' hsame.price htot' (fun x hx => hord x (hne x hx))
      (fun x hx hp => ?_) (fun k _ hk => hsame.level k hk), hordr, hord, hnodes, hsame.level,
    hsame.nodes, hsame.levels⟩
  · unfold unlink when
    rw [run_onHeap_bind hrun₁, run_onHeap_bind hrun₂, run_modify_bind, run_get_bind, hrest.side]
    have he : (h.level l).isEmpty = ((A ++ B).filter (b.price · = b.price r)).isEmpty := hlink'.isEmpty
    show Exc.run (if (h.level l).isEmpty = true then _ else _) _ = _
    by_cases hnil : (A ++ B).filter (b.price · = b.price r) = []
    · rw [if_pos (by rw [he, hnil]; rfl), if_pos hnil, run_modify]
      cases s <;> rfl
    · rw [if_neg (by rw [he]; simpa using hnil), if_neg hnil]
      cases s <;> rfl
  · rw [hh, Heap.modifyNode_node_ne (hne x hx)]
    refine hsame.node x fun hx' => hp ?_
    simp only [List.mem_append, List.mem_cons, List.mem_filter, decide_eq_true_eq] at hx'
    rcases hx' with hx' | rfl | hx'
    · exact hx'.2
    · rfl
    · exact hx'.2

/-- The view without an order: the orders of the other nodes. -/
theorem Repr.remove_orders (h : Repr b F v) {s : Side} {A B : List NodeRef} {r : NodeRef}
    (hF : F s = A ++ r :: B) (t : Side) :
    Depth.side (v.remove (b.order r).orderId) t =
      (Function.update F s (A ++ B) t).map b.order := by
  have hids := h.side_ids s
  rw [Depth.side_remove, h.orders, List.filter_map]
  refine congrArg (List.map b.order) ?_
  rcases Side.eq_or_opposite s t with rfl | rfl
  · rw [Function.update_self, hF]
    have hn := hids.1
    rw [hF, List.map_append, List.map_cons, List.nodup_append, List.nodup_cons] at hn
    rw [List.filter_append, List.filter_cons_of_neg (by simp),
      List.filter_eq_self.mpr fun x hx => ?_, List.filter_eq_self.mpr fun x hx => ?_]
    · simpa using ne_of_mem_of_not_mem (List.mem_map_of_mem hx) hn.2.1.1
    · simpa using hn.2.2 _ (List.mem_map_of_mem hx) _ List.mem_cons_self
  · rw [Function.update_of_ne (Side.opposite_ne s), List.filter_eq_self]
    exact fun x hx => by simpa using (hids.2 r (by rw [hF]; simp) x hx).symm

/-- A resting node is cancelled. -/
theorem Repr.remove (h : Repr b F v) {s : Side} {r : NodeRef} (hr : r ∈ F s)
    (hmax : b.remaining (F s) ≤ Num.maxExact) :
    ∃ l b' G, (b.node r).priceLevel = some l ∧
      (unlink (.str (b.order r).orderId) (b.order r) r l).run b = (.ok (), b') ∧
      Repr b' (Function.update F s G) { v with toDepth := v.remove (b.order r).orderId } ∧
      G.Sublist (F s) ∧ b'.order r = { b.order r with status := .cancelled } ∧
      (∀ x, x ≠ r → b'.order x = b.order x) ∧ b'.nodes = b.nodes ∧
      b'.ordersById = b.ordersById.delete (.str (b.order r).orderId) := by
  obtain ⟨A, B, hF⟩ := List.append_of_mem hr
  have hs := h.sides s
  rw [hF] at hs hmax
  obtain ⟨l, h₁, m, hl, hlv, hrun, hside, hordr, hord, hnode, hlevel, hnodes, hlevels⟩ :=
    unlink_run (.str (b.order r).orderId) hs hmax
  set b' : OrderBook := { b with
    toHeap := h₁, ordersById := b.ordersById.delete (.str (b.order r).orderId) }.setSide s m with hb'
  have hheap : b'.toHeap = h₁ := setSide_toHeap _ _ _
  have hidx : b'.ordersById = b.ordersById.delete (.str (b.order r).orderId) :=
    setSide_ordersById _ _ _
  have harr : b'.arrivals = b.arrivals := setSide_arrivals _ _ _
  have hsub : (A ++ B).Sublist (F s) := by
    rw [hF]; exact List.Sublist.append_left (List.sublist_cons_self r B) A
  have hsubs : ∀ t, (Function.update F s (A ++ B) t).Sublist (F t) := fun t => by
    rcases Side.eq_or_opposite s t with rfl | rfl
    · rw [Function.update_self]; exact hsub
    · rw [Function.update_of_ne (Side.opposite_ne s)]
  have hne : ∀ t, ∀ x ∈ Function.update F s (A ++ B) t, x ≠ r := by
    intro t x hx
    rcases Side.eq_or_opposite s t with rfl | rfl
    · rw [Function.update_self] at hx
      have hn := hs.nodup
      rw [List.nodup_middle] at hn
      exact ne_of_mem_of_not_mem hx (List.nodup_cons.mp hn).1
    · rw [Function.update_of_ne (Side.opposite_ne s)] at hx
      exact (ne_of_mem_of_not_mem hr (fun hr' => ((h.sides s).disjoint (h.sides _)).1 x hr' hx)).symm
  have hord' : ∀ t, ∀ x ∈ Function.update F s (A ++ B) t, b'.order x = b.order x := fun t x hx => by
    rw [hheap]; exact hord x (hne t x hx)
  refine ⟨l, b', A ++ B, hl, hrun, ⟨fun t => ?_, fun t => ?_, fun id x => ?_, ?_, fun t k => ?_, ?_,
    ?_, ?_, ?_, ?_, ?_, ?_⟩, hsub, by rw [hheap]; exact hordr,
    fun x hx => by rw [hheap]; exact hord x hx, by rw [hheap]; exact hnodes, hidx⟩
  · rw [hheap]
    rcases Side.eq_or_opposite s t with rfl | rfl
    · rw [Function.update_self, hb', setSide_side_self]; exact hside
    · rw [Function.update_of_ne (Side.opposite_ne s), hb', setSide_opposite_side]
      have hdis := (h.sides s).disjoint (h.sides s.opposite)
      refine SideIs.frame (m := b.side s.opposite) (h.sides _) hnodes.ge hlevels.ge (fun k hk => ?_)
        fun x hx => ?_
      · exact hlevel k (ne_of_mem_of_not_mem hlv (hdis.2 _ · hk)).symm
      · exact hnode x (by rw [← hF]; exact fun hx' => hdis.1 x hx' hx)
  · rw [List.map_congr_left fun x hx => hord' t x hx]
    exact h.remove_orders hF t
  · rw [hidx, OMap.get?_delete]
    by_cases hid : id = .str (b.order r).orderId
    · rw [if_pos hid]
      refine ⟨fun h => (by cases h), ?_⟩
      rintro ⟨⟨t, hx⟩, hid'⟩
      rw [hord' t x hx] at hid'
      have hxr := (h.index id x).mpr ⟨⟨t, (hsubs t).subset hx⟩, hid'⟩
      rw [(h.index id r).mpr ⟨⟨s, hr⟩, hid⟩, Option.some_inj] at hxr
      exact absurd hxr.symm (hne t x hx)
    · rw [if_neg hid, h.index]
      constructor
      · rintro ⟨⟨t, hx⟩, hid'⟩
        have hxr : x ≠ r := fun e => hid (e ▸ hid')
        have hx' : x ∈ Function.update F s (A ++ B) t := by
          rcases Side.eq_or_opposite s t with rfl | rfl
          · rw [Function.update_self]
            rw [hF] at hx
            simp only [List.mem_append, List.mem_cons] at hx ⊢
            tauto
          · rwa [Function.update_of_ne (Side.opposite_ne s)]
        exact ⟨⟨t, hx'⟩, by rw [hord' t x hx']; exact hid'⟩
      · rintro ⟨⟨t, hx⟩, hid'⟩
        exact ⟨⟨t, (hsubs t).subset hx⟩, by rw [hid', hord' t x hx]⟩
  · refine h.ids.sublist ?_
    show (Depth.ids (v.remove _)).Sublist _
    unfold Depth.ids Depth.orders Depth.remove
    exact (List.filter_sublist.append List.filter_sublist).map _
  · rw [harr, List.filter_congr fun x hx => by rw [Heap.price, hord' t x hx]]
    exact ((hsubs t).filter _).trans (h.history t k)
  · rw [harr, hheap, hnodes]; exact h.arrived
  · rw [hb', setSide_symbol]; exact h.symbol
  · rw [hb', setSide_stopOrdersById]; exact h.stops
  · rw [hb', setSide_trades]; exact h.trades
  · rw [hb', setSide_last]; exact h.last
  · rw [hb', setSide_sequence]; exact h.sequence
  · rw [hb', setSide_clock]; exact h.clock

end

end Lob.Node
