import LobEngine.Go.Spec
import LobEngine.Lib.PriceQueue
import Mathlib.Data.List.Perm.Subperm

/-!
# A Go book represents a view

`Repr b F v`: the book `b` is the view `v`, with the pointers `F s` for the orders of side `s`. The
totals of the levels are `int64` sums, so nothing bounds the quantities.

* `Repr.snapshot_eq`, `Repr.recoverySnapshot_eq`: both show the same snapshots.
* `Repr.frame`: what happens to orders that do not rest does not matter.
* `Repr.reduce`, `Repr.erase`, `Repr.push`: an order trades a part of what it has, leaves, or comes to
  rest. All three change one level (`Repr.update`).
-/

namespace Lob.Go

open Book

/-- The price of an order of the heap. -/
def priceOf (order : Ref → Order) (r : Ref) : Int := (order r).price

/-- The level `l` has price `k` and is the queue `Q`. -/
structure LevelIs (order : Ref → Order) (k : Int) (l : PriceLevel) (Q : List Ref) : Prop where
  price : l.priceTicks = k
  orders : l.orders = Q
  total : l.totalQuantity = View.total (Q.map order)

structure Repr (b : Book) (F : Side → List Ref) (v : View) : Prop where
  levels : ∀ s, Levels s.rank (b.side s) (LevelIs b.order) (priceOf b.order) (F s)
  rests : ∀ s, ∀ r ∈ F s, r < b.next ∧ (b.order r).RestsOn s
  orders : ∀ s, v.side s = (F s).map b.order
  ids : v.ids.Nodup
  index : ∀ id r, b.orders.get? id = some r ↔ (∃ s, r ∈ F s) ∧ (b.order r).orderId = id
  symbol : v.symbol = b.symbol
  stops : v.stops = b.stopOrders
  stopIDs : b.stopOrderIDs = b.stopOrders.keys
  trades : v.trades = b.trades
  last : v.lastTradePriceTicks = b.lastTradePriceTicks
  sequence : v.sequence = b.sequence
  clock : v.clock = b.now

section
variable (b : Book) (s : Side) (m : OMap Int PriceLevel)
@[simp] theorem setSide_side : (b.setSide s m).side s = m := by cases s <;> rfl
@[simp] theorem setSide_side_opposite : (b.setSide s m).side s.opposite = b.side s.opposite := by
  cases s <;> rfl
@[simp] theorem setSide_order : (b.setSide s m).order = b.order := by cases s <;> rfl
@[simp] theorem setSide_next : (b.setSide s m).next = b.next := by cases s <;> rfl
@[simp] theorem setSide_orders : (b.setSide s m).orders = b.orders := by cases s <;> rfl
@[simp] theorem setSide_symbol : (b.setSide s m).symbol = b.symbol := by cases s <;> rfl
@[simp] theorem setSide_stopOrders : (b.setSide s m).stopOrders = b.stopOrders := by cases s <;> rfl
@[simp] theorem setSide_stopOrderIDs : (b.setSide s m).stopOrderIDs = b.stopOrderIDs := by
  cases s <;> rfl
@[simp] theorem setSide_trades : (b.setSide s m).trades = b.trades := by cases s <;> rfl
@[simp] theorem setSide_last : (b.setSide s m).lastTradePriceTicks = b.lastTradePriceTicks := by
  cases s <;> rfl
@[simp] theorem setSide_sequence : (b.setSide s m).sequence = b.sequence := by cases s <;> rfl
@[simp] theorem setSide_now : (b.setSide s m).now = b.now := by cases s <;> rfl
end

theorem get?_putLevel (m : OMap Int PriceLevel) (k k' : Int) (l : PriceLevel) :
    (putLevel m k l).get? k' =
      if k' = k then (if l.orders = [] then none else some l) else m.get? k' := by
  unfold putLevel
  split_ifs with hl hk hk
  · rw [hk, OMap.get?_delete_self]
  · exact OMap.get?_delete_ne m hk
  · rw [hk, OMap.get?_set_self]
  · exact OMap.get?_set_ne m l hk

/-- The level of a price after `putLevel`. -/
theorem slot_putLevel {order : Ref → Order} {k : Int} {l : PriceLevel} {Q : List Ref}
    (h : LevelIs order k l Q) (m : OMap Int PriceLevel) :
    Slot (LevelIs order k) ((putLevel m k l).get? k) Q := by
  rw [get?_putLevel, if_pos rfl, h.orders]
  split
  · next hQ => exact hQ
  · next hQ => exact ⟨hQ, h⟩

theorem total_append (A B : List Order) :
    View.total (A ++ B) = wrap64 (View.total A + (B.map (·.remainingQuantity)).sum) := by
  simp [View.total]

theorem total_cons (o : Order) (Q : List Order) :
    View.total (o :: Q) = wrap64 (View.total Q + o.remainingQuantity) := by
  rw [View.total, View.total, wrap64_add, List.map_cons, List.sum_cons, add_comm]

section

variable {b b' : Book} {F : Side → List Ref} {v : View}

namespace Repr

theorem rests_depth (h : Repr b F v) : v.toDepth.Rests := by
  intro s x hx
  rw [h.orders] at hx
  obtain ⟨r, hr, rfl⟩ := List.mem_map.mp hx
  exact (h.rests s r hr).2

theorem sorted (h : Repr b F v) : v.toDepth.Sorted := by
  intro s
  rw [h.orders, List.pairwise_map]
  exact (h.levels s).sorted

theorem mem_orders (h : Repr b F v) {o : Order} : o ∈ v.orders ↔ ∃ s, ∃ r ∈ F s, b.order r = o := by
  rw [Depth.mem_orders]
  simp only [h.orders, List.mem_map]

theorem mem_ids (h : Repr b F v) {id : String} : id ∈ v.ids ↔ ∃ r, b.orders.get? id = some r := by
  simp only [Depth.ids, List.mem_map, h.mem_orders, h.index]
  constructor
  · rintro ⟨_, ⟨s, r, hr, rfl⟩, rfl⟩; exact ⟨r, ⟨s, hr⟩, rfl⟩
  · rintro ⟨r, ⟨s, hr⟩, rfl⟩; exact ⟨_, ⟨s, r, hr, rfl⟩, rfl⟩

/-- The id of an order determines it. -/
theorem inj (h : Repr b F v) {s t : Side} {r x : Ref} (hr : r ∈ F s) (hx : x ∈ F t)
    (he : (b.order r).orderId = (b.order x).orderId) : r = x := by
  have h₁ := (h.index _ r).mpr ⟨⟨s, hr⟩, rfl⟩
  rw [he, (h.index _ x).mpr ⟨⟨t, hx⟩, rfl⟩, Option.some_inj] at h₁
  exact h₁.symm

theorem side_eq (h : Repr b F v) {s t : Side} {r : Ref} (hr : r ∈ F s) (hr' : r ∈ F t) : s = t :=
  (h.rests s r hr).2.side.symm.trans (h.rests t r hr').2.side

theorem nodup (h : Repr b F v) (s : Side) : (F s).Nodup := by
  have hsub : ((v.side s).map (·.orderId)).Sublist v.ids := by
    unfold Depth.ids Depth.orders
    rw [List.map_append]
    cases s with
    | buy => exact List.sublist_append_left _ _
    | sell => exact List.sublist_append_right _ _
  have hn := h.ids.sublist hsub
  rw [h.orders, List.map_map] at hn
  exact hn.of_map

theorem length_le (h : Repr b F v) (s : Side) : (F s).length ≤ b.next := by
  have := (List.Nodup.subperm (h.nodup s) fun r hr => List.mem_range.mpr (h.rests s r hr).1).length_le
  rwa [List.length_range] at this

theorem has_iff (h : Repr b F v) (id : String) :
    b.orders.has id = true ∨ b.stopOrders.has id = true ↔ v.hasId id := by
  rw [OMap.has_iff, OMap.has_iff, View.hasId, h.mem_ids, h.stops, OMap.mem_keys]

/-! ## Snapshots -/

/-- The levels of a side, sorted, are the distinct prices of its orders. -/
theorem sorted_levels (h : Repr b F v) (s : Side) {β : Type} (f : PriceLevel → β)
    (g : Int → List Order → β) (price : β → Int) (hf : ∀ l, price (f l) = l.priceTicks)
    (hg : ∀ k l Q, LevelIs b.order k l Q → f l = g k (Q.map b.order)) :
    ((b.side s).values.map f).insertionSort (fun x y => s.rank (price x) ≤ s.rank (price y)) =
      View.levels g (v.side s) := by
  have hl := h.levels s
  have hfil : ∀ k, ((F s).map b.order).filter (·.price = k) =
      ((F s).filter (priceOf b.order · = k)).map b.order := fun k => List.filter_map
  have hget : ∀ k l, (b.side s).get? k = some l →
      f l = g k (((F s).map b.order).filter (·.price = k)) := fun k l hk => by
    rw [hfil]; exact hg k l _ (hl.of_get? hk).1
  have hval : (b.side s).values.map f =
      (b.side s).keys.map fun k => g k (((F s).map b.order).filter (·.price = k)) := by
    simp only [OMap.values, OMap.keys, List.map_map]
    exact List.map_congr_left fun e he => hget e.1 e.2 (OMap.mem_entries.mp he)
  have hgp : ∀ k ∈ (b.side s).keys, price (g k (((F s).map b.order).filter (·.price = k))) = k := by
    intro k hk
    obtain ⟨l, hlk⟩ := OMap.mem_keys.mp hk
    rw [← hget k l hlk, hf]
    exact (hl.of_get? hlk).1.price
  rw [hval, View.levels, h.orders, List.map_map]
  have hsort := hl.sorted_keys s.rank_injective
  rw [show ((F s).map (Order.price ∘ b.order)) = (F s).map (priceOf b.order) from rfl, ← hsort]
  refine (List.map_insertionSort _ _ _ (b.side s).keys fun x hx y hy => ?_).symm
  rw [hgp x hx, hgp y hy]

theorem sideSnapshot_eq (h : Repr b F v) (s : Side) :
    b.sideSnapshot s = View.levels View.levelSnapshot (v.side s) := by
  refine h.sorted_levels s _ _ PriceLevelSnapshot.priceTicks (fun _ => rfl) fun k l Q hl => ?_
  simp only [PriceLevel.snapshot, View.levelSnapshot, hl.price, hl.orders, hl.total, List.length_map,
    List.head?_map, List.getLast?_map, Option.map_map, Function.comp_def]

theorem recoverySide_eq (h : Repr b F v) (s : Side) :
    b.recoverySide s = View.levels View.recoveryLevel (v.side s) := by
  refine h.sorted_levels s _ _ RecoveryPriceLevel.priceTicks (fun _ => rfl) fun k l Q hl => ?_
  simp only [PriceLevel.recovery, View.recoveryLevel, hl.price, hl.orders, hl.total, List.length_map]

theorem bestPrice_eq (h : Repr b F v) (s : Side) :
    b.bestPrice s = (v.side s).head?.map Order.price := by
  have hl := h.levels s
  rw [h.orders]
  cases hF : F s with
  | nil =>
    have hk := hl.nil_iff.mp hF
    cases s with
    | buy => exact List.max?_eq_none_iff.mpr hk
    | sell => exact List.min?_eq_none_iff.mpr hk
  | cons r G =>
    rw [hF] at hl
    obtain ⟨hmem, hbest⟩ := hl.best
    cases s with
    | buy => exact List.max?_eq_some_iff.mpr ⟨hmem, fun k hk => neg_le_neg_iff.mp (hbest k hk)⟩
    | sell => exact List.min?_eq_some_iff.mpr ⟨hmem, fun k hk => hbest k hk⟩

theorem filterMap_stops (h : Repr b F v) : b.stopSnapshots = v.stops.values := by
  unfold stopSnapshots OMap.values
  rw [h.stopIDs, h.stops, OMap.keys, List.filterMap_map, ← List.filterMap_eq_map]
  exact List.filterMap_congr fun e he => OMap.mem_entries.mp he

theorem snapshot_eq (h : Repr b F v) : b.snapshot = v.snapshot := by
  unfold Book.snapshot View.snapshot
  rw [h.bestPrice_eq, h.bestPrice_eq, h.sideSnapshot_eq, h.sideSnapshot_eq, h.filterMap_stops,
    h.symbol, h.sequence, h.last]
  rfl

theorem recoverySnapshot_eq (h : Repr b F v) (id : Option String) :
    b.recoverySnapshot id = v.recoverySnapshot id := by
  unfold Book.recoverySnapshot View.recoverySnapshot
  rw [h.recoverySide_eq, h.recoverySide_eq, h.filterMap_stops, h.symbol, h.sequence, h.last]
  rfl

theorem eligible_eq (h : Repr b F v) : eligibleStops b = v.eligible := by
  unfold eligibleStops View.eligible
  rw [h.last, ← h.filterMap_stops]
  rfl

/-! ## Operations -/

/-- A step that does not touch the orders and the sides. -/
theorem scalars {v' : View} (h : Repr b F v)
    (hb : b' = { b with
      stopOrders := b'.stopOrders, stopOrderIDs := b'.stopOrderIDs, trades := b'.trades
      lastTradePriceTicks := b'.lastTradePriceTicks, sequence := b'.sequence, now := b'.now })
    (hv : v' = { v with
      stops := b'.stopOrders, trades := b'.trades, lastTradePriceTicks := b'.lastTradePriceTicks
      sequence := b'.sequence, clock := b'.now })
    (hids : b'.stopOrderIDs = b'.stopOrders.keys) : Repr b' F v' := by
  rw [hv]
  rw [hb] at hids ⊢
  exact ⟨fun s => (by cases s <;> exact h.levels _), h.rests, h.orders, h.ids, h.index, h.symbol, rfl,
    hids, rfl, rfl, rfl, rfl⟩

/-- Orders that do not rest do not matter. -/
theorem frame {order : Ref → Order} {next : Ref} (h : Repr b F v)
    (ho : ∀ s, ∀ r ∈ F s, order r = b.order r) (hn : b.next ≤ next) :
    Repr { b with order, next } F v := by
  refine ⟨fun s => ?_, fun s r hr => ?_, fun s => ?_, h.ids, fun id r => ?_, h.symbol, h.stops, h.stopIDs,
    h.trades, h.last, h.sequence, h.clock⟩
  · have hs : Levels s.rank (b.side s) (LevelIs order) (priceOf order) (F s) := by
      refine (h.levels s).congr (fun k l _ hl => ⟨hl.price, hl.orders, ?_⟩) fun r hr => ?_
      · rw [hl.total, List.map_congr_left fun r hr => ho s r (List.mem_of_mem_filter hr)]
      · rw [priceOf, ho s r hr]; rfl
    cases s <;> exact hs
  · show r < next ∧ (order r).RestsOn s
    rw [ho s r hr]
    exact ⟨(h.rests s r hr).1.trans_le hn, (h.rests s r hr).2⟩
  · rw [h.orders]
    exact (List.map_congr_left fun r hr => ho s r hr).symm
  · show b.orders.get? id = some r ↔ _ ∧ (order r).orderId = id
    rw [h.index]
    refine and_congr_right ?_
    rintro ⟨s, hr⟩
    rw [ho s r hr]

/-- One level changes, and with it the list of its side. -/
theorem update (h : Repr b F v) (s : Side) (F' : List Ref) (p : Int) (l : PriceLevel)
    (order : Ref → Order) (orders : OMap String Ref) (trades : List Trade)
    (hl : LevelIs order p l (F'.filter (priceOf order · = p)))
    (hsorted : F'.Pairwise fun x y => s.rank (priceOf order x) ≤ s.rank (priceOf order y))
    (hother : ∀ k, k ≠ p →
      F'.filter (priceOf order · = k) = (F s).filter (priceOf b.order · = k))
    (hsame : ∀ x ∈ F s, priceOf b.order x ≠ p → order x = b.order x)
    (hopp : ∀ x ∈ F s.opposite, order x = b.order x)
    (hrests : ∀ x ∈ F', x < b.next ∧ (order x).RestsOn s)
    (hids : (v.setSide s (F'.map order)).ids.Nodup)
    (hindex : ∀ id r, orders.get? id = some r ↔
      (r ∈ F' ∨ r ∈ F s.opposite) ∧ (order r).orderId = id) :
    Repr ({ b with order, orders, trades }.setSide s (putLevel (b.side s) p l))
      (Function.update F s F') { v with toDepth := v.setSide s (F'.map order), trades } := by
  have hF : ∀ t, (Function.update F s F' t = F' ∧ t = s) ∨
      (Function.update F s F' t = F s.opposite ∧ t = s.opposite) := fun t => by
    rcases Side.eq_or_opposite s t with rfl | rfl
    · exact .inl ⟨Function.update_self _ _ _, rfl⟩
    · exact .inr ⟨Function.update_of_ne s.opposite_ne _ _, rfl⟩
  have hside : ({ b with order, orders, trades } : Book).side s.opposite = b.side s.opposite := by
    cases s <;> rfl
  refine ⟨fun t => ?_, fun t x hx => ?_, fun t => ?_, hids, fun id r => ?_, ?_, ?_, ?_, ?_, ?_, ?_, ?_⟩
  · rw [setSide_order]
    rcases hF t with ⟨hF, rfl⟩ | ⟨hF, rfl⟩
    · rw [hF, setSide_side]
      refine (h.levels t).update p hsorted (slot_putLevel hl _) fun k hk => ⟨hother k hk, fun hslot => ?_⟩
      rw [get?_putLevel, if_neg hk]
      cases hm : (b.side t).get? k with
      | none => rw [hm] at hslot; exact hslot
      | some l' =>
        rw [hm] at hslot
        refine ⟨hslot.1, hslot.2.price, hslot.2.orders, ?_⟩
        rw [hslot.2.total, List.map_congr_left fun x hx => ?_]
        obtain ⟨hx, hxk⟩ := List.mem_filter.mp hx
        exact (hsame x hx fun he => hk ((of_decide_eq_true hxk).symm.trans he)).symm
    · rw [hF, setSide_side_opposite, hside]
      refine (h.levels _).congr (fun k l _ hl => ⟨hl.price, hl.orders, ?_⟩) fun x hx => ?_
      · rw [hl.total, List.map_congr_left fun x hx => hopp x (List.mem_of_mem_filter hx)]
      · exact congrArg Order.price (hopp x hx)
  · rw [setSide_next, setSide_order]
    rcases hF t with ⟨hF, rfl⟩ | ⟨hF, rfl⟩
    · exact hrests x (hF ▸ hx)
    · rw [hF] at hx
      show x < b.next ∧ (order x).RestsOn _
      rw [hopp x hx]
      exact h.rests _ x hx
  · rw [setSide_order]
    rcases hF t with ⟨hF, rfl⟩ | ⟨hF, rfl⟩
    · rw [hF]; exact Depth.side_setSide _ _ _
    · rw [hF, List.map_congr_left hopp, ← h.orders]
      exact Depth.side_opposite_setSide _ _ _
  · rw [setSide_orders, setSide_order]
    refine (hindex id r).trans (and_congr_left fun _ => ?_)
    constructor
    · rintro (hr | hr)
      · exact ⟨s, by rwa [Function.update_self]⟩
      · exact ⟨s.opposite, by rwa [Function.update_of_ne s.opposite_ne]⟩
    · rintro ⟨t, hr⟩
      rcases hF t with ⟨hF, -⟩ | ⟨hF, -⟩
      · exact .inl (hF ▸ hr)
      · exact .inr (hF ▸ hr)
  · rw [setSide_symbol]; exact h.symbol
  · rw [setSide_stopOrders]; exact h.stops
  · rw [setSide_stopOrderIDs, setSide_stopOrders]; exact h.stopIDs
  · rw [setSide_trades]
  · rw [setSide_last]; exact h.last
  · rw [setSide_sequence]; exact h.sequence
  · rw [setSide_now]; exact h.clock

/-- The resting orders of the side and of the opposite one, in the index. -/
theorem index_iff (h : Repr b F v) (s : Side) (id : String) (r : Ref) :
    b.orders.get? id = some r ↔ (r ∈ F s ∨ r ∈ F s.opposite) ∧ (b.order r).orderId = id := by
  rw [h.index]
  refine and_congr_left fun _ => ⟨?_, ?_⟩
  · rintro ⟨t, hr⟩
    rcases Side.eq_or_opposite s t with rfl | rfl
    · exact .inl hr
    · exact .inr hr
  · rintro (hr | hr)
    · exact ⟨_, hr⟩
    · exact ⟨_, hr⟩

/-- The first order of a side trades a part of what it has. -/
theorem reduce {s : Side} {r : Ref} {G : List Ref} {l : PriceLevel} {q : Int} (h : Repr b F v)
    (hF : F s = r :: G) (hl : (b.side s).get? (priceOf b.order r) = some l) (hq : 0 < q)
    (hlt : q < (b.order r).remainingQuantity) (trades : List Trade) :
    Repr ({ b with order := Function.update b.order r ((b.order r).filledBy q), trades }.setSide s
        (putLevel (b.side s) (priceOf b.order r)
          { l with totalQuantity := wrap64 (l.totalQuantity - q) })) F
      { v with
        toDepth := v.setSide s ((b.order r).filledBy q :: G.map b.order), trades } := by
  set order := Function.update b.order r ((b.order r).filledBy q) with ho
  have hmem : r ∈ F s := by rw [hF]; exact List.mem_cons_self
  have hself : order r = (b.order r).filledBy q := Function.update_self _ _ _
  have hne : ∀ x, x ≠ r → order x = b.order x := fun x hx => Function.update_of_ne hx _ _
  have hp : priceOf order = priceOf b.order := by
    funext x
    by_cases hx : x = r
    · rw [hx, priceOf, hself]; rfl
    · rw [priceOf, hne x hx]; rfl
  have hG : G.map order = G.map b.order := by
    have hn := h.nodup s
    rw [hF] at hn
    exact List.map_congr_left fun x hx => hne x (ne_of_mem_of_not_mem hx (List.nodup_cons.mp hn).1)
  have hids : ∀ x, (order x).orderId = (b.order x).orderId := fun x => by
    by_cases hx : x = r
    · rw [hx, hself]; rfl
    · rw [hne x hx]
  have hupd := h.update s (F s) (priceOf b.order r) { l with totalQuantity := wrap64 (l.totalQuantity - q) }
    order b.orders trades ?_ ?_ ?_ ?_ ?_ ?_ ?_ ?_
  · rw [Function.update_eq_self, hF, List.map_cons, hself, hG] at hupd
    exact hupd
  · obtain ⟨hlev, -⟩ := (h.levels s).of_get? hl
    refine ⟨hlev.price, by rw [hp]; exact hlev.orders, ?_⟩
    show wrap64 (l.totalQuantity - q) = _
    have hsub : ∀ x ∈ G.filter (priceOf b.order · = priceOf b.order r), order x = b.order x :=
      fun x hx => List.map_inj_left.mp hG x (List.mem_of_mem_filter hx)
    rw [hlev.total, hp, hF, List.filter_cons_of_pos (by simp), List.map_cons, List.map_cons, hself,
      List.map_congr_left hsub, total_cons, total_cons, wrap64_sub, Order.filledBy_remaining]
    congr 1
    omega
  · rw [hp]; exact (h.levels s).sorted
  · intro k _; rw [hp]
  · exact fun x _ hx => hne x fun e => hx (by rw [e])
  · exact fun x hx => hne x fun e => s.opposite_ne (h.side_eq (e ▸ hx) hmem)
  · intro x hx
    refine ⟨(h.rests s x hx).1, ?_⟩
    by_cases hxr : x = r
    · rw [hxr, hself]; exact (h.rests s r hmem).2.filledBy hq hlt
    · rw [hne x hxr]; exact (h.rests s x hx).2
  · have hmap : ((F s).map order).map (·.orderId) = (v.side s).map (·.orderId) := by
      rw [h.orders, List.map_map, List.map_map]
      exact List.map_congr_left fun x _ => hids x
    rw [(Depth.setSide_ids v.toDepth s _).nodup_iff, hmap, ← (Depth.setSide_ids v.toDepth s _).nodup_iff,
      Depth.setSide_side]
    exact h.ids
  · intro id x
    rw [h.index_iff s, hids]

/-- An order leaves. -/
theorem erase {s : Side} {A B : List Ref} {r : Ref} {l : PriceLevel}
    (h : Repr b F v) (order : Ref → Order) (hF : F s = A ++ r :: B) (hl : (b.side s).get? (priceOf b.order r) = some l)
    (ho : ∀ x, x ≠ r → order x = b.order x) (trades : List Trade) :
    Repr ({ b with
        order, orders := b.orders.delete (b.order r).orderId, trades }.setSide s
        (putLevel (b.side s) (priceOf b.order r) (l.remove b.order r)))
      (Function.update F s (A ++ B))
      { v with toDepth := v.setSide s ((A ++ B).map b.order), trades } := by
  have hmem : r ∈ F s := by rw [hF]; simp
  have hn := h.nodup s
  rw [hF, List.nodup_middle, List.nodup_cons] at hn
  have hne : ∀ x ∈ A ++ B, x ≠ r := fun x hx => ne_of_mem_of_not_mem hx hn.1
  have hmap : (A ++ B).map order = (A ++ B).map b.order :=
    List.map_congr_left fun x hx => ho x (hne x hx)
  have hp : ∀ x ∈ A ++ B, priceOf order x = priceOf b.order x := fun x hx => by
    rw [priceOf, ho x (hne x hx)]; rfl
  have hfil : ∀ k, (A ++ B).filter (priceOf order · = k) = (A ++ B).filter (priceOf b.order · = k) :=
    fun k => List.filter_congr fun x hx => by rw [hp x hx]
  have hsub : (A ++ B).Sublist (F s) := by
    rw [hF]; exact List.Sublist.append_left (List.sublist_cons_self r B) A
  have hopp : ∀ x ∈ F s.opposite, x ≠ r := fun x hx e => s.opposite_ne (h.side_eq (e ▸ hx) hmem)
  have hupd := h.update s (A ++ B) (priceOf b.order r) (l.remove b.order r) order
    (b.orders.delete (b.order r).orderId) trades
    ?_ ?_ ?_ ?_ ?_ ?_ ?_ ?_
  · rwa [hmap] at hupd
  · obtain ⟨hlev, -⟩ := (h.levels s).of_get? hl
    have hQ := hlev.orders
    rw [hF, List.filter_append, List.filter_cons_of_pos (by simp)] at hQ
    have hrA : r ∉ A.filter (priceOf b.order · = priceOf b.order r) := fun hr =>
      hn.1 (List.mem_append_left _ (List.mem_of_mem_filter hr))
    unfold PriceLevel.remove
    rw [if_pos (by rw [hQ]; simp)]
    refine ⟨hlev.price, ?_, ?_⟩
    · show l.orders.erase r = _
      rw [hQ, hfil, List.erase_append_right _ hrA, List.erase_cons_head, List.filter_append]
    · show wrap64 (l.totalQuantity - _) = _
      have hback : ((A ++ B).filter (priceOf b.order · = priceOf b.order r)).map order =
          ((A ++ B).filter (priceOf b.order · = priceOf b.order r)).map b.order :=
        List.map_congr_left fun x hx => ho x (hne x (List.mem_of_mem_filter hx))
      rw [hlev.total, hfil, hback, hF, List.filter_append, List.filter_append,
        List.filter_cons_of_pos (by simp)]
      simp only [View.total, List.map_append, List.map_cons, List.sum_append, List.sum_cons, wrap64_sub]
      congr 1
      omega
  · exact ((h.levels s).sorted.sublist hsub).imp_of_mem fun hx hy hxy => by
      rw [hp _ hx, hp _ hy]; exact hxy
  · intro k hk
    rw [hfil, hF, List.filter_append, List.filter_append,
      List.filter_cons_of_neg (by simpa using Ne.symm hk)]
  · exact fun x _ hx => ho x fun e => hx (by rw [e])
  · exact fun x hx => ho x (hopp x hx)
  · intro x hx
    rw [ho x (hne x hx)]
    exact h.rests s x (hsub.subset hx)
  · have hperm := Depth.setSide_ids v.toDepth s (v.side s)
    rw [Depth.setSide_side] at hperm
    rw [(Depth.setSide_ids v.toDepth s _).nodup_iff, hmap]
    refine (hperm.nodup_iff.mp h.ids).sublist (List.Sublist.append_right ?_ _)
    rw [h.orders]
    exact (hsub.map _).map _
  · intro id x
    rw [OMap.get?_delete]
    by_cases hid : id = (b.order r).orderId
    · rw [if_pos hid]
      refine ⟨fun h => (by cases h), ?_⟩
      rintro ⟨hx | hx, hxid⟩
      · rw [ho x (hne x hx)] at hxid
        exact absurd (h.inj (hsub.subset hx) hmem (hxid.trans hid)) (hne x hx)
      · rw [ho x (hopp x hx)] at hxid
        exact absurd (h.inj hx hmem (hxid.trans hid)) (hopp x hx)
    · rw [if_neg hid, h.index_iff s]
      constructor
      · rintro ⟨hx, hxid⟩
        have hxr : x ≠ r := fun e => hid (by rw [← hxid, e])
        rw [ho x hxr]
        rw [hF] at hx
        simp only [List.mem_append, List.mem_cons] at hx ⊢
        tauto
      · rintro ⟨hx | hx, hxid⟩
        · exact ⟨.inl (hsub.subset hx), by rwa [ho x (hne x hx)] at hxid⟩
        · exact ⟨.inr hx, by rwa [ho x (hopp x hx)] at hxid⟩

/-- An order comes to rest, at the end of the queue of its price. -/
theorem push {s : Side} {r : Ref} (h : Repr b F v) (hr : r < b.next) (hrest : (b.order r).RestsOn s)
    (hid : (b.order r).orderId ∉ v.ids) :
    Repr ({ b with orders := b.orders.set (b.order r).orderId r }.setSide s
        (putLevel (b.side s) (priceOf b.order r)
          ((((b.side s).get? (priceOf b.order r)).getD ⟨priceOf b.order r, 0, []⟩).append b.order r)))
      (Function.update F s (enqueue s.rank (priceOf b.order) r (F s)))
      { v with toDepth := v.rest (b.order r) } := by
  have hfresh : ∀ t, r ∉ F t := fun t hrt =>
    hid (h.mem_ids.mpr ⟨r, (h.index _ r).mpr ⟨⟨t, hrt⟩, rfl⟩⟩)
  have hmap : (enqueue s.rank (priceOf b.order) r (F s)).map b.order =
      enqueue s.rank Order.price (b.order r) (v.side s) := by
    rw [h.orders]
    exact enqueue_map b.order rfl fun _ _ => rfl
  have hfil := @enqueue_filter _ _ _ _ s.rank (priceOf b.order) r _ _ (h.levels s).sorted
  have hupd := h.update s (enqueue s.rank (priceOf b.order) r (F s)) (priceOf b.order r)
    ((((b.side s).get? (priceOf b.order r)).getD ⟨priceOf b.order r, 0, []⟩).append b.order r)
    b.order (b.orders.set (b.order r).orderId r) b.trades ?_ ?_ ?_ ?_ ?_ ?_ ?_ ?_
  · rw [hmap] at hupd
    rw [Depth.rest, hrest.side]
    rw [← h.trades] at hupd ⊢
    exact hupd
  · rw [hfil, if_pos rfl]
    have hslot := (h.levels s).slot (priceOf b.order r)
    unfold PriceLevel.append
    cases hg : (b.side s).get? (priceOf b.order r) with
    | none =>
      rw [hg] at hslot
      rw [show _ = [] from hslot]
      exact ⟨rfl, rfl, by simp [View.total]⟩
    | some l =>
      rw [hg] at hslot
      refine ⟨hslot.2.price, ?_, ?_⟩
      · show l.orders ++ [r] = _
        rw [hslot.2.orders]
      · show wrap64 (l.totalQuantity + _) = _
        rw [hslot.2.total, List.map_append, total_append]
        simp
  · exact enqueue_sorted (h.levels s).sorted
  · intro k hk
    rw [hfil, if_neg (Ne.symm hk)]
  · exact fun _ _ _ => rfl
  · exact fun _ _ => rfl
  · intro x hx
    rcases mem_enqueue.mp hx with rfl | hx
    · exact ⟨hr, hrest⟩
    · exact h.rests s x hx
  · rw [hmap]
    have hperm := Depth.rest_ids (d := v.toDepth) (o := b.order r)
    rw [Depth.rest, hrest.side] at hperm
    exact hperm.nodup_iff.mpr (List.nodup_cons.mpr ⟨hid, h.ids⟩)
  · intro id x
    rw [OMap.get?_set, mem_enqueue]
    by_cases hxr : id = (b.order r).orderId
    · rw [if_pos hxr, Option.some_inj]
      refine ⟨fun e => e ▸ ⟨.inl (.inl rfl), hxr.symm⟩, ?_⟩
      rintro ⟨hx, hxid⟩
      by_contra hne
      have hx : x ∈ F s ∨ x ∈ F s.opposite := by tauto
      exact hid (h.mem_ids.mpr ⟨x, (h.index_iff s _ x).mpr ⟨hx, hxid.trans hxr⟩⟩)
    · rw [if_neg hxr, h.index_iff s]
      refine and_congr_left fun hxid => ?_
      have hne : x ≠ r := fun e => hxr (by rw [← hxid, e])
      tauto

end Repr

end

end Lob.Go
