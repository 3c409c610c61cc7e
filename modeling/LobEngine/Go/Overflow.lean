import LobEngine.Go.Sized

/-!
# Additions that leave the range

The engine adds up what rests on a level, and a trailing amount to the lowest price, in `int64`. Both wrap around.

* `NoOverflow`: the totals of the levels and the trigger prices are the exact ones.
* `Within`: the exact ones are in range. `no_overflow_iff`: that is the same.
* `Bounded`, `BoundedRun`: calls that keep them in range, judged by what rests and what is pending before the call.
  `Go/Sums` is about the sums inside such a call.
-/

namespace Lob

/-! ## What rests on a level -/

/-- What the order has left, if it is at the price. -/
def Order.weight (p : Int) (o : Order) : Int := if o.price = p then o.remainingQuantity else 0

namespace Depth

variable {d : Depth} {o : Order} {s : Side} {p : Int}

/-- What rests on the side at the price. -/
def levelSum (d : Depth) (s : Side) (p : Int) : Int := ((d.side s).map (Order.weight p)).sum

theorem weight_nonneg (h : 0 ≤ o.remainingQuantity) : 0 ≤ o.weight p := by
  unfold Order.weight
  split
  · exact h
  · exact le_rfl

theorem filledBy_weight {n : Int} (hn : 0 ≤ n) : (o.filledBy n).weight p ≤ o.weight p := by
  unfold Order.weight
  rw [Order.filledBy_price, Order.filledBy_remaining]
  split
  · omega
  · exact le_rfl

theorem Rests.weight (h : d.Rests) : ∀ x ∈ d.side s, 0 ≤ x.weight p := fun _ hx => weight_nonneg (h.remaining hx).le

theorem levelSum_fillFrom (h : d.Rests) {ignore : Bool} :
    (d.fillFrom o ignore).2.2.levelSum s p ≤ d.levelSum s p := by
  unfold fillFrom levelSum
  rcases Side.eq_or_opposite o.side s with rfl | rfl
  · rw [side_setSide_opposite]
  · rw [side_setSide]
    exact walk_rest_sum_le (fun n x hn => filledBy_weight hn.le) _ h.weight

theorem levelSum_rest :
    (d.rest o).levelSum s p = d.levelSum s p + if o.side = s then o.weight p else 0 := by
  unfold rest levelSum
  split
  · next hs =>
    subst hs
    rw [side_setSide, (enqueue_perm.map _).sum_eq, List.map_cons, List.sum_cons]
    omega
  · next hs =>
    rcases Side.eq_or_opposite o.side s with rfl | rfl
    · exact absurd rfl hs
    · rw [side_opposite_setSide]
      omega

/-- An order executes: a limit order brings to its level at most what it has. -/
theorem levelSum_execute (h : d.Rests) (ho : 0 ≤ o.remainingQuantity) :
    (d.execute o).2.2.levelSum s p ≤
      d.levelSum s p + if o.type = .limit ∧ o.side = s then o.weight p else 0 := by
  have hfill := @levelSum_fillFrom _ o s p h (o.type ≠ .limit)
  have hn := taken_nonneg h o (o.type ≠ .limit)
  have hw := @filledBy_weight o p _ hn
  have hpos := @weight_nonneg o p ho
  have hbrings : 0 ≤ if o.type = .limit ∧ o.side = s then o.weight p else 0 := by
    split
    · exact hpos
    · exact le_rfl
  show ((d.fillFrom o (o.type ≠ .limit)).2.2.settle (o.filledBy (d.taken o (o.type ≠ .limit)))).2.levelSum s p ≤ _
  by_cases hrem : 0 < (o.filledBy (d.taken o (o.type ≠ .limit))).remainingQuantity
  · by_cases hl : (o.filledBy (d.taken o (o.type ≠ .limit))).type = .limit
    · rw [settle_limit hl hrem, levelSum_rest, Order.filledBy_side]
      by_cases hs : o.side = s
      · rw [if_pos hs, if_pos ⟨hl, hs⟩]
        omega
      · rw [if_neg hs]
        omega
    · rw [settle_market hl hrem]
      dsimp only
      omega
  · rw [settle_done hrem]
    dsimp only
    omega

theorem levelSum_remove (h : d.Rests) (key : String) : (d.remove key).levelSum s p ≤ d.levelSum s p := by
  unfold levelSum
  rw [side_remove]
  exact List.Sublist.sum_le_sum (List.filter_sublist.map _) fun x hx => by
    obtain ⟨y, hy, rfl⟩ := List.mem_map.mp hx
    exact h.weight y hy

end Depth

namespace Go

open Exc

/-- What the pending stop order can bring to the level. -/
def StopOrder.waits (s : Side) (p : Int) (o : StopOrder) : Int :=
  if o.type = .stopLimit ∧ o.side = s ∧ o.priceTicks = some p then o.remainingQuantity else 0

/-- What the pending stop orders can bring to the level. -/
def waiting (stops : List StopOrder) (s : Side) (p : Int) : Int := (stops.map (StopOrder.waits s p)).sum

/-- The exact trigger price of a trailing stop order is in range. -/
def StopOrder.Within (o : StopOrder) : Prop :=
  o.type = .trailingStopMarket → ∀ x a, o.extremum = some x → o.trailingAmountTicks = some a →
    Side.trigger o.side x a < 2 ^ 63

/-! ## Books -/

namespace Book

variable (b : Book)

/-- What rests on the side at the price. -/
def levelSum (s : Side) (p : Int) : Int :=
  match (b.side s).get? p with
  | none => 0
  | some l => (l.orders.map fun r => (b.order r).remainingQuantity).sum

/-- What rests on the side at the price, and what can come to rest there. -/
def load (s : Side) (p : Int) : Int := b.levelSum s p + waiting b.stopSnapshots s p

/-- No order of the book has the id. -/
def free (id : String) : Bool := !b.orders.has id && !b.stopOrders.has id

/-- The totals and the trigger prices are exact. So a trailing stop order to buy is not eligible below its valley
and its amount, nor is one to sell above its peak less its amount. -/
structure NoOverflow : Prop where
  totals : ∀ s p l, (b.side s).get? p = some l →
    l.totalQuantity = (l.orders.map fun r => (b.order r).remainingQuantity).sum
  triggers : ∀ o ∈ b.stopSnapshots, o.type = .trailingStopMarket → ∃ x a, o.extremum = some x ∧
    o.trailingAmountTicks = some a ∧ o.triggerPriceTicks = Side.trigger o.side x a ∧
    ∀ price, isEligible price o = true →
      (o.side = .buy → x + a ≤ price) ∧ (o.side = .sell → price ≤ x - a)

/-- The exact sums and trigger prices are in range. -/
structure Within : Prop where
  levels : ∀ s p, b.levelSum s p < 2 ^ 63
  triggers : ∀ o ∈ b.stopSnapshots, o.Within

/-- The call keeps the numbers in range: a limit order or a stop-limit order whose id is free leaves the load of its
level in range, and the first trigger price of a trailing stop order to buy is in range. -/
def Bounded : Call → Prop
  | .placeLimit i | .placeStopLimit i => b.free i.orderId = true → ∀ s p, sideOf i.side = some s →
      i.priceTicks = some p → b.load s p + i.quantity < 2 ^ 63
  | .placeTrailingStopMarket i => b.free i.orderId = true → sideOf i.side = some .buy →
      ∀ last a, b.lastTradePriceTicks = some last → i.trailingAmountTicks = some a → last + a < 2 ^ 63
  | _ => True

end Book

inductive BoundedRun : Book → Prop
  | empty (symbol : String) (now : Clock) (valid : isBlank symbol = false) : BoundedRun (Book.empty symbol now)
  | call {b : Book} (h : BoundedRun b) (c : Call) (int64 : c.IsInt64) (bounded : b.Bounded c) :
    BoundedRun (Go.call b c).2
  | restore {b b' : Book} (h : BoundedRun b) (id : Option String) (now : Clock)
    (restored : fromRecoverySnapshot (b.recoverySnapshot id) now = .ok b') : BoundedRun b'

/-! ## Views -/

def View.load (v : View) (s : Side) (p : Int) : Int := v.levelSum s p + waiting v.stops.values s p

/-- What a run of bounded calls guarantees of its views. -/
structure Loaded (v : View) : Prop extends Sized v where
  rests : v.toDepth.Rests
  positive : ∀ k s, v.stops.get? k = some s → 0 ≤ s.remainingQuantity
  load : ∀ s p, v.load s p < 2 ^ 63
  within : ∀ k s, v.stops.get? k = some s → s.Within

section

variable {b : Book} {v : View} {o : StopOrder} {s : Side} {p : Int} {c : Call}

theorem waits_nonneg (h : 0 ≤ o.remainingQuantity) : 0 ≤ o.waits s p := by
  unfold StopOrder.waits
  split
  · exact h
  · exact le_rfl

theorem waits_trail (last : Int) : (View.trail last o).waits s p = o.waits s p := by
  obtain ⟨_, _, _, he⟩ := trail_eq last o
  rw [he]
  rfl

theorem waiting_trail (m : OMap String StopOrder) (last : Int) :
    waiting (m.mapValues (View.trail last)).values s p = waiting m.values s p := by
  unfold waiting
  rw [OMap.values_mapValues, List.map_map]
  exact congrArg List.sum (List.map_congr_left fun o _ => waits_trail last)

theorem waiting_delete {m : OMap String StopOrder} {key : String} (h : m.get? key = some o) :
    waiting m.values s p = o.waits s p + waiting (m.delete key).values s p := by
  unfold waiting
  rw [((OMap.values_delete_perm h).map _).sum_eq, List.map_cons, List.sum_cons]

theorem within_trail (hs : o.Sized) (h : o.Within) {last : Int} (hlast : Ticks last) :
    (View.trail last o).Within := by
  by_cases ht : o.type = .trailingStopMarket
  · obtain ⟨a, x, ha, hpos, hx, hxt, -⟩ := hs.trailing ht
    have hold := h ht x a hx ha
    rcases trail_cases last ht ha with he | ⟨hside, he⟩ | ⟨hside, hvalley, he⟩
    · rw [he]
      exact h
    -- A peak less an amount is always in range, and a valley only falls.
    · rw [he]
      intro _ x' a' hx' ha'
      obtain rfl : last = x' := Option.some.inj (by rw [← hx', StopOrder.extremum, hside])
      obtain rfl : a = a' := Option.some.inj (ha.symm.trans ha')
      rw [hside]
      have := hlast.2
      have := hpos.1
      show last - a < 2 ^ 63
      omega
    · rw [he]
      intro _ x' a' hx' ha'
      obtain rfl : last = x' := Option.some.inj (by rw [← hx', StopOrder.extremum, hside])
      obtain rfl : a = a' := Option.some.inj (ha.symm.trans ha')
      rw [StopOrder.extremum, hside] at hx
      rw [show o.valleyPriceTicks = some x from hx] at hvalley
      rw [hside] at hold ⊢
      have := of_decide_eq_true (show decide (last < x) = true from hvalley)
      show last + a < 2 ^ 63
      change x + a < 2 ^ 63 at hold
      omega
  · rw [trail_other last ht]
    exact h

theorem loaded_delete (h : Loaded v) {t : StopOrder} (ht : v.stops.get? t.orderId = some t) :
    Loaded { v with stops := v.stops.delete t.orderId } := by
  refine ⟨sized_fires.delete h.toSized ht, h.rests, fun k s hs => h.positive k s (OMap.get?_of_delete hs).2,
    fun s p => ?_, fun k s hs => h.within k s (OMap.get?_of_delete hs).2⟩
  have hload := h.load s p
  unfold View.load at hload ⊢
  rw [waiting_delete ht] at hload
  have := @waits_nonneg t s p (h.positive _ t ht)
  show v.levelSum s p + waiting (v.stops.delete t.orderId).values s p < 2 ^ 63
  omega

/-- The load of a level, once an order executed and these stop orders are pending. -/
theorem load_executed (h : v.toDepth.Rests) {x : Order} (hx : x.New) {m : OMap String StopOrder} :
    View.load { v.executed x with stops := m } s p ≤ v.levelSum s p +
      (if x.type = .limit ∧ x.side = s then x.weight p else 0) + waiting m.values s p := by
  have hpos : 0 ≤ x.remainingQuantity := by
    rw [hx.remaining]
    exact hx.positive.le
  exact add_le_add_left (Depth.levelSum_execute h hpos) _

/-- What the order of a stop order brings to a level is what the stop order waited with. -/
theorem fired_brings (h : o.Sized) {symbol : String} {ms : Int} {x : Order}
    (hn : NewOrder symbol (executedType o) (executedInput o ms) true x) (s : Side) (p : Int) :
    (if x.type = .limit ∧ x.side = s then x.weight p else 0) = o.waits s p := by
  have hside : x.side = o.side := by
    have := hn.side
    rw [show (executedInput o ms).side = sideText o.side from rfl,
      show sideOf (sideText o.side) = some o.side by cases o.side <;> rfl] at this
    exact (Option.some.inj this).symm
  have htype : x.type = .limit ↔ o.type = .stopLimit := by
    rw [hn.type]
    unfold executedType
    split
    · next hl => exact ⟨fun _ => hl, fun _ => rfl⟩
    · next hl => exact ⟨fun h => (by cases h), fun h => absurd h hl⟩
  unfold StopOrder.waits Order.weight
  rw [hside, hn.quantity.2.1]
  by_cases hl : o.type = .stopLimit
  · obtain ⟨q, hq, -⟩ := h.limit hl
    have hprice : x.price = q := by
      rw [Order.price, hn.priceTicks, show (executedInput o ms).priceTicks = some q from hq]
      rfl
    simp only [htype.mpr hl, hl, true_and, hprice, hq, Option.some.injEq]
    by_cases hs : o.side = s
    · simp only [hs, if_true, true_and]
      rfl
    · simp only [hs, if_false, false_and]
  · rw [if_neg fun h => hl (htype.mp h.1), if_neg fun h => hl h.1]

theorem loaded_fires : Fires Loaded fun t => Ticks t.priceTicks where
  keyed h := h.keyed
  clock h := ⟨sized_fires.clock h.toSized, h.rests, h.positive, h.load, h.within⟩
  last {v t} h ht := by
    refine ⟨sized_fires.last h.toSized ht, h.rests, fun k s hs => ?_, fun s p => ?_, fun k s hs => ?_⟩
    · rw [OMap.get?_mapValues, Option.map_eq_some_iff] at hs
      obtain ⟨u, hu, rfl⟩ := hs
      obtain ⟨_, _, _, he⟩ := trail_eq t.priceTicks u
      rw [he]
      exact h.positive k u hu
    · show v.levelSum s p + waiting (v.stops.mapValues _).values s p < 2 ^ 63
      rw [waiting_trail]
      exact h.load s p
    · rw [OMap.get?_mapValues, Option.map_eq_some_iff] at hs
      obtain ⟨u, hu, rfl⟩ := hs
      exact within_trail (h.stops k u hu) (h.within k u hu) ht
  delete h hs := loaded_delete h hs
  fire {v t x ms} h ht hx := by
    obtain ⟨hsized, htrades⟩ := sized_fires.fire h.toSized ht hx
    have hn := newOrder_ok.mp hx
    have hdel := loaded_delete h ht
    refine ⟨⟨hsized, Depth.execute_rests h.rests hn.new, hdel.positive, fun s p => ?_, hdel.within⟩, htrades⟩
    refine (load_executed (v := { v with stops := v.stops.delete t.orderId }) h.rests hn.new).trans_lt ?_
    have hload := h.load s p
    unfold View.load at hload
    rw [waiting_delete ht] at hload
    have hbrings := fired_brings (h.stops _ t ht) hn s p
    show v.levelSum s p + _ + waiting (v.stops.delete t.orderId).values s p < 2 ^ 63
    omega

/-! ## Calls -/

theorem hasId_free (hr : Good b v) (id : String) : b.free id = true ↔ ¬ v.hasId id := by
  obtain ⟨⟨F, hr⟩, -⟩ := hr
  unfold Book.free
  rw [← hr.has_iff, not_or]
  simp

/-- What rests on a level, in the book and in its view. -/
theorem Repr.levelSum_eq {F : Side → List Ref} (hr : Repr b F v) (s : Side) (p : Int) :
    b.levelSum s p = v.levelSum s p := by
  have hsum : v.levelSum s p =
      (((F s).filter (priceOf b.order · = p)).map fun r => (b.order r).remainingQuantity).sum := by
    unfold Depth.levelSum
    rw [hr.orders, List.map_map]
    induction F s with
    | nil => rfl
    | cons r rs ih =>
      rw [List.map_cons, List.sum_cons, ih, List.filter_cons]
      by_cases hp : priceOf b.order r = p
      · rw [if_pos (decide_eq_true hp), List.map_cons, List.sum_cons]
        simp [Order.weight, show (b.order r).price = p from hp]
      · rw [if_neg fun h => hp (of_decide_eq_true h)]
        simp [Order.weight, show ¬ (b.order r).price = p from hp]
  rw [hsum]
  unfold Book.levelSum
  have hslot := (hr.levels s).slot p
  cases hl : (b.side s).get? p with
  | none =>
    rw [hl] at hslot
    rw [show (F s).filter (priceOf b.order · = p) = [] from hslot]
    rfl
  | some l =>
    rw [hl] at hslot
    show (l.orders.map _).sum = _
    rw [hslot.2.orders]

/-- A level stores its exact total modulo `2^64`. -/
theorem Repr.level_total {F : Side → List Ref} (hr : Repr b F v) {l : PriceLevel} (hl : (b.side s).get? p = some l) :
    l.totalQuantity = wrap64 (b.levelSum s p) ∧
      b.levelSum s p = (l.orders.map fun r => (b.order r).remainingQuantity).sum ∧
      ∀ r ∈ l.orders, 0 < (b.order r).remainingQuantity := by
  obtain ⟨hlevel, -⟩ := (hr.levels s).of_get? hl
  have hsum : b.levelSum s p = (l.orders.map fun r => (b.order r).remainingQuantity).sum := by
    rw [Book.levelSum, hl]
  refine ⟨?_, hsum, fun r hmem => ?_⟩
  · rw [hlevel.total, View.total, hsum, hlevel.orders, List.map_map]
    rfl
  · rw [hlevel.orders] at hmem
    exact (hr.rests s r (List.mem_of_mem_filter hmem)).2.remaining

theorem load_eq (h : Good b v) (s : Side) (p : Int) : b.load s p = v.load s p := by
  obtain ⟨⟨F, hr⟩, -⟩ := h
  rw [Book.load, View.load, hr.levelSum_eq, hr.filterMap_stops]

/-- There is room for the limit order that is placed. -/
theorem room_order (hg : Good b v) (hb : b.Bounded c) {x : Order} (hx : v.orderOf c = some x)
    (hid : ¬ v.hasId x.orderId) (ht : x.type = .limit) : v.load x.side x.price + x.remainingQuantity < 2 ^ 63 := by
  rcases orderOf_cases hx with ⟨i, rfl, hn⟩ | ⟨i, rfl, hn⟩
  · obtain ⟨q, hq, -⟩ := hn.limit rfl
    have hprice : x.price = q := by
      rw [Order.price, hn.priceTicks, hq]
      rfl
    have hbound := hb ((hasId_free hg _).mpr (hn.orderId.1 ▸ hid)) x.side q hn.side hq
    rw [load_eq hg, ← hprice] at hbound
    exact hn.quantity.2.1 ▸ hbound
  · exact absurd (hn.type.symm.trans ht) (by simp)

/-- A limit order is placed. -/
theorem load_order (hg : Good b v) (h : Loaded v) (hb : b.Bounded c) {x : Order} (hx : v.orderOf c = some x)
    (hid : ¬ v.hasId x.orderId) (s : Side) (p : Int) : (v.executed x).load s p < 2 ^ 63 := by
  have hload := h.load s p
  refine (load_executed h.rests (orderOf_new hx)).trans_lt ?_
  unfold View.load at hload
  split
  · next hl =>
    have hroom := room_order hg hb hx hid hl.1
    unfold View.load at hroom
    unfold Order.weight
    split
    · next hp =>
      rw [hl.2, hp] at hroom
      omega
    · omega
  · omega

theorem hasId_stops {id : String} (h : ¬ v.hasId id) : v.stops.get? id = none :=
  OMap.get?_eq_none.mpr fun hk => h (.inr hk)

/-- A stop order is placed. -/
theorem load_stop (hg : Good b v) (h : Loaded v) (hb : b.Bounded c) {t : StopOrder} (ht : v.stopOf c = some t)
    (hid : ¬ v.hasId t.orderId) (s : Side) (p : Int) :
    View.load { v with stops := v.stops.set t.orderId t } s p < 2 ^ 63 := by
  have hload := h.load s p
  have hset : waiting (v.stops.set t.orderId t).values s p = waiting v.stops.values s p + t.waits s p := by
    unfold waiting
    rw [OMap.values_set_new _ (hasId_stops hid), List.map_append, List.sum_append, List.map_singleton,
      List.sum_singleton]
  show v.levelSum s p + waiting (v.stops.set t.orderId t).values s p < 2 ^ 63
  unfold View.load at hload
  rw [hset]
  unfold StopOrder.waits
  split
  · next hw =>
    rcases stopOf_cases ht with ⟨i, rfl, hn⟩ | ⟨i, rfl, hn⟩ | ⟨i, rfl, hn⟩
    · exact absurd (hn.type.symm.trans hw.1) (by simp)
    · have hbound := hb ((hasId_free hg _).mpr (hn.orderId.1 ▸ hid)) s p (hw.2.1 ▸ hn.side)
        (hn.priceTicks.symm.trans hw.2.2)
      rw [load_eq hg, View.load] at hbound
      have := hn.quantity.2.1
      omega
    · exact absurd (hn.type.symm.trans hw.1) (by simp)
  · omega

theorem within_stop (hg : Good b v) (h : Loaded v) (hb : b.Bounded c) {t : StopOrder} (ht : v.stopOf c = some t)
    (hid : ¬ v.hasId t.orderId) : t.Within := by
  intro htype x a hx ha
  rcases stopOf_cases ht with ⟨i, rfl, hn⟩ | ⟨i, rfl, hn⟩ | ⟨i, rfl, hn⟩
  · exact absurd (hn.type.symm.trans htype) (by simp)
  · exact absurd (hn.type.symm.trans htype) (by simp)
  · obtain ⟨x', a', hlast, hamount, hpos, hta, htx, -⟩ := hn.start
    obtain rfl : x = x' := Option.some.inj (hx.symm.trans htx)
    obtain rfl : a = a' := Option.some.inj (ha.symm.trans hta)
    cases hside : t.side with
    | buy =>
      obtain ⟨⟨F, hr⟩, -⟩ := id hg
      exact hb ((hasId_free hg _).mpr (hn.orderId ▸ hid)) (hside ▸ hn.side) x a (hr.last ▸ hlast) hamount
    | sell =>
      have := (h.last x hlast).2
      show x - a < 2 ^ 63
      omega

theorem loaded_sequence (h : Loaded v) (n : Int) : Loaded { v with sequence := n } :=
  ⟨⟨h.keyed, h.orders, h.last, h.stops⟩, h.rests, h.positive, h.load, h.within⟩

theorem loaded_order (hg : Good b v) (h : Loaded v) (hc : c.IsInt64) (hb : b.Bounded c) {x : Order}
    (hx : v.orderOf c = some x) (hid : ¬ v.hasId x.orderId) :
    Loaded (v.executed x) ∧ ∀ t ∈ (v.execute x).1, Ticks t.priceTicks := by
  obtain ⟨hsized, htrades⟩ := sized_order h.toSized hc hx
  exact ⟨⟨hsized, Depth.execute_rests h.rests (orderOf_new hx), h.positive, load_order hg h hb hx hid, h.within⟩,
    htrades⟩

theorem loaded_stop (hg : Good b v) (h : Loaded v) (hc : c.IsInt64) (hb : b.Bounded c) {t : StopOrder}
    (ht : v.stopOf c = some t) (hid : ¬ v.hasId t.orderId) : Loaded { v with stops := v.stops.set t.orderId t } :=
  ⟨sized_stop h.toSized hc ht, h.rests, forall_set h.positive (stopOf_remaining ht).le,
    load_stop hg h hb ht hid, forall_set h.within (within_stop hg h hb ht hid)⟩

theorem loaded_remove (h : Loaded v) (key : String) : Loaded { v with toDepth := v.remove key } := by
  refine ⟨sized_remove h.toSized key, Depth.remove_rests h.rests key, h.positive, fun s p => ?_, h.within⟩
  have := @Depth.levelSum_remove _ s p h.rests key
  have hload := h.load s p
  unfold View.load at hload ⊢
  show (v.remove key).levelSum s p + waiting v.stops.values s p < 2 ^ 63
  omega

theorem loaded_program (hg : Good b v) (h : Loaded v) (hc : c.IsInt64) (hb : b.Bounded c) :
    (Spec.program c).Post v fun _ w => Loaded w :=
  loaded_fires.program (fun _ h => loaded_sequence h _) h c (fun _ => loaded_order hg h hc hb)
    (fun _ => loaded_stop hg h hc hb) (loaded_remove h)

theorem BoundedRun.loaded (h : BoundedRun b) : ∃ v, Good b v ∧ Loaded v := by
  induction h with
  | empty symbol now valid =>
    refine ⟨_, good_empty now valid, ⟨fun k s hs => (by cases hs), fun o ho => (by cases ho),
      fun p hp => (by cases hp), fun k s hs => (by cases hs)⟩, fun s x hx => ?_, fun k s hs => (by cases hs),
      fun s p => ?_, fun k s hs => (by cases hs)⟩
    · cases s <;> cases hx
    · cases s
      · show (0 : Int) + 0 < 2 ^ 63
        decide
      · show (0 : Int) + 0 < 2 ^ 63
        decide
  | call h c int64 bounded ih =>
    obtain ⟨v, hv, hloaded⟩ := ih
    exact ⟨_, (call_refines c hv).2, loaded_program hv hloaded int64 bounded⟩
  | restore h id now hb ih =>
    obtain ⟨v, hv, hl⟩ := ih
    obtain ⟨b₁, hb₁, hgood⟩ := restored hv id now
    rw [hb] at hb₁
    cases hb₁
    exact ⟨_, hgood, ⟨hl.keyed, hl.orders, hl.last, hl.stops⟩, hl.rests, hl.positive, hl.load, hl.within⟩

theorem Loaded.waiting_nonneg (h : Loaded v) (s : Side) (p : Int) : 0 ≤ waiting v.stops.values s p :=
  List.sum_nonneg fun x hx => by
    obtain ⟨o, ho, rfl⟩ := List.mem_map.mp hx
    obtain ⟨k, hk⟩ := OMap.mem_values.mp ho
    exact waits_nonneg (h.positive k o hk)

theorem Loaded.levelSum_lt (h : Loaded v) (s : Side) (p : Int) : v.levelSum s p < 2 ^ 63 := by
  have hload := h.load s p
  have hwaiting := h.waiting_nonneg s p
  unfold View.load at hload
  omega

theorem BoundedRun.within (h : BoundedRun b) : b.Within := by
  obtain ⟨v, hg, hl⟩ := h.loaded
  refine ⟨fun s p => ?_, fun o ho => ?_⟩
  · obtain ⟨⟨F, hr⟩, -⟩ := hg
    rw [hr.levelSum_eq]
    exact hl.levelSum_lt s p
  · obtain ⟨⟨F, hr⟩, -⟩ := hg
    rw [hr.filterMap_stops] at ho
    obtain ⟨k, hk⟩ := OMap.mem_values.mp ho
    exact hl.within k o hk

/-! ## The exact numbers -/

/-- The engine's numbers are the exact ones, exactly if the exact ones are in range. -/
theorem exact_iff_within (h : Int64Run b) : b.NoOverflow ↔ b.Within := by
  obtain ⟨v, hg, hsized⟩ := h.sized
  obtain ⟨⟨F, hr⟩, -⟩ := id hg
  have hstop : ∀ o ∈ b.stopSnapshots, o.Sized := fun o ho => by
    rw [hr.filterMap_stops] at ho
    obtain ⟨k, hk⟩ := OMap.mem_values.mp ho
    exact hsized.stops k o hk
  constructor
  · intro hno
    refine ⟨fun s p => ?_, fun o ho ht x a hx ha => ?_⟩
    · cases hl : (b.side s).get? p with
      | none =>
        rw [Book.levelSum, hl]
        show (0 : Int) < 2 ^ 63
        decide
      | some l =>
        obtain ⟨hw, hsum, -⟩ := hr.level_total hl
        exact (wrap64_eq_iff.mp (hw.symm.trans ((hno.totals s p l hl).trans hsum.symm))).2
    · obtain ⟨a', x', ha', -, hx', -, htrigger⟩ := (hstop o ho).trailing ht
      obtain ⟨x'', a'', hx'', ha'', hexact, -⟩ := hno.triggers o ho ht
      obtain rfl : x' = x := Option.some.inj (hx'.symm.trans hx)
      obtain rfl : a' = a := Option.some.inj (ha'.symm.trans ha)
      obtain rfl : x'' = x' := Option.some.inj (hx''.symm.trans hx)
      obtain rfl : a'' = a' := Option.some.inj (ha''.symm.trans ha)
      exact (wrap64_eq_iff.mp (htrigger.symm.trans hexact)).2
  · intro hwithin
    refine ⟨fun s p l hl => ?_, fun o ho ht => ?_⟩
    · obtain ⟨hw, hsum, hpos⟩ := hr.level_total hl
      have hnonneg : 0 ≤ b.levelSum s p := hsum ▸ List.sum_nonneg fun x hx => by
        obtain ⟨r, hmem, rfl⟩ := List.mem_map.mp hx
        exact (hpos r hmem).le
      rw [hw, wrap64_eq_iff.mpr ⟨by omega, hwithin.levels s p⟩, hsum]
    · obtain ⟨a, x, ha, hap, hx, hxp, htrigger⟩ := (hstop o ho).trailing ht
      have hexact : o.triggerPriceTicks = Side.trigger o.side x a := by
        rw [htrigger]
        refine wrap64_eq_iff.mpr ⟨?_, hwithin.triggers o ho ht x a hx ha⟩
        have := hap.1
        have := hap.2
        have := hxp.1
        cases o.side with
        | buy => show -2 ^ 63 ≤ x + a; omega
        | sell => show -2 ^ 63 ≤ x - a; omega
      refine ⟨x, a, hx, ha, hexact, fun price hel => ⟨fun hs => ?_, fun hs => ?_⟩⟩
      · rw [isEligible, hs] at hel
        rw [hs] at hexact
        have := of_decide_eq_true hel
        change o.triggerPriceTicks = x + a at hexact
        omega
      · rw [isEligible, hs] at hel
        rw [hs] at hexact
        have := of_decide_eq_true hel
        change o.triggerPriceTicks = x - a at hexact
        omega

/-- In a run of `int64` inputs, no number of the book has wrapped around, exactly if the exact ones are in range. A
run of bounded calls keeps them there. -/
theorem no_overflow_iff (h : Int64Run b) : (b.NoOverflow ↔ b.Within) ∧ (BoundedRun b → b.NoOverflow) :=
  ⟨exact_iff_within h, fun hb => (exact_iff_within h).mpr hb.within⟩

end

theorem isInt64_zero : IsInt64 0 := ⟨by decide, by decide⟩

theorem isInt64_one : IsInt64 1 := ⟨by decide, by decide⟩

theorem isInt64_max : IsInt64 (2 ^ 63 - 1) := ⟨by decide, by decide⟩

theorem limitInput_isInt64 {id : String} {side : Side} {price quantity : Int} (hp : IsInt64 price)
    (hq : IsInt64 quantity) : (limitInput id side price quantity).IsInt64 :=
  ⟨fun p h => Option.some.inj h ▸ hp, fun p h => (by cases h), fun p h => (by cases h), hq, isInt64_zero⟩

/-- The input of a trailing stop order to buy one. -/
def trailingInput (amount : Int) : OrderInput where
  orderId := "t"
  userId := "u"
  side := sideText .buy
  priceTicks := none
  triggerPriceTicks := none
  trailingAmountTicks := some amount
  quantity := 1
  timestamp := 0

theorem trailingInput_isInt64 {amount : Int} (h : IsInt64 amount) : (trailingInput amount).IsInt64 :=
  ⟨fun p h => (by cases h), fun p h => (by cases h), fun p hp => Option.some.inj hp ▸ h, isInt64_one,
    isInt64_zero⟩

/-- One traded at the price 1. -/
def oneTrade : Book := (call oneAsk (.placeLimit (limitInput "b" .buy 1 1))).2

theorem oneAsk_bounded : BoundedRun oneAsk := by
  have h : BoundedRun (Book.empty "BTC-USD" fun _ => 0) := .empty _ _ (by decide)
  refine h.call _ (limitInput_isInt64 isInt64_one isInt64_one) fun _ s p hs hp => ?_
  cases hs
  cases hp
  decide

theorem oneTrade_bounded : BoundedRun oneTrade := by
  refine oneAsk_bounded.call _ (limitInput_isInt64 isInt64_one isInt64_one) fun _ s p hs hp => ?_
  cases hs
  cases hp
  decide

theorem BoundedRun.int64 {b : Book} (h : BoundedRun b) : Int64Run b := by
  induction h with
  | empty symbol now valid => exact .empty symbol now valid
  | call h c int64 bounded ih => exact .call ih c int64
  | restore h id now restored ih => exact .restore ih id now restored

/-- A trailing stop order to buy, five above the last price. -/
def nearStop : Book := (call oneTrade (.placeTrailingStopMarket (trailingInput 5))).2

theorem nearStop_bounded : BoundedRun nearStop := by
  refine oneTrade_bounded.call _ (trailingInput_isInt64 ⟨by decide, by decide⟩) fun _ _ last a hlast ha => ?_
  cases ha
  have : some last = some 1 := hlast.symm.trans (by decide +kernel)
  cases this
  decide

theorem no_overflow_near : (nearStop.NoOverflow ↔ nearStop.Within) ∧ nearStop.NoOverflow :=
  ⟨(no_overflow_iff nearStop_bounded.int64).1, (no_overflow_iff nearStop_bounded.int64).2 nearStop_bounded⟩

/-- Two orders to sell rest at the price 1, of `2 ^ 63` together. -/
def fullLevel : Book := (call oneAsk (.placeLimit (limitInput "b" .sell 1 (2 ^ 63 - 1)))).2

/-- As `nearStop`, `2 ^ 63 - 1` above the last price. -/
def farStop : Book := (call oneTrade (.placeTrailingStopMarket (trailingInput (2 ^ 63 - 1)))).2

/-- The total of the level is negative, and the trailing stop order is eligible at every price. -/
example : (fullLevel.snapshot.asks.map (·.totalQuantity), farStop.stopSnapshots.map (·.triggerPriceTicks)) =
    ([-2 ^ 63], [-2 ^ 63]) := by decide +kernel

theorem overflow : (Int64Run fullLevel ∧ ¬ fullLevel.NoOverflow) ∧ Int64Run farStop ∧ ¬ farStop.NoOverflow := by
  have hfull : Int64Run fullLevel := oneAsk_bounded.int64.call _ (limitInput_isInt64 isInt64_one isInt64_max)
  have hfar : Int64Run farStop := oneTrade_bounded.int64.call _ (trailingInput_isInt64 isInt64_max)
  refine ⟨⟨hfull, fun h => ?_⟩, hfar, fun h => ?_⟩
  · have hlevel := ((exact_iff_within hfull).mp h).levels .sell 1
    exact absurd hlevel (by decide +kernel)
  · obtain ⟨o, ho, ht, hside, hx, ha⟩ : ∃ o ∈ farStop.stopSnapshots, o.type = .trailingStopMarket ∧ o.side = .buy ∧
        o.extremum = some 1 ∧ o.trailingAmountTicks = some (2 ^ 63 - 1) := by decide +kernel
    have htrigger := ((exact_iff_within hfar).mp h).triggers o ho ht 1 (2 ^ 63 - 1) hx ha
    rw [hside] at htrigger
    exact absurd htrigger (by decide)

end Go

end Lob
