import LobEngine.Go.Guards
import LobEngine.Go.Overflow

/-!
# The sums inside a call

`Go/Overflow` is about the books between calls. On its way a call makes further sums: an iteration of the matching
takes from a total, a remainder is added to one, a cancelled order is taken from one, and the trailing stop orders
follow every cycle of the cascade.

* `InRange`: the sums that a step can make in a book. `Loaded.inRange`: none of them leaves the range.
* `Inside`: the views between the steps of a call. `program_inside`: a call ends in one.
* `sums_in_range`: a bounded call makes no sum that leaves the range.
-/

namespace Lob.Go

open Exc Book

/-- The order does not bring more to its level than there is room for. -/
def View.Fits (v : View) (o : Order) : Prop :=
  o.type = .limit → v.levelSum o.side o.price + o.remainingQuantity < 2 ^ 63

/-- The total of the level, `0` if there is none. -/
def Book.totalAt (b : Book) (s : Side) (p : Int) : Int := ((b.side s).get? p).elim 0 (·.totalQuantity)

/-- The sums that a step makes in the book, which represents the view: in an iteration of the matching, for a remainder
that comes to rest, for an order that leaves its level, and for a trailing stop order that follows a trade. -/
structure InRange (b : Book) (v : View) : Prop where
  matching : ∀ r ignore fuel, Matchable b v r ignore → ∀ b₁ ∈ iterations r ignore fuel b,
    ∀ price ∈ b₁.bestOpposite (b₁.order r).side, ∃ l x, (b₁.side (b₁.order r).side.opposite).get? price = some l ∧
      l.orders.head? = some x ∧
      IsInt64 (l.totalQuantity - min (b₁.order r).remainingQuantity (b₁.order x).remainingQuantity)
  rest : ∀ r ignore, Matchable b v r ignore → (b.order r).type = .limit → v.Fits (b.order r) →
    ∃ ts b', (matchOrder r ignore).run b = (.ok ts, b') ∧
      IsInt64 (b'.totalAt (b'.order r).side (b'.order r).price + (b'.order r).remainingQuantity)
  remove : ∀ s p l, (b.side s).get? p = some l → ∀ r ∈ l.orders,
    IsInt64 (l.totalQuantity - (b.order r).remainingQuantity)
  trail : ∀ last, Ticks last → ∀ o ∈ b.stopSnapshots, View.trail last o ≠ o →
    ∃ a, o.trailingAmountTicks = some a ∧ IsInt64 (Side.trigger o.side last a)

section

variable {b b' : Book} {F : Side → List Ref} {v w : View} {r : Ref} {c : Call}

/-! ## One step -/

theorem Repr.take_in_range (h : Repr b F v) {s : Side} {p q : Int} {l : PriceLevel} (hload : v.levelSum s p < 2 ^ 63)
    (hl : (b.side s).get? p = some l) (hr : r ∈ l.orders) (hq : 0 ≤ q) (hle : q ≤ (b.order r).remainingQuantity) :
    IsInt64 (l.totalQuantity - q) := by
  obtain ⟨htotal, hsum, hpos⟩ := h.level_total hl
  have hone : (b.order r).remainingQuantity ≤ b.levelSum s p := by
    rw [hsum]
    refine List.single_le_sum (fun x hx => ?_) _ (List.mem_map_of_mem hr)
    obtain ⟨y, hy, rfl⟩ := List.mem_map.mp hx
    exact (hpos y hy).le
  have hr' := hpos r hr
  rw [← h.levelSum_eq] at hload
  rw [htotal, wrap64_eq_iff.mpr ⟨by omega, hload⟩]
  exact ⟨by omega, by omega⟩

/-- What rests on a level after some orders of the side have left. -/
theorem levelSum_suffix {d d' : Depth} {s : Side} (hd : d.Rests) (h : d'.side s <:+ d.side s) (p : Int) :
    d'.levelSum s p ≤ d.levelSum s p := by
  unfold Depth.levelSum
  exact List.Sublist.sum_le_sum (h.sublist.map _) fun x hx => by
    obtain ⟨y, hy, rfl⟩ := List.mem_map.mp hx
    exact hd.weight y hy

theorem matching_in_range (h : Repr b F v) (hload : ∀ s p, v.levelSum s p < 2 ^ 63) {ignore : Bool}
    (hm : Matchable b v r ignore) (fuel : Nat) {b₁ : Book} (hb : b₁ ∈ iterations r ignore fuel b) {price : Int}
    (hprice : price ∈ b₁.bestOpposite (b₁.order r).side) :
    ∃ l x, (b₁.side (b₁.order r).side.opposite).get? price = some l ∧ l.orders.head? = some x ∧
      IsInt64 (l.totalQuantity - min (b₁.order r).remainingQuantity (b₁.order x).remainingQuantity) := by
  have hit := (iterations_iterates fuel h hm).1 b₁ hb
  obtain ⟨l, x, b₂, hguard⟩ := hit.guarded price hprice
  obtain ⟨hpos, hs, F₁, v₁, h₁, -, hsuffix⟩ := hit
  have hx : x ∈ l.orders := List.mem_of_mem_head? (by rw [hguard.first]; rfl)
  have hxpos := (h₁.level_total hguard.found).2.2 x hx
  refine ⟨l, x, hguard.found, hguard.first, h₁.take_in_range ?_ hguard.found hx (by omega) (min_le_right _ _)⟩
  rw [hs]
  exact (levelSum_suffix h.rests_depth hsuffix price).trans_lt (hload _ price)

theorem Repr.totalAt_eq (h : Repr b F v) (s : Side) (p : Int) : b.totalAt s p = wrap64 (v.levelSum s p) := by
  unfold totalAt
  rw [← h.levelSum_eq]
  cases hl : (b.side s).get? p with
  | none =>
    rw [Book.levelSum, hl]
    rfl
  | some l => exact (h.level_total hl).1

theorem rest_in_range (h : Repr b F v) {ignore : Bool} (hm : Matchable b v r ignore) (ht : (b.order r).type = .limit)
    (hfits : v.Fits (b.order r)) : ∃ ts b', (matchOrder r ignore).run b = (.ok ts, b') ∧
      IsInt64 (b'.totalAt (b'.order r).side (b'.order r).price + (b'.order r).remainingQuantity) := by
  obtain ⟨b', F', hrun, hmv, h'⟩ := matchLoop_run (b.next + 1) h hm (Nat.lt_succ_of_le (h.length_le _))
  refine ⟨_, b', hrun, ?_⟩
  have htaken := Depth.taken_le (o := b.order r) v.toDepth ignore hm.nonneg
  have hnn := Depth.taken_nonneg h.rests_depth (b.order r) ignore
  rw [hmv.incoming, Depth.fillFrom_sum, Order.filledBy_side, Order.filledBy_price, Order.filledBy_remaining,
    h'.totalAt_eq]
  -- The matching leaves on the level at most what rested there.
  have hle := @Depth.levelSum_fillFrom _ (b.order r) (b.order r).side (b.order r).price h.rests_depth ignore
  have hsum : 0 ≤ (v.fillFrom (b.order r) ignore).2.2.levelSum (b.order r).side (b.order r).price :=
    List.sum_nonneg fun x hx => by
      obtain ⟨o, ho, rfl⟩ := List.mem_map.mp hx
      exact h'.rests_depth.weight o ho
  have hfit := hfits ht
  show IsInt64 (wrap64 ((v.fillFrom (b.order r) ignore).2.2.levelSum (b.order r).side (b.order r).price) + _)
  rw [wrap64_eq_iff.mpr ⟨by omega, by omega⟩]
  exact ⟨by omega, by omega⟩

theorem trail_in_range {o : StopOrder} (hs : o.Sized) (hw : o.Within) {last : Int} (hlast : Ticks last)
    (hne : View.trail last o ≠ o) : ∃ a, o.trailingAmountTicks = some a ∧ IsInt64 (Side.trigger o.side last a) := by
  have ht : o.type = .trailingStopMarket := by_contra fun ht => hne (trail_other last ht)
  obtain ⟨a, x, ha, hpos, hx, hxt, -⟩ := hs.trailing ht
  have hold := hw ht x a hx ha
  refine ⟨a, ha, ?_⟩
  have hl := hlast
  have hp := hpos
  unfold Ticks at hl hp
  rcases trail_cases last ht ha with he | ⟨hside, -⟩ | ⟨hside, hvalley, -⟩
  · exact absurd he hne
  · rw [hside]
    exact ⟨show -2 ^ 63 ≤ last - a by omega, show last - a < 2 ^ 63 by omega⟩
  · -- The valley only falls.
    rw [StopOrder.extremum, hside] at hx
    rw [show o.valleyPriceTicks = some x from hx] at hvalley
    rw [hside] at hold ⊢
    change x + a < 2 ^ 63 at hold
    have hlt := of_decide_eq_true (show decide (last < x) = true from hvalley)
    exact ⟨show -2 ^ 63 ≤ last + a by omega, show last + a < 2 ^ 63 by omega⟩

/-- No sum that a step makes leaves the range. -/
theorem Loaded.inRange (h : Loaded v) (hr : Repr b F v) : InRange b v where
  matching := fun _ _ fuel hm _ hb _ hprice => matching_in_range hr h.levelSum_lt hm fuel hb hprice
  rest := fun _ _ hm ht hfits => rest_in_range hr hm ht hfits
  remove := fun s p _ hl _ hmem =>
    hr.take_in_range (h.levelSum_lt s p) hl hmem ((hr.level_total hl).2.2 _ hmem).le le_rfl
  trail := fun last hlast o ho hne => by
    rw [hr.filterMap_stops] at ho
    obtain ⟨k, hk⟩ := OMap.mem_values.mp ho
    exact trail_in_range (h.stops k o hk) (h.within k o hk) hlast hne

/-! ## A call -/

/-- The views between the steps of a call from `v`, and some more: a cycle can follow any price, and execute any
pending stop order. -/
inductive Inside (c : Call) (v : View) : View → Prop
  | start : Inside c v v
  | clock {w : View} (h : Inside c v w) : Inside c v { w with clock := w.clock.tail }
  | sequence {w : View} (h : Inside c v w) (n : Int) : Inside c v { w with sequence := n }
  | order {o : Order} (new : v.orderOf c = some o) (free : ¬ v.hasId o.orderId) : Inside c v (v.executed o)
  | stop {o : StopOrder} (new : v.stopOf c = some o) (free : ¬ v.hasId o.orderId) :
    Inside c v { v with stops := v.stops.set o.orderId o }
  | remove (key : String) : Inside c v { v with toDepth := v.remove key }
  | last {w : View} (h : Inside c v w) {t : Trade} (ticks : Ticks t.priceTicks) :
    Inside c v { w with
      lastTradePriceTicks := some t.priceTicks
      stops := w.stops.mapValues (View.trail t.priceTicks) }
  | delete {w : View} (h : Inside c v w) {o : StopOrder} (pending : w.stops.get? o.orderId = some o) :
    Inside c v { w with stops := w.stops.delete o.orderId }
  | fire {w : View} (h : Inside c v w) {o : StopOrder} {x : Order} {ms : Int}
    (pending : w.stops.get? o.orderId = some o)
    (new : newOrder w.symbol (executedType o) (executedInput o ms) true = .ok x) :
    Inside c v (View.executed { w with stops := w.stops.delete o.orderId } x)

theorem Inside.loaded (hw : Inside c v w) (hg : Good b v) (h : Loaded v) (hc : c.IsInt64) (hb : b.Bounded c) :
    Loaded w := by
  induction hw with
  | start => exact h
  | clock _ ih => exact loaded_fires.clock ih
  | sequence _ n ih => exact loaded_sequence ih n
  | order new free => exact (loaded_order hg h hc hb new free).1
  | stop new free => exact loaded_stop hg h hc hb new free
  | remove key => exact loaded_remove h key
  | last _ ticks ih => exact loaded_fires.last ih ticks
  | delete _ pending ih => exact loaded_fires.delete ih pending
  | fire _ pending new ih => exact (loaded_fires.fire ih pending new).1

/-- A call goes from one of these views to the next. -/
theorem program_inside (hg : Good b v) (h : Loaded v) (hc : c.IsInt64) (hb : b.Bounded c) :
    (Spec.program c).Post v fun _ w => Inside c v w := by
  have hfires : Fires (Inside c v) fun t => Ticks t.priceTicks := {
    keyed := fun hw => (hw.loaded hg h hc hb).keyed
    clock := .clock
    last := fun hw ht => hw.last ht
    delete := fun hw hs => hw.delete hs
    fire := fun hw hs hn => ⟨hw.fire hs hn, (loaded_fires.fire (hw.loaded hg h hc hb) hs hn).2⟩ }
  exact hfires.program (fun n hw => hw.sequence n) .start c
    (fun _ hx hid => ⟨.order hx hid, (loaded_order hg h hc hb hx hid).2⟩) (fun _ => .stop) .remove

/-- The order that the call executes fits. -/
theorem order_fits (hg : Good b v) (h : Loaded v) (hb : b.Bounded c) {o : Order} (ho : v.orderOf c = some o)
    (hid : ¬ v.hasId o.orderId) : v.Fits o := fun ht => by
  have hroom := room_order hg hb ho hid ht
  have hwaiting := h.waiting_nonneg o.side o.price
  unfold View.load at hroom
  omega

/-- The order of a stop order fits. -/
theorem fired_fits (h : Loaded v) {o : StopOrder} {x : Order} {ms : Int} (pending : v.stops.get? o.orderId = some o)
    (new : newOrder v.symbol (executedType o) (executedInput o ms) true = .ok x) :
    View.Fits { v with stops := v.stops.delete o.orderId } x := fun ht => by
  have hbrings := fired_brings (h.stops _ o pending) (newOrder_ok.mp new) x.side x.price
  rw [if_pos ⟨ht, rfl⟩, Order.weight, if_pos rfl] at hbrings
  have hload := h.load x.side x.price
  have hwaiting := (loaded_delete h pending).waiting_nonneg x.side x.price
  unfold View.load at hload
  rw [waiting_delete pending] at hload
  show v.levelSum x.side x.price + x.remainingQuantity < 2 ^ 63
  change 0 ≤ waiting (v.stops.delete o.orderId).values x.side x.price at hwaiting
  omega

/-- The first trigger price of a trailing stop order, of a call with a free id. -/
theorem start_in_range (hg : Good b v) (h : Loaded v) {i : OrderInput} (hc : Call.IsInt64 (.placeTrailingStopMarket i))
    (hb : b.Bounded (.placeTrailingStopMarket i)) (hfree : b.free i.orderId = true) {s : Side} {last a : Int}
    (hs : sideOf i.side = some s) (hl : v.lastTradePriceTicks = some last) (ha : i.trailingAmountTicks = some a)
    (hpos : 0 < a) : IsInt64 (Side.trigger s last a) := by
  have hlast := h.last last hl
  have hamount := (OrderInput.IsInt64.trailingAmountTicks hc a ha).2
  unfold Ticks at hlast
  cases s with
  | buy =>
    obtain ⟨⟨F, hr⟩, -⟩ := hg
    have hbound := hb hfree hs last a (hr.last ▸ hl) ha
    exact ⟨show -2 ^ 63 ≤ last + a by omega, hbound⟩
  | sell => exact ⟨show -2 ^ 63 ≤ last - a by omega, show last - a < 2 ^ 63 by omega⟩

/-- A bounded call in a bounded run goes through views in whose books no sum leaves the range, and executes orders for
which there is room. The first trigger price of an accepted trailing stop order is in range too. -/
theorem sums_in_range (h : BoundedRun b) (c : Call) (hc : c.IsInt64) (hb : b.Bounded c) : ∃ v, Good b v ∧
    Inside c v ((Spec.program c).run v).2 ∧ Good (call b c).2 ((Spec.program c).run v).2 ∧
    (∀ w, Inside c v w → ∀ b' F, Repr b' F w → InRange b' w) ∧
    (∀ o, v.orderOf c = some o → ¬ v.hasId o.orderId → v.Fits o) ∧
    (∀ w, Inside c v w → ∀ o x ms, w.stops.get? o.orderId = some o →
      newOrder w.symbol (executedType o) (executedInput o ms) true = .ok x →
        View.Fits { w with stops := w.stops.delete o.orderId } x) ∧
    ∀ i, c = .placeTrailingStopMarket i → b.free i.orderId = true → ∀ s last a, sideOf i.side = some s →
      v.lastTradePriceTicks = some last → i.trailingAmountTicks = some a → 0 < a → IsInt64 (Side.trigger s last a) := by
  obtain ⟨v, hg, hl⟩ := h.loaded
  refine ⟨v, hg, program_inside hg hl hc hb, (call_refines c hg).2, fun w hw b' F hr => ?_, fun o ho hid => ?_,
    fun w hw o x ms => ?_, fun i hi hfree s last a => ?_⟩
  · exact (hw.loaded hg hl hc hb).inRange hr
  · exact order_fits hg hl hb ho hid
  · exact fired_fits (hw.loaded hg hl hc hb)
  · subst hi
    exact start_in_range hg hl hc hb hfree

end

end Lob.Go
