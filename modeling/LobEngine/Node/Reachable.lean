import LobEngine.Node.Restore

/-!
# The representation invariant

`Reachable`: the books that calls lead to, from an empty book or from a restored one, as long as the
open quantity is exact. Every such book represents a view (`Reachable.repr`), so its four
structures agree (`representation_invariant`).

* `WellFormed`: what the invariant says about the book's own data.
-/

namespace Lob.Node

open Exc OrderBook

/-- What the resting orders and the pending stop orders have left. -/
def OrderBook.openQuantity (b : OrderBook) : Int :=
  (b.ordersById.values.map fun r => (b.order r).remainingQuantity).sum +
    (b.stopOrdersById.values.map fun s => quantityOf s.remainingQuantity).sum

/-- The numbers of the call are exact: with its quantity, at most `2^53` is open. -/
def Exact (b : OrderBook) (c : Call) : Prop := b.openQuantity + c.quantity ≤ Num.maxExact

instance (b : OrderBook) (c : Call) : Decidable (Exact b c) := inferInstanceAs (Decidable (_ ≤ _))

inductive Reachable : OrderBook → Prop
  | new (symbol : String) (clock : Clock) (valid : isBlank symbol = false) :
    Reachable (OrderBook.new symbol clock)
  | call {b : OrderBook} (c : Call) (h : Reachable b) (exact : Exact b c) : Reachable (Node.call b c).2
  | restore {b : OrderBook} (h : Reachable b) (id : Option String) (clock : Clock) :
    Reachable (fromRecoverySnapshot (b.toRecoverySnapshot id) clock).2

/-- The numbers of every call of a run are exact. -/
def ExactRun : OrderBook → List Call → Prop
  | _, [] => True
  | b, c :: cs => Exact b c ∧ ExactRun (call b c).2 cs

instance decidableExactRun : ∀ (b : OrderBook) (cs : List Call), Decidable (ExactRun b cs)
  | _, [] => .isTrue trivial
  | b, c :: cs =>
    have := decidableExactRun (call b c).2 cs
    inferInstanceAs (Decidable (_ ∧ _))

theorem Reachable.calls {b : OrderBook} (h : Reachable b) {cs : List Call} (hex : ExactRun b cs) :
    Reachable (calls b cs) := by
  induction cs generalizing b with
  | nil => exact h
  | cons c cs ih => exact ih (.call c h hex.1) hex.2

/-- The levels, the orders, the counters and the indices of a book agree. -/
structure WellFormed (b : OrderBook) : Prop where
  level : ∀ s k l, (b.side s).get? k = some l →
    (b.level l).priceTicks = k ∧ b.queue l ≠ [] ∧ (b.queue l).Nodup
  order : ∀ s k l, (b.side s).get? k = some l → ∀ r ∈ b.queue l,
    (b.node r).priceLevel = some l ∧ (b.order r).type = .limit ∧ (b.order r).side = s ∧
      (b.order r).priceTicks = some k ∧
      ((b.order r).status = .opened ∧ (b.order r).remainingQuantity = (b.order r).initialQuantity ∨
        (b.order r).status = .partiallyFilled ∧ 0 < (b.order r).remainingQuantity ∧
          (b.order r).remainingQuantity < (b.order r).initialQuantity)
  counters : ∀ s k l, (b.side s).get? k = some l →
    (b.level l).totalQuantity = .int ((b.queue l).map fun r => (b.order r).remainingQuantity).sum ∧
      (b.level l).orderCount = (b.queue l).length
  index : ∀ id r, b.ordersById.get? id = some r ↔
    (∃ s k l, (b.side s).get? k = some l ∧ r ∈ b.queue l) ∧ id = .str (b.order r).orderId
  separate : ∀ id, ¬ (b.ordersById.has id = true ∧ b.stopOrdersById.has id = true)

section

variable {b : OrderBook} {F : Side → List NodeRef} {v : View}

/-- The queue of a level. -/
theorem Repr.queue_eq (h : Repr b F v) {s : Side} {k : Int} {l : LevelRef}
    (hl : (b.side s).get? k = some l) : b.queue l = (F s).filter (b.price · = k) :=
  ((h.sides s).levels.of_get? hl).1.linked.queue_eq

theorem Repr.mem_queue (h : Repr b F v) {s : Side} {r : NodeRef} :
    r ∈ F s ↔ ∃ k l, (b.side s).get? k = some l ∧ r ∈ b.queue l := by
  constructor
  · intro hr
    obtain ⟨l, hl, -⟩ := (h.sides s).mem_level hr
    exact ⟨_, l, hl, by rw [h.queue_eq hl]; exact List.mem_filter.mpr ⟨hr, by simp⟩⟩
  · rintro ⟨k, l, hl, hr⟩
    rw [h.queue_eq hl] at hr
    exact List.mem_of_mem_filter hr

theorem Repr.wellFormed (h : Repr b F v) (hv : v.Ok) : WellFormed b where
  level := fun s k l hl => by
    obtain ⟨hlev, hne⟩ := (h.sides s).levels.of_get? hl
    rw [h.queue_eq hl]
    exact ⟨hlev.price, hne, hlev.linked.nodup⟩
  order := fun s k l hl r hr => by
    obtain ⟨hlev, -⟩ := (h.sides s).levels.of_get? hl
    rw [h.queue_eq hl] at hr
    have hF := (h.sides s).rests r (List.mem_of_mem_filter hr)
    have hp : (b.order r).price = k := of_decide_eq_true (List.mem_filter.mp hr).2
    refine ⟨hlev.linked.mem_level r hr, hF.type, hF.side, ?_, ?_⟩
    · rw [(RestsOn.priceTicks hF).1, hp]
    · exact hF.status.imp_right fun hs => ⟨hs.1, hF.remaining, hs.2⟩
  counters := fun s k l hl => by
    obtain ⟨hlev, -⟩ := (h.sides s).levels.of_get? hl
    rw [h.queue_eq hl]
    exact ⟨hlev.total, hlev.linked.count⟩
  index := fun id r => by
    rw [h.index]
    exact and_congr_left fun _ => exists_congr fun s => h.mem_queue
  separate := by
    rintro id ⟨ho, hs⟩
    obtain ⟨r, hr⟩ := OMap.mem_keys.mp (OMap.has_iff.mp ho)
    have hid := ((h.index id r).mp hr).2
    have hmem : (b.order r).orderId ∈ v.ids := h.mem_ids.mpr ⟨r, hid ▸ hr⟩
    rw [← h.stops, hid, OMap.has, hv.separate _ hmem] at hs
    cases hs

/-- The open quantity of a book is that of its view. -/
theorem Repr.openQuantity_eq (h : Repr b F v) : b.openQuantity = v.openQuantity := by
  have hkey : ∀ e ∈ b.ordersById.entries, e.1 = .str (b.order e.2).orderId := fun e he =>
    ((h.index e.1 e.2).mp (OMap.mem_entries.mp he)).2
  have hnd : b.ordersById.values.Nodup := by
    have hk := b.ordersById.nodup
    rw [List.map_congr_left hkey] at hk
    refine List.Nodup.of_map (fun r => JsVal.str (b.order r).orderId) ?_
    unfold OMap.values
    rw [List.map_map]
    exact hk
  have hF : (F .buy ++ F .sell).Nodup := List.nodup_append.mpr ⟨(h.sides .buy).nodup,
    (h.sides .sell).nodup, fun x hx y hy e => ((h.sides .buy).disjoint (h.sides .sell)).1 x hx (e ▸ hy)⟩
  have hperm : b.ordersById.values.Perm (F .buy ++ F .sell) :=
    (List.perm_ext_iff_of_nodup hnd hF).mpr fun r => by
      rw [OMap.mem_values, List.mem_append]
      simp only [h.index]
      constructor
      · rintro ⟨_, ⟨s, hs⟩, -⟩
        cases s with
        | buy => exact .inl hs
        | sell => exact .inr hs
      · rintro (hr | hr)
        · exact ⟨_, ⟨_, hr⟩, rfl⟩
        · exact ⟨_, ⟨_, hr⟩, rfl⟩
  unfold OrderBook.openQuantity View.openQuantity
  rw [(hperm.map _).sum_eq, List.map_append, List.sum_append, h.stops, Depth.quantity_eq _ .buy,
    ← h.remaining_eq, Side.opposite_buy, ← h.remaining_eq]
  rfl

end

theorem ok_new {symbol : String} (clock : Clock) (hs : isBlank symbol = false) :
    (⟨Depth.empty, symbol, .empty, [], none, 0, clock⟩ : View).Ok := by
  refine ⟨hs, by simp [Depth.ids, Depth.orders, Depth.empty], ?_, ?_, ?_⟩
  · simp
  · simp [Depth.orders, Depth.empty]
  · simp [View.openQuantity, Depth.quantity, Depth.orders, Depth.empty, OMap.values, OMap.empty,
      Num.maxExact]

theorem Reachable.repr {b : OrderBook} (h : Reachable b) : ∃ F v, Repr b F v ∧ v.Ok := by
  induction h with
  | new symbol clock hvalid => exact ⟨_, _, repr_new symbol clock, ok_new clock hvalid⟩
  | call c h hex ih =>
    obtain ⟨F, v, hr, hv⟩ := ih
    rw [Exact, hr.openQuantity_eq] at hex
    obtain ⟨-, ⟨F', hr'⟩, hv', -⟩ := call_refines c hr hv hex
    exact ⟨F', _, hr', hv'⟩
  | restore h id clock ih =>
    obtain ⟨F, v, hr, hv⟩ := ih
    obtain ⟨b', F', hrun, hr'⟩ := restored hr hv id clock
    rw [hrun]
    exact ⟨F', _, hr', hv.symbol, hv.separate, hv.keyed, hv.valid, hv.exact⟩

/-- The argument of `placeLimitOrder` for a well-formed order of user `u`. -/
def limitOrder (orderId : String) (side : Side) (priceTicks quantity : Int) : Payload where
  orderId := .str orderId
  userId := .str "u"
  side := .str (sideText side)
  priceTicks := .num (.int priceTicks)
  triggerPriceTicks := .undefined
  trailingAmountTicks := .undefined
  quantity := .num (.int quantity)
  timestamp := .num (.int 0)

/-- A book on which one sell order of quantity 1 rests, at price 1. -/
def oneAsk : OrderBook :=
  (call (OrderBook.new "BTC-USD" fun _ => 0) (.placeLimitOrder (some (limitOrder "a" .sell 1 1)))).2

theorem oneAsk_reachable : Reachable oneAsk := .call _ (.new _ _ (by decide)) (by decide)

/-- Three sell orders rest, two at price 1 and one at price 2, of which a buy order fills the first in part. A trailing
stop order to buy follows from price 1, and triggers at price 2. -/
def mixedCalls : List Call :=
  [.placeLimitOrder (some (limitOrder "a" .sell 1 2)), .placeLimitOrder (some (limitOrder "b" .sell 1 1)),
    .placeLimitOrder (some (limitOrder "c" .sell 2 3)), .placeLimitOrder (some (limitOrder "d" .buy 1 1)),
    .placeTrailingStopMarketOrder (some { limitOrder "t" .buy 1 1 with
      priceTicks := .undefined, trailingAmountTicks := .num (.int 1) })]

def mixed : OrderBook := calls (OrderBook.new "BTC-USD" fun _ => 0) mixedCalls

/-- A buy order that trades at both prices, and so triggers the trailing stop order. -/
def sweep : Call := .placeLimitOrder (some (limitOrder "e" .buy 2 3))

theorem mixed_reachable : Reachable mixed := .calls (.new _ _ (by decide)) (by decide +kernel)

/-- After every operation of a reachable book its four structures agree. -/
theorem representation_invariant {b : OrderBook} (h : Reachable b) : WellFormed b := by
  obtain ⟨F, v, hr, hv⟩ := h.repr
  exact hr.wellFormed hv

/-- The restored book, and after the call that triggers its stop order. -/
theorem representation_invariant_mixed :
    WellFormed (fromRecoverySnapshot (mixed.toRecoverySnapshot none) fun _ => 0).2 ∧
      WellFormed (call (fromRecoverySnapshot (mixed.toRecoverySnapshot none) fun _ => 0).2 sweep).2 :=
  have h : Reachable (fromRecoverySnapshot (mixed.toRecoverySnapshot none) fun _ => 0).2 :=
    .restore mixed_reachable none _
  ⟨representation_invariant h, representation_invariant (.call sweep h (by decide +kernel))⟩

/-- The restored snapshot of a reachable book is never refused. -/
theorem restore_ok {b : OrderBook} (h : Reachable b) (id : Option String) (clock : Clock) :
    (fromRecoverySnapshot (b.toRecoverySnapshot id) clock).1 = .ok () := by
  obtain ⟨F, v, hr, hv⟩ := h.repr
  obtain ⟨b', F', hrun, -⟩ := restored hr hv id clock
  rw [hrun]

end Lob.Node
