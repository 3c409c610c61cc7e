import LobEngine.Go.Restamp
import LobEngine.Node.Calls

/-!
# Changing timestamps in the reference engine

`restamp f` applies `f` to each timestamp of an order, a trade, an event or a recovery snapshot that can be a reading of
the clock. The timestamps of stop orders, and of the events about them, come from the commands and stay.

* `newOrder_triggered`: the order of a triggered stop order, with another reading of the clock.
* `finalOrder_restamp`: the order that a call returns.
-/

namespace Lob.Node

open View

variable (f : Stamp → Stamp)

def Placed.restamp : Placed → Placed
  | .order o => .order (o.restamp f)
  | .stop s => .stop s

def EventBody.restamp : EventBody → EventBody
  | .order e => .order { e with timestamp := f e.timestamp }
  | .trade t => .trade (t.restamp f)
  | .bookUpdated symbol snapshot ms => .bookUpdated symbol snapshot (f ⟨ms, true⟩).ms
  | e => e

def Event.restamp (e : Event) : Event := { e with body := e.body.restamp f }

def Triggered.restamp (t : Triggered) : Triggered :=
  ⟨t.trades.map (·.restamp f), t.orders, t.events.map (·.restamp f)⟩

def Outcome.restamp (o : Outcome) : Outcome :=
  ⟨o.trades.map fun ts => ts.map (·.restamp f), o.triggeredOrders, o.events.map (·.restamp f)⟩

def Result.restamp (r : Result) : Result where
  order := r.order.restamp f
  trades := r.trades.map fun ts => ts.map (·.restamp f)
  triggeredOrders := r.triggeredOrders
  events := r.events.map (·.restamp f)

def RecoveryLevel.restamp (l : RecoveryLevel) : RecoveryLevel := { l with orders := l.orders.map (·.restamp f) }

def RecoverySnapshot.restamp (r : RecoverySnapshot) : RecoverySnapshot :=
  { r with bids := r.bids.map (·.restamp f), asks := r.asks.map (·.restamp f) }

theorem stamp_restamp (symbol : String) (n : Int) (e : EventBody) :
    stamp symbol n (e.restamp f) = (stamp symbol n e).restamp f := by
  cases e <;> rfl

theorem stampFrom_restamp (symbol : String) (n : Int) (es : List EventBody) :
    stampFrom symbol n (es.map (·.restamp f)) = (stampFrom symbol n es).map (·.restamp f) := by
  induction es generalizing n with
  | nil => rfl
  | cons e es ih => rw [List.map_cons, stampFrom, stampFrom, List.map_cons, ih, stamp_restamp]

theorem tradeEvents_restamp (ts : List Trade) :
    createTradeCreatedEvents (ts.map (·.restamp f)) = (createTradeCreatedEvents ts).map (·.restamp f) := by
  unfold createTradeCreatedEvents
  rw [List.map_map, List.map_map]
  rfl

theorem triggeredEvents_restamp (s : StopOrder) (o : Order) (ts : List Trade) :
    triggeredEvents s (o.restamp f) (ts.map (·.restamp f)) = (triggeredEvents s o ts).map (·.restamp f) := by
  unfold triggeredEvents
  rw [List.map_append, List.map_append, List.map_append, tradeEvents_restamp, Order.restamp_status,
    Order.restamp_remaining]
  by_cases h : o.status = .opened ∧ 0 < o.remainingQuantity
  · rw [if_pos h, if_pos h]
    rfl
  · rw [if_neg h, if_neg h]
    rfl

theorem Triggered.append_restamp (t u : Triggered) : (t.append u).restamp f = (t.restamp f).append (u.restamp f) := by
  unfold append restamp
  rw [List.map_append, List.map_append]

/-- What is computed of each level of a side. -/
theorem levels_restamp {α β : Type} (g : Int → List Order → α) (g' : Int → List Order → β) (r : α → β)
    (hg : ∀ k Q, g' k (Q.map (·.restamp f)) = r (g k Q)) (L : List Order) :
    ((L.map (·.restamp f)).map Order.price).dedup.map
        (fun k => g' k ((L.map (·.restamp f)).filter (·.price = k))) =
      ((L.map Order.price).dedup.map fun k => g k (L.filter (·.price = k))).map r := by
  rw [List.map_map, List.map_map]
  refine List.map_congr_left fun k _ => ?_
  simp only [Function.comp]
  rw [← hg, List.filter_map]
  rfl

/-- Timestamps do not show in the snapshots of the levels. -/
theorem levelSnapshots_restamp (L : List Order) : levelSnapshots (L.map (·.restamp f)) = levelSnapshots L := by
  let level : Int → List Order → LevelSnapshot := fun k Q =>
    { priceTicks := k
      totalQuantity := .int (Q.map (·.remainingQuantity)).sum
      orderCount := Q.length
      headOrderId := Q.head?.map (·.orderId)
      tailOrderId := Q.getLast?.map (·.orderId) }
  refine (levels_restamp f level level id (fun k Q => ?_) L).trans (List.map_id _)
  simp only [level, List.map_map, List.length_map, List.head?_map, List.getLast?_map, Option.map_map]
  rfl

theorem recoveryLevels_restamp (L : List Order) :
    recoveryLevels (L.map (·.restamp f)) = (recoveryLevels L).map (·.restamp f) := by
  let level : Int → List Order → RecoveryLevel := fun k Q =>
    { priceTicks := k
      totalQuantity := .int (Q.map (·.remainingQuantity)).sum
      orderCount := Q.length
      orders := Q }
  refine levels_restamp f level level (·.restamp f) (fun k Q => ?_) L
  simp only [level, List.map_map, List.length_map]
  rfl

/-- The order of a triggered stop order, with another reading of the clock. -/
theorem newOrder_triggered {f : Stamp → Stamp} {ms ms' : Int} (symbol : String) (s : StopOrder) (type : OrderType)
    (priceTicks : JsVal) (h : f ⟨ms, true⟩ = f ⟨ms', true⟩) (hneg : 0 ≤ ms ↔ 0 ≤ ms') :
    (newOrder (triggeredInput symbol s type priceTicks ms)).map (·.restamp f) =
      (newOrder (triggeredInput symbol s type priceTicks ms')).map (·.restamp f) := by
  unfold newOrder triggeredInput
  dsimp only
  cases assertNonEmptyString "orderId" s.orderId with
  | error e => rfl
  | ok orderId =>
  cases assertNonEmptyString "userId" s.userId with
  | error e => rfl
  | ok userId =>
  cases assertNonEmptyString "symbol" (.str symbol) with
  | error e => rfl
  | ok symbol =>
  cases assertSide s.side with
  | error e => rfl
  | ok side =>
  cases assertPositiveInteger "quantity" s.remainingQuantity with
  | error e => rfl
  | ok quantity =>
  unfold assertNonNegativeInteger
  dsimp only
  by_cases hms : 0 ≤ ms
  · rw [if_pos hms, if_pos (hneg.mp hms)]
    cases assertPrice type priceTicks with
    | error e => rfl
    | ok p => exact congrArg Except.ok (congrArg (Order.mk _ _ _ _ _ _ _ _ _) h)
  · rw [if_neg hms, if_neg fun h' => hms (hneg.mpr h')]

/-- What an order executes to, as the spec computes it. -/
theorem execute_eq (v : View) (o : Order) :
    ((v.fillFrom o (decide (o.type ≠ .limit))).1, v.executedOrder o, (v.executed o).toDepth) = v.toDepth.execute o :=
  rfl

/-- What trades after an order executed leave of it. -/
theorem finalOrder_restamp {v w : View} (h : v.toDepth.restamp f = w.toDepth.restamp f) (o : Order) {ts us : List Trade}
    (hts : ts.map (·.restamp f) = us.map (·.restamp f)) :
    (v.finalOrder o ts).restamp f = (w.finalOrder o us).restamp f := by
  have hv := Depth.execute_restamp f v.toDepth o
  have hw := Depth.execute_restamp f w.toDepth o
  rw [h, hw, ← execute_eq, ← execute_eq, Prod.mk.injEq, Prod.mk.injEq] at hv
  obtain ⟨htrades, horder, -⟩ := hv
  have hlen := congrArg List.length htrades
  rw [List.length_map, List.length_map] at hlen
  have hdrop := congrArg (List.drop (v.fillFrom o (decide (o.type ≠ .limit))).1.length) hts
  rw [← List.map_drop, ← List.map_drop] at hdrop
  have htraded : traded o.orderId (ts.drop (v.fillFrom o (decide (o.type ≠ .limit))).1.length) =
      traded o.orderId (us.drop (v.fillFrom o (decide (o.type ≠ .limit))).1.length) := by
    rw [← traded_restamp f, hdrop, traded_restamp]
  have hfilled : ∀ (n : Int) (x : Order), (x.filledBy n).restamp f = (x.restamp f).filledBy n := fun _ _ => rfl
  unfold View.finalOrder
  rw [hfilled, hfilled, htraded, hlen, horder]

/-! Nothing changes: -/

theorem Result.restamp_id (r : Result) : r.restamp id = r := by
  have hevent : ∀ e : Event, e.restamp id = e := fun e => by
    obtain ⟨body, sequence⟩ := e
    cases body <;> rfl
  have htrade : ∀ t : Trade, t.restamp id = t := fun _ => rfl
  unfold restamp
  obtain ⟨order, trades, triggered, events⟩ := r
  have htrades : (trades.map fun ts => ts.map (·.restamp id)) = trades := by
    cases trades with
    | none => rfl
    | some ts => exact congrArg some (List.map_id'' htrade ts)
  dsimp only
  rw [htrades, List.map_id'' hevent]
  cases order <;> rfl

theorem RecoverySnapshot.restamp_id (r : RecoverySnapshot) : r.restamp id = r := by
  have hlevel : ∀ l : RecoveryLevel, l.restamp id = l := fun l => by
    have horder : ∀ o : Order, o.restamp id = o := fun _ => rfl
    unfold RecoveryLevel.restamp
    rw [List.map_id'' horder]
  unfold restamp
  rw [List.map_id'' hlevel, List.map_id'' hlevel]

end Lob.Node
