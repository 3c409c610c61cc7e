import LobEngine.Go.Invariants

/-!
# Changing timestamps

`restamp f` applies `f` to each timestamp of an order, a trade, an event or a snapshot. The events of
the book carry a reading of the clock, so `f` is applied to that reading. What an order executes to
depends on no timestamp (`Depth.execute_restamp`).
-/

namespace Lob

variable (f : Stamp → Stamp)

def Order.restamp (o : Order) : Order := { o with timestamp := f o.timestamp }

def Trade.restamp (t : Trade) : Trade := { t with timestamp := f t.timestamp }

def Depth.restamp (d : Depth) : Depth := ⟨d.bids.map (·.restamp f), d.asks.map (·.restamp f)⟩

section

variable (d : Depth) (o : Order) (s : Side)

@[simp] theorem Order.restamp_orderId : (o.restamp f).orderId = o.orderId := rfl
@[simp] theorem Order.restamp_symbol : (o.restamp f).symbol = o.symbol := rfl
@[simp] theorem Order.restamp_side : (o.restamp f).side = o.side := rfl
@[simp] theorem Order.restamp_type : (o.restamp f).type = o.type := rfl
@[simp] theorem Order.restamp_price : (o.restamp f).price = o.price := rfl
@[simp] theorem Order.restamp_status : (o.restamp f).status = o.status := rfl
@[simp] theorem Order.restamp_remaining : (o.restamp f).remainingQuantity = o.remainingQuantity := rfl

theorem Order.of_restamp {f} {o p : Order} (h : o.restamp f = p.restamp f) :
    o.orderId = p.orderId ∧ o.remainingQuantity = p.remainingQuantity := by
  unfold restamp at h
  rw [Order.mk.injEq] at h
  exact ⟨h.1, h.2.2.2.2.2.2.2.1⟩

theorem Depth.side_restamp : (d.restamp f).side s = (d.side s).map (·.restamp f) := by cases s <;> rfl

theorem Depth.orders_restamp : (d.restamp f).orders = d.orders.map (·.restamp f) := by
  rw [orders, orders, List.map_append]
  rfl

theorem Depth.ids_restamp : (d.restamp f).ids = d.ids := by
  rw [ids, orders_restamp, List.map_map]
  rfl

theorem Depth.setSide_restamp (L : List Order) :
    (d.setSide s L).restamp f = (d.restamp f).setSide s (L.map (·.restamp f)) := by cases s <;> rfl

theorem greedy_restamp (ignore : Bool) (L : List Order) :
    greedy (o.restamp f) ignore (L.map (·.restamp f)) =
      ⟨(greedy o ignore L).fills.map fun x => (x.1.restamp f, x.2), (greedy o ignore L).left,
        (greedy o ignore L).rest.map (·.restamp f)⟩ := by
  unfold greedy
  refine walk_map (Order.restamp f) ?_ ?_ ?_ _
  · exact fun _ _ => rfl
  · exact fun _ _ => rfl
  · exact fun _ _ _ => rfl

theorem Depth.fillFrom_restamp (ignore : Bool) :
    (d.restamp f).fillFrom (o.restamp f) ignore =
      ((d.fillFrom o ignore).1.map (·.restamp f), (d.fillFrom o ignore).2.1.restamp f,
        (d.fillFrom o ignore).2.2.restamp f) := by
  unfold fillFrom
  rw [Order.restamp_side, side_restamp, greedy_restamp, setSide_restamp]
  refine Prod.ext ?_ (Prod.ext ?_ rfl)
  · simp only [tradesOf, List.map_map]
    rfl
  · simp only [WalkResult.taken, List.map_map]
    rfl

theorem Depth.rest_restamp : (d.restamp f).rest (o.restamp f) = (d.rest o).restamp f := by
  unfold rest
  rw [Order.restamp_side, side_restamp, setSide_restamp]
  exact congrArg _ (enqueue_map (Order.restamp f) rfl fun _ _ => rfl).symm

theorem Depth.settle_restamp :
    (d.restamp f).settle (o.restamp f) = ((d.settle o).1.restamp f, (d.settle o).2.restamp f) := by
  by_cases hr : 0 < o.remainingQuantity
  · by_cases ht : o.type = .limit
    · rw [settle_limit ht hr, settle_limit (o := o.restamp f) ht hr, rest_restamp]
    · rw [settle_market ht hr, settle_market (o := o.restamp f) ht hr]
      rfl
  · rw [settle_done hr, settle_done (o := o.restamp f) hr]

theorem Depth.execute_restamp :
    (d.restamp f).execute (o.restamp f) =
      ((d.execute o).1.map (·.restamp f), (d.execute o).2.1.restamp f, (d.execute o).2.2.restamp f) := by
  unfold execute
  rw [Order.restamp_type, fillFrom_restamp]
  dsimp only
  rw [settle_restamp]

theorem Depth.remove_restamp (key : String) : (d.restamp f).remove key = (d.remove key).restamp f := by
  unfold remove restamp
  rw [List.filter_map, List.filter_map]
  rfl

theorem traded_restamp (key : String) (ts : List Trade) :
    traded key (ts.map (·.restamp f)) = traded key ts := by
  unfold traded
  rw [List.filter_map, List.map_map]
  rfl

end

namespace Go

def Placed.restamp : Placed → Placed
  | .order o => .order (o.restamp f)
  | .stop s => .stop s

def EventBody.restamp : EventBody → EventBody
  | .order e => .order { e with timestamp := f e.timestamp }
  | .trade t => .trade (t.restamp f)
  | .bookUpdated symbol snapshot ms => .bookUpdated symbol snapshot (f ⟨ms, true⟩).ms
  | e => e

def Event.restamp (e : Event) : Event := { e with body := e.body.restamp f }

def Result.restamp (r : Result) : Result :=
  { r with
    order := r.order.restamp f
    trades := r.trades.map (·.restamp f)
    events := r.events.map (·.restamp f) }

def RecoveryPriceLevel.restamp (l : RecoveryPriceLevel) : RecoveryPriceLevel :=
  { l with orders := l.orders.map (·.restamp f) }

def RecoverySnapshot.restamp (r : RecoverySnapshot) : RecoverySnapshot :=
  { r with bids := r.bids.map (·.restamp f), asks := r.asks.map (·.restamp f) }

theorem stampEvent_restamp (symbol : String) (n : Int) (e : EventBody) :
    stampEvent symbol n (e.restamp f) = (stampEvent symbol n e).restamp f := by
  cases e <;> rfl

theorem stampFrom_restamp (symbol : String) (n : Int) (es : List EventBody) :
    stampFrom symbol n (es.map (·.restamp f)) = (stampFrom symbol n es).map (·.restamp f) := by
  induction es generalizing n with
  | nil => rfl
  | cons e es ih =>
    rw [List.map_cons, stampFrom, stampFrom, List.map_cons, ih, stampEvent_restamp]

theorem total_restamp (Q : List Order) : View.total (Q.map (·.restamp f)) = View.total Q := by
  unfold View.total
  rw [List.map_map]
  rfl

/-- The levels of a side see of an order only what `g` sees. -/
theorem levels_restamp {α β : Type} (g : Int → List Order → α) (g' : Int → List Order → β) (r : α → β)
    (hg : ∀ k Q, g' k (Q.map (·.restamp f)) = r (g k Q)) (L : List Order) :
    View.levels g' (L.map (·.restamp f)) = (View.levels g L).map r := by
  unfold View.levels
  rw [List.map_map, List.map_map]
  refine List.map_congr_left fun k _ => ?_
  simp only [Function.comp]
  rw [← hg, List.filter_map]
  rfl

/-- Timestamps do not show in the snapshots of the levels. -/
theorem levelSnapshots_restamp (L : List Order) :
    View.levels View.levelSnapshot (L.map (·.restamp f)) = View.levels View.levelSnapshot L := by
  rw [levels_restamp f View.levelSnapshot View.levelSnapshot id, List.map_id]
  intro k Q
  unfold View.levelSnapshot
  rw [total_restamp, List.length_map, List.head?_map, List.getLast?_map, Option.map_map, Option.map_map]
  rfl

theorem recoveryLevels_restamp (L : List Order) :
    View.levels View.recoveryLevel (L.map (·.restamp f)) =
      (View.levels View.recoveryLevel L).map (·.restamp f) := by
  refine levels_restamp f _ _ _ (fun k Q => ?_) L
  unfold View.recoveryLevel RecoveryPriceLevel.restamp
  rw [total_restamp, List.length_map]

/-- The events of an executed order. -/
theorem executedEvents_restamp (o : Order) (ts : List Trade) :
    [orderAcceptedEvent (o.restamp f)] ++ (ts.map (·.restamp f)).map EventBody.trade ++
        [orderFillEvent (o.restamp f)] =
      ([orderAcceptedEvent o] ++ ts.map EventBody.trade ++ [orderFillEvent o]).map (·.restamp f) := by
  rw [List.map_append, List.map_append, List.map_map, List.map_map]
  rfl

theorem triggeredEvents_restamp (stop : StopOrder) (o : Order) (ts : List Trade) :
    triggeredEvents stop (o.restamp f) (ts.map (·.restamp f)) =
      (triggeredEvents stop o ts).map (·.restamp f) := by
  unfold triggeredEvents
  rw [List.map_append, List.map_append, List.map_append, List.map_map, List.map_map,
    Order.restamp_status, Order.restamp_remaining]
  by_cases h : o.status = .opened ∧ 0 < o.remainingQuantity
  · rw [if_pos h, if_pos h]
    rfl
  · rw [if_neg h, if_neg h]
    rfl

/-! Nothing changes: -/

theorem Result.restamp_id (r : Result) : r.restamp id = r := by
  unfold restamp
  have hevent : ∀ e : Event, e.restamp id = e := fun e => by
    obtain ⟨body, sequence⟩ := e
    cases body <;> rfl
  have htrade : ∀ t : Trade, t.restamp id = t := fun _ => rfl
  rw [List.map_id'' htrade, List.map_id'' hevent]
  obtain ⟨order, trades, triggered, events⟩ := r
  cases order <;> rfl

theorem RecoverySnapshot.restamp_id (r : RecoverySnapshot) : r.restamp id = r := by
  have hlevel : ∀ l : RecoveryPriceLevel, l.restamp id = l := fun l => by
    have horder : ∀ o : Order, o.restamp id = o := fun _ => rfl
    unfold RecoveryPriceLevel.restamp
    rw [List.map_id'' horder]
  unfold restamp
  rw [List.map_id'' hlevel, List.map_id'' hlevel]

end Go

end Lob
