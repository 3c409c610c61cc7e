import LobEngine.Depth
import LobEngine.Go.Book

/-!
# What the Go engine computes

`View` is a book without its data structures: two flat lists of orders in priority order, the pending
stop orders, and the scalars. The programs of this module say what the functions of `book.go` do to
a view; `Go/Refinement` shows that the functions do exactly this.
-/

namespace Lob.Go

open Exc

structure View extends Depth where
  symbol : String
  stops : OMap String StopOrder
  trades : List Trade
  lastTradePriceTicks : Option Int
  sequence : Int
  clock : Clock

abbrev SpecProgram := Exc GoError View

namespace View

def empty (symbol : String) (clock : Clock) : View :=
  ⟨Depth.empty, symbol, .empty, [], none, 0, clock⟩

/-- The orders of a side at one price, for each price. -/
def levels {α : Type} (f : Int → List Order → α) (L : List Order) : List α :=
  (L.map Order.price).dedup.map fun k => f k (L.filter (·.price = k))

/-- The total of a level, as the engine adds it up. -/
def total (Q : List Order) : Int := wrap64 (Q.map (·.remainingQuantity)).sum

def levelSnapshot (k : Int) (Q : List Order) : PriceLevelSnapshot where
  priceTicks := k
  totalQuantity := total Q
  orderCount := Q.length
  headOrderId := Q.head?.map (·.orderId)
  tailOrderId := Q.getLast?.map (·.orderId)

def snapshot (v : View) : BookSnapshot where
  symbol := v.symbol
  sequence := v.sequence
  bestBidPriceTicks := v.bids.head?.map Order.price
  bestAskPriceTicks := v.asks.head?.map Order.price
  lastTradePriceTicks := v.lastTradePriceTicks
  stopOrders := v.stops.values
  bids := levels levelSnapshot v.bids
  asks := levels levelSnapshot v.asks

def recoveryLevel (k : Int) (Q : List Order) : RecoveryPriceLevel where
  priceTicks := k
  totalQuantity := total Q
  orderCount := Q.length
  orders := Q

def recoverySnapshot (v : View) (lastCommandStreamId : Option String) : RecoverySnapshot where
  symbol := v.symbol
  sequence := v.sequence
  lastTradePriceTicks := v.lastTradePriceTicks
  lastCommandStreamId := lastCommandStreamId
  bids := levels recoveryLevel v.bids
  asks := levels recoveryLevel v.asks
  stopOrders := v.stops.values

/-- An order rests or is pending under `id`. -/
def hasId (v : View) (id : String) : Prop := id ∈ v.ids ∨ id ∈ v.stops.keys

instance (v : View) (id : String) : Decidable (v.hasId id) := inferInstanceAs (Decidable (_ ∨ _))

/-- The pending trailing stop orders after a trade at `last`. -/
def trail (last : Int) (o : StopOrder) : StopOrder := (trailStop last o).toOption.getD o

/-- The pending stop orders that a trade at `last` triggers. -/
def eligible (v : View) : List StopOrder :=
  match v.lastTradePriceTicks with
  | none => []
  | some last => v.stops.values.filter (isEligible last)

/-- The view after the new order `o` executed. -/
def executed (v : View) (o : Order) : View :=
  { v with toDepth := (v.execute o).2.2, trades := v.trades ++ (v.execute o).1 }

end View

namespace Spec

open View

def execute (o : Order) : SpecProgram (Order × List Trade) := do
  let v ← get
  modify fun v => v.executed o
  return ((v.execute o).2.1, (v.execute o).1)

def now : SpecProgram Int := do
  let v ← get
  modify fun v => { v with clock := v.clock.tail }
  return v.clock 0

def stamp (events : List EventBody) : SpecProgram (List Event) := do
  let v ← get
  modify fun v => { v with sequence := v.sequence + events.length }
  return stampFrom v.symbol v.sequence events

def bookUpdatedEvent : SpecProgram EventBody := do
  let v ← get
  let ms ← now
  return .bookUpdated none v.snapshot ms

def assertAvailable (orderId : String) : SpecProgram Unit := do
  let v ← get
  if v.hasId orderId then throw (.error ("order already exists: " ++ orderId)) else return ()

theorem assertAvailable_taken {v : View} {orderId : String} (h : v.hasId orderId) :
    (assertAvailable orderId).run v = (.error (.error ("order already exists: " ++ orderId)), v) := by
  rw [assertAvailable, run_get_bind, if_pos h, run_throw]

theorem assertAvailable_free {v : View} {orderId : String} (h : ¬ v.hasId orderId) :
    (assertAvailable orderId).run v = (.ok (), v) := by
  rw [assertAvailable, run_get_bind, if_neg h, run_pure]

def updateTrailingStops : SpecProgram Unit := do
  let v ← get
  match v.lastTradePriceTicks with
  | none => return ()
  | some last => modify fun v => { v with stops := v.stops.mapValues (trail last) }

def executeStop (stop : StopOrder) : SpecProgram (Order × List Trade) := do
  let v ← get
  let ms ← now
  let o ← lift (newOrder v.symbol (executedType stop) (executedInput stop ms) true)
  execute o

def triggerAll : List StopOrder → SpecProgram StopResult
  | [] => return .empty
  | stop :: stops => do
    modify fun v => { v with stops := v.stops.delete stop.orderId }
    let stop := { stop with status := .triggered }
    let (o, trades) ← executeStop stop
    let rest ← triggerAll stops
    return StopResult.append ⟨trades, [stop], triggeredEvents stop o trades⟩ rest

def cascade : Nat → List Trade → SpecProgram StopResult
  | cycles, latest =>
    match latest.getLast? with
    | none => return .empty
    | some trade =>
      match cycles with
      | 0 => throw (.error "stop order trigger cycle limit exceeded")
      | cycles + 1 => do
        modify fun v => { v with lastTradePriceTicks := some trade.priceTicks }
        updateTrailingStops
        let v ← get
        if v.eligible = [] then return .empty
        else do
          let round ← triggerAll v.eligible
          let rest ← cascade cycles round.trades
          return round.append rest

/-- The executed order `o` once the trades of the cascade are made too. -/
def finalOrder (o : Order) (triggered : StopResult) : Order :=
  o.filledBy (traded o.orderId triggered.trades)

def placeLimit (input : OrderInput) : SpecProgram Result := do
  assertAvailable input.orderId
  let v ← get
  let o ← lift (newOrder v.symbol .limit input false)
  let (o, trades) ← execute o
  let triggered ← cascade maxCycles trades
  let updated ← bookUpdatedEvent
  let events ← stamp ([orderAcceptedEvent o] ++ trades.map .trade ++ [orderFillEvent o] ++
    (if 0 < o.remainingQuantity then [orderRestedEvent o] else []) ++ [updated] ++ triggered.events)
  return ⟨.order (finalOrder o triggered), trades ++ triggered.trades, triggered.triggeredOrders, events⟩

def placeMarket (input : OrderInput) : SpecProgram Result := do
  assertAvailable input.orderId
  let v ← get
  let o ← lift (newOrder v.symbol .market input false)
  let (o, trades) ← execute o
  let triggered ← cascade maxCycles trades
  let updated ← bookUpdatedEvent
  let events ← stamp ([orderAcceptedEvent o] ++ trades.map .trade ++ [orderFillEvent o] ++
    triggered.events ++ [updated])
  return ⟨.order (finalOrder o triggered), trades ++ triggered.trades, triggered.triggeredOrders, events⟩

def placeStopWithExtrema (input : OrderInput) (type : OrderType) (peak valley : Option Int) :
    SpecProgram Result := do
  assertAvailable input.orderId
  let v ← get
  let stop ← lift (newStop v.symbol type input peak valley)
  modify fun v => { v with stops := v.stops.set stop.orderId stop }
  let updated ← bookUpdatedEvent
  let events ← stamp [.stopAccepted stop, updated]
  return ⟨.stop stop, [], [], events⟩

def placeTrailingStopMarket (input : OrderInput) : SpecProgram Result := do
  let v ← get
  let (input, peak, valley) ← lift (newTrailing v.lastTradePriceTicks input)
  placeStopWithExtrema input .trailingStopMarket peak valley

def cancelStop (orderId : String) (stop : StopOrder) : SpecProgram Result := do
  let stop := { stop with status := .cancelled }
  modify fun v => { v with stops := v.stops.delete orderId }
  let updated ← bookUpdatedEvent
  return ⟨.stop stop, [], [], [⟨stopCancelledEvent stop, none⟩, ⟨updated, none⟩]⟩

def cancelResting (o : Order) : SpecProgram Result := do
  modify fun v => { v with toDepth := v.remove o.orderId }
  let o := { o with status := .cancelled }
  let updated ← bookUpdatedEvent
  let events ← stamp [orderCancelledEvent o, updated]
  return ⟨.order o, [], [], events⟩

def cancelOrder (orderId : String) : SpecProgram Result := do
  let v ← get
  match v.stops.get? orderId with
  | some stop => cancelStop orderId stop
  | none =>
    match v.orders.find? (fun o => decide (o.orderId = orderId)) with
    | none => throw (.error ("order not found: " ++ orderId))
    | some o => cancelResting o

def program : Call → SpecProgram Result
  | .placeLimit input => placeLimit input
  | .placeMarket input => placeMarket input
  | .placeStopMarket input => placeStopWithExtrema input .stopMarket none none
  | .placeStopLimit input => placeStopWithExtrema input .stopLimit none none
  | .placeTrailingStopMarket input => placeTrailingStopMarket input
  | .cancel orderId => cancelOrder orderId

end Spec

end Lob.Go
