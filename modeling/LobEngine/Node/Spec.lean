import LobEngine.Node.OrderBook

/-!
# What the reference engine computes

`View` is a book without its data structures: two flat lists of orders in priority order, the pending
stop orders, and the scalars. The programs of this module say what the methods of `OrderBook` do to
a view: an order executes by the greedy walk, and its remainder rests behind the orders that are at
least as good, or is cancelled. `Node/Refinement` shows that the methods do exactly this.
-/

namespace Lob.Node

open Exc

structure View extends Depth where
  symbol : String
  stops : OMap JsVal StopOrder
  trades : List Trade
  lastTradePriceTicks : Option Int
  sequence : Int
  clock : Clock

/-- What a call returns, but for the order. -/
structure Outcome where
  trades : Option (List Trade)
  triggeredOrders : Option (List StopOrder)
  events : List Event
  deriving DecidableEq

def Result.outcome (r : Result) : Outcome := ⟨r.trades, r.triggeredOrders, r.events⟩

abbrev SpecProgram := Exc JsError View

namespace View

/-- The snapshots of the levels of a side. -/
def levelSnapshots (L : List Order) : List LevelSnapshot :=
  (L.map Order.price).dedup.map fun k =>
    let Q := L.filter (·.price = k)
    { priceTicks := k
      totalQuantity := .int (Q.map (·.remainingQuantity)).sum
      orderCount := Q.length
      headOrderId := Q.head?.map (·.orderId)
      tailOrderId := Q.getLast?.map (·.orderId) }

def snapshot (v : View) : BookSnapshot where
  symbol := v.symbol
  sequence := v.sequence
  bestBidPriceTicks := v.bids.head?.map Order.price
  bestAskPriceTicks := v.asks.head?.map Order.price
  lastTradePriceTicks := v.lastTradePriceTicks
  stopOrders := v.stops.values
  bids := levelSnapshots v.bids
  asks := levelSnapshots v.asks

/-- The levels of a side, with their orders. -/
def recoveryLevels (L : List Order) : List RecoveryLevel :=
  (L.map Order.price).dedup.map fun k =>
    let Q := L.filter (·.price = k)
    { priceTicks := k
      totalQuantity := .int (Q.map (·.remainingQuantity)).sum
      orderCount := Q.length
      orders := Q }

def toRecoverySnapshot (v : View) (lastCommandStreamId : Option String) : RecoverySnapshot where
  symbol := v.symbol
  sequence := v.sequence
  lastTradePriceTicks := v.lastTradePriceTicks
  lastCommandStreamId := lastCommandStreamId
  bids := recoveryLevels v.bids
  asks := recoveryLevels v.asks
  stopOrders := v.stops.values

/-- An order rests or is pending under `id`. -/
def hasId (v : View) (id : JsVal) : Bool :=
  decide (id ∈ v.ids.map JsVal.str) || v.stops.has id

/-- The remainder of an executed order: a limit order rests, a market order is cancelled. -/
def settle (d : Depth) (o : Order) : Order × Depth :=
  if 0 < o.remainingQuantity then
    if o.type = .limit then (o, d.rest o) else ({ o with status := .cancelled }, d)
  else (o, d)

end View

namespace Spec

open View

/-- A new order executes. -/
def execute (i : OrderInput) : SpecProgram (Order × List Trade) := do
  let o ← lift (newOrder i)
  let v ← get
  let (ts, o', d) := v.fillFrom o (i.type ≠ .limit)
  modify fun v => { v with toDepth := (settle d o').2, trades := v.trades ++ ts }
  return ((settle d o').1, ts)

def now : SpecProgram Int := do
  let v ← get
  modify fun v => { v with clock := v.clock.tail }
  return v.clock 0

def stampEvents (events : List EventBody) : SpecProgram (List Event) := do
  let v ← get
  modify fun v => { v with sequence := v.sequence + events.length }
  return stampFrom v.symbol v.sequence events

def createBookUpdatedEvent : SpecProgram EventBody := do
  let v ← get
  let ms ← now
  return .bookUpdated none v.snapshot ms

def assertOrderIdAvailable (orderId : JsVal) : SpecProgram Unit := do
  let v ← get
  if v.hasId orderId then throw (.errorFor "order already exists: " orderId) else return ()

def updateTrailingStopOrders : SpecProgram Unit := do
  let v ← get
  match v.lastTradePriceTicks with
  | none => return ()
  | some last => modify fun v => { v with stops := v.stops.mapValues (trail last) }

def getEligibleStopOrders : SpecProgram (List StopOrder) := do
  let v ← get
  match v.lastTradePriceTicks with
  | none => return []
  | some last => lift (eligibleOf last v.stops.values)

def executeTriggeredStopOrder (s : StopOrder) : SpecProgram (Order × List Trade) := do
  let v ← get
  if s.type = .stopMarket ∨ s.type = .trailingStopMarket then do
    let ms ← now
    execute (triggeredInput v.symbol s .market .null ms)
  else if s.type = .stopLimit then do
    let ms ← now
    execute (triggeredInput v.symbol s .limit s.priceTicks ms)
  else throw (.error ("unsupported stop order type: " ++ typeText s.type))

def triggerAll : List StopOrder → SpecProgram Triggered
  | [] => return .none
  | s :: ss => do
    modify fun v => { v with stops := v.stops.delete s.orderId }
    let s := { s with status := .triggered }
    let (o, trades) ← executeTriggeredStopOrder s
    let rest ← triggerAll ss
    return Triggered.append ⟨trades, [s], triggeredEvents s o trades⟩ rest

def cascade : Nat → List Trade → SpecProgram Triggered
  | cycles, latestTrades =>
    match latestTrades.getLast? with
    | none => return .none
    | some lastTrade =>
      match cycles with
      | 0 => throw (.error "stop order trigger cycle limit exceeded")
      | cycles + 1 => do
        modify fun v => { v with lastTradePriceTicks := some lastTrade.priceTicks }
        updateTrailingStopOrders
        let eligible ← getEligibleStopOrders
        if eligible = [] then return .none
        else do
          let round ← triggerAll eligible
          let rest ← cascade cycles round.trades
          return round.append rest

def destructure (args : Option Payload) : SpecProgram Payload :=
  match args with
  | none => throw .typeError
  | some p => return p

def placeLimitOrder (args : Option Payload) : SpecProgram Outcome := do
  let p ← destructure args
  assertOrderIdAvailable p.orderId
  let v ← get
  let (o, trades) ← execute { p with symbol := v.symbol, type := .limit, clock := false }
  let triggered ← cascade maxCycles trades
  let updated ← createBookUpdatedEvent
  let events ← stampEvents ([createOrderAcceptedEvent o] ++ createTradeCreatedEvents trades ++
    [createOrderFillEvent o] ++
    (if 0 < o.remainingQuantity then [createOrderRestedEvent o] else []) ++
    [updated] ++ triggered.events)
  return ⟨some (trades ++ triggered.trades), some triggered.orders, events⟩

def placeMarketOrder (args : Option Payload) : SpecProgram Outcome := do
  let p ← destructure args
  assertOrderIdAvailable p.orderId
  let v ← get
  let (o, trades) ← execute
    { p with symbol := v.symbol, type := .market, priceTicks := .null, clock := false }
  let triggered ← cascade maxCycles trades
  let updated ← createBookUpdatedEvent
  let events ← stampEvents ([createOrderAcceptedEvent o] ++ createTradeCreatedEvents trades ++
    [createOrderFillEvent o] ++ triggered.events ++ [updated])
  return ⟨some (trades ++ triggered.trades), some triggered.orders, events⟩

def acceptStop (s : StopOrder) : SpecProgram Outcome := do
  modify fun v => { v with stops := v.stops.set s.orderId s }
  let updated ← createBookUpdatedEvent
  let events ← stampEvents [.stopAccepted s, updated]
  return ⟨some [], some [], events⟩

def placeStopMarketOrder (args : Option Payload) : SpecProgram Outcome := do
  let p ← destructure args
  assertOrderIdAvailable p.orderId
  let v ← get
  acceptStop { p with
    symbol := v.symbol, type := .stopMarket, priceTicks := .null, remainingQuantity := p.quantity
    status := .opened, trailingAmountTicks := none, peakPriceTicks := none, valleyPriceTicks := none }

def placeStopLimitOrder (args : Option Payload) : SpecProgram Outcome := do
  let p ← destructure args
  assertOrderIdAvailable p.orderId
  let v ← get
  acceptStop { p with
    symbol := v.symbol, type := .stopLimit, remainingQuantity := p.quantity
    status := .opened, trailingAmountTicks := none, peakPriceTicks := none, valleyPriceTicks := none }

def placeTrailingStopMarketOrder (args : Option Payload) : SpecProgram Outcome := do
  let p ← destructure args
  assertOrderIdAvailable p.orderId
  let v ← get
  match v.lastTradePriceTicks with
  | none => throw (.error "cannot place trailing stop before first trade")
  | some last => do
    let amount ← lift (assertPositiveInteger "trailingAmountTicks" p.trailingAmountTicks)
    acceptStop { p with
      symbol := v.symbol, type := .trailingStopMarket, priceTicks := .null
      remainingQuantity := p.quantity, status := .opened
      triggerPriceTicks := .num (.ofInt
        (if p.side = .str (sideText .sell) then last - amount else last + amount))
      trailingAmountTicks := some amount
      peakPriceTicks := if p.side = .str (sideText .sell) then some last else none
      valleyPriceTicks := if p.side = .str (sideText .buy) then some last else none }

def cancelStop (orderId : JsVal) (s : StopOrder) : SpecProgram Outcome := do
  let s := { s with status := .cancelled }
  modify fun v => { v with stops := v.stops.delete orderId }
  let updated ← createBookUpdatedEvent
  return ⟨none, none, [⟨createStopCancelledEvent s, none⟩, ⟨updated, none⟩]⟩

def cancelResting (o : Order) : SpecProgram Outcome := do
  modify fun v => { v with toDepth := v.remove o.orderId }
  let updated ← createBookUpdatedEvent
  let events ← stampEvents [createOrderCancelledEvent { o with status := .cancelled }, updated]
  return ⟨none, none, events⟩

def cancelOrder (orderId : JsVal) : SpecProgram Outcome := do
  let v ← get
  match v.stops.get? orderId with
  | some s => cancelStop orderId s
  | none =>
    match v.orders.find? (fun o => decide (.str o.orderId = orderId)) with
    | none => throw (.errorFor "order not found: " orderId)
    | some o => cancelResting o

def program : Call → SpecProgram Outcome
  | .placeLimitOrder args => placeLimitOrder args
  | .placeMarketOrder args => placeMarketOrder args
  | .placeStopMarketOrder args => placeStopMarketOrder args
  | .placeStopLimitOrder args => placeStopLimitOrder args
  | .placeTrailingStopMarketOrder args => placeTrailingStopMarketOrder args
  | .cancelOrder orderId => cancelOrder orderId

end Spec

end Lob.Node
