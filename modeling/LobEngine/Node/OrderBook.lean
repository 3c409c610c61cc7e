import LobEngine.Node.Events
import Mathlib.Data.List.Sort

/-!
# The order book of the reference engine

`OrderBook.js`, method by method: programs over the book (`OrderBook`) that return or throw, and
keep what they changed before a throw. `matchBuyOrder` and `matchSellOrder` are one loop
(`matchOrder`) with the sides exchanged. `Date.now()` reads the next value of `clock`.

A call of JavaScript takes a limited number of arguments. That limit, which `Math.max(...this.bids.keys())`,
`Math.min(...this.asks.keys())` and `push(...)` of the triggered trades and events can reach, is left out.
-/

namespace Lob.Node

open Exc

structure OrderBook extends Heap where
  symbol : String
  bids : OMap Int LevelRef
  asks : OMap Int LevelRef
  ordersById : OMap JsVal NodeRef
  stopOrdersById : OMap JsVal StopOrder
  trades : List Trade
  lastTradePriceTicks : Option Int
  sequence : Int
  /-- The readings of `Date.now()` to come. -/
  clock : Clock
  /-- Not in the source: the nodes that came to rest, in that order. -/
  arrivals : List NodeRef

abbrev Program := Exc JsError OrderBook

namespace OrderBook

def noHeap : Heap where
  node := fun _ => ⟨⟨"", "", "", .buy, .limit, none, 0, 0, .opened, ⟨0, false⟩⟩, none, none, none⟩
  level := fun _ => ⟨0, none, none, .int 0, 0⟩
  nodes := 0
  levels := 0

/-- `new OrderBook(symbol)` of a valid symbol. -/
def new (symbol : String) (clock : Clock) : OrderBook where
  toHeap := noHeap
  symbol := symbol
  bids := .empty
  asks := .empty
  ordersById := .empty
  stopOrdersById := .empty
  trades := []
  lastTradePriceTicks := none
  sequence := 0
  clock := clock
  arrivals := []

def side (b : OrderBook) : Side → OMap Int LevelRef
  | .buy => b.bids
  | .sell => b.asks

def setSide (b : OrderBook) : Side → OMap Int LevelRef → OrderBook
  | .buy, m => { b with bids := m }
  | .sell, m => { b with asks := m }

section
variable (b : OrderBook) (s : Side) (m : OMap Int LevelRef)
@[simp] theorem setSide_side_self : (b.setSide s m).side s = m := by cases s <;> rfl
@[simp] theorem setSide_side_opposite : (b.setSide s.opposite m).side s = b.side s := by
  cases s <;> rfl
@[simp] theorem setSide_opposite_side : (b.setSide s m).side s.opposite = b.side s.opposite := by
  cases s <;> rfl
@[simp] theorem setSide_toHeap : (b.setSide s m).toHeap = b.toHeap := by cases s <;> rfl
@[simp] theorem setSide_symbol : (b.setSide s m).symbol = b.symbol := by cases s <;> rfl
@[simp] theorem setSide_ordersById : (b.setSide s m).ordersById = b.ordersById := by
  cases s <;> rfl
@[simp] theorem setSide_stopOrdersById : (b.setSide s m).stopOrdersById = b.stopOrdersById := by
  cases s <;> rfl
@[simp] theorem setSide_trades : (b.setSide s m).trades = b.trades := by cases s <;> rfl
@[simp] theorem setSide_last : (b.setSide s m).lastTradePriceTicks = b.lastTradePriceTicks := by
  cases s <;> rfl
@[simp] theorem setSide_sequence : (b.setSide s m).sequence = b.sequence := by cases s <;> rfl
@[simp] theorem setSide_clock : (b.setSide s m).clock = b.clock := by cases s <;> rfl
@[simp] theorem setSide_arrivals : (b.setSide s m).arrivals = b.arrivals := by cases s <;> rfl
end

theorem setSide_side (b : OrderBook) (s : Side) : b.setSide s (b.side s) = b := by cases s <;> rfl

def getBestBidPriceTicks (b : OrderBook) : Option Int := b.bids.keys.max?

def getBestAskPriceTicks (b : OrderBook) : Option Int := b.asks.keys.min?

def bestPriceTicks (b : OrderBook) : Side → Option Int
  | .buy => b.getBestBidPriceTicks
  | .sell => b.getBestAskPriceTicks

/-! ## Snapshots -/

def levelSnapshot (b : OrderBook) (l : LevelRef) : LevelSnapshot where
  priceTicks := (b.level l).priceTicks
  totalQuantity := (b.level l).totalQuantity
  orderCount := (b.level l).orderCount
  headOrderId := (b.level l).head.map fun r => (b.order r).orderId
  tailOrderId := (b.level l).tail.map fun r => (b.order r).orderId

def getBookSideSnapshot (b : OrderBook) (s : Side) : List LevelSnapshot :=
  ((b.side s).values.map b.levelSnapshot).insertionSort fun v w =>
    s.rank v.priceTicks ≤ s.rank w.priceTicks

def snapshot (b : OrderBook) : BookSnapshot where
  symbol := b.symbol
  sequence := b.sequence
  bestBidPriceTicks := b.getBestBidPriceTicks
  bestAskPriceTicks := b.getBestAskPriceTicks
  lastTradePriceTicks := b.lastTradePriceTicks
  stopOrders := b.stopOrdersById.values
  bids := b.getBookSideSnapshot .buy
  asks := b.getBookSideSnapshot .sell

def recoveryLevel (b : OrderBook) (l : LevelRef) : RecoveryLevel where
  priceTicks := (b.level l).priceTicks
  totalQuantity := (b.level l).totalQuantity
  orderCount := (b.level l).orderCount
  orders := toArray b.toHeap l

def getBookSideRecoverySnapshot (b : OrderBook) (s : Side) : List RecoveryLevel :=
  ((b.side s).values.map b.recoveryLevel).insertionSort fun v w =>
    s.rank v.priceTicks ≤ s.rank w.priceTicks

def toRecoverySnapshot (b : OrderBook) (lastCommandStreamId : Option String) :
    RecoverySnapshot where
  symbol := b.symbol
  sequence := b.sequence
  lastTradePriceTicks := b.lastTradePriceTicks
  lastCommandStreamId := lastCommandStreamId
  bids := b.getBookSideRecoverySnapshot .buy
  asks := b.getBookSideRecoverySnapshot .sell
  stopOrders := b.stopOrdersById.values

end OrderBook

open OrderBook

/-! ## Small programs -/

/-- A program of the heap, run on a book. -/
def onHeap {α : Type} (m : Exc JsError Heap α) : Program α := fun b =>
  ((m.run b.toHeap).1, { b with toHeap := (m.run b.toHeap).2 })

theorem run_onHeap_bind {α β : Type} {m : Exc JsError Heap α} {f : α → Program β} {b : OrderBook}
    {a : α} {h : Heap} (hm : m.run b.toHeap = (.ok a, h)) :
    (onHeap m >>= f).run b = (f a).run { b with toHeap := h } := by
  rw [run_bind]
  simp only [onHeap, run] at hm ⊢
  rw [hm]

theorem run_onHeap {α : Type} {m : Exc JsError Heap α} {b : OrderBook} {r : Except JsError α} {h : Heap}
    (hm : m.run b.toHeap = (r, h)) : (onHeap m).run b = (r, { b with toHeap := h }) := by
  show ((m.run b.toHeap).1, ({ b with toHeap := (m.run b.toHeap).2 } : OrderBook)) = _
  rw [hm]

/-- `if (c) { m }`. -/
def when (c : Prop) [Decidable c] (m : Program Unit) : Program Unit := if c then m else pure ()

/-- `Date.now()`. -/
def now : Program Int := do
  let b ← get
  modify fun b => { b with clock := b.clock.tail }
  return b.clock 0

def stampEvents (events : List EventBody) : Program (List Event) := do
  let b ← get
  modify fun b => { b with sequence := b.sequence + events.length }
  return stampFrom b.symbol b.sequence events

/-- `createBookUpdatedEvent(this.snapshot())`. -/
def createBookUpdatedEvent : Program EventBody := do
  let b ← get
  let ms ← now
  return .bookUpdated none b.snapshot ms

def assertOrderIdAvailable (orderId : JsVal) : Program Unit := do
  let b ← get
  if b.ordersById.has orderId || b.stopOrdersById.has orderId then
    throw (.errorFor "order already exists: " orderId)
  else return ()

/-- `new OrderNode(...)`; the new node's address. -/
def newOrderNode (i : OrderInput) : Program NodeRef := do
  let o ← lift (newOrder i)
  let b ← get
  modify fun b => { b with toHeap := b.toHeap.newNode o }
  return b.nodes

/-! ## Matching -/

/-- After a trade: a filled resting order leaves its level, and an empty level its side. -/
def dropFilled (s : Side) (l : LevelRef) (resting : NodeRef) (best : Int) : Program Unit := do
  let b ← get
  when ((b.order resting).isFilled = true) (do
    onHeap (remove l resting)
    modify fun b => { b with ordersById := b.ordersById.delete (.str (b.order resting).orderId) })
  let b ← get
  when ((b.level l).isEmpty = true) (modify fun b => b.setSide s ((b.side s).delete best))

/-- One iteration of the matching loop, at the best opposite price. -/
def matchBest (s : Side) (incoming : NodeRef) (best : Int) : Program Trade := do
  let b ← get
  match (b.side s.opposite).get? best with
  | none => throw .typeError
  | some l =>
    match (b.level l).head with
    | none => throw .typeError
    | some resting => do
      let fillQuantity := min (b.order incoming).remainingQuantity (b.order resting).remainingQuantity
      onHeap (fill incoming fillQuantity)
      onHeap (fill resting fillQuantity)
      onHeap (decreaseTotalQuantity l fillQuantity)
      let trade := { tradeOf (b.order incoming) (b.order resting) fillQuantity with
        symbol := b.symbol, aggressorSide := s
        buyOrderId := if s = .buy then (b.order incoming).orderId else (b.order resting).orderId
        sellOrderId := if s = .buy then (b.order resting).orderId else (b.order incoming).orderId }
      modify fun b => { b with trades := b.trades ++ [trade] }
      dropFilled s.opposite l resting best
      return trade

/-- The matching loop. Each iteration but the last takes a node out of its queue, so the number of
nodes bounds the iterations. -/
def matchLoop (s : Side) (incoming : NodeRef) (ignorePriceLimit : Bool) :
    Nat → Program (List Trade)
  | 0 => throw .outOfFuel
  | fuel + 1 => do
    let b ← get
    if (b.order incoming).remainingQuantity ≤ 0 then return []
    else match b.bestPriceTicks s.opposite with
      | none => return []
      | some best =>
        if (!ignorePriceLimit && !s.accepts (b.order incoming).price best) = true then return []
        else do
          let trade ← matchBest s incoming best
          let trades ← matchLoop s incoming ignorePriceLimit fuel
          return trade :: trades

def matchOrder (s : Side) (incoming : NodeRef) (ignorePriceLimit : Bool) :
    Program (List Trade) := do
  let b ← get
  matchLoop s incoming ignorePriceLimit (b.nodes + 1)

def matchBuyOrder : NodeRef → Bool → Program (List Trade) := matchOrder .buy

def matchSellOrder : NodeRef → Bool → Program (List Trade) := matchOrder .sell

/-- `side === Side.BUY ? matchBuyOrder : matchSellOrder`. -/
def matchBySide (incoming : NodeRef) (ignorePriceLimit : Bool) : Program (List Trade) := do
  let b ← get
  match (b.order incoming).side with
  | .buy => matchBuyOrder incoming ignorePriceLimit
  | .sell => matchSellOrder incoming ignorePriceLimit

/-- The level of a price, created if it is not there. -/
def levelAt (s : Side) (priceTicks : Int) : Program LevelRef := do
  let b ← get
  match (b.side s).get? priceTicks with
  | some l => return l
  | none => do
    if priceTicks ≤ 0 then throw (.error "priceTicks must be a positive integer")
    else modify fun b =>
      { b with toHeap := b.toHeap.newLevel priceTicks }.setSide s ((b.side s).set priceTicks b.levels)
    return b.levels

def addRestingOrder (r : NodeRef) : Program Unit := do
  let b ← get
  let o := b.order r
  if o.type ≠ .limit then throw (.error "only limit orders can rest in the order book")
  else do
    let l ← levelAt o.side o.price
    onHeap (append l r)
    modify fun b => { b with arrivals := b.arrivals ++ [r] }

/-- The remainder of a limit order comes to rest, under its id. -/
def restRemainder (r : NodeRef) : Program Unit := do
  addRestingOrder r
  modify fun b => { b with ordersById := b.ordersById.set (.str (b.order r).orderId) r }

/-! ## Stop orders -/

/-- `updateTrailingStopOrders`, for one pending order. -/
def trail (last : Int) (s : StopOrder) : StopOrder :=
  if s.type ≠ .trailingStopMarket then s
  else if s.side = .str (sideText .sell) ∧ s.peakPriceTicks.all (fun peak => decide (peak < last)) then
    { s with
      peakPriceTicks := some last
      triggerPriceTicks := .num (.ofInt (last - s.trailingAmountTicks.getD 0)) }
  else if s.side = .str (sideText .buy) ∧ s.valleyPriceTicks.all (fun valley => decide (last < valley)) then
    { s with
      valleyPriceTicks := some last
      triggerPriceTicks := .num (.ofInt (last + s.trailingAmountTicks.getD 0)) }
  else s

def updateTrailingStopOrders : Program Unit := do
  let b ← get
  match b.lastTradePriceTicks with
  | none => return ()
  | some last => modify fun b => { b with stopOrdersById := b.stopOrdersById.mapValues (trail last) }

/-- The trigger condition; the comparison converts the trigger price to a number. -/
def isEligible (last : Int) (s : StopOrder) : Except JsError Bool :=
  if s.side = .str (sideText .buy) then
    match s.triggerPriceTicks.toNumber with
    | none => .error .typeError
    | some t => .ok (t.le (.int last))
  else if s.side = .str (sideText .sell) then
    match s.triggerPriceTicks.toNumber with
    | none => .error .typeError
    | some t => .ok ((Num.int last).le t)
  else .ok false

def eligibleOf (last : Int) : List StopOrder → Except JsError (List StopOrder)
  | [] => .ok []
  | s :: ss => do
    let e ← isEligible last s
    let es ← eligibleOf last ss
    return if e then s :: es else es

def getEligibleStopOrders : Program (List StopOrder) := do
  let b ← get
  match b.lastTradePriceTicks with
  | none => return []
  | some last => lift (eligibleOf last b.stopOrdersById.values)

def typeText : OrderType → String
  | .limit => "LIMIT"
  | .market => "MARKET"
  | .stopMarket => "STOP_MARKET"
  | .stopLimit => "STOP_LIMIT"
  | .trailingStopMarket => "TRAILING_STOP_MARKET"

/-- The remainder of a market order is cancelled. -/
def cancelRemainder (r : NodeRef) : Program Unit := do
  let b ← get
  when (0 < (b.order r).remainingQuantity ∧ (b.order r).isActive = true) (onHeap (cancel r))

/-- The remainder of a limit order, if any, comes to rest. -/
def restIfActive (r : NodeRef) : Program Unit := do
  let b ← get
  when ((b.order r).isActive = true ∧ 0 < (b.order r).remainingQuantity) (restRemainder r)

/-- The order that a triggered stop order becomes. -/
def triggeredInput (symbol : String) (s : StopOrder) (type : OrderType) (priceTicks : JsVal) (ms : Int) :
    OrderInput :=
  { s with
    symbol, type, priceTicks
    quantity := s.remainingQuantity
    timestamp := .num (.int ms)
    clock := true }

def executeTriggeredStopOrder (s : StopOrder) : Program (Order × List Trade) := do
  let b ← get
  if s.type = .stopMarket ∨ s.type = .trailingStopMarket then do
    let ms ← now
    let r ← newOrderNode (triggeredInput b.symbol s .market .null ms)
    let trades ← matchBySide r true
    cancelRemainder r
    let b ← get
    return (b.order r, trades)
  else if s.type = .stopLimit then do
    let ms ← now
    let r ← newOrderNode (triggeredInput b.symbol s .limit s.priceTicks ms)
    let trades ← matchBySide r false
    restIfActive r
    let b ← get
    return (b.order r, trades)
  else throw (.error ("unsupported stop order type: " ++ typeText s.type))

/-- The events of one triggered stop order. -/
def triggeredEvents (s : StopOrder) (o : Order) (trades : List Trade) : List EventBody :=
  [.stopTriggered s] ++ createTradeCreatedEvents trades ++ [createOrderFillEvent o] ++
    if o.status = .opened ∧ 0 < o.remainingQuantity then [createOrderRestedEvent o] else []

/-- The stop orders that one round of trades triggered, in turn. -/
def triggerAll : List StopOrder → Program Triggered
  | [] => return .none
  | s :: ss => do
    modify fun b => { b with stopOrdersById := b.stopOrdersById.delete s.orderId }
    let s := { s with status := .triggered }
    let (o, trades) ← executeTriggeredStopOrder s
    let rest ← triggerAll ss
    return Triggered.append ⟨trades, [s], triggeredEvents s o trades⟩ rest

def maxCycles : Nat := 1000

/-- The `while` loop of `processStopOrdersAfterTrades`, with the cycles that are left. -/
def cascade : Nat → List Trade → Program Triggered
  | cycles, latestTrades =>
    match latestTrades.getLast? with
    | none => return .none
    | some lastTrade =>
      match cycles with
      | 0 => throw (.error "stop order trigger cycle limit exceeded")
      | cycles + 1 => do
        modify fun b => { b with lastTradePriceTicks := some lastTrade.priceTicks }
        updateTrailingStopOrders
        let eligible ← getEligibleStopOrders
        if eligible = [] then return .none
        else do
          let round ← triggerAll eligible
          let rest ← cascade cycles round.trades
          return round.append rest

def processStopOrdersAfterTrades (initialTrades : List Trade) : Program Triggered :=
  cascade maxCycles initialTrades

/-! ## The public methods -/

/-- Destructuring of the argument: `none` is `undefined` or `null`. -/
def destructure (args : Option Payload) : Program Payload :=
  match args with
  | none => throw .typeError
  | some p => return p

def placeLimitOrder (args : Option Payload) : Program Result := do
  let p ← destructure args
  assertOrderIdAvailable p.orderId
  let b ← get
  let r ← newOrderNode { p with symbol := b.symbol, type := .limit, clock := false }
  let trades ← matchBySide r false
  let b ← get
  let incoming := b.order r
  restIfActive r
  let triggered ← processStopOrdersAfterTrades trades
  let updated ← createBookUpdatedEvent
  let events ← stampEvents ([createOrderAcceptedEvent incoming] ++ createTradeCreatedEvents trades ++
    [createOrderFillEvent incoming] ++
    (if incoming.isActive = true ∧ 0 < incoming.remainingQuantity then
      [createOrderRestedEvent incoming] else []) ++ [updated] ++ triggered.events)
  let b ← get
  return ⟨.order (b.order r), some (trades ++ triggered.trades), some triggered.orders, events⟩

def placeMarketOrder (args : Option Payload) : Program Result := do
  let p ← destructure args
  assertOrderIdAvailable p.orderId
  let b ← get
  let r ← newOrderNode
    { p with symbol := b.symbol, type := .market, priceTicks := .null, clock := false }
  let trades ← matchBySide r true
  cancelRemainder r
  let b ← get
  let incoming := b.order r
  let triggered ← processStopOrdersAfterTrades trades
  let updated ← createBookUpdatedEvent
  let events ← stampEvents ([createOrderAcceptedEvent incoming] ++ createTradeCreatedEvents trades ++
    [createOrderFillEvent incoming] ++ triggered.events ++ [updated])
  let b ← get
  return ⟨.order (b.order r), some (trades ++ triggered.trades), some triggered.orders, events⟩

/-- What the methods that place a stop order do with it. -/
def acceptStop (s : StopOrder) : Program Result := do
  modify fun b => { b with stopOrdersById := b.stopOrdersById.set s.orderId s }
  let updated ← createBookUpdatedEvent
  let events ← stampEvents [.stopAccepted s, updated]
  return ⟨.stop s, some [], some [], events⟩

def placeStopMarketOrder (args : Option Payload) : Program Result := do
  let p ← destructure args
  assertOrderIdAvailable p.orderId
  let b ← get
  acceptStop { p with
    symbol := b.symbol, type := .stopMarket, priceTicks := .null, remainingQuantity := p.quantity
    status := .opened, trailingAmountTicks := none, peakPriceTicks := none, valleyPriceTicks := none }

def placeStopLimitOrder (args : Option Payload) : Program Result := do
  let p ← destructure args
  assertOrderIdAvailable p.orderId
  let b ← get
  acceptStop { p with
    symbol := b.symbol, type := .stopLimit, remainingQuantity := p.quantity
    status := .opened, trailingAmountTicks := none, peakPriceTicks := none, valleyPriceTicks := none }

def placeTrailingStopMarketOrder (args : Option Payload) : Program Result := do
  let p ← destructure args
  assertOrderIdAvailable p.orderId
  let b ← get
  match b.lastTradePriceTicks with
  | none => throw (.error "cannot place trailing stop before first trade")
  | some last => do
    let amount ← lift (assertPositiveInteger "trailingAmountTicks" p.trailingAmountTicks)
    acceptStop { p with
      symbol := b.symbol, type := .trailingStopMarket, priceTicks := .null
      remainingQuantity := p.quantity, status := .opened
      triggerPriceTicks := .num (.ofInt
        (if p.side = .str (sideText .sell) then last - amount else last + amount))
      trailingAmountTicks := some amount
      peakPriceTicks := if p.side = .str (sideText .sell) then some last else none
      valleyPriceTicks := if p.side = .str (sideText .buy) then some last else none }

/-- `cancelOrder` of a pending stop order: its events get no sequence number. -/
def cancelStop (orderId : JsVal) (s : StopOrder) : Program Result := do
  let s := { s with status := .cancelled }
  modify fun b => { b with stopOrdersById := b.stopOrdersById.delete orderId }
  let updated ← createBookUpdatedEvent
  return ⟨.stop s, none, none, [⟨createStopCancelledEvent s, none⟩, ⟨updated, none⟩]⟩

/-- A cancelled order leaves its level and the index, and an empty level its side. -/
def unlink (orderId : JsVal) (o : Order) (r : NodeRef) (l : LevelRef) : Program Unit := do
  onHeap (remove l r)
  onHeap (cancel r)
  modify fun b => { b with ordersById := b.ordersById.delete orderId }
  let b ← get
  when ((b.level l).isEmpty = true)
    (modify fun b => b.setSide o.side ((b.side o.side).delete o.price))

/-- `cancelOrder` of a resting order. -/
def cancelResting (orderId : JsVal) (r : NodeRef) : Program Result := do
  let b ← get
  let o := b.order r
  if o.isActive = false then throw (alreadyDone o)
  else match (b.node r).priceLevel with
    | none => throw (.error ("order " ++ o.orderId ++ " is not attached to a price level"))
    | some l => do
      unlink orderId o r l
      let b ← get
      let updated ← createBookUpdatedEvent
      let events ← stampEvents [createOrderCancelledEvent (b.order r), updated]
      return ⟨.order (b.order r), none, none, events⟩

def cancelOrder (orderId : JsVal) : Program Result := do
  let b ← get
  match b.stopOrdersById.get? orderId with
  | some s => cancelStop orderId s
  | none =>
    match b.ordersById.get? orderId with
    | none => throw (.errorFor "order not found: " orderId)
    | some r => cancelResting orderId r

/-! ## Restoring a book -/

/-- The fields of an order of a recovery snapshot. -/
def restoreInput (o : Order) : OrderInput where
  orderId := .str o.orderId
  userId := .str o.userId
  symbol := o.symbol
  side := .str (sideText o.side)
  type := o.type
  priceTicks := (o.priceTicks.map fun p => .num (.int p)).getD .null
  quantity := .num (.int o.initialQuantity)
  timestamp := .num (.int o.timestamp.ms)
  clock := o.timestamp.clock

/-- The node of one order of a recovery snapshot. -/
def restoreOrder (l : LevelRef) (o : Order) : Program Unit :=
  if o.remainingQuantity ≤ 0 then return ()
  else do
    let r ← newOrderNode (restoreInput o)
    modify fun b => { b with toHeap := b.toHeap.modifyNode r fun n =>
      { n with remainingQuantity := o.remainingQuantity, status := o.status } }
    onHeap (append l r)
    modify fun b => { b with arrivals := b.arrivals ++ [r] }
    modify fun b => { b with ordersById := b.ordersById.set (.str o.orderId) r }

def restoreOrders (l : LevelRef) : List Order → Program Unit
  | [] => return ()
  | o :: os => do
    restoreOrder l o
    restoreOrders l os

def restoreLevel (s : Side) (v : RecoveryLevel) : Program Unit := do
  let b ← get
  if v.priceTicks ≤ 0 then throw (.error "priceTicks must be a positive integer")
  else do
    modify fun b => { b with toHeap := b.toHeap.newLevel v.priceTicks }
    restoreOrders b.levels v.orders
    let b' ← get
    when (0 < (b'.level b.levels).orderCount)
      (modify fun b' => b'.setSide s ((b'.side s).set v.priceTicks b.levels))

def restoreBookSideFromRecoverySnapshot (s : Side) : List RecoveryLevel → Program Unit
  | [] => return ()
  | v :: vs => do
    restoreLevel s v
    restoreBookSideFromRecoverySnapshot s vs

/-- `fromRecoverySnapshot`: the outcome, and the book it built. -/
def fromRecoverySnapshot (snapshot : RecoverySnapshot) (clock : Clock) :
    Except JsError Unit × OrderBook :=
  if isBlank snapshot.symbol then
    (.error (.error "symbol must be a non-empty string"), OrderBook.new snapshot.symbol clock)
  else Exc.run (do
    restoreBookSideFromRecoverySnapshot .buy snapshot.bids
    restoreBookSideFromRecoverySnapshot .sell snapshot.asks
    modify fun b => { b with stopOrdersById :=
      snapshot.stopOrders.foldl (fun m s => m.set s.orderId s) b.stopOrdersById })
    { OrderBook.new snapshot.symbol clock with
      sequence := snapshot.sequence
      lastTradePriceTicks := snapshot.lastTradePriceTicks }

/-! ## Calls -/

/-- A call of a public method that changes the book. -/
inductive Call where
  | placeLimitOrder (args : Option Payload)
  | placeMarketOrder (args : Option Payload)
  | placeStopMarketOrder (args : Option Payload)
  | placeStopLimitOrder (args : Option Payload)
  | placeTrailingStopMarketOrder (args : Option Payload)
  | cancelOrder (orderId : JsVal)

def Call.program : Call → Program Result
  | .placeLimitOrder args => Node.placeLimitOrder args
  | .placeMarketOrder args => Node.placeMarketOrder args
  | .placeStopMarketOrder args => Node.placeStopMarketOrder args
  | .placeStopLimitOrder args => Node.placeStopLimitOrder args
  | .placeTrailingStopMarketOrder args => Node.placeTrailingStopMarketOrder args
  | .cancelOrder orderId => Node.cancelOrder orderId

/-- The outcome of a call and the book after it. -/
def call (b : OrderBook) (c : Call) : Except JsError Result × OrderBook := c.program.run b

/-- The book after some calls, whether they return or throw. -/
def calls (b : OrderBook) (cs : List Call) : OrderBook := cs.foldl (fun b c => (call b c).2) b

end Lob.Node
