import LobEngine.Go.Types
import LobEngine.Lib.Exc
import Mathlib.Data.List.Sort
import Mathlib.Logic.Function.Basic

/-!
# The order book of the Go engine

`order.go`, `book.go` and `recovery.go`, function by function: programs over the book (`Book`) that
return, or end with an error and keep what they changed before it. Orders are shared by pointers, so
they live in a heap (`Book.order`); a price level is only reached through its side, so the sides hold
the levels themselves. The order of a Go map is never used.
-/

namespace Lob.Go

open Exc

/-- A pointer to an order. -/
abbrev Ref := Nat

/-- The value of a pointer. -/
def deref : Option Int → Except GoError Int
  | some n => .ok n
  | none => .error .panic

/-! ## `order.go` -/

/-- `newOrder`. `clock` marks a timestamp that was read from the clock. -/
def newOrder (symbol : String) (type : OrderType) (input : OrderInput) (clock : Bool) :
    Except GoError Order :=
  if input.orderId = "" then .error (.error "orderId must be a non-empty string")
  else if input.userId = "" then .error (.error "userId must be a non-empty string")
  else if symbol = "" then .error (.error "symbol must be a non-empty string")
  else match sideOf input.side with
    | none => .error (.error ("invalid order side: " ++ input.side))
    | some side =>
      if input.quantity ≤ 0 then .error (.error "quantity must be a positive integer")
      else if input.timestamp < 0 then .error (.error "timestamp must be a non-negative integer")
      else if type = .limit ∧ input.priceTicks.all (· ≤ 0) = true then
        .error (.error "priceTicks must be a positive integer")
      else if type = .market ∧ input.priceTicks.isSome = true then
        .error (.error "market order price must be null or undefined")
      else .ok {
        orderId := input.orderId, userId := input.userId, symbol, side, type
        priceTicks := input.priceTicks, initialQuantity := input.quantity
        remainingQuantity := input.quantity, status := .opened, timestamp := ⟨input.timestamp, clock⟩ }

def alreadyDone (o : Order) : GoError :=
  .error ("order " ++ o.orderId ++ " is already " ++ statusText o.status)

def fill (quantity : Int) (o : Order) : Except GoError Order :=
  if quantity ≤ 0 then .error (.error "fill quantity must be a positive integer")
  else if o.isActive = false then .error (alreadyDone o)
  else if o.remainingQuantity < quantity then .error (.error "fill quantity exceeds remaining quantity")
  else .ok { o with
    remainingQuantity := o.remainingQuantity - quantity
    status := if o.remainingQuantity - quantity = 0 then .filled else .partiallyFilled }

def cancel (o : Order) : Except GoError Order :=
  if o.isActive = false then .error (alreadyDone o) else .ok { o with status := .cancelled }

/-- `_ = o.f()`: the order after a call whose error is dropped. -/
def discard (f : Order → Except GoError Order) (o : Order) : Order :=
  match f o with
  | .ok o' => o'
  | .error _ => o

structure PriceLevel where
  priceTicks : Int
  totalQuantity : Int
  orders : List Ref

namespace PriceLevel

variable (order : Ref → Order)

def append (l : PriceLevel) (r : Ref) : PriceLevel :=
  { l with
    orders := l.orders ++ [r]
    totalQuantity := wrap64 (l.totalQuantity + (order r).remainingQuantity) }

def remove (l : PriceLevel) (r : Ref) : PriceLevel :=
  if r ∈ l.orders then
    { l with
      orders := l.orders.erase r
      totalQuantity := wrap64 (l.totalQuantity - (order r).remainingQuantity) }
  else l

def snapshot (l : PriceLevel) : PriceLevelSnapshot where
  priceTicks := l.priceTicks
  totalQuantity := l.totalQuantity
  orderCount := l.orders.length
  headOrderId := l.orders.head?.map fun r => (order r).orderId
  tailOrderId := l.orders.getLast?.map fun r => (order r).orderId

/-- The level in a recovery snapshot. -/
def recovery (l : PriceLevel) : RecoveryPriceLevel where
  priceTicks := l.priceTicks
  totalQuantity := l.totalQuantity
  orderCount := l.orders.length
  orders := l.orders.map order

end PriceLevel

/-! ## The book -/

structure Book where
  symbol : String
  bids : OMap Int PriceLevel
  asks : OMap Int PriceLevel
  orders : OMap String Ref
  stopOrders : OMap String StopOrder
  stopOrderIDs : List String
  trades : List Trade
  lastTradePriceTicks : Option Int
  /-- An `int64`; no book gets to `2 ^ 63` events. -/
  sequence : Int
  /-- The readings of the clock to come. -/
  now : Clock
  order : Ref → Order
  /-- The orders allocated so far are those below `next`. -/
  next : Ref

abbrev Program := Exc GoError Book

/-- `unicode.IsSpace`. -/
def isSpace (c : Char) : Bool :=
  c.toNat ∈ [9, 10, 11, 12, 13, 32, 0x85, 0xA0, 0x1680, 0x2028, 0x2029, 0x202F, 0x205F, 0x3000] ||
    0x2000 ≤ c.toNat && c.toNat ≤ 0x200A

/-- `strings.TrimSpace(s) == ""`. -/
def isBlank (s : String) : Bool := s.toList.all isSpace

namespace Book

/-- The book of `NewBookWithClock`, for a valid symbol. -/
def empty (symbol : String) (now : Clock) : Book where
  symbol := symbol
  bids := .empty
  asks := .empty
  orders := .empty
  stopOrders := .empty
  stopOrderIDs := []
  trades := []
  lastTradePriceTicks := none
  sequence := 0
  now := now
  order := fun _ => ⟨"", "", "", .buy, .limit, none, 0, 0, .opened, ⟨0, false⟩⟩
  next := 0

def side (b : Book) : Side → OMap Int PriceLevel
  | .buy => b.bids
  | .sell => b.asks

def setSide (b : Book) : Side → OMap Int PriceLevel → Book
  | .buy, m => { b with bids := m }
  | .sell, m => { b with asks := m }

def modifyOrder (b : Book) (r : Ref) (f : Order → Order) : Book :=
  { b with order := Function.update b.order r (f (b.order r)) }

/-- `bestPrice` of a side. -/
def bestPrice (b : Book) : Side → Option Int
  | .buy => b.bids.keys.max?
  | .sell => b.asks.keys.min?

/-- `bestOpposite`. -/
def bestOpposite (b : Book) (incomingSide : Side) : Option Int := b.bestPrice incomingSide.opposite

def sideSnapshot (b : Book) (s : Side) : List PriceLevelSnapshot :=
  ((b.side s).values.map fun l => l.snapshot b.order).insertionSort fun v w =>
    s.rank v.priceTicks ≤ s.rank w.priceTicks

def stopSnapshots (b : Book) : List StopOrder := b.stopOrderIDs.filterMap b.stopOrders.get?

def snapshot (b : Book) : BookSnapshot where
  symbol := b.symbol
  sequence := b.sequence
  bestBidPriceTicks := b.bestPrice .buy
  bestAskPriceTicks := b.bestPrice .sell
  lastTradePriceTicks := b.lastTradePriceTicks
  stopOrders := b.stopSnapshots
  bids := b.sideSnapshot .buy
  asks := b.sideSnapshot .sell

def recoverySide (b : Book) (s : Side) : List RecoveryPriceLevel :=
  ((b.side s).values.map fun l => l.recovery b.order).insertionSort fun v w =>
    s.rank v.priceTicks ≤ s.rank w.priceTicks

def recoverySnapshot (b : Book) (lastCommandStreamId : Option String) : RecoverySnapshot where
  symbol := b.symbol
  sequence := b.sequence
  lastTradePriceTicks := b.lastTradePriceTicks
  lastCommandStreamId := lastCommandStreamId
  bids := b.recoverySide .buy
  asks := b.recoverySide .sell
  stopOrders := b.stopSnapshots

/-- `deleteStop`. -/
def deleteStop (b : Book) (orderId : String) : Book :=
  { b with stopOrders := b.stopOrders.delete orderId, stopOrderIDs := b.stopOrderIDs.erase orderId }

end Book

open Book

/-! ## Small programs -/

/-- `b.now()`. -/
def now : Program Int := do
  let b ← get
  modify fun b => { b with now := b.now.tail }
  return b.now 0

def stamp (events : List EventBody) : Program (List Event) := do
  let b ← get
  modify fun b => { b with sequence := b.sequence + events.length }
  return stampFrom b.symbol b.sequence events

/-- `bookUpdatedEvent(b.Snapshot(), b.now())`. -/
def bookUpdatedEvent : Program EventBody := do
  let b ← get
  let ms ← now
  return .bookUpdated none b.snapshot ms

def assertAvailable (orderId : String) : Program Unit := do
  let b ← get
  if b.orders.has orderId = true ∨ b.stopOrders.has orderId = true then
    throw (.error ("order already exists: " ++ orderId))
  else return ()

/-- `newOrder`; the pointer to the new order. -/
def allocate (symbol : String) (type : OrderType) (input : OrderInput) (clock : Bool) : Program Ref := do
  let o ← lift (newOrder symbol type input clock)
  let b ← get
  modify fun b => { b with order := Function.update b.order b.next o, next := b.next + 1 }
  return b.next

/-! ## Matching -/

/-- A side with a changed level, which leaves it if it is empty. -/
def putLevel (side : OMap Int PriceLevel) (price : Int) (level : PriceLevel) : OMap Int PriceLevel :=
  if level.orders = [] then side.delete price else side.set price level

/-- One iteration of the loop of `match`, at the best opposite price. -/
def matchBest (incoming : Ref) (price : Int) : Program Trade := do
  let b ← get
  let s := (b.order incoming).side
  match (b.side s.opposite).get? price with
  | none => throw .panic
  | some level =>
    match level.orders with
    | [] => throw .panic
    | resting :: _ => do
      let quantity := min (b.order incoming).remainingQuantity (b.order resting).remainingQuantity
      modify fun b => b.modifyOrder incoming (discard (fill quantity))
      modify fun b => b.modifyOrder resting (discard (fill quantity))
      let level := { level with totalQuantity := wrap64 (level.totalQuantity - quantity) }
      let b ← get
      let priceTicks ← lift (deref (b.order resting).priceTicks)
      let trade := {
        symbol := b.symbol, priceTicks, quantity, aggressorSide := s
        timestamp := (b.order incoming).timestamp
        buyOrderId := if s = .buy then (b.order incoming).orderId else (b.order resting).orderId
        sellOrderId := if s = .buy then (b.order resting).orderId else (b.order incoming).orderId }
      modify fun b => { b with trades := b.trades ++ [trade] }
      let filled := (b.order resting).isFilled
      modify fun b =>
        if filled then { b with orders := b.orders.delete (b.order resting).orderId } else b
      let level := if filled then level.remove b.order resting else level
      modify fun b => b.setSide s.opposite (putLevel (b.side s.opposite) price level)
      return trade

/-- The price is beyond the limit of the incoming order. -/
def beyondLimit (incoming : Order) (ignorePrice : Bool) (price : Int) : Except GoError Bool :=
  if ignorePrice then .ok false
  else do
    let limit ← deref incoming.priceTicks
    return !incoming.side.accepts limit price

/-- The loop of `match`. Each iteration but the last takes an order out of its level, so the number
of orders bounds the iterations. -/
def matchLoop (incoming : Ref) (ignorePrice : Bool) : Nat → Program (List Trade)
  | 0 => throw .outOfFuel
  | fuel + 1 => do
    let b ← get
    if (b.order incoming).remainingQuantity ≤ 0 then return []
    else match b.bestOpposite (b.order incoming).side with
      | none => return []
      | some price => do
        let beyond ← lift (beyondLimit (b.order incoming) ignorePrice price)
        if beyond then return []
        else do
          let trade ← matchBest incoming price
          let trades ← matchLoop incoming ignorePrice fuel
          return trade :: trades

/-- `match`. -/
def matchOrder (incoming : Ref) (ignorePrice : Bool) : Program (List Trade) := do
  let b ← get
  matchLoop incoming ignorePrice (b.next + 1)

def addResting (r : Ref) : Program Unit := do
  let b ← get
  let price ← lift (deref (b.order r).priceTicks)
  let side := b.side (b.order r).side
  let level := (side.get? price).getD ⟨price, 0, []⟩
  modify fun b => b.setSide (b.order r).side (side.set price (level.append b.order r))

/-- The remainder of a limit order comes to rest, under its id. -/
def restIfActive (r : Ref) : Program Unit := do
  let b ← get
  if (b.order r).isActive = true ∧ 0 < (b.order r).remainingQuantity then do
    addResting r
    modify fun b => { b with orders := b.orders.set (b.order r).orderId r }
  else return ()

/-- The remainder of a market order is cancelled. -/
def cancelRemainder (r : Ref) : Program Unit := do
  let b ← get
  if 0 < (b.order r).remainingQuantity ∧ (b.order r).isActive = true then
    modify fun b => b.modifyOrder r (discard cancel)
  else return ()

/-- What becomes of the remainder of a matched order, by its type. -/
def settle (typ : OrderType) (r : Ref) : Program Unit :=
  if typ = .limit then restIfActive r else cancelRemainder r

/-! ## Stop orders -/

/-- `updateTrailingStops`, for one pending order. -/
def trailStop (last : Int) (o : StopOrder) : Except GoError StopOrder := do
  if o.type ≠ .trailingStopMarket then return o
  else if o.side = .sell ∧ o.peakPriceTicks.all (· < last) = true then do
    let amount ← deref o.trailingAmountTicks
    return { o with peakPriceTicks := some last, triggerPriceTicks := wrap64 (last - amount) }
  else if o.side = .buy ∧ o.valleyPriceTicks.all (last < ·) = true then do
    let amount ← deref o.trailingAmountTicks
    return { o with valleyPriceTicks := some last, triggerPriceTicks := wrap64 (last + amount) }
  else return o

def trailStops (last : Int) : List String → Program Unit
  | [] => return ()
  | id :: ids => do
    let b ← get
    match b.stopOrders.get? id with
    | none => trailStops last ids
    | some o => do
      let o ← lift (trailStop last o)
      modify fun b => { b with stopOrders := b.stopOrders.set id o }
      trailStops last ids

def updateTrailingStops : Program Unit := do
  let b ← get
  match b.lastTradePriceTicks with
  | none => return ()
  | some last => trailStops last b.stopOrderIDs

def isEligible (last : Int) (o : StopOrder) : Bool :=
  match o.side with
  | .buy => o.triggerPriceTicks ≤ last
  | .sell => last ≤ o.triggerPriceTicks

def eligibleStops (b : Book) : List StopOrder :=
  match b.lastTradePriceTicks with
  | none => []
  | some last => (b.stopOrderIDs.filterMap b.stopOrders.get?).filter (isEligible last)

/-- The type of the order that a triggered stop order becomes. -/
def executedType (stop : StopOrder) : OrderType := if stop.type = .stopLimit then .limit else .market

/-- The input of the order that a triggered stop order becomes. -/
def executedInput (stop : StopOrder) (ms : Int) : OrderInput where
  orderId := stop.orderId
  userId := stop.userId
  side := sideText stop.side
  priceTicks := stop.priceTicks
  triggerPriceTicks := none
  trailingAmountTicks := none
  quantity := stop.remainingQuantity
  timestamp := ms

def executeStop (stop : StopOrder) : Program (Ref × List Trade) := do
  let b ← get
  let ms ← now
  let r ← allocate b.symbol (executedType stop) (executedInput stop ms) true
  let trades ← matchOrder r (executedType stop = .market)
  settle (executedType stop) r
  return (r, trades)

/-- The events of one triggered stop order. -/
def triggeredEvents (stop : StopOrder) (o : Order) (trades : List Trade) : List EventBody :=
  [.stopTriggered stop] ++ trades.map .trade ++ [orderFillEvent o] ++
    if o.status = .opened ∧ 0 < o.remainingQuantity then [orderRestedEvent o] else []

/-- The stop orders that one round of trades triggered, in turn. -/
def triggerAll : List StopOrder → Program StopResult
  | [] => return .empty
  | stop :: stops => do
    modify fun b => b.deleteStop stop.orderId
    let stop := { stop with status := .triggered }
    let (r, trades) ← executeStop stop
    let b ← get
    let rest ← triggerAll stops
    return StopResult.append ⟨trades, [stop], triggeredEvents stop (b.order r) trades⟩ rest

def maxCycles : Nat := 1000

/-- The loop of `processStops`, with the cycles that are left. -/
def cascade : Nat → List Trade → Program StopResult
  | cycles, latest =>
    match latest.getLast? with
    | none => return .empty
    | some trade =>
      match cycles with
      | 0 => throw (.error "stop order trigger cycle limit exceeded")
      | cycles + 1 => do
        modify fun b => { b with lastTradePriceTicks := some trade.priceTicks }
        updateTrailingStops
        let b ← get
        if eligibleStops b = [] then return .empty
        else do
          let round ← triggerAll (eligibleStops b)
          let rest ← cascade cycles round.trades
          return round.append rest

def processStops (initial : List Trade) : Program StopResult := cascade maxCycles initial

/-! ## The public functions -/

def placeLimit (input : OrderInput) : Program Result := do
  assertAvailable input.orderId
  let b ← get
  let r ← allocate b.symbol .limit input false
  let trades ← matchOrder r false
  let b ← get
  let incoming := b.order r
  restIfActive r
  let triggered ← processStops trades
  let updated ← bookUpdatedEvent
  let events ← stamp ([orderAcceptedEvent incoming] ++ trades.map .trade ++
    [orderFillEvent incoming] ++
    (if incoming.isActive = true ∧ 0 < incoming.remainingQuantity then
      [orderRestedEvent incoming] else []) ++ [updated] ++ triggered.events)
  let b ← get
  return ⟨.order (b.order r), trades ++ triggered.trades, triggered.triggeredOrders, events⟩

def placeMarket (input : OrderInput) : Program Result := do
  assertAvailable input.orderId
  let b ← get
  let r ← allocate b.symbol .market input false
  let trades ← matchOrder r true
  cancelRemainder r
  let b ← get
  let incoming := b.order r
  let triggered ← processStops trades
  let updated ← bookUpdatedEvent
  let events ← stamp ([orderAcceptedEvent incoming] ++ trades.map .trade ++
    [orderFillEvent incoming] ++ triggered.events ++ [updated])
  let b ← get
  return ⟨.order (b.order r), trades ++ triggered.trades, triggered.triggeredOrders, events⟩

/-- What `placeStopWithExtrema` checks after the availability of the id, and the order it builds. -/
def newStop (symbol : String) (type : OrderType) (input : OrderInput) (peak valley : Option Int) :
    Except GoError StopOrder :=
  if input.orderId = "" then .error (.error "orderId must be a non-empty string")
  else if input.userId = "" then .error (.error "userId must be a non-empty string")
  else match sideOf input.side with
    | none => .error (.error ("invalid order side: " ++ input.side))
    | some side =>
      match input.triggerPriceTicks with
      | none => .error (.error "triggerPriceTicks must be a positive integer")
      | some triggerPriceTicks =>
        if input.quantity ≤ 0 then .error (.error "quantity must be a positive integer")
        else if type = .stopLimit ∧ input.priceTicks.all (· ≤ 0) = true then
          .error (.error "priceTicks must be a positive integer")
        else .ok { input with
          symbol, side, type, triggerPriceTicks
          peakPriceTicks := peak, valleyPriceTicks := valley
          remainingQuantity := input.quantity, status := .opened }

def placeStopWithExtrema (input : OrderInput) (type : OrderType) (peak valley : Option Int) :
    Program Result := do
  assertAvailable input.orderId
  let b ← get
  let stop ← lift (newStop b.symbol type input peak valley)
  modify fun b => { b with
    stopOrders := b.stopOrders.set stop.orderId stop
    stopOrderIDs := b.stopOrderIDs ++ [stop.orderId] }
  let updated ← bookUpdatedEvent
  let events ← stamp [.stopAccepted stop, updated]
  return ⟨.stop stop, [], [], events⟩

def placeStop (input : OrderInput) (type : OrderType) : Program Result :=
  placeStopWithExtrema input type none none

def placeStopMarket (input : OrderInput) : Program Result := placeStop input .stopMarket

def placeStopLimit (input : OrderInput) : Program Result := placeStop input .stopLimit

/-- What `PlaceTrailingStopMarket` checks, and the input with its trigger price and the extrema. -/
def newTrailing (last : Option Int) (input : OrderInput) :
    Except GoError (OrderInput × Option Int × Option Int) :=
  match last with
  | none => .error (.error "cannot place trailing stop before first trade")
  | some last =>
    match input.trailingAmountTicks with
    | none => .error (.error "trailingAmountTicks must be a positive integer")
    | some amount =>
      if amount ≤ 0 then .error (.error "trailingAmountTicks must be a positive integer")
      else match sideOf input.side with
        | none => .error (.error ("invalid order side: " ++ input.side))
        | some .sell =>
          .ok ({ input with triggerPriceTicks := some (wrap64 (last - amount)) }, some last, none)
        | some .buy =>
          .ok ({ input with triggerPriceTicks := some (wrap64 (last + amount)) }, none, some last)

def placeTrailingStopMarket (input : OrderInput) : Program Result := do
  let b ← get
  let (input, peak, valley) ← lift (newTrailing b.lastTradePriceTicks input)
  placeStopWithExtrema input .trailingStopMarket peak valley

/-- `Cancel` of a pending stop order: its events get no sequence number. -/
def cancelStop (orderId : String) (stop : StopOrder) : Program Result := do
  let stop := { stop with status := .cancelled }
  modify fun b => b.deleteStop orderId
  let updated ← bookUpdatedEvent
  return ⟨.stop stop, [], [], [⟨stopCancelledEvent stop, none⟩, ⟨updated, none⟩]⟩

/-- `Cancel` of a resting order. -/
def cancelResting (orderId : String) (r : Ref) : Program Result := do
  let b ← get
  let o := b.order r
  if o.isActive = false then throw (alreadyDone o)
  else do
    let price ← lift (deref o.priceTicks)
    match (b.side o.side).get? price with
    | none => throw .panic
    | some level => do
      let level := level.remove b.order r
      modify fun b => b.modifyOrder r (discard cancel)
      modify fun b => { b with orders := b.orders.delete orderId }
      modify fun b => b.setSide o.side (putLevel (b.side o.side) price level)
      let b ← get
      let updated ← bookUpdatedEvent
      let events ← stamp [orderCancelledEvent (b.order r), updated]
      return ⟨.order (b.order r), [], [], events⟩

/-- `Cancel`. -/
def cancelOrder (orderId : String) : Program Result := do
  let b ← get
  match b.stopOrders.get? orderId with
  | some stop => cancelStop orderId stop
  | none =>
    match b.orders.get? orderId with
    | none => throw (.error ("order not found: " ++ orderId))
    | some r => cancelResting orderId r

/-! ## `recovery.go` -/

/-- One order of `restoreLevel`: the book and the level with it. -/
def restoreOrder (acc : Book × PriceLevel) (o : Order) : Book × PriceLevel :=
  if o.remainingQuantity ≤ 0 then acc
  else
    let b := { acc.1 with
      order := Function.update acc.1.order acc.1.next o, next := acc.1.next + 1
      orders := acc.1.orders.set o.orderId acc.1.next }
    (b, acc.2.append b.order acc.1.next)

def restoreLevel (s : Side) (b : Book) (snapshot : RecoveryPriceLevel) : Book :=
  let (b, level) := snapshot.orders.foldl restoreOrder (b, ⟨snapshot.priceTicks, 0, []⟩)
  if level.orders = [] then b else b.setSide s ((b.side s).set level.priceTicks level)

def restoreStop (b : Book) (stop : StopOrder) : Book :=
  { b with
    stopOrders := b.stopOrders.set stop.orderId stop
    stopOrderIDs := b.stopOrderIDs ++ [stop.orderId] }

def fromRecoverySnapshot (snapshot : RecoverySnapshot) (now : Clock) : Except GoError Book :=
  if isBlank snapshot.symbol then .error (.error "symbol must be a non-empty string")
  else
    let b := { empty snapshot.symbol now with
      sequence := snapshot.sequence, lastTradePriceTicks := snapshot.lastTradePriceTicks }
    let b := snapshot.bids.foldl (restoreLevel .buy) b
    let b := snapshot.asks.foldl (restoreLevel .sell) b
    .ok (snapshot.stopOrders.foldl restoreStop b)

/-! ## Calls -/

/-- A call of a public function that changes the book. -/
inductive Call where
  | placeLimit (input : OrderInput)
  | placeMarket (input : OrderInput)
  | placeStopMarket (input : OrderInput)
  | placeStopLimit (input : OrderInput)
  | placeTrailingStopMarket (input : OrderInput)
  | cancel (orderId : String)
  deriving DecidableEq

def Call.program : Call → Program Result
  | .placeLimit input => Go.placeLimit input
  | .placeMarket input => Go.placeMarket input
  | .placeStopMarket input => Go.placeStopMarket input
  | .placeStopLimit input => Go.placeStopLimit input
  | .placeTrailingStopMarket input => Go.placeTrailingStopMarket input
  | .cancel orderId => Go.cancelOrder orderId

/-- The outcome of a call and the book after it. -/
def call (b : Book) (c : Call) : Except GoError Result × Book := c.program.run b

end Lob.Go
