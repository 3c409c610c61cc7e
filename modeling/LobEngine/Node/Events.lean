import LobEngine.Node.PriceLevel

/-!
# Snapshots and events

The records that the reference engine hands out: the pending stop orders and their snapshots, the
snapshot of a book, the events of `DomainEvent.js`, the result of a call.

* `stampFrom`: the sequence numbers of a list of events.
-/

namespace Lob.Node

/-- A pending stop order. Nothing checks the values of its fields before it triggers, except those
of a trailing stop that the engine computes. `none` in the last three is `null`, or absent. -/
structure StopOrder where
  orderId : JsVal
  userId : JsVal
  symbol : String
  side : JsVal
  type : OrderType
  triggerPriceTicks : JsVal
  priceTicks : JsVal
  quantity : JsVal
  remainingQuantity : JsVal
  status : OrderStatus
  timestamp : JsVal
  trailingAmountTicks : Option Int
  peakPriceTicks : Option Int
  valleyPriceTicks : Option Int
  deriving DecidableEq

/-- `PriceLevel.snapshot()`. -/
structure LevelSnapshot where
  priceTicks : Int
  totalQuantity : Num
  orderCount : Int
  headOrderId : Option String
  tailOrderId : Option String
  deriving DecidableEq

/-- `OrderBook.snapshot()`. -/
structure BookSnapshot where
  symbol : String
  sequence : Int
  bestBidPriceTicks : Option Int
  bestAskPriceTicks : Option Int
  lastTradePriceTicks : Option Int
  stopOrders : List StopOrder
  bids : List LevelSnapshot
  asks : List LevelSnapshot
  deriving DecidableEq

/-- A level of `toRecoverySnapshot()`. -/
structure RecoveryLevel where
  priceTicks : Int
  totalQuantity : Num
  orderCount : Int
  orders : List Order
  deriving DecidableEq

/-- `OrderBook.toRecoverySnapshot()`. -/
structure RecoverySnapshot where
  symbol : String
  sequence : Int
  lastTradePriceTicks : Option Int
  lastCommandStreamId : Option String
  bids : List RecoveryLevel
  asks : List RecoveryLevel
  stopOrders : List StopOrder
  deriving DecidableEq

/-! ## `DomainEvent.js` -/

inductive OrderEventType where
  | orderAccepted
  | orderRested
  | orderCancelled
  | orderFilled
  | orderPartiallyFilled
  deriving DecidableEq

/-- An event about an order; `none` is a field that is absent or `undefined`. -/
structure OrderEvent where
  type : OrderEventType
  symbol : String
  orderId : String
  userId : String
  side : Side
  orderType : OrderType
  priceTicks : Option Int
  quantity : Option Int
  remainingQuantity : Int
  status : Option OrderStatus
  timestamp : Stamp
  deriving DecidableEq

structure StopCancelledEvent where
  symbol : String
  orderId : JsVal
  userId : JsVal
  side : JsVal
  orderType : OrderType
  priceTicks : JsVal
  remainingQuantity : JsVal
  status : OrderStatus
  timestamp : JsVal
  deriving DecidableEq

inductive EventBody where
  | order (e : OrderEvent)
  | trade (t : Trade)
  | stopAccepted (s : StopOrder)
  | stopTriggered (s : StopOrder)
  | stopCancelled (e : StopCancelledEvent)
  | bookUpdated (symbol : Option String) (snapshot : BookSnapshot) (timestamp : Int)
  deriving DecidableEq

structure Event where
  body : EventBody
  sequence : Option Int
  deriving DecidableEq

/-- The fields that the events about an order share. `quantity` is read from a field that the
snapshot of an order does not have. -/
def orderEvent (type : OrderEventType) (status : Option OrderStatus) (order : Order) : EventBody :=
  .order { order with type, status, quantity := none, orderType := order.type }

def createOrderAcceptedEvent : Order → EventBody := orderEvent .orderAccepted none

def createOrderRestedEvent : Order → EventBody := orderEvent .orderRested none

def createOrderCancelledEvent (order : Order) : EventBody :=
  orderEvent .orderCancelled (some order.status) order

def createOrderFillEvent (order : Order) : EventBody :=
  orderEvent (if order.remainingQuantity = 0 then .orderFilled else .orderPartiallyFilled)
    (some order.status) order

/-- `createOrderCancelledEvent` of the snapshot of a stop order. -/
def createStopCancelledEvent (s : StopOrder) : EventBody :=
  .stopCancelled { s with orderType := s.type }

def createTradeCreatedEvents (trades : List Trade) : List EventBody := trades.map .trade

/-- One event with its sequence number; the event of the book has the number in its snapshot too. -/
def stamp (symbol : String) (sequence : Int) : EventBody → Event
  | .bookUpdated s snapshot ts =>
    ⟨.bookUpdated (some (s.getD symbol)) { snapshot with sequence } ts, some sequence⟩
  | e => ⟨e, some sequence⟩

/-- The events numbered from `sequence + 1` on. -/
def stampFrom (symbol : String) : Int → List EventBody → List Event
  | _, [] => []
  | sequence, e :: es => stamp symbol (sequence + 1) e :: stampFrom symbol (sequence + 1) es

/-! ## Calls and their results -/

/-- The object a place method is called with. -/
structure Payload where
  orderId : JsVal
  userId : JsVal
  side : JsVal
  priceTicks : JsVal
  triggerPriceTicks : JsVal
  trailingAmountTicks : JsVal
  quantity : JsVal
  timestamp : JsVal
  deriving DecidableEq

/-- The order of a result. -/
inductive Placed where
  | order (o : Order)
  | stop (s : StopOrder)
  deriving DecidableEq

/-- What a call returns; the result of a cancel has no `trades` and no `triggeredOrders`. -/
structure Result where
  order : Placed
  trades : Option (List Trade)
  triggeredOrders : Option (List StopOrder)
  events : List Event
  deriving DecidableEq

/-- What the stop orders triggered by some trades did. -/
structure Triggered where
  trades : List Trade
  orders : List StopOrder
  events : List EventBody

def Triggered.none : Triggered := ⟨[], [], []⟩

def Triggered.append (t u : Triggered) : Triggered :=
  ⟨t.trades ++ u.trades, t.orders ++ u.orders, t.events ++ u.events⟩

end Lob.Node
