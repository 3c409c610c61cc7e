import LobEngine.Types
import LobEngine.Lib.OMap

/-!
# The data of the Go engine

`types.go` and `events.go`: the inputs, the records that the engine hands out, and its events. An
`int64` is an `Int`; `wrap64` is applied where an addition can leave the range.

* `StopOrder`: a pending stop order, and its snapshot, which has the same fields.
* `stampFrom`: the sequence numbers of a list of events.
-/

namespace Lob.Go

/-- The `int64` that an addition or a subtraction yields. -/
def wrap64 (n : Int) : Int := n.bmod (2 ^ 64)

@[simp] theorem wrap64_add (m n : Int) : wrap64 (wrap64 m + n) = wrap64 (m + n) :=
  Int.bmod_add_bmod

@[simp] theorem wrap64_sub (m n : Int) : wrap64 (wrap64 m - n) = wrap64 (m - n) :=
  Int.bmod_sub_bmod

/-- The result is exact. -/
theorem wrap64_eq_iff {n : Int} : wrap64 n = n ↔ -2 ^ 63 ≤ n ∧ n < 2 ^ 63 := by
  unfold wrap64
  constructor
  · intro h
    have h₁ := @Int.le_bmod n (2 ^ 64) (by decide)
    have h₂ := @Int.bmod_lt n (2 ^ 64) (by decide)
    rw [h] at h₁ h₂
    omega
  · rintro ⟨h₁, h₂⟩
    exact Int.bmod_eq_of_le_mul_two (by omega) (by omega)

inductive GoError where
  /-- `fmt.Errorf(...)`. -/
  | error (message : String)
  /-- A nil pointer is followed, or an index is out of range. -/
  | panic
  /-- Not in the source: the bound on the iterations of a loop was reached. -/
  | outOfFuel
  deriving DecidableEq

/-! ## `types.go` -/

def sideText : Side → String
  | .buy => "BUY"
  | .sell => "SELL"

def statusText : OrderStatus → String
  | .opened => "OPEN"
  | .partiallyFilled => "PARTIALLY_FILLED"
  | .filled => "FILLED"
  | .cancelled => "CANCELLED"
  | .triggered => "TRIGGERED"

/-- The side of a string that is `Buy` or `Sell`. -/
def sideOf (text : String) : Option Side :=
  if text = sideText .buy then some .buy else if text = sideText .sell then some .sell else none

structure OrderInput where
  orderId : String
  userId : String
  side : String
  priceTicks : Option Int
  triggerPriceTicks : Option Int
  trailingAmountTicks : Option Int
  quantity : Int
  timestamp : Int
  deriving DecidableEq

structure StopOrder where
  orderId : String
  userId : String
  symbol : String
  side : Side
  type : OrderType
  triggerPriceTicks : Int
  priceTicks : Option Int
  trailingAmountTicks : Option Int
  peakPriceTicks : Option Int
  valleyPriceTicks : Option Int
  quantity : Int
  remainingQuantity : Int
  status : OrderStatus
  timestamp : Int
  deriving DecidableEq

structure PriceLevelSnapshot where
  priceTicks : Int
  totalQuantity : Int
  orderCount : Nat
  headOrderId : Option String
  tailOrderId : Option String
  deriving DecidableEq

structure BookSnapshot where
  symbol : String
  sequence : Int
  bestBidPriceTicks : Option Int
  bestAskPriceTicks : Option Int
  lastTradePriceTicks : Option Int
  stopOrders : List StopOrder
  bids : List PriceLevelSnapshot
  asks : List PriceLevelSnapshot
  deriving DecidableEq

structure RecoveryPriceLevel where
  priceTicks : Int
  totalQuantity : Int
  orderCount : Nat
  orders : List Order
  deriving DecidableEq

structure RecoverySnapshot where
  symbol : String
  sequence : Int
  lastTradePriceTicks : Option Int
  lastCommandStreamId : Option String
  bids : List RecoveryPriceLevel
  asks : List RecoveryPriceLevel
  stopOrders : List StopOrder
  deriving DecidableEq

/-! ## `events.go` -/

inductive OrderEventType where
  | orderAccepted
  | orderRested
  | orderCancelled
  | orderFilled
  | orderPartiallyFilled
  deriving DecidableEq

/-- An event about an order; `none` in `quantity` and `status` is a key that is absent. -/
structure OrderEvent where
  type : OrderEventType
  symbol : String
  orderId : String
  userId : String
  side : Side
  orderType : OrderType
  priceTicks : Option Int
  quantity : Option Int
  remainingQuantity : Int
  status : Option OrderStatus
  timestamp : Stamp
  deriving DecidableEq

inductive EventBody where
  | order (e : OrderEvent)
  | trade (t : Trade)
  | stopAccepted (s : StopOrder)
  | stopTriggered (s : StopOrder)
  | bookUpdated (symbol : Option String) (snapshot : BookSnapshot) (timestamp : Int)
  deriving DecidableEq

structure Event where
  body : EventBody
  sequence : Option Int
  deriving DecidableEq

def orderAcceptedEvent (o : Order) : EventBody :=
  .order { o with
    type := .orderAccepted, orderType := o.type, quantity := some o.initialQuantity, status := none }

def orderRestedEvent (o : Order) : EventBody :=
  .order { o with type := .orderRested, orderType := o.type, quantity := none, status := none }

def orderCancelledEvent (o : Order) : EventBody :=
  .order { o with
    type := .orderCancelled, orderType := o.type, quantity := none, status := some o.status }

/-- `orderCancelledEvent` of the snapshot of a stop order. -/
def stopCancelledEvent (s : StopOrder) : EventBody :=
  .order { s with
    type := .orderCancelled, orderType := s.type, quantity := none, status := some s.status
    timestamp := ⟨s.timestamp, false⟩ }

def orderFillEvent (o : Order) : EventBody :=
  .order { o with
    type := if o.remainingQuantity = 0 then .orderFilled else .orderPartiallyFilled
    orderType := o.type, quantity := some o.initialQuantity, status := some o.status }

/-- The symbol of an event, if it has one. -/
def EventBody.symbol : EventBody → Option String
  | .order e => some e.symbol
  | .trade t => some t.symbol
  | .stopAccepted s | .stopTriggered s => some s.symbol
  | .bookUpdated symbol _ _ => symbol

/-- One event of `stamp`: the event of the book has its number in its snapshot too. -/
def stampEvent (symbol : String) (sequence : Int) : EventBody → Event
  | .bookUpdated s snapshot ts =>
    ⟨.bookUpdated (some (s.getD symbol)) { snapshot with sequence } ts, some sequence⟩
  | e => ⟨e, some sequence⟩

/-- The events numbered from `sequence + 1` on. -/
def stampFrom (symbol : String) : Int → List EventBody → List Event
  | _, [] => []
  | sequence, e :: es => stampEvent symbol (sequence + 1) e :: stampFrom symbol (sequence + 1) es

/-! ## Results -/

/-- The order of a result. -/
inductive Placed where
  | order (o : Order)
  | stop (s : StopOrder)
  deriving DecidableEq

structure Result where
  order : Placed
  trades : List Trade
  triggeredOrders : List StopOrder
  events : List Event
  deriving DecidableEq

/-- `stopResult`: what the stop orders triggered by some trades did. -/
structure StopResult where
  trades : List Trade
  triggeredOrders : List StopOrder
  events : List EventBody

def StopResult.empty : StopResult := ⟨[], [], []⟩

def StopResult.append (t u : StopResult) : StopResult :=
  ⟨t.trades ++ u.trades, t.triggeredOrders ++ u.triggeredOrders, t.events ++ u.events⟩

end Lob.Go
