import LobEngine.Go.Reachable
import LobEngine.Node.Conservation

/-!
# The data of the two engines

The commands that both engines take, and what the records of the Go engine are in JavaScript: a string
and an `int64` are the same there, and a nil pointer is `null`.

* `Command`: a command of one of the six types with the fields of its type.
* `StopOrder.js`, `BookSnapshot.js`, `RecoverySnapshot.js`: the records.
-/

namespace Lob

/-- An integer or a nil pointer as a JavaScript value. -/
def jsNumber : Option Int → Node.JsVal
  | some n => .num (.int n)
  | none => .null

theorem str_injective : Function.Injective Node.JsVal.str := fun _ _ => Node.JsVal.str.inj

/-! ## Commands -/

/-- What all commands that place an order have. -/
structure Placement where
  orderId : String
  userId : String
  side : Side
  quantity : Int
  timestamp : Int

inductive Command where
  | limit (p : Placement) (priceTicks : Int)
  | market (p : Placement)
  | stopMarket (p : Placement) (triggerPriceTicks : Int)
  | stopLimit (p : Placement) (triggerPriceTicks priceTicks : Int)
  | trailingStopMarket (p : Placement) (trailingAmountTicks : Int)
  | cancel (orderId : String)

/-- The payload of a placement, without the fields that depend on its type. -/
def Placement.payload (p : Placement) : Node.Payload where
  orderId := .str p.orderId
  userId := .str p.userId
  side := .str (Node.sideText p.side)
  priceTicks := .undefined
  triggerPriceTicks := .undefined
  trailingAmountTicks := .undefined
  quantity := .num (.int p.quantity)
  timestamp := .num (.int p.timestamp)

def Placement.input (p : Placement) : Go.OrderInput where
  orderId := p.orderId
  userId := p.userId
  side := Go.sideText p.side
  priceTicks := none
  triggerPriceTicks := none
  trailingAmountTicks := none
  quantity := p.quantity
  timestamp := p.timestamp

namespace Command

/-- The call of the reference engine. -/
def node : Command → Node.Call
  | .limit p price => .placeLimitOrder (some { p.payload with priceTicks := .num (.int price) })
  | .market p => .placeMarketOrder (some p.payload)
  | .stopMarket p trigger =>
    .placeStopMarketOrder (some { p.payload with triggerPriceTicks := .num (.int trigger) })
  | .stopLimit p trigger price => .placeStopLimitOrder
      (some { p.payload with triggerPriceTicks := .num (.int trigger), priceTicks := .num (.int price) })
  | .trailingStopMarket p amount =>
    .placeTrailingStopMarketOrder (some { p.payload with trailingAmountTicks := .num (.int amount) })
  | .cancel orderId => .cancelOrder (.str orderId)

/-- The call of the Go engine. -/
def go : Command → Go.Call
  | .limit p price => .placeLimit { p.input with priceTicks := some price }
  | .market p => .placeMarket p.input
  | .stopMarket p trigger => .placeStopMarket { p.input with triggerPriceTicks := some trigger }
  | .stopLimit p trigger price =>
    .placeStopLimit { p.input with triggerPriceTicks := some trigger, priceTicks := some price }
  | .trailingStopMarket p amount =>
    .placeTrailingStopMarket { p.input with trailingAmountTicks := some amount }
  | .cancel orderId => .cancel orderId

/-- The limit price. -/
def price : Command → Option Int
  | .limit _ price | .stopLimit _ _ price => some price
  | _ => none

def amount : Command → Option Int
  | .trailingStopMarket _ amount => some amount
  | _ => none

def placement : Command → Option Placement
  | .limit p _ | .market p | .stopMarket p _ | .stopLimit p _ _ | .trailingStopMarket p _ => some p
  | .cancel _ => none

end Command

structure Placement.WellFormed (p : Placement) : Prop where
  orderId : Node.isBlank p.orderId = false
  userId : Node.isBlank p.userId = false
  quantity : 0 < p.quantity
  timestamp : 0 ≤ p.timestamp

/-- The payload is well formed. -/
structure Command.WellFormed (c : Command) : Prop where
  placement : ∀ p, c.placement = some p → p.WellFormed
  price : ∀ n, c.price = some n → 0 < n

/-! ## Records -/

namespace Go

def StopOrder.js (s : StopOrder) : Node.StopOrder where
  orderId := .str s.orderId
  userId := .str s.userId
  symbol := s.symbol
  side := .str (sideText s.side)
  type := s.type
  triggerPriceTicks := .num (.int s.triggerPriceTicks)
  priceTicks := jsNumber s.priceTicks
  quantity := .num (.int s.quantity)
  remainingQuantity := .num (.int s.remainingQuantity)
  status := s.status
  timestamp := .num (.int s.timestamp)
  trailingAmountTicks := s.trailingAmountTicks
  peakPriceTicks := s.peakPriceTicks
  valleyPriceTicks := s.valleyPriceTicks

def PriceLevelSnapshot.js (l : PriceLevelSnapshot) : Node.LevelSnapshot :=
  { l with totalQuantity := .int l.totalQuantity, orderCount := l.orderCount }

def BookSnapshot.js (s : BookSnapshot) : Node.BookSnapshot :=
  { s with
    stopOrders := s.stopOrders.map StopOrder.js
    bids := s.bids.map PriceLevelSnapshot.js
    asks := s.asks.map PriceLevelSnapshot.js }

def RecoveryPriceLevel.js (l : RecoveryPriceLevel) : Node.RecoveryLevel :=
  { l with totalQuantity := .int l.totalQuantity, orderCount := l.orderCount }

def RecoverySnapshot.js (s : RecoverySnapshot) : Node.RecoverySnapshot :=
  { s with
    bids := s.bids.map RecoveryPriceLevel.js
    asks := s.asks.map RecoveryPriceLevel.js
    stopOrders := s.stopOrders.map StopOrder.js }

def Placed.js : Placed → Node.Placed
  | .order o => .order o
  | .stop s => .stop s.js

/-- The input of an order of the Go engine. -/
def OrderInput.js (i : OrderInput) (symbol : String) (type : OrderType) (clock : Bool) :
    Node.OrderInput where
  orderId := .str i.orderId
  userId := .str i.userId
  symbol := symbol
  side := .str i.side
  type := type
  priceTicks := jsNumber i.priceTicks
  quantity := .num (.int i.quantity)
  timestamp := .num (.int i.timestamp)
  clock := clock

theorem sideText_eq (s : Side) : Node.sideText s = sideText s := by cases s <;> rfl

theorem sideOf_sideText (s : Side) : sideOf (sideText s) = some s := by cases s <;> decide

/-- An `int64` addition that stays in the range of exact doubles is exact. -/
theorem wrap64_exact {n : Int} (h₀ : -Num.maxExact ≤ n) (h₁ : n ≤ Num.maxExact) : wrap64 n = n := by
  unfold Num.maxExact at h₀ h₁
  exact wrap64_eq_iff.mpr ⟨by omega, by omega⟩

end Go

end Lob
