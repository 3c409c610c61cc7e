import LobEngine.Lib.Exc
import LobEngine.Node.Value
import LobEngine.Types

/-!
# Order nodes

`OrderNode` and `validateOrderInput` of the reference engine, and the heap its objects live in. A
node is an `Order` with the links of the queue it stands in; references are heap addresses.

* `newOrder_ok`: what the constructor checks, and the order it builds.
* `fill_ok`: `fill` of a quantity the order has.
-/

namespace Lob.Node

open Exc

abbrev NodeRef := Nat
abbrev LevelRef := Nat

structure OrderNode extends Order where
  prev : Option NodeRef
  next : Option NodeRef
  priceLevel : Option LevelRef

structure PriceLevel where
  priceTicks : Int
  head : Option NodeRef
  tail : Option NodeRef
  totalQuantity : Num
  orderCount : Int

/-- The objects of the engine: the nodes and levels created so far are those with an address below
`nodes` and `levels`. -/
structure Heap where
  node : NodeRef → OrderNode
  level : LevelRef → PriceLevel
  nodes : Nat
  levels : Nat

namespace Heap

def modifyNode (h : Heap) (r : NodeRef) (f : OrderNode → OrderNode) : Heap :=
  { h with node := Function.update h.node r (f (h.node r)) }

def modifyLevel (h : Heap) (l : LevelRef) (f : PriceLevel → PriceLevel) : Heap :=
  { h with level := Function.update h.level l (f (h.level l)) }

/-- The order of a node. -/
def order (h : Heap) (r : NodeRef) : Order := (h.node r).toOrder

section
variable (h : Heap) (r x : NodeRef) (l k : LevelRef) (f : OrderNode → OrderNode)
  (g : PriceLevel → PriceLevel)
@[simp] theorem modifyNode_node_self : (h.modifyNode r f).node r = f (h.node r) := by
  simp [modifyNode]
@[simp] theorem modifyNode_level : (h.modifyNode r f).level = h.level := rfl
@[simp] theorem modifyNode_nodes : (h.modifyNode r f).nodes = h.nodes := rfl
@[simp] theorem modifyNode_levels : (h.modifyNode r f).levels = h.levels := rfl
@[simp] theorem modifyLevel_level_self : (h.modifyLevel l g).level l = g (h.level l) := by
  simp [modifyLevel]
@[simp] theorem modifyLevel_node : (h.modifyLevel l g).node = h.node := rfl
@[simp] theorem modifyLevel_nodes : (h.modifyLevel l g).nodes = h.nodes := rfl
@[simp] theorem modifyLevel_levels : (h.modifyLevel l g).levels = h.levels := rfl

theorem modifyNode_node_ne {h : Heap} {r x : NodeRef} {f : OrderNode → OrderNode} (hx : x ≠ r) :
    (h.modifyNode r f).node x = h.node x := by
  simp [modifyNode, hx]

theorem modifyLevel_level_ne {h : Heap} {l k : LevelRef} {g : PriceLevel → PriceLevel}
    (hk : k ≠ l) : (h.modifyLevel l g).level k = h.level k := by
  simp [modifyLevel, hk]

theorem modifyNode_node : (h.modifyNode r f).node x = if x = r then f (h.node r) else h.node x := by
  by_cases hx : x = r
  · subst hx; simp
  · rw [modifyNode_node_ne hx, if_neg hx]

theorem modifyLevel_level :
    (h.modifyLevel l g).level k = if k = l then g (h.level l) else h.level k := by
  by_cases hk : k = l
  · subst hk; simp
  · rw [modifyLevel_level_ne hk, if_neg hk]
end

/-- A new node that stands in no queue. -/
def newNode (h : Heap) (o : Order) : Heap :=
  { h with
    node := Function.update h.node h.nodes
      { toOrder := o, prev := none, next := none, priceLevel := none }
    nodes := h.nodes + 1 }

end Heap

/-! ## `utils/Validate.js` and the constructor -/

/-- The fields that the constructor reads. `clock` is not one of them: it says that the timestamp
is a reading of the clock. -/
structure OrderInput where
  orderId : JsVal
  userId : JsVal
  symbol : String
  side : JsVal
  type : OrderType
  priceTicks : JsVal
  quantity : JsVal
  timestamp : JsVal
  clock : Bool

def sideText : Side → String
  | .buy => "BUY"
  | .sell => "SELL"

def statusText : OrderStatus → String
  | .opened => "OPEN"
  | .partiallyFilled => "PARTIALLY_FILLED"
  | .filled => "FILLED"
  | .cancelled => "CANCELLED"
  | .triggered => "TRIGGERED"

/-- `isValidSide`, with the side it found. -/
def assertSide (v : JsVal) : Except JsError Side :=
  if v = .str (sideText .buy) then .ok .buy
  else if v = .str (sideText .sell) then .ok .sell
  else .error (.errorFor "invalid order side: " v)

def assertPrice (type : OrderType) (priceTicks : JsVal) : Except JsError (Option Int) :=
  match type with
  | .limit => (assertPositiveInteger "priceTicks" priceTicks).map some
  | .market =>
    if priceTicks = .null ∨ priceTicks = .undefined then .ok none
    else .error (.error "market order price must be null or undefined")
  -- No caller creates a node of another type; nothing checks its price.
  | _ => .ok (match priceTicks with | .num (.int p) => some p | _ => none)

/-- `validateOrderInput`, then the fields of the new node. Every `type` a caller passes is a valid
order type. -/
def newOrder (i : OrderInput) : Except JsError Order := do
  let orderId ← assertNonEmptyString "orderId" i.orderId
  let userId ← assertNonEmptyString "userId" i.userId
  let symbol ← assertNonEmptyString "symbol" (.str i.symbol)
  let side ← assertSide i.side
  let quantity ← assertPositiveInteger "quantity" i.quantity
  let timestamp ← assertNonNegativeInteger "timestamp" i.timestamp
  let priceTicks ← assertPrice i.type i.priceTicks
  return {
    orderId, userId, symbol, side, priceTicks
    type := i.type
    initialQuantity := quantity
    remainingQuantity := quantity
    status := .opened
    timestamp := ⟨timestamp, i.clock⟩ }

theorem assertSide_ok {v : JsVal} {s : Side} : assertSide v = .ok s ↔ v = .str (sideText s) := by
  unfold assertSide
  split
  · next h => subst h; cases s <;> simp [sideText]
  · next h =>
    split
    · next h' => subst h'; cases s <;> simp [sideText]
    · next h' =>
      cases s
      · simp [h]
      · simp [h']

/-- What the constructor checked, and the order it built. -/
structure NewOrder (i : OrderInput) (o : Order) : Prop where
  orderId : i.orderId = .str o.orderId ∧ isBlank o.orderId = false
  userId : i.userId = .str o.userId ∧ isBlank o.userId = false
  symbol : o.symbol = i.symbol ∧ isBlank o.symbol = false
  side : i.side = .str (sideText o.side)
  type : o.type = i.type
  price : assertPrice i.type i.priceTicks = .ok o.priceTicks
  quantity : i.quantity = .num (.int o.initialQuantity) ∧ 0 < o.initialQuantity
  remaining : o.remainingQuantity = o.initialQuantity
  status : o.status = .opened
  timestamp : i.timestamp = .num (.int o.timestamp.ms) ∧ 0 ≤ o.timestamp.ms
  clock : o.timestamp.clock = i.clock

theorem except_bind_ok {ε α β : Type} {x : Except ε α} {f : α → Except ε β} {b : β} :
    (x >>= f) = .ok b ↔ ∃ a, x = .ok a ∧ f a = .ok b := by
  cases x with
  | error e => exact ⟨fun h => (by cases h), fun ⟨_, h, _⟩ => (by cases h)⟩
  | ok a => exact ⟨fun h => ⟨a, rfl, h⟩, fun ⟨_, h, h'⟩ => (by cases h; exact h')⟩

theorem newOrder_ok {i : OrderInput} {o : Order} : newOrder i = .ok o ↔ NewOrder i o := by
  unfold newOrder
  simp only [except_bind_ok, assertNonEmptyString_ok, assertPositiveInteger_ok, assertSide_ok,
    assertNonNegativeInteger_ok]
  constructor
  · rintro ⟨_, hid, _, huser, _, ⟨hsym, hblank⟩, _, hside, _, hqty, _, hts, _, hprice, h⟩
    cases h; cases hsym
    exact ⟨hid, huser, ⟨rfl, hblank⟩, hside, rfl, hprice, hqty, rfl, rfl, hts, rfl⟩
  · intro h
    refine ⟨_, h.orderId, _, h.userId, i.symbol, ⟨rfl, h.symbol.1 ▸ h.symbol.2⟩, _, h.side, _,
      h.quantity, _, h.timestamp, _, h.price, ?_⟩
    obtain ⟨⟩ := o
    have hr := h.remaining; have hs := h.status; have hc := h.clock; have ht := h.type
    have hsym := h.symbol.1
    simp only at hr hs hc ht hsym
    subst hr hs ht hsym
    rw [← hc]
    rfl

/-- A limit order has a positive price. -/
theorem NewOrder.limit {i : OrderInput} {o : Order} (h : NewOrder i o) (ht : i.type = .limit) :
    ∃ p, o.priceTicks = some p ∧ 0 < p ∧ i.priceTicks = .num (.int p) := by
  have hp := h.price
  rw [ht] at hp
  simp only [assertPrice] at hp
  cases hv : assertPositiveInteger "priceTicks" i.priceTicks with
  | error e => rw [hv] at hp; cases hp
  | ok p =>
    rw [hv] at hp
    have hp : some p = o.priceTicks := Except.ok.inj hp
    obtain ⟨h₁, h₂⟩ := assertPositiveInteger_ok.mp hv
    exact ⟨p, hp.symm, h₂, h₁⟩

/-! ## `fill` and `cancel` -/

def alreadyDone (o : Order) : JsError :=
  .error ("order " ++ o.orderId ++ " is already " ++ statusText o.status)

def fill (r : NodeRef) (quantity : Int) : Exc JsError Heap Unit := do
  let h ← get
  let o := h.order r
  if quantity ≤ 0 then throw (.error "fill quantity must be a positive integer")
  else if o.isActive = false then throw (alreadyDone o)
  else if quantity > o.remainingQuantity then
    throw (.error "fill quantity exceeds remaining quantity")
  else
    let left := Num.roundInt (o.remainingQuantity - quantity)
    modify (·.modifyNode r fun n => { n with
      remainingQuantity := left
      status := if left = 0 then .filled else .partiallyFilled })

def cancel (r : NodeRef) : Exc JsError Heap Unit := do
  let h ← get
  if (h.order r).isActive = false then throw (alreadyDone (h.order r))
  else modify (·.modifyNode r fun n => { n with status := .cancelled })

def detachLinks (r : NodeRef) : Exc JsError Heap Unit :=
  modify (·.modifyNode r fun n => { n with prev := none, next := none, priceLevel := none })

/-- `fill` of a quantity that an active order has, where the subtraction is exact. -/
theorem fill_ok {h : Heap} {r : NodeRef} {q : Int} (hq : 0 < q) (ha : (h.order r).isActive = true)
    (hle : q ≤ (h.order r).remainingQuantity) (hmax : (h.order r).remainingQuantity ≤ Num.maxExact) :
    (fill r q).run h =
      (.ok (), h.modifyNode r fun n => { n with toOrder := n.toOrder.filledBy q }) := by
  unfold fill
  rw [run_get_bind]
  dsimp only
  rw [if_neg (show ¬ q ≤ 0 by omega), if_neg (by simp [ha]),
    if_neg (show ¬ q > (h.order r).remainingQuantity by omega), Num.roundInt_sub hq.le hle hmax]
  simp only [run_modify, Heap.modifyNode, Order.filledBy, Heap.order, if_neg (show ¬ q = 0 by omega)]
  congr

theorem cancel_ok {h : Heap} {r : NodeRef} (ha : (h.order r).isActive = true) :
    (cancel r).run h = (.ok (), h.modifyNode r fun n => { n with status := .cancelled }) := by
  unfold cancel
  simp [run_get_bind, ha]

end Lob.Node
