import LobEngine.Lib.PriceQueue
import LobEngine.Lib.Walk

/-!
# Orders and trades

The values both engines compute with, and what matching means on them.

* `Order`: an order that can be matched or rest (the reference engine's `OrderNode.snapshot()`, the
  worker's `order`).
* `greedy`: price-time priority, the walk of an incoming order over the opposite side.
* `Depth`: the two sides of a book as flat lists, best price first, with `Depth.fillFrom` (match an
  order) and `Depth.rest` (let an order rest).
* `Order.RestsOn`: what holds of an order that rests.
-/

namespace Lob

inductive Side where
  | buy
  | sell
  deriving DecidableEq, Repr

inductive OrderType where
  | limit
  | market
  | stopMarket
  | stopLimit
  | trailingStopMarket
  deriving DecidableEq, Repr

inductive OrderStatus where
  | opened
  | partiallyFilled
  | filled
  | cancelled
  | triggered
  deriving DecidableEq, Repr

/-- A timestamp in milliseconds. `clock` records where it comes from: the wall clock (an order that
a stop triggered), or the input of the command. The source stores `ms` only. -/
structure Stamp where
  ms : Int
  clock : Bool
  deriving DecidableEq, Repr

/-- The successive readings of the wall clock. -/
abbrev Clock := Nat → Int

/-- The clock after one reading. -/
def Clock.tail (c : Clock) : Clock := fun n => c (n + 1)

structure Order where
  orderId : String
  userId : String
  symbol : String
  side : Side
  type : OrderType
  priceTicks : Option Int
  initialQuantity : Int
  remainingQuantity : Int
  status : OrderStatus
  timestamp : Stamp
  deriving DecidableEq, Repr

structure Trade where
  symbol : String
  priceTicks : Int
  quantity : Int
  buyOrderId : String
  sellOrderId : String
  aggressorSide : Side
  timestamp : Stamp
  deriving DecidableEq, Repr

namespace Side

def opposite : Side → Side
  | buy => sell
  | sell => buy

@[simp] theorem opposite_buy : buy.opposite = sell := rfl

@[simp] theorem opposite_sell : sell.opposite = buy := rfl

@[simp] theorem opposite_opposite (s : Side) : s.opposite.opposite = s := by cases s <;> rfl

theorem opposite_ne (s : Side) : s.opposite ≠ s := by cases s <;> decide

theorem eq_or_opposite (s t : Side) : t = s ∨ t = s.opposite := by cases s <;> cases t <;> simp

/-- The better a price is on this side, the smaller its rank. -/
def rank : Side → Int → Int
  | buy, p => -p
  | sell, p => p

theorem rank_injective (s : Side) : Function.Injective s.rank := by
  intro p q h
  cases s <;> simp only [rank] at h <;> omega

/-- An incoming order of this side with limit `limit` trades at the opposite price `best`. -/
def accepts : Side → Int → Int → Bool
  | buy, limit, best => decide (best ≤ limit)
  | sell, limit, best => decide (limit ≤ best)

/-- An acceptable price is at least as good as the limit, seen from the opposite side. -/
theorem accepts_iff {s : Side} {limit best : Int} :
    s.accepts limit best = true ↔ s.opposite.rank best ≤ s.opposite.rank limit := by
  cases s <;> simp [accepts, rank]

end Side

namespace Order

/-- The limit price. Only orders with a price rest. -/
def price (o : Order) : Int := o.priceTicks.getD 0

def isFilled (o : Order) : Bool := o.status = .filled

/-- Neither filled nor cancelled. -/
def isActive (o : Order) : Bool := o.status ≠ .filled && o.status ≠ .cancelled

/-- The order after `n` more of it traded. -/
def filledBy (n : Int) (o : Order) : Order :=
  { o with
    remainingQuantity := o.remainingQuantity - n
    status := if n = 0 then o.status else
      if o.remainingQuantity - n = 0 then .filled else .partiallyFilled }

section
variable (n : Int) (o : Order)
@[simp] theorem filledBy_orderId : (o.filledBy n).orderId = o.orderId := rfl
@[simp] theorem filledBy_side : (o.filledBy n).side = o.side := rfl
@[simp] theorem filledBy_type : (o.filledBy n).type = o.type := rfl
@[simp] theorem filledBy_symbol : (o.filledBy n).symbol = o.symbol := rfl
@[simp] theorem filledBy_price : (o.filledBy n).price = o.price := rfl
@[simp] theorem filledBy_priceTicks : (o.filledBy n).priceTicks = o.priceTicks := rfl
@[simp] theorem filledBy_initial : (o.filledBy n).initialQuantity = o.initialQuantity := rfl
@[simp] theorem filledBy_timestamp : (o.filledBy n).timestamp = o.timestamp := rfl
@[simp] theorem filledBy_remaining :
    (o.filledBy n).remainingQuantity = o.remainingQuantity - n := rfl

@[simp] theorem filledBy_zero : o.filledBy 0 = o := by simp [filledBy]

end

theorem filledBy_filledBy {m n : Int} (o : Order) (hm : 0 ≤ m) (hn : 0 ≤ n) :
    (o.filledBy m).filledBy n = o.filledBy (m + n) := by
  by_cases h : n = 0
  · simp [h]
  by_cases h' : m = 0
  · simp [h']
  · simp only [filledBy, if_neg h, if_neg (show ¬ m = 0 by omega), if_neg (show ¬ m + n = 0 by omega),
      Order.mk.injEq, true_and, and_true]
    exact ⟨by omega, by rw [show o.remainingQuantity - m - n = o.remainingQuantity - (m + n) by omega]⟩

theorem filledBy_isActive {n : Int} {o : Order} (ha : o.isActive = true)
    (h : 0 < o.remainingQuantity - n) : (o.filledBy n).isActive = true := by
  unfold filledBy isActive at *
  by_cases hn : n = 0
  · simpa [hn] using ha
  · simp [hn, show ¬ o.remainingQuantity - n = 0 by omega]

theorem filledBy_isFilled {n : Int} (o : Order) (hn : 0 < n) :
    (o.filledBy n).isFilled = decide (n = o.remainingQuantity) := by
  unfold filledBy isFilled
  rw [if_neg (by omega)]
  by_cases h : n = o.remainingQuantity
  · simp [h]
  · simp [h, show ¬ o.remainingQuantity - n = 0 by omega]

/-- What holds of an order that rests on side `s`. -/
structure RestsOn (s : Side) (o : Order) : Prop where
  side : o.side = s
  type : o.type = .limit
  price : ∃ p, o.priceTicks = some p ∧ 0 < p
  remaining : 0 < o.remainingQuantity
  status : o.status = .opened ∧ o.remainingQuantity = o.initialQuantity ∨
    o.status = .partiallyFilled ∧ o.remainingQuantity < o.initialQuantity

theorem RestsOn.isActive {s : Side} {o : Order} (h : o.RestsOn s) : o.isActive = true := by
  rcases h.status with ⟨h, -⟩ | ⟨h, -⟩ <;> simp [Order.isActive, h]

/-- A resting order that trades a part of what it has still rests. -/
theorem RestsOn.filledBy {s : Side} {o : Order} (h : o.RestsOn s) {n : Int} (hn : 0 < n)
    (hlt : n < o.remainingQuantity) : (o.filledBy n).RestsOn s := by
  refine ⟨h.side, h.type, h.price, ?_, .inr ⟨?_, ?_⟩⟩
  · rw [filledBy_remaining]; omega
  · rw [Order.filledBy]
    simp only [if_neg (show ¬ n = 0 by omega), if_neg (show ¬ o.remainingQuantity - n = 0 by omega)]
  · rw [filledBy_remaining, filledBy_initial]
    rcases h.status with ⟨-, h⟩ | ⟨-, h⟩ <;> omega

end Order

/-- The trade of `q` between an incoming order and a resting one, at the resting order's price. -/
def tradeOf (incoming resting : Order) (q : Int) : Trade where
  symbol := incoming.symbol
  priceTicks := resting.price
  quantity := q
  buyOrderId := if incoming.side = .buy then incoming.orderId else resting.orderId
  sellOrderId := if incoming.side = .buy then resting.orderId else incoming.orderId
  aggressorSide := incoming.side
  timestamp := incoming.timestamp

/-- The trade is one of the order `id`. -/
def Trade.names (t : Trade) (id : String) : Prop := t.buyOrderId = id ∨ t.sellOrderId = id

instance (t : Trade) (id : String) : Decidable (t.names id) := inferInstanceAs (Decidable (_ ∨ _))

/-- What the order `id` traded in `ts`. -/
def traded (id : String) (ts : List Trade) : Int := ((ts.filter (·.names id)).map (·.quantity)).sum

@[simp] theorem traded_nil (id : String) : traded id [] = 0 := rfl

theorem traded_cons (id : String) (t : Trade) (ts : List Trade) :
    traded id (t :: ts) = (if t.names id then t.quantity else 0) + traded id ts := by
  by_cases h : t.names id <;> simp [traded, h]

theorem traded_append (id : String) (ts us : List Trade) :
    traded id (ts ++ us) = traded id ts + traded id us := by
  simp [traded]

theorem traded_eq_zero {id : String} {ts : List Trade} (h : ∀ t ∈ ts, ¬ t.names id) :
    traded id ts = 0 := by
  rw [traded, List.filter_eq_nil_iff.mpr (by simpa using h)]
  rfl

theorem sum_quantity_nonneg {ts : List Trade} (h : ∀ t ∈ ts, 0 < t.quantity) :
    0 ≤ (ts.map (·.quantity)).sum := by
  apply List.sum_nonneg
  intro x hx
  obtain ⟨t, ht, rfl⟩ := List.mem_map.mp hx
  exact (h t ht).le

theorem traded_nonneg {ts : List Trade} (h : ∀ t ∈ ts, 0 < t.quantity) (id : String) :
    0 ≤ traded id ts :=
  sum_quantity_nonneg fun t ht => h t (List.mem_of_mem_filter ht)

theorem names_tradeOf {incoming resting : Order} {q : Int} {id : String} :
    (tradeOf incoming resting q).names id ↔ id = incoming.orderId ∨ id = resting.orderId := by
  unfold Trade.names tradeOf
  by_cases h : incoming.side = .buy <;> simp only [h, if_true, if_false] <;> grind

/-! ## Matching -/

/-- The incoming order trades with the resting order `o`. -/
def takes (incoming : Order) (ignorePrice : Bool) (o : Order) : Bool :=
  ignorePrice || incoming.side.accepts incoming.price o.price

/-- Price-time priority: the walk of an incoming order over the resting orders `Q`. -/
def greedy (incoming : Order) (ignorePrice : Bool) (Q : List Order) : WalkResult Order :=
  walk (takes incoming ignorePrice) (·.remainingQuantity) Order.filledBy
    incoming.remainingQuantity Q

/-- The trades of a walk. -/
def tradesOf (incoming : Order) (w : WalkResult Order) : List Trade :=
  w.fills.map fun f => tradeOf incoming f.1 f.2

/-- The trades of a walk are of the quantities taken. -/
theorem sum_tradesOf (incoming : Order) (w : WalkResult Order) :
    ((tradesOf incoming w).map (·.quantity)).sum = w.taken := by
  simp [tradesOf, WalkResult.taken, tradeOf, Function.comp_def]

/-- A partial fill of the incoming order changes neither its trades nor what it accepts. -/
@[simp] theorem tradeOf_filledBy (incoming : Order) (n : Int) :
    tradeOf (incoming.filledBy n) = tradeOf incoming := rfl

@[simp] theorem takes_filledBy (incoming : Order) (n : Int) (ignorePrice : Bool) :
    takes (incoming.filledBy n) ignorePrice = takes incoming ignorePrice := rfl

/-- The two sides of a book: flat lists, best price first, and at one price the oldest first. -/
structure Depth where
  bids : List Order
  asks : List Order
  deriving DecidableEq

namespace Depth

def empty : Depth := ⟨[], []⟩

def side (d : Depth) : Side → List Order
  | .buy => d.bids
  | .sell => d.asks

def setSide (d : Depth) : Side → List Order → Depth
  | .buy, L => { d with bids := L }
  | .sell, L => { d with asks := L }

@[simp] theorem side_setSide (d : Depth) (s : Side) (L : List Order) :
    (d.setSide s L).side s = L := by cases s <;> rfl

@[simp] theorem side_setSide_opposite (d : Depth) (s : Side) (L : List Order) :
    (d.setSide s.opposite L).side s = d.side s := by cases s <;> rfl

@[simp] theorem side_opposite_setSide (d : Depth) (s : Side) (L : List Order) :
    (d.setSide s L).side s.opposite = d.side s.opposite := by cases s <;> rfl

@[simp] theorem setSide_setSide (d : Depth) (s : Side) (L L' : List Order) :
    (d.setSide s L).setSide s L' = d.setSide s L' := by cases s <;> rfl

theorem setSide_side (d : Depth) (s : Side) : d.setSide s (d.side s) = d := by cases s <;> rfl

theorem ext_side {d d' : Depth} (h : ∀ s, d.side s = d'.side s) : d = d' := by
  cases d; cases d'
  have hb := h .buy
  have ha := h .sell
  simp only [side] at hb ha
  rw [hb, ha]

/-- Every resting order. -/
def orders (d : Depth) : List Order := d.bids ++ d.asks

theorem mem_orders {d : Depth} {o : Order} : o ∈ d.orders ↔ ∃ s, o ∈ d.side s := by
  simp only [orders, List.mem_append]
  constructor
  · rintro (h | h)
    · exact ⟨.buy, h⟩
    · exact ⟨.sell, h⟩
  · rintro ⟨_ | _, h⟩
    · exact .inl h
    · exact .inr h

def ids (d : Depth) : List String := d.orders.map (·.orderId)

/-- The incoming order traded with the opposite side: the trades, what became of the order, and
the book. -/
def fillFrom (d : Depth) (incoming : Order) (ignorePrice : Bool) : List Trade × Order × Depth :=
  let w := greedy incoming ignorePrice (d.side incoming.side.opposite)
  (tradesOf incoming w, incoming.filledBy w.taken, d.setSide incoming.side.opposite w.rest)

/-- The order rests on its side, behind every order that is at least as good. -/
def rest (d : Depth) (o : Order) : Depth :=
  d.setSide o.side (enqueue o.side.rank Order.price o (d.side o.side))

/-- The order `id` leaves the book. -/
def remove (d : Depth) (id : String) : Depth :=
  ⟨d.bids.filter (·.orderId ≠ id), d.asks.filter (·.orderId ≠ id)⟩

theorem side_remove (d : Depth) (id : String) (s : Side) :
    (d.remove id).side s = (d.side s).filter (·.orderId ≠ id) := by cases s <;> rfl

end Depth

end Lob
