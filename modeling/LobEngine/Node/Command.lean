import LobEngine.Node.Reachable
import LobEngine.Lib.Registry

/-!
# Commands of the reference engine

`BookRegistry` and `executeOrderCommand`. A command can have any values in its fields, as it comes from a
queue.

* `BookRegistry.Held`: the registry holds reachable books. `Held.executeOrderCommand`: commands keep it so.
-/

namespace Lob.Node

open Exc OrderBook

/-- What `executeOrderCommand` reads of a command. -/
structure Command where
  type : JsVal
  symbol : JsVal
  /-- `none` is `undefined` or `null`. -/
  payload : Option Payload

/-- The method that the command calls. -/
def Command.call (c : Command) : Except JsError Call :=
  if c.type = .str "PLACE_LIMIT_ORDER" then .ok (.placeLimitOrder c.payload)
  else if c.type = .str "PLACE_MARKET_ORDER" then .ok (.placeMarketOrder c.payload)
  else if c.type = .str "PLACE_STOP_MARKET_ORDER" then .ok (.placeStopMarketOrder c.payload)
  else if c.type = .str "PLACE_STOP_LIMIT_ORDER" then .ok (.placeStopLimitOrder c.payload)
  else if c.type = .str "PLACE_TRAILING_STOP_MARKET_ORDER" then
    .ok (.placeTrailingStopMarketOrder c.payload)
  else if c.type = .str "CANCEL_ORDER" then
    match c.payload with
    | none => .error .typeError
    | some p => .ok (.cancelOrder p.orderId)
  else .error (.errorFor "unsupported order command type: " c.type)

/-- What the command does to the book of its symbol. -/
def OrderBook.execute (b : OrderBook) (c : Command) : Except JsError Result × OrderBook :=
  match c.call with
  | .error e => (.error e, b)
  | .ok call => Node.call b call

/-- The books by their symbols. -/
def BookRegistry := String → Option OrderBook

namespace BookRegistry

def empty : BookRegistry := fun _ => none

def put (r : BookRegistry) (symbol : String) (b : OrderBook) : BookRegistry :=
  Function.update r symbol (some b)

@[simp] theorem put_self (r : BookRegistry) (symbol : String) (b : OrderBook) :
    r.put symbol b symbol = some b := Function.update_self ..

theorem put_ne (r : BookRegistry) {symbol symbol' : String} (b : OrderBook) (h : symbol' ≠ symbol) :
    r.put symbol b symbol' = r symbol' := Function.update_of_ne h ..

/-- `getOrCreateBook`: the symbol, its book, and the registry. `clock` is the clock of a new book. -/
def getOrCreateBook (r : BookRegistry) (symbol : JsVal) (clock : Clock) :
    Except JsError (String × OrderBook × BookRegistry) :=
  match assertNonEmptyString "symbol" symbol with
  | .error e => .error e
  | .ok symbol =>
    match r symbol with
    | some b => .ok (symbol, b, r)
    | none => .ok (symbol, OrderBook.new symbol clock, r.put symbol (OrderBook.new symbol clock))

/-- `executeOrderCommand`: the book after the command, what the method returned, and the registry. -/
def executeOrderCommand (r : BookRegistry) (clock : Clock) (c : Command) :
    Except JsError (OrderBook × Result) × BookRegistry :=
  match r.getOrCreateBook c.symbol clock with
  | .error e => (.error e, r)
  | .ok (symbol, b, r) => ((b.execute c).1.map fun result => ((b.execute c).2, result),
      r.put symbol (b.execute c).2)

/-- The book of a symbol, a new one if there is none. -/
def bookOf (r : BookRegistry) (clock : Clock) : String → OrderBook := lookup (OrderBook.new · clock) r

/-- The registry holds reachable books. -/
def Held (r : BookRegistry) : Prop := ∀ symbol b, r symbol = some b → Reachable b

/-- The numbers of the command are exact. -/
def Exact (r : BookRegistry) (clock : Clock) (c : Command) : Prop :=
  ∀ symbol call, c.symbol = .str symbol → c.call = .ok call → Node.Exact (r.bookOf clock symbol) call

section

variable {r : BookRegistry} {clock : Clock} {c : Command}

/-- The book of a command is held, or new. -/
theorem getOrCreateBook_cases (r : BookRegistry) (symbol : JsVal) (clock : Clock) :
    (∃ e, r.getOrCreateBook symbol clock = .error e) ∨ ∃ s, symbol = .str s ∧
      ((∃ b, r s = some b ∧ r.getOrCreateBook symbol clock = .ok (s, b, r)) ∨
      r s = none ∧ isBlank s = false ∧ r.getOrCreateBook symbol clock =
        .ok (s, OrderBook.new s clock, r.put s (OrderBook.new s clock))) := by
  unfold getOrCreateBook
  cases hs : assertNonEmptyString "symbol" symbol with
  | error e => exact .inl ⟨e, rfl⟩
  | ok s =>
    obtain ⟨hsym, hblank⟩ := assertNonEmptyString_ok.mp hs
    refine .inr ⟨s, hsym, ?_⟩
    dsimp only
    cases hb : r s with
    | some b => exact .inl ⟨b, rfl, rfl⟩
    | none => exact .inr ⟨rfl, hblank, rfl⟩

theorem Held.empty : BookRegistry.empty.Held := fun _ _ h => by cases h

/-- A command keeps the books reachable. -/
theorem Held.executeOrderCommand (h : r.Held) (hex : r.Exact clock c) :
    (r.executeOrderCommand clock c).2.Held := by
  have hput : ∀ {r : BookRegistry} {s : String} {b : OrderBook}, r.Held → Reachable b → (r.put s b).Held := by
    intro r s b hr hb symbol b' hb'
    rcases eq_or_ne symbol s with rfl | hne
    · rw [put_self] at hb'
      cases hb'
      exact hb
    · rw [put_ne r b hne] at hb'
      exact hr symbol b' hb'
  have hexecute : ∀ {s : String} {b : OrderBook}, c.symbol = .str s → r.bookOf clock s = b → Reachable b →
      Reachable (b.execute c).2 := by
    intro s b hs hb hreach
    unfold OrderBook.execute
    cases hc : c.call with
    | error e => exact hreach
    | ok call => exact .call call hreach (hb ▸ hex s call hs hc)
  unfold BookRegistry.executeOrderCommand
  rcases r.getOrCreateBook_cases c.symbol clock with ⟨e, he⟩ | ⟨s, hs, ⟨b, hb, he⟩ | ⟨hb, hblank, he⟩⟩
  · rw [he]
    exact h
  · rw [he]
    exact hput h (hexecute hs (lookup_of_some hb) (h _ b hb))
  · rw [he]
    have hnew : Reachable (OrderBook.new s clock) := .new s clock hblank
    exact hput (hput h hnew) (hexecute hs (lookup_of_none hb) hnew)

end

end BookRegistry

end Lob.Node
