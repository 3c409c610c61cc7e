import LobEngine.Go.Stops
import LobEngine.Node.Stops

/-!
# Accepted stop orders, in both engines

A stop order is accepted by one check and executed through another, which asks for more. Where every
accepted stop order passes both, no pending stop order makes a call fail: `accepted_stops_execute`.
-/

namespace Lob

/-- In both engines: in every run whose accepted stop orders have the fields of a valid order, every
pending stop order is executed without an error, and no call fails because of one. -/
theorem accepted_stops_execute {g : Go.Book} (hg : Go.FitRun g) (hnow : ∀ i, 0 ≤ g.now i)
    {n : Node.OrderBook} (hn : Node.FitRun n) (hclock : ∀ i, 0 ≤ n.clock i) :
    Go.StopsExecute g ∧ Node.StopsExecute n :=
  ⟨hg.stopsExecute hnow, hn.stopsExecute hclock⟩

/-- A stop-market order to buy one waits for the price 1. -/
def Go.pendingStop : Go.Book :=
  (Go.call Go.oneAsk (.placeStopMarket
    { Go.limitInput "s" .buy 1 1 with priceTicks := none, triggerPriceTicks := some 1 })).2

/-- As `Go.pendingStop`. -/
def Node.pendingStop : Node.OrderBook :=
  (Node.call Node.oneAsk (.placeStopMarketOrder
    (some { Node.limitOrder "s" .buy 1 1 with triggerPriceTicks := .num (.int 1) }))).2

theorem Go.pendingStop_run : Go.FitRun Go.pendingStop := by
  have h₀ : Go.FitRun (Go.Book.empty "BTC-USD" fun _ => 0) := .empty _ _ (by decide)
  have h₁ : Go.FitRun Go.oneAsk := h₀.call _ fun _ => trivial
  exact h₁.call _ fun _ => rfl

theorem Node.pendingStop_run : Node.FitRun Node.pendingStop := by
  have h₀ : Node.FitRun (Node.OrderBook.new "BTC-USD" fun _ => 0) := .new _ _ (by decide)
  have h₁ : Node.FitRun Node.oneAsk := h₀.call _ (by decide) fun _ s hs => by cases hs
  refine h₁.call _ (by decide) fun _ s hs => ?_
  cases hs
  exact ⟨⟨"s", rfl, by decide⟩, ⟨"u", rfl, by decide⟩, ⟨.buy, rfl⟩, ⟨1, rfl, by decide⟩,
    fun h => (by cases h), .inl rfl, by simp [JsVal.toNumber]⟩

theorem accepted_stops_execute_pending : Go.StopsExecute Go.pendingStop ∧ Node.StopsExecute Node.pendingStop :=
  accepted_stops_execute Go.pendingStop_run (fun _ => le_rfl) Node.pendingStop_run (fun _ => le_rfl)

/-- As `Go.pendingStop`, with a price, which the method for stop-market orders does not look at. -/
def Go.pricedStop : Go.Book :=
  (Go.call Go.oneAsk (.placeStopMarket { Go.limitInput "s" .buy 1 1 with triggerPriceTicks := some 1 })).2

/-- As `Node.pendingStop`, without a user. -/
def Node.ownerlessStop : Node.OrderBook :=
  (Node.call Node.oneAsk (.placeStopMarketOrder
    (some { Node.limitOrder "s" .buy 1 1 with userId := .undefined, triggerPriceTicks := .num (.int 1) }))).2

/-- Both engines accept stop orders that they cannot execute; the order of another user that triggers one
fails. -/
theorem accepted_stop_fails :
    (¬ ∀ b, Go.Reachable b → (∀ i, 0 ≤ b.now i) → Go.StopsExecute b) ∧
      ¬ ∀ b, Node.Reachable b → (∀ i, 0 ≤ b.clock i) → Node.StopsExecute b := by
  constructor
  · intro h
    have hexec := (h Go.pricedStop ⟨_, _, .call Go.oneAsk_run _⟩ fun _ => le_rfl).executes
    exact absurd hexec (by decide +kernel)
  · intro h
    have hexec := (h Node.ownerlessStop (.call _ Node.oneAsk_reachable (by decide +kernel)) fun _ => le_rfl).executes
    exact absurd hexec (by decide +kernel)

/-- The order "c" of another user fails, after it traded. -/
example : (Go.call Go.pricedStop (.placeLimit (Go.limitInput "c" .buy 1 1))).1 =
      .error (.error "market order price must be null or undefined") ∧
    (Node.call Node.ownerlessStop (.placeLimitOrder (some (Node.limitOrder "c" .buy 1 1)))).1 =
      .error (.error "userId must be a non-empty string") := by
  decide +kernel

end Lob
