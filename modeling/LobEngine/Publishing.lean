import LobEngine.Go.Publishing
import LobEngine.Node.Publishing
import LobEngine.Node.Reachable

/-!
# The event of the book, in both engines

Both engines number the event of the book before the events of the stop orders that a limit order
triggers, and take its snapshot after them: `snapshot_published_iff`.
-/

namespace Lob

/-- In both engines a successful call emits one event of the book, which shows the book as the call
leaves it and has the highest number, exactly if the call does not place a limit order that triggers a
pending stop order. -/
theorem snapshot_published_iff {g : Go.Book} (hg : Go.Reachable g) {c : Go.Call} {r : Go.Result}
    (hr : (Go.call g c).1 = .ok r) {n : Node.OrderBook} {c' : Node.Call} {r' : Node.Result}
    (hr' : (Node.call n c').1 = .ok r') :
    (Go.PublishesBook r.events (Go.call g c).2 ↔ g.triggers c = false) ∧
      (Node.PublishesBook r'.events (Node.call n c').2 ↔ n.triggers c' = false) :=
  ⟨Go.publishes_iff_not_triggers hg hr, Node.publishes_iff_not_triggers hr'⟩

/-- A pending stop-market order to buy that triggers at price 1, after the sell order of `oneAsk`. -/
def Go.oneAskOneStop : Go.Book :=
  (Go.call Go.oneAsk (.placeStopMarket
    { Go.limitInput "s" .buy 1 1 with priceTicks := none, triggerPriceTicks := some 1 })).2

/-- As `Go.oneAskOneStop`. -/
def Node.oneAskOneStop : Node.OrderBook :=
  (Node.call Node.oneAsk (.placeStopMarketOrder (some
    { Node.limitOrder "s" .buy 1 1 with priceTicks := .undefined, triggerPriceTicks := .num (.int 1) }))).2

theorem Go.oneAskOneStop_reachable : Go.Reachable Go.oneAskOneStop :=
  ⟨_, _, .call Go.oneAsk_run _⟩

theorem Node.oneAskOneStop_reachable : Node.Reachable Node.oneAskOneStop :=
  .call _ Node.oneAsk_reachable (by decide)

/-- The claim fails on both engines where a limit order to buy trades with the resting sell order. -/
theorem snapshot_not_published :
    (¬ ∀ b, Go.Reachable b → ∀ c r, (Go.call b c).1 = .ok r →
      Go.PublishesBook r.events (Go.call b c).2) ∧
    (¬ ∀ b, Node.Reachable b → ∀ c r, (Node.call b c).1 = .ok r →
      Node.PublishesBook r.events (Node.call b c).2) := by
  constructor
  · intro h
    have hok : (Go.call Go.oneAskOneStop (.placeLimit (Go.limitInput "b" .buy 1 1))).1.isOk = true := by
      decide +kernel
    cases hr : (Go.call Go.oneAskOneStop (.placeLimit (Go.limitInput "b" .buy 1 1))).1 with
    | error e =>
      rw [hr] at hok
      cases hok
    | ok r =>
      have hnot := h _ Go.oneAskOneStop_reachable _ r hr
      rw [Go.publishes_iff_not_triggers Go.oneAskOneStop_reachable hr] at hnot
      exact absurd hnot (by decide +kernel)
  · intro h
    have hok : (Node.call Node.oneAskOneStop
        (.placeLimitOrder (some (Node.limitOrder "b" .buy 1 1)))).1.isOk = true := by decide +kernel
    cases hr : (Node.call Node.oneAskOneStop (.placeLimitOrder (some (Node.limitOrder "b" .buy 1 1)))).1 with
    | error e =>
      rw [hr] at hok
      cases hok
    | ok r =>
      have hnot := h _ Node.oneAskOneStop_reachable _ r hr
      rw [Node.publishes_iff_not_triggers hr] at hnot
      exact absurd hnot (by decide +kernel)

/-- A first limit order of a book triggers nothing, so both engines publish the book it leaves. -/
theorem snapshot_published_first : ∃ g n,
    (Go.call (Go.Book.empty "BTC-USD" fun _ => 0) (.placeLimit (Go.limitInput "a" .sell 1 1))).1 = .ok g ∧
      Go.PublishesBook g.events Go.oneAsk ∧
    (Node.call (Node.OrderBook.new "BTC-USD" fun _ => 0)
      (.placeLimitOrder (some (Node.limitOrder "a" .sell 1 1)))).1 = .ok n ∧
      Node.PublishesBook n.events Node.oneAsk := by
  have hg : (Go.call (Go.Book.empty "BTC-USD" fun _ => 0)
      (.placeLimit (Go.limitInput "a" .sell 1 1))).1.isOk = true := by decide +kernel
  have hn : (Node.call (Node.OrderBook.new "BTC-USD" fun _ => 0)
      (.placeLimitOrder (some (Node.limitOrder "a" .sell 1 1)))).1.isOk = true := by decide +kernel
  cases hr : (Go.call (Go.Book.empty "BTC-USD" fun _ => 0)
      (.placeLimit (Go.limitInput "a" .sell 1 1))).1 with
  | error e =>
    rw [hr] at hg
    cases hg
  | ok g =>
    cases hr' : (Node.call (Node.OrderBook.new "BTC-USD" fun _ => 0)
        (.placeLimitOrder (some (Node.limitOrder "a" .sell 1 1)))).1 with
    | error e =>
      rw [hr'] at hn
      cases hn
    | ok n =>
      obtain ⟨hgo, hnode⟩ := snapshot_published_iff ⟨_, _, .empty _ (by decide)⟩ hr hr'
      exact ⟨g, n, rfl, hgo.mpr (by decide +kernel), rfl, hnode.mpr (by decide +kernel)⟩

end Lob
