import LobEngine.Go.Announcing
import LobEngine.Node.Arrivals
import LobEngine.Publishing

/-!
# Resting orders, in both engines

Both engines let the remainder of a triggered order rest as they do that of the order of the call. They announce
the latter whenever it rests, but a triggered order only if none of it traded:
`rested_orders_announced_iff`. The orders that rest by their executions are those that the sides receive:
`Go.executions_join`, `Node.executions_join`.
-/

namespace Lob

/-- In both engines the events of a successful call announce the orders that came to rest, exactly if no
triggered order trades before it comes to rest. -/
theorem rested_orders_announced_iff {g : Go.Book} (hg : Go.Reachable g) {c : Go.Call} {r : Go.Result}
    (hr : (Go.call g c).1 = .ok r) {n : Node.OrderBook} (hn : Node.Ran n) {c' : Node.Call} {r' : Node.Result}
    (hr' : (Node.call n c').1 = .ok r') :
    (Announces (g.executionsOf c) (r.events.filterMap fun e => Go.noteOf e.body) ↔
        triggeredRestsTraded (g.executionsOf c) = false) ∧
      (Announces (n.executionsOf c') (r'.events.filterMap fun e => Node.noteOf e.body) ↔
        triggeredRestsTraded (n.executionsOf c') = false) :=
  ⟨announces_iff (Go.rests_announced_iff hg hr), announces_iff (Node.rests_announced_iff hn hr')⟩

/-- A limit order that rests is announced. -/
theorem rested_orders_announced_ask : ∃ g n,
    (Go.call Go.oneAsk (.placeLimit (Go.limitInput "b" .sell 2 1))).1 = .ok g ∧
      Announces (Go.oneAsk.executionsOf (.placeLimit (Go.limitInput "b" .sell 2 1)))
        (g.events.filterMap fun e => Go.noteOf e.body) ∧
    (Node.call Node.oneAsk (.placeLimitOrder (some (Node.limitOrder "b" .sell 2 1)))).1 = .ok n ∧
      Announces (Node.oneAsk.executionsOf (.placeLimitOrder (some (Node.limitOrder "b" .sell 2 1))))
        (n.events.filterMap fun e => Node.noteOf e.body) := by
  have hg : (Go.call Go.oneAsk (.placeLimit (Go.limitInput "b" .sell 2 1))).1.isOk = true := by decide +kernel
  have hn : (Node.call Node.oneAsk (.placeLimitOrder (some (Node.limitOrder "b" .sell 2 1)))).1.isOk = true := by
    decide +kernel
  cases hr : (Go.call Go.oneAsk (.placeLimit (Go.limitInput "b" .sell 2 1))).1 with
  | error e => rw [hr] at hg; cases hg
  | ok g =>
    cases hr' : (Node.call Node.oneAsk (.placeLimitOrder (some (Node.limitOrder "b" .sell 2 1)))).1 with
    | error e => rw [hr'] at hn; cases hn
    | ok n =>
      obtain ⟨hgo, hnode⟩ := rested_orders_announced_iff Go.oneAsk_reachable hr Node.oneAsk_reachable.ran hr'
      exact ⟨g, n, rfl, hgo.mpr (by decide +kernel), rfl, hnode.mpr (by decide +kernel)⟩

/-- Sell orders rest at the prices 1 and 2, and a stop-limit order to buy two at 2 waits for the price 1. -/
def Go.twoAsksAndStopLimit : Go.Book :=
  Go.calls Go.oneAsk [.placeLimit (Go.limitInput "b" .sell 2 1),
    .placeStopLimit { Go.limitInput "s" .buy 2 2 with triggerPriceTicks := some 1 }]

/-- As `Go.twoAsksAndStopLimit`. -/
def Node.twoAsksAndStopLimit : Node.OrderBook :=
  Node.calls Node.oneAsk [.placeLimitOrder (some (Node.limitOrder "b" .sell 2 1)),
    .placeStopLimitOrder (some { Node.limitOrder "s" .buy 2 2 with triggerPriceTicks := .num (.int 1) })]

theorem Go.twoAsksAndStopLimit_reachable : Go.Reachable Go.twoAsksAndStopLimit :=
  ⟨_, _, .call (.call Go.oneAsk_run _) _⟩

theorem Node.twoAsksAndStopLimit_reachable : Node.Reachable Node.twoAsksAndStopLimit :=
  .call _ (.call _ Node.oneAsk_reachable (by decide)) (by decide +kernel)

/-- The order "c" trades at the price 1, so the stop order buys one at the price 2 and rests with the other one,
and no event says so. -/
theorem rested_order_not_announced :
    (¬ ∀ b, Go.Reachable b → ∀ c r, (Go.call b c).1 = .ok r →
      Announces (b.executionsOf c) (r.events.filterMap fun e => Go.noteOf e.body)) ∧
    (¬ ∀ b, Node.Reachable b → ∀ c r, (Node.call b c).1 = .ok r →
      Announces (b.executionsOf c) (r.events.filterMap fun e => Node.noteOf e.body)) := by
  constructor
  · intro h
    have hok : (Go.call Go.twoAsksAndStopLimit (.placeLimit (Go.limitInput "c" .buy 1 1))).1.isOk = true := by
      decide +kernel
    cases hr : (Go.call Go.twoAsksAndStopLimit (.placeLimit (Go.limitInput "c" .buy 1 1))).1 with
    | error e => rw [hr] at hok; cases hok
    | ok r =>
      have hannounces := h _ Go.twoAsksAndStopLimit_reachable _ r hr
      rw [announces_iff (Go.rests_announced_iff Go.twoAsksAndStopLimit_reachable hr)] at hannounces
      exact absurd hannounces (by decide +kernel)
  · intro h
    have hok : (Node.call Node.twoAsksAndStopLimit
        (.placeLimitOrder (some (Node.limitOrder "c" .buy 1 1)))).1.isOk = true := by decide +kernel
    cases hr : (Node.call Node.twoAsksAndStopLimit (.placeLimitOrder (some (Node.limitOrder "c" .buy 1 1)))).1 with
    | error e => rw [hr] at hok; cases hok
    | ok r =>
      have hannounces := h _ Node.twoAsksAndStopLimit_reachable _ r hr
      rw [announces_iff (Node.rests_announced_iff Node.twoAsksAndStopLimit_reachable.ran hr)] at hannounces
      exact absurd hannounces (by decide +kernel)

end Lob
