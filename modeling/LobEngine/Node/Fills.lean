import LobEngine.Node.Announcing

/-!
# The fill events of the reference engine

`createOrderFillEvent` reads the quantity of the order from a field that `OrderNode.snapshot()` does not have,
and the place methods create the event whether the order traded or not.

* `fills_agree_iff`: the fill events of a call agree with its trades, exactly if it executes no order.
-/

namespace Lob.Node

open Exc OrderBook

/-- The events that say that the order `id` was filled, in whole or in part. -/
def fillsOf (id : String) (events : List Event) : List OrderEvent :=
  events.filterMap fun e =>
    match e.body with
    | .order o => if (o.type = .orderFilled ∨ o.type = .orderPartiallyFilled) ∧ o.orderId = id then some o else none
    | _ => none

/-- What the order `id` took in these trades. -/
def taken (id : String) (trades : List Trade) : Int :=
  ((trades.filter (·.aggressorId = id)).map (·.quantity)).sum

/-- The fill events about an executed order agree with the trades in which it took. -/
structure FillsAgree (events : List Event) (trades : List Trade) (o : Order) : Prop where
  emitted : fillsOf o.orderId events ≠ [] ↔ trades.filter (·.aggressorId = o.orderId) ≠ []
  quantity : ∀ e ∈ fillsOf o.orderId events, ∃ q, e.quantity = some q ∧
    q - e.remainingQuantity = taken o.orderId trades
  whole : ∀ e ∈ fillsOf o.orderId events,
    e.type = .orderFilled ↔ taken o.orderId trades = o.initialQuantity

section

variable {b : OrderBook} {c : Call} {r : Result}

/-- The fill event of an executed order has no quantity. -/
theorem fillsOf_executed (symbol : String) (n : Int) (o : Order) (ts : List Trade) (es : List EventBody) :
    ∃ e ∈ fillsOf o.orderId (stampFrom symbol n (executedEvents o ts ++ es)), e.quantity = none := by
  have hmem : ∀ (n : Int) (A B : List EventBody), ∃ k,
      (⟨createOrderFillEvent o, some k⟩ : Event) ∈ stampFrom symbol n (A ++ createOrderFillEvent o :: B) := by
    intro n A B
    induction A generalizing n with
    | nil => exact ⟨n + 1, List.mem_cons_self ..⟩
    | cons a A ih =>
      obtain ⟨k, hk⟩ := ih (n + 1)
      exact ⟨k, List.mem_cons_of_mem _ hk⟩
  obtain ⟨k, hk⟩ := hmem n ([createOrderAcceptedEvent o] ++ createTradeCreatedEvents ts) es
  have hevents : executedEvents o ts ++ es =
      ([createOrderAcceptedEvent o] ++ createTradeCreatedEvents ts) ++ createOrderFillEvent o :: es := by
    simp [executedEvents]
  rw [hevents]
  refine ⟨{ o with
    type := if o.remainingQuantity = 0 then .orderFilled else .orderPartiallyFilled
    status := some o.status, quantity := none, orderType := o.type }, List.mem_filterMap.mpr ⟨_, hk, ?_⟩, rfl⟩
  refine if_pos ⟨?_, rfl⟩
  dsimp only
  split <;> simp

/-- The fill events of a successful call agree with its trades, exactly if it executes no order. -/
theorem fills_agree_iff (h : (call b c).1 = .ok r) :
    ∃ incoming triggered, b.executionsOf c = .ok (incoming, triggered) ∧
      ((∀ x ∈ incoming.toList ++ triggered, FillsAgree r.events (r.trades.getD []) x.order) ↔
        c.executes = false) := by
  have hrun : c.program.run b = (.ok r, (call b c).2) := Prod.ext h rfl
  -- The event of the order that the call places is enough.
  have hfails : ∀ {o : Order} {ts : List Trade} {xs : List Execution} {symbol : String} {n : Int} {es : List EventBody},
      r.events = stampFrom symbol n (executedEvents o ts ++ es) →
      ¬ ∀ x ∈ (some (Execution.mk o ts)).toList ++ xs, FillsAgree r.events (r.trades.getD []) x.order := by
    intro o ts xs symbol n es hevents hall
    obtain ⟨e, he, hnone⟩ := fillsOf_executed symbol n o ts es
    rw [← hevents] at he
    obtain ⟨q, hq, -⟩ := (hall ⟨o, ts⟩ (List.mem_cons_self ..)).quantity e he
    rw [hnone] at hq
    cases hq
  cases hc : c.executes with
  | false =>
    refine ⟨none, [], ?_, iff_of_true (by simp) rfl⟩
    cases c <;> first | rfl | cases hc
  | true =>
    cases c with
    | placeLimitOrder args =>
      obtain ⟨p, rfl, hfree, s, symbol, n, snapshot, ms, hevents⟩ := limit_steps hrun
      obtain ⟨cs, hcs, -⟩ := s.cycles fun _ => aside_restIfActive
      rw [List.append_assoc, List.append_assoc] at hevents
      exact ⟨_, _, limit_executions hfree s hcs, iff_of_false (hfails hevents) (by decide)⟩
    | placeMarketOrder args =>
      obtain ⟨p, rfl, hfree, s, symbol, n, snapshot, ms, hevents⟩ := market_steps hrun
      obtain ⟨cs, hcs, -⟩ := s.cycles fun _ => aside_cancelRemainder
      rw [List.append_assoc] at hevents
      exact ⟨_, _, market_executions hfree s hcs, iff_of_false (hfails hevents) (by decide)⟩
    | _ => cases hc

end

/-- A call that places a stop order emits no fill event. -/
theorem fills_agree_stop : ∃ r incoming triggered,
    (call oneAsk (.placeStopMarketOrder (some (stopMarketOrder "s" .sell 1 1)))).1 = .ok r ∧
    oneAsk.executionsOf (.placeStopMarketOrder (some (stopMarketOrder "s" .sell 1 1))) = .ok (incoming, triggered) ∧
    ∀ x ∈ incoming.toList ++ triggered, FillsAgree r.events (r.trades.getD []) x.order := by
  have hok : (call oneAsk (.placeStopMarketOrder (some (stopMarketOrder "s" .sell 1 1)))).1.isOk = true := by
    decide +kernel
  cases hr : (call oneAsk (.placeStopMarketOrder (some (stopMarketOrder "s" .sell 1 1)))).1 with
  | error e => rw [hr] at hok; cases hok
  | ok r =>
    obtain ⟨incoming, triggered, hx, hiff⟩ := fills_agree_iff hr
    exact ⟨r, incoming, triggered, rfl, hx, hiff.mpr rfl⟩

/-- The order that buys the resting one is filled, and its event has no quantity. -/
theorem fill_without_quantity : ∃ r incoming triggered, Reachable oneAsk ∧
    (call oneAsk (.placeLimitOrder (some (limitOrder "b" .buy 1 1)))).1 = .ok r ∧
    oneAsk.executionsOf (.placeLimitOrder (some (limitOrder "b" .buy 1 1))) = .ok (incoming, triggered) ∧
    ¬ ∀ x ∈ incoming.toList ++ triggered, FillsAgree r.events (r.trades.getD []) x.order := by
  have hevents : (call oneAsk (.placeLimitOrder (some (limitOrder "b" .buy 1 1)))).1.toOption.any
      (fun r => (fillsOf "b" r.events).any fun e => decide (e.quantity = none)) = true := by decide +kernel
  have hexecuted : (oneAsk.executionsOf (.placeLimitOrder (some (limitOrder "b" .buy 1 1)))).toOption.any
      (fun xs => (xs.1.toList ++ xs.2).any fun x => decide (x.order.orderId = "b")) = true := by decide +kernel
  cases hr : (call oneAsk (.placeLimitOrder (some (limitOrder "b" .buy 1 1)))).1 with
  | error e => rw [hr] at hevents; cases hevents
  | ok r =>
    cases hx : oneAsk.executionsOf (.placeLimitOrder (some (limitOrder "b" .buy 1 1))) with
    | error e => rw [hx] at hexecuted; cases hexecuted
    | ok xs =>
      refine ⟨r, xs.1, xs.2, oneAsk_reachable, rfl, rfl, fun hall => ?_⟩
      rw [hr] at hevents
      rw [hx] at hexecuted
      obtain ⟨e, he, hnone⟩ := List.any_eq_true.mp hevents
      obtain ⟨x, hx, hid⟩ := List.any_eq_true.mp hexecuted
      rw [← of_decide_eq_true hid] at he
      obtain ⟨q, hq, -⟩ := (hall x hx).quantity e he
      rw [of_decide_eq_true hnone] at hq
      cases hq

end Lob.Node
