import LobEngine.Engines.Calls

/-!
# The two engines agree

`engines_agree`: the same well-formed commands, run on an empty book of each engine, give the same
results, and after each command the two books show the same snapshots.

* `SameOutcome`, `SameBook`: what the engines agree on.
* `Linked`: the two books represent views with the same content.
-/

namespace Lob

/-- The two engines return the same order, trades and triggered orders; a cancel has no trades. -/
structure SameResult (r : Node.Result) (r' : Go.Result) : Prop where
  order : r.order = r'.order.js
  trades : r.trades.getD [] = r'.trades
  triggeredOrders : r.triggeredOrders.getD [] = r'.triggeredOrders.map Go.StopOrder.js

/-- Both engines accept with the same result, or both reject. -/
def SameOutcome : Except Node.JsError Node.Result → Except Go.GoError Go.Result → Prop
  | .ok r, .ok r' => SameResult r r'
  | .error _, .error _ => True
  | _, _ => False

structure SameBook (b : Node.OrderBook) (b' : Go.Book) : Prop where
  snapshot : b.snapshot = b'.snapshot.js
  recoverySnapshot : ∀ id, b.toRecoverySnapshot id = (b'.recoverySnapshot id).js

/-- The outcomes of calls made one after the other, each with the book after it. -/
def Node.steps (b : OrderBook) : List Call → List (Except JsError Result × OrderBook)
  | [] => []
  | c :: cs => call b c :: Node.steps (call b c).2 cs

variable {price amount : Int → Prop} {b : Node.OrderBook} {b' : Go.Book} {F : Side → List Node.NodeRef}
  {v : Node.View} {w : Go.View}

/-! ## Snapshots -/

/-- The total of a level is exact. -/
theorem total_exact (h : v.Ok) (hr : v.toDepth.Rests) (s : Side) (k : Int) :
    Go.View.total ((v.side s).filter (·.price = k)) =
      (((v.side s).filter (·.price = k)).map (·.remainingQuantity)).sum := by
  have hnonneg : ∀ t, ∀ n ∈ (v.side t).map (·.remainingQuantity), 0 ≤ n := by
    intro t n hn
    obtain ⟨x, hx, rfl⟩ := List.mem_map.mp hn
    exact (hr.remaining hx).le
  have hsub := (List.filter_sublist (p := fun o : Order => decide (o.price = k)) (l := v.side s)).map
    (·.remainingQuantity)
  have hle := hsub.sum_le_sum (hnonneg s)
  have h₀ := List.sum_nonneg fun n hn => hnonneg s n (hsub.subset hn)
  have hopp := List.sum_nonneg (hnonneg s.opposite)
  have hq := v.quantity_eq s
  have := v.quantity_le_open
  have := h.exact
  exact Go.wrap64_exact (by unfold Num.maxExact; omega) (by omega)

theorem Related.snapshot (h : Related price amount v w) (hv : v.Ok) (hr : v.toDepth.Rests) :
    v.snapshot = w.snapshot.js := by
  have hlevels : ∀ s, Node.View.levelSnapshots (v.side s) =
      (Go.View.levels Go.View.levelSnapshot (w.side s)).map Go.PriceLevelSnapshot.js := by
    intro s
    rw [← h.depth]
    unfold Node.View.levelSnapshots Go.View.levels
    rw [List.map_map]
    refine List.map_congr_left fun k _ => ?_
    simp only [Function.comp_apply, Go.View.levelSnapshot, Go.PriceLevelSnapshot.js, total_exact hv hr]
  have hbids := hlevels .buy
  have hasks := hlevels .sell
  simp only [Depth.side] at hbids hasks
  unfold Node.View.snapshot Go.View.snapshot Go.BookSnapshot.js
  rw [hbids, hasks]
  simp only [h.symbol, h.sequence, h.last, h.stops, OMap.values_rename, h.depth]

theorem Related.recoverySnapshot (h : Related price amount v w) (hv : v.Ok) (hr : v.toDepth.Rests)
    (id : Option String) : v.toRecoverySnapshot id = (w.recoverySnapshot id).js := by
  have hlevels : ∀ s, Node.View.recoveryLevels (v.side s) =
      (Go.View.levels Go.View.recoveryLevel (w.side s)).map Go.RecoveryPriceLevel.js := by
    intro s
    rw [← h.depth]
    unfold Node.View.recoveryLevels Go.View.levels
    rw [List.map_map]
    refine List.map_congr_left fun k _ => ?_
    simp only [Function.comp_apply, Go.View.recoveryLevel, Go.RecoveryPriceLevel.js, total_exact hv hr]
  have hbids := hlevels .buy
  have hasks := hlevels .sell
  simp only [Depth.side] at hbids hasks
  unfold Node.View.toRecoverySnapshot Go.View.recoverySnapshot Go.RecoverySnapshot.js
  rw [hbids, hasks]
  simp only [h.symbol, h.sequence, h.last, h.stops, OMap.values_rename]

/-! ## Runs -/

/-- The two books represent views with the same content. -/
structure Linked (price amount : Int → Prop) (b : Node.OrderBook) (b' : Go.Book) (F : Side → List Node.NodeRef)
    (v : Node.View) (w : Go.View) : Prop where
  node : Node.Repr b F v
  ok : v.Ok
  go : Go.Good b' w
  related : Related price amount v w

theorem Linked.sameBook (h : Linked price amount b b' F v w) : SameBook b b' := by
  obtain ⟨⟨F', hgo⟩, -⟩ := h.go
  refine ⟨?_, fun id => ?_⟩
  · rw [h.node.snapshot_eq, hgo.snapshot_eq, h.related.snapshot h.ok h.node.rests]
  · rw [h.node.toRecoverySnapshot_eq, hgo.recoverySnapshot_eq, h.related.recoverySnapshot h.ok h.node.rests]

/-- One command keeps the books linked. -/
theorem Linked.step (h : Linked price amount b b' F v w) (hex : SumsExact price amount) {c : Command}
    (hc : c.WellFormed) (hp : ∀ n, c.price = some n → price n)
    (ha : ∀ a, c.amount = some a → 0 < a → amount a) (hq : Node.Exact b c.node) :
    SameOutcome (Node.call b c.node).1 (Go.call b' c.go).1 ∧
      ∃ F₁ v₁ w₁, Linked price amount (Node.call b c.node).2 (Go.call b' c.go).2 F₁ v₁ w₁ := by
  rw [Node.Exact, h.node.openQuantity_eq] at hq
  obtain ⟨hout, ⟨F₁, hrepr⟩, hok, -⟩ := Node.call_refines c.node h.node h.ok hq
  obtain ⟨hout', hgood⟩ := Go.call_refines c.go h.go
  have hboth := program_lockstep hex h.related hc hp ha
  have hshown := fun r => @Node.call_shown b F v c.node h.node h.ok hq r
  unfold Exc.Both at hboth
  rcases hm : (Node.Spec.program c.node).run v with ⟨e | o, x⟩ <;>
    rcases hm' : (Go.Spec.program c.go).run w with ⟨e' | r', y⟩ <;>
    rw [hm, hm'] at hboth <;> rw [hm] at hout hrepr hok hshown <;> rw [hm'] at hout' hgood
  · refine ⟨?_, F₁, x, y, hrepr, hok, hgood, hboth⟩
    cases hn : (Node.call b c.node).1 with
    | error e₁ => rw [hout']; trivial
    | ok r => rw [hn] at hout; cases hout
  · exact hboth.elim
  · exact hboth.elim
  · refine ⟨?_, F₁, x, y, hrepr, hok, hgood, hboth.related⟩
    cases hn : (Node.call b c.node).1 with
    | error e₁ => rw [hn] at hout; cases hout
    | ok r =>
      rw [hn] at hout
      obtain rfl : r.outcome = o := Except.ok.inj hout
      rw [hout']
      have htrades : r.trades.getD [] = r'.trades := hboth.trades
      have horder := hshown r hn
      rw [htrades, hboth.order] at horder
      exact ⟨(Option.some.inj horder).symm, htrades, hboth.triggered⟩

theorem Linked.steps (hex : SumsExact price amount) {cs : List Command} (hcs : ∀ c ∈ cs, c.WellFormed)
    (hp : ∀ c ∈ cs, ∀ n, c.price = some n → price n)
    (ha : ∀ c ∈ cs, ∀ a, c.amount = some a → 0 < a → amount a)
    (h : Linked price amount b b' F v w) (hq : Node.ExactRun b (cs.map Command.node)) :
    List.Forall₂ (fun x y => SameOutcome x.1 y.1 ∧ SameBook x.2 y.2)
      (Node.steps b (cs.map Command.node)) (Go.steps b' (cs.map Command.go)) := by
  induction cs generalizing b b' F v w with
  | nil => exact .nil
  | cons c cs ih =>
    obtain ⟨hout, F₁, v₁, w₁, h₁⟩ := h.step hex (hcs c List.mem_cons_self) (hp c List.mem_cons_self)
      (ha c List.mem_cons_self) hq.1
    exact .cons ⟨hout, h₁.sameBook⟩ (ih (fun d hd => hcs d (List.mem_cons_of_mem _ hd))
      (fun d hd => hp d (List.mem_cons_of_mem _ hd)) (fun d hd => ha d (List.mem_cons_of_mem _ hd)) h₁ hq.2)

/-- On empty books with the same symbol and clock, the two engines give the same results for the same
well-formed commands, and show the same books after each of them, as long as all sums are exact. -/
theorem engines_agree {symbol : String} (hnode : Node.isBlank symbol = false)
    (hgo : Go.isBlank symbol = false) (clock : Clock) {cs : List Command}
    (hcs : ∀ c ∈ cs, c.WellFormed)
    (hsums : ∀ c ∈ cs, ∀ d ∈ cs, ∀ p a, c.price = some p → d.amount = some a → p + a ≤ Num.maxExact)
    (hexact : Node.ExactRun (.new symbol clock) (cs.map Command.node)) :
    List.Forall₂ (fun x y => SameOutcome x.1 y.1 ∧ SameBook x.2 y.2)
      (Node.steps (.new symbol clock) (cs.map Command.node))
      (Go.steps (.empty symbol clock) (cs.map Command.go)) := by
  have hsums : SumsExact (fun p => ∃ c ∈ cs, c.price = some p) fun a => 0 < a ∧ ∃ d ∈ cs, d.amount = some a := by
    rintro p a ⟨c, hc, hp⟩ ⟨hpos, d, hd, ha⟩
    exact ⟨(hcs c hc).price p hp, hpos, hsums c hc d hd p a hp ha⟩
  refine Linked.steps hsums hcs (fun c hc n hn => ⟨c, hc, hn⟩) (fun c hc a ha hpos => ⟨hpos, c, hc, ha⟩)
    ⟨Node.repr_new symbol clock, Node.ok_new clock hnode, Go.good_empty clock hgo, ?_⟩ hexact
  exact ⟨rfl, rfl, rfl, rfl, rfl, rfl, hnode, by simp [Go.View.empty, OMap.values, OMap.empty],
    by simp [Go.View.empty, Depth.orders, Depth.empty], fun p hp => by cases hp⟩

/-- A placement of user `u`. -/
def placementOf (orderId : String) (side : Side) (quantity : Int) : Placement :=
  ⟨orderId, "u", side, quantity, 0⟩

/-- A trade, and then a trailing stop order behind it that is cancelled. -/
def trailedTrade : List Command :=
  [.limit (placementOf "a" .sell 2) 10, .market (placementOf "b" .buy 1),
    .trailingStopMarket (placementOf "c" .sell 1) 3, .cancel "c"]

theorem trailedTrade_wellFormed : ∀ c ∈ trailedTrade, c.WellFormed := by
  have hp : ∀ p : Placement, p ∈ trailedTrade.filterMap Command.placement → p.WellFormed := by
    intro p hp
    simp only [trailedTrade, List.filterMap, Command.placement, List.mem_cons, List.not_mem_nil, or_false] at hp
    rcases hp with rfl | rfl | rfl <;> exact ⟨by decide, by decide, by decide, by decide⟩
  intro c hc
  refine ⟨fun p h => hp p (List.mem_filterMap.mpr ⟨c, hc, h⟩), fun n hn => ?_⟩
  simp only [trailedTrade, List.mem_cons, List.not_mem_nil, or_false] at hc
  rcases hc with rfl | rfl | rfl | rfl <;> cases hn
  decide

theorem engines_agree_trailedTrade :
    List.Forall₂ (fun x y => SameOutcome x.1 y.1 ∧ SameBook x.2 y.2)
      (Node.steps (.new "BTC-USD" fun _ => 0) (trailedTrade.map Command.node))
      (Go.steps (.empty "BTC-USD" fun _ => 0) (trailedTrade.map Command.go)) := by
  refine engines_agree (by decide) (by decide) _ trailedTrade_wellFormed ?_ (by decide +kernel)
  intro c hc d hd p a hp ha
  simp only [trailedTrade, List.mem_cons, List.not_mem_nil, or_false] at hc hd
  rcases hc with rfl | rfl | rfl | rfl <;> cases hp
  rcases hd with rfl | rfl | rfl | rfl <;> cases ha
  decide

end Lob
