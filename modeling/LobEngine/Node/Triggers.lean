import LobEngine.Node.Pending

/-!
# Which stop orders a call triggers

* `stop_cascade_exact`: a placement that returns triggers each stop order at most once, at a price that
  reaches its trigger, in the order of placement within a cycle; those that stay are not eligible at the
  last price.
* `stop_stays_iff`: a stop order stays, exactly if the last trade of no batch reaches it. A trade before the
  last one of its batch triggers nothing (`stop_jumped`).

Both follow the cycles of the cascade (`Cascaded`).
-/

namespace Lob.Node

open Exc OrderBook

/-- The steps of a placement that returned: the new order `x` is matched, its remainder is settled, and the
trades start a cascade. -/
structure Steps (b b' : OrderBook) (i : OrderInput) (ignore : Bool) (settle : NodeRef → Program Unit)
    (r : Result) where
  x : NodeRef
  ts : List Trade
  t : Triggered
  created : OrderBook
  matched : OrderBook
  settled : OrderBook
  cascaded : OrderBook
  create : (newOrderNode i).run b = (.ok x, created)
  matching : (matchBySide x ignore).run created = (.ok ts, matched)
  settling : (settle x).run matched = (.ok (), settled)
  cascading : (cascade maxCycles ts).run settled = (.ok t, cascaded)
  stops : b'.stopOrdersById = cascaded.stopOrdersById
  last : b'.lastTradePriceTicks = cascaded.lastTradePriceTicks
  recorded : b'.trades = cascaded.trades
  heap : b'.toHeap = cascaded.toHeap
  arrivals : b'.arrivals = cascaded.arrivals
  trades : r.trades = some (ts ++ t.trades)
  orders : r.triggeredOrders = some t.orders

def limitInput (b : OrderBook) (p : Payload) : OrderInput :=
  { p with symbol := b.symbol, type := .limit, clock := false }

def marketInput (b : OrderBook) (p : Payload) : OrderInput :=
  { p with symbol := b.symbol, type := .market, priceTicks := .null, clock := false }

/-- The events of an order `o` that made the trades `ts`, up to the event of the book. -/
def executedEvents (o : Order) (ts : List Trade) : List EventBody :=
  [createOrderAcceptedEvent o] ++ createTradeCreatedEvents ts ++ [createOrderFillEvent o]

/-- The event of an order that rests. -/
def restedEvents (o : Order) : List EventBody :=
  if o.isActive = true ∧ 0 < o.remainingQuantity then [createOrderRestedEvent o] else []

section

variable {b b' : OrderBook} {c : Call} {r : Result} {p : Payload}

theorem limit_steps {args : Option Payload} (h : (placeLimitOrder args).run b = (.ok r, b')) :
    ∃ p, args = some p ∧ (assertOrderIdAvailable p.orderId).run b = (.ok (), b) ∧
    ∃ s : Steps b b' (limitInput b p) false restIfActive r, ∃ symbol n snapshot ms,
      r.events = stampFrom symbol n (executedEvents (s.matched.order s.x) s.ts ++
        restedEvents (s.matched.order s.x) ++ [.bookUpdated none snapshot ms] ++ s.t.events) := by
  obtain ⟨p, rfl, hfree, h⟩ := placed_ok h
  refine ⟨p, rfl, hfree, ?_⟩
  rw [run_get_bind] at h
  obtain ⟨x, b₁, h₁, h⟩ := bind_ok h
  obtain ⟨ts, b₂, h₂, h⟩ := bind_ok h
  rw [run_get_bind] at h
  obtain ⟨_, b₃, h₃, h⟩ := bind_ok h
  obtain ⟨t, b₄, h₄, h⟩ := bind_ok h
  obtain ⟨u, b₅, h₅, h⟩ := bind_ok h
  cases h₅
  obtain ⟨es, b₆, h₆, h⟩ := bind_ok h
  cases h₆
  cases h
  exact ⟨⟨x, ts, t, b₁, b₂, b₃, b₄, h₁, h₂, h₃, h₄, rfl, rfl, rfl, rfl, rfl, rfl, rfl⟩, _, _, _, _, rfl⟩

theorem market_steps {args : Option Payload} (h : (placeMarketOrder args).run b = (.ok r, b')) :
    ∃ p, args = some p ∧ (assertOrderIdAvailable p.orderId).run b = (.ok (), b) ∧
    ∃ s : Steps b b' (marketInput b p) true cancelRemainder r, ∃ symbol n snapshot ms,
      r.events = stampFrom symbol n (executedEvents (s.settled.order s.x) s.ts ++ s.t.events ++
        [.bookUpdated none snapshot ms]) := by
  obtain ⟨p, rfl, hfree, h⟩ := placed_ok h
  refine ⟨p, rfl, hfree, ?_⟩
  rw [run_get_bind] at h
  obtain ⟨x, b₁, h₁, h⟩ := bind_ok h
  obtain ⟨ts, b₂, h₂, h⟩ := bind_ok h
  obtain ⟨_, b₃, h₃, h⟩ := bind_ok h
  rw [run_get_bind] at h
  obtain ⟨t, b₄, h₄, h⟩ := bind_ok h
  obtain ⟨u, b₅, h₅, h⟩ := bind_ok h
  cases h₅
  obtain ⟨es, b₆, h₆, h⟩ := bind_ok h
  cases h₆
  cases h
  exact ⟨⟨x, ts, t, b₁, b₂, b₃, b₄, h₁, h₂, h₃, h₄, rfl, rfl, rfl, rfl, rfl, rfl, rfl⟩, _, _, _, _, rfl⟩

/-- What a call that places a limit order or a market order did. -/
structure Executes (b b' : OrderBook) (c : Call) (r : Result) (ts : List Trade) (cs : List Cycle) : Prop where
  cycles : b.cyclesOf c = .ok cs
  trades : r.trades = some (cs.flatMap (·.batch))
  triggered : r.triggeredOrders = some ((firedIn cs).map (·.stop))
  cascaded : Cascaded b.stopOrdersById b.lastTradePriceTicks ts cs b'.stopOrdersById b'.lastTradePriceTicks
  recorded : b'.trades = b.trades ++ cs.flatMap (·.batch)

theorem Steps.executes {i : OrderInput} {ignore : Bool} {settle : NodeRef → Program Unit}
    (s : Steps b b' i ignore settle r) (haside : ∀ x, Keeps (Aside b) (settle x))
    (htraded : ∀ ts x, Keeps (Traded ts) (settle x))
    (hc : b.cyclesOf c = (Exc.run (do
      let x ← newOrderNode i
      let ts ← matchBySide x ignore
      settle x
      Node.cycles maxCycles ts) b).1) :
    ∃ cs, Executes b b' c r s.ts cs ∧ s.t = triggeredOf (firedIn cs) := by
  obtain ⟨x, ts, t, b₁, b₂, b₃, b₄, h₁, h₂, h₃, h₄, hstops, hlast, hrecorded, -, -, htrades, horders⟩ := s
  obtain ⟨cs, hcs, rfl⟩ := cascade_cycles h₄
  obtain ⟨hcas, hrec⟩ := cycles_cascaded hcs
  have ha₁ : Aside b b₁ := aside_newOrderNode.of_run (.refl b) h₁
  have ha₃ : Aside b b₃ := (haside x).of_run ((aside_matchBySide ignore).of_run ha₁ h₂) h₃
  have ht₁ : Traded b.trades b₁ := traded_newOrderNode.of_run rfl h₁
  have ht₂ : Traded (b.trades ++ ts) b₂ := by
    rw [Traded, matchBySide_trades h₂, show b₁.trades = b.trades from ht₁]
  have ht₃ : Traded (b.trades ++ ts) b₃ := (htraded _ x).of_run ht₂ h₃
  have hbatch := hcas.trades
  rw [ha₃.stops, ha₃.last, ← hstops, ← hlast] at hcas
  refine ⟨cs, ⟨?_, ?_, horders, hcas, ?_⟩, rfl⟩
  · rw [hc, run_bind_ok h₁, run_bind_ok h₂, run_bind_ok h₃, hcs]
  · rw [htrades, hbatch]
    rfl
  · rw [hrecorded, hrec, show b₃.trades = b.trades ++ ts from ht₃, hbatch, List.append_assoc]

theorem executes (h : (call b c).1 = .ok r) (hc : c.executes = true) :
    ∃ ts cs, Executes b (call b c).2 c r ts cs := by
  have hrun : c.program.run b = (.ok r, (call b c).2) := Prod.ext h rfl
  cases c with
  | placeLimitOrder args =>
    obtain ⟨p, rfl, hfree, s, -⟩ := limit_steps hrun
    obtain ⟨cs, hcs, -⟩ := s.executes (c := .placeLimitOrder (some p)) (fun _ => aside_restIfActive)
      (fun _ _ => traded_restIfActive) (by rw [OrderBook.cyclesOf, run_bind_ok hfree]; rfl)
    exact ⟨s.ts, cs, hcs⟩
  | placeMarketOrder args =>
    obtain ⟨p, rfl, hfree, s, -⟩ := market_steps hrun
    obtain ⟨cs, hcs, -⟩ := s.executes (c := .placeMarketOrder (some p)) (fun _ => aside_cancelRemainder)
      (fun _ _ => traded_cancelRemainder) (by rw [OrderBook.cyclesOf, run_bind_ok hfree]; rfl)
    exact ⟨s.ts, cs, hcs⟩
  | _ => cases hc

/-! ## Eligible stop orders -/

/-- The price is at or beyond the trigger of the stop order: not below that of a BUY order, and not above that of a SELL
order. -/
def reaches (price : Int) (s : StopOrder) : Bool :=
  s.triggerPriceTicks.toNumber.any fun t =>
    decide (s.side = .str "BUY") && t.le (.int price) || decide (s.side = .str "SELL") && (Num.int price).le t

/-- The engine compares the price with the trigger so. -/
theorem isEligible_reaches {price : Int} {s : StopOrder} {e : Bool} (h : isEligible price s = .ok e) :
    reaches price s = e := by
  unfold isEligible at h
  rw [show sideText .buy = "BUY" from rfl, show sideText .sell = "SELL" from rfl] at h
  unfold reaches
  cases ht : s.triggerPriceTicks.toNumber with
  | none =>
    rw [ht] at h
    split at h
    · cases h
    · split at h
      · cases h
      · exact Except.ok.inj h
  | some t =>
    rw [ht] at h
    by_cases hbuy : s.side = .str "BUY"
    · rw [if_pos hbuy] at h
      simpa [hbuy] using Except.ok.inj h
    · rw [if_neg hbuy] at h
      by_cases hsell : s.side = .str "SELL"
      · rw [if_pos hsell] at h
        simpa [hsell] using Except.ok.inj h
      · rw [if_neg hsell] at h
        simpa [hbuy, hsell] using Except.ok.inj h

theorem eligibleOf_ok {last : Int} {L es : List StopOrder} (h : eligibleOf last L = .ok es) :
    (∀ s ∈ L, isEligible last s = .ok (reaches last s)) ∧ es = L.filter (reaches last) := by
  induction L generalizing es with
  | nil =>
    cases h
    exact ⟨by simp, rfl⟩
  | cons s L ih =>
    unfold eligibleOf at h
    obtain ⟨e, he, h⟩ := except_bind_ok.mp h
    obtain ⟨es', hes, h⟩ := except_bind_ok.mp h
    obtain ⟨hall, rfl⟩ := ih hes
    have hs : reaches last s = e := isEligible_reaches he
    refine ⟨fun x hx => ?_, ?_⟩
    · rcases List.mem_cons.mp hx with rfl | hx
      · rw [hs]
        exact he
      · exact hall x hx
    · rw [List.filter_cons, hs]
      obtain rfl := Except.ok.inj h
      rfl

/-- What a stop order was placed with, but for what the engine computes of a trailing one. -/
def StopOrder.placed (s : StopOrder) : StopOrder :=
  { s with
    status := .opened
    triggerPriceTicks := if s.type = .trailingStopMarket then .undefined else s.triggerPriceTicks
    peakPriceTicks := none
    valleyPriceTicks := none }

theorem placed_trail (last : Int) (s : StopOrder) : (trail last s).placed = s.placed := by
  unfold trail
  by_cases ht : s.type = .trailingStopMarket
  · split_ifs <;> simp [StopOrder.placed, ht]
  · rw [if_pos ht]

theorem keyed_values {m : OMap JsVal StopOrder} (h : Keyed m) : m.values.map (·.orderId) = m.keys := by
  unfold OMap.values OMap.keys
  rw [List.map_map]
  exact List.map_congr_left fun e he => h e.1 e.2 (OMap.mem_entries.mp he)

theorem keyed_without {m : OMap JsVal StopOrder} (h : Keyed m) (es : List StopOrder) : Keyed (without es m) := by
  induction es generalizing m with
  | nil => exact h
  | cons s es ih => exact ih (keyed_dwindling.delete m s.orderId h)

theorem values_without {m : OMap JsVal StopOrder} (h : Keyed m) (es : List StopOrder) :
    (without es m).values = m.values.filter fun s => decide (s.orderId ∉ es.map (·.orderId)) := by
  induction es generalizing m with
  | nil => simp [without]
  | cons e es ih =>
    have hdel : (m.delete e.orderId).values = m.values.filter fun s => decide (s.orderId ≠ e.orderId) := by
      unfold OMap.values OMap.delete
      rw [List.filter_map]
      congr 1
      refine List.filter_congr fun x hx => ?_
      have := h x.1 x.2 (OMap.mem_entries.mp hx)
      simp [this]
    show (without es (m.delete e.orderId)).values = _
    rw [ih (keyed_dwindling.delete m e.orderId h), hdel, List.filter_filter]
    refine List.filter_congr fun x _ => ?_
    rw [← Bool.decide_and, List.map_cons]
    exact decide_eq_decide.mpr (by rw [List.mem_cons, not_or, and_comm])

theorem keyed_get {m : OMap JsVal StopOrder} (h : Keyed m) {k : JsVal} {s : StopOrder} :
    m.get? k = some s ↔ s ∈ m.values ∧ s.orderId = k := by
  refine ⟨fun hs => ⟨OMap.mem_values.mpr ⟨k, hs⟩, h k s hs⟩, fun ⟨hs, hid⟩ => ?_⟩
  obtain ⟨k', hs⟩ := OMap.mem_values.mp hs
  rw [← hid, h k' s hs]
  exact hs

/-- The eligible stop orders are triggered, and the others stay. -/
theorem values_eligible {m : OMap JsVal StopOrder} (h : Keyed m) {last : Int} {es : List StopOrder}
    (he : eligibleOf last m.values = .ok es) :
    (without es m).values = m.values.filter fun s => !reaches last s := by
  obtain ⟨-, rfl⟩ := eligibleOf_ok he
  rw [values_without h]
  refine List.filter_congr fun s hs => ?_
  -- A pending stop order is the only one with its id.
  have hmem : s.orderId ∈ (m.values.filter (reaches last)).map (·.orderId) ↔ reaches last s = true := by
    refine ⟨fun hid => ?_, fun hr => List.mem_map_of_mem (List.mem_filter.mpr ⟨hs, hr⟩)⟩
    obtain ⟨s', hs', hid⟩ := List.mem_map.mp hid
    obtain ⟨hs', hr⟩ := List.mem_filter.mp hs'
    have heq : some s' = some s := by
      rw [← (keyed_get h).mpr ⟨hs', rfl⟩, hid, (keyed_get h).mpr ⟨hs, rfl⟩]
    rw [← Option.some.inj heq]
    exact hr
  simp only [hmem, Bool.not_eq_true, Bool.decide_eq_false]

theorem reaches_triggered (last : Int) (s : StopOrder) :
    reaches last { s with status := .triggered } = reaches last s := rfl

namespace Cascaded

variable {m m' : OMap JsVal StopOrder} {last last' : Option Int} {ts : List Trade} {cs : List Cycle}

theorem keyed (h : Cascaded m last ts cs m' last') (hm : Keyed m) : Keyed m' := by
  induction h with
  | idle => exact hm
  | quiet final eligible => exact keyed_dwindling.trail _ _ hm
  | fire final eligible stops rest ih => exact ih (keyed_without (keyed_dwindling.trail _ _ hm) _)

/-- Each stop order that was pending is still pending or was triggered. -/
theorem partition (h : Cascaded m last ts cs m' last') (hm : Keyed m) :
    (m.values.map StopOrder.placed).Perm
      (m'.values.map StopOrder.placed ++ (firedIn cs).map fun f => f.stop.placed) := by
  have htrail : ∀ (m : OMap JsVal StopOrder) (price : Int),
      m.values.map StopOrder.placed = (m.mapValues (trail price)).values.map StopOrder.placed := by
    intro m price
    rw [OMap.values_mapValues, List.map_map]
    exact List.map_congr_left fun s _ => (placed_trail price s).symm
  induction h with
  | idle => simp [firedIn]
  | @quiet m last batch t final eligible =>
    rw [htrail m t.priceTicks]
    simp [firedIn]
  | @fire m m' last last' batch t es fs cs final eligible stops rest ih =>
    have hkeyed := keyed_dwindling.trail m t.priceTicks hm
    have ih := ih (keyed_without hkeyed es)
    rw [values_eligible hkeyed eligible] at ih
    have hfired : fs.map (fun f => f.stop.placed) = es.map StopOrder.placed := by
      calc fs.map (fun f => f.stop.placed) = (fs.map (·.stop)).map StopOrder.placed := by rw [List.map_map]; rfl
        _ = es.map StopOrder.placed := by rw [stops, List.map_map]; rfl
    rw [htrail m t.priceTicks, show firedIn (⟨batch, fs⟩ :: cs) = fs ++ firedIn cs from rfl, List.map_append,
      hfired]
    -- The eligible ones first, then those that stay.
    have hsplit := (List.filter_append_perm (reaches t.priceTicks)
      (m.mapValues (trail t.priceTicks)).values).map StopOrder.placed
    rw [List.map_append, ← (eligibleOf_ok eligible).2] at hsplit
    refine hsplit.symm.trans ((List.Perm.append_left _ ih).trans ?_)
    rw [← List.append_assoc, ← List.append_assoc]
    exact List.Perm.append_right _ List.perm_append_comm

/-- The stop orders that are triggered or still pending have different ids. -/
theorem ids_nodup (h : Cascaded m last ts cs m' last') (hm : Keyed m) :
    (m'.keys ++ (firedIn cs).map fun f => f.stop.orderId).Nodup := by
  have hperm := (h.partition hm).map (·.orderId)
  rw [List.map_append, List.map_map, List.map_map, List.map_map] at hperm
  have hbefore : m.values.map ((fun s : StopOrder => s.orderId) ∘ StopOrder.placed) = m.keys := keyed_values hm
  have hafter : m'.values.map ((fun s : StopOrder => s.orderId) ∘ StopOrder.placed) = m'.keys :=
    keyed_values (h.keyed hm)
  rw [hbefore, hafter] at hperm
  exact hperm.nodup_iff.mp m.keys_nodup

theorem firedKeys {es : List StopOrder} {fs : List Firing} {m : OMap JsVal StopOrder} (hm : Keyed m)
    {price : Int} (eligible : eligibleOf price m.values = .ok es)
    (stops : fs.map (·.stop) = es.map (fun s => { s with status := .triggered })) :
    (fs.map fun f => f.stop.orderId).Sublist m.keys := by
  have hfired : fs.map (fun f => f.stop.orderId) = es.map (·.orderId) := by
    calc fs.map (fun f => f.stop.orderId) = (fs.map (·.stop)).map (·.orderId) := by rw [List.map_map]; rfl
      _ = es.map (·.orderId) := by rw [stops, List.map_map]; rfl
  rw [hfired, (eligibleOf_ok eligible).2, ← keyed_values hm]
  exact List.filter_sublist.map _

/-- The stop orders of a cycle are triggered in the order of the pending ones. -/
theorem sublist (h : Cascaded m last ts cs m' last') (hm : Keyed m) :
    ∀ c ∈ cs, (c.fired.map fun f => f.stop.orderId).Sublist m.keys := by
  induction h with
  | idle => simp
  | quiet final eligible => simp
  | @fire m m' last last' batch t es fs cs final eligible stops rest ih =>
    have hkeyed := keyed_dwindling.trail m t.priceTicks hm
    intro c hc
    rcases List.mem_cons.mp hc with rfl | hc
    · have := firedKeys hkeyed eligible stops
      rwa [OMap.keys_mapValues] at this
    · refine (ih (keyed_without hkeyed es) c hc).trans ?_
      rw [← keyed_values (keyed_without hkeyed es), values_without hkeyed, ← OMap.keys_mapValues (trail t.priceTicks) m,
        ← keyed_values hkeyed]
      exact List.filter_sublist.map _

/-- A cycle has a last trade, and its price reaches the triggers of the stop orders of the cycle. -/
theorem reached (h : Cascaded m last ts cs m' last') :
    ∀ c ∈ cs, ∃ t, c.batch.getLast? = some t ∧ ∀ f ∈ c.fired, reaches t.priceTicks f.stop = true := by
  induction h with
  | idle => simp
  | @quiet m last batch t final eligible =>
    intro c hc
    obtain rfl := List.mem_singleton.mp hc
    exact ⟨t, final, by simp⟩
  | @fire m m' last last' batch t es fs cs final eligible stops rest ih =>
    intro c hc
    rcases List.mem_cons.mp hc with rfl | hc
    · refine ⟨t, final, fun f hf => ?_⟩
      have hstop : f.stop ∈ fs.map (·.stop) := List.mem_map_of_mem hf
      rw [stops, (eligibleOf_ok eligible).2] at hstop
      obtain ⟨s, hs, hf⟩ := List.mem_map.mp hstop
      rw [← hf, reaches_triggered]
      exact (List.mem_filter.mp hs).2
    · exact ih c hc

/-- At the end the last price is that of the last trade, and it reaches no pending trigger. -/
theorem quiescent (h : Cascaded m last ts cs m' last') (hm : Keyed m) {t : Trade}
    (ht : (cs.flatMap (·.batch)).getLast? = some t) :
    last' = some t.priceTicks ∧ ∀ s ∈ m'.values, reaches t.priceTicks s = false := by
  induction h with
  | idle => cases ht
  | @quiet m last batch u final eligible =>
    rw [List.flatMap_cons, List.flatMap_nil, List.append_nil, final] at ht
    obtain rfl := Option.some.inj ht
    refine ⟨rfl, fun s hs => ?_⟩
    have := (eligibleOf_ok eligible).2
    rw [eq_comm, List.filter_eq_nil_iff] at this
    exact Bool.eq_false_iff.mpr (this s hs)
  | @fire m m' last last' batch u es fs cs final eligible stops rest ih =>
    have hkeyed := keyed_dwindling.trail m u.priceTicks hm
    rw [List.flatMap_cons, List.getLast?_append] at ht
    cases hrest : (cs.flatMap (·.batch)).getLast? with
    | some v =>
      rw [hrest] at ht
      obtain rfl := Option.some.inj ht
      exact ih (keyed_without hkeyed es) hrest
    | none =>
      rw [hrest, Option.none_or, final] at ht
      obtain rfl := Option.some.inj ht
      -- The stop orders that were triggered did not trade.
      have hnone : fs.flatMap (·.trades) = [] := by
        have := rest.trades
        rw [List.getLast?_eq_none_iff.mp hrest, eq_comm, List.append_eq_nil_iff] at this
        exact this.1
      rw [hnone] at rest
      cases rest with
      | idle =>
        refine ⟨rfl, fun s hs => ?_⟩
        rw [values_eligible hkeyed eligible, List.mem_filter] at hs
        exact (Bool.not_eq_true' _).mp hs.2
      | quiet final _ => cases final
      | fire final _ _ _ => cases final

end Cascaded

/-! ## What a call triggers -/

/-- What a placement does to the pending stop orders, cycle by cycle: its trades are the batches, and
the last trade of a batch triggers the stop orders of the cycle. -/
structure CascadeExact (b b' : OrderBook) (ps : List Placement) (r : Result) (cs : List Cycle) : Prop where
  trades : r.trades = some (cs.flatMap (·.batch))
  triggered : r.triggeredOrders = some ((firedIn cs).map (·.stop))
  partition : (b.stopOrdersById.values.map StopOrder.placed).Perm
    (b'.stopOrdersById.values.map StopOrder.placed ++ (firedIn cs).map fun f => f.stop.placed)
  once : ((firedIn cs).map fun f => f.stop.orderId).Nodup
  gone : ∀ f ∈ firedIn cs, b'.stopOrdersById.get? f.stop.orderId = none
  reached : ∀ c ∈ cs, ∃ t, c.batch.getLast? = some t ∧ ∀ f ∈ c.fired, reaches t.priceTicks f.stop = true
  inOrder : ∀ c ∈ cs, (c.fired.map fun f => f.stop.orderId).Sublist (ps.map (·.orderId))
  quiescent : ∀ t, (cs.flatMap (·.batch)).getLast? = some t → b'.lastTradePriceTicks = some t.priceTicks ∧
    ∀ s ∈ b'.stopOrdersById.values, reaches t.priceTicks s = false

/-- A placement that returns triggers stop orders completely and exactly. -/
theorem stop_cascade_exact {ps : List Placement} (hb : History (fun _ _ => True) b ps)
    (h : (call b c).1 = .ok r) (hc : c.executes = true) :
    ∃ cs, b.cyclesOf c = .ok cs ∧ CascadeExact b (call b c).2 ps r cs := by
  obtain ⟨ts, cs, hcs, htrades, htriggered, hcas, -⟩ := executes h hc
  have hkeyed := hb.ran.keyed
  have hpart := hcas.partition hkeyed
  obtain ⟨-, honce, hdisjoint⟩ := List.nodup_append.mp (hcas.ids_nodup hkeyed)
  refine ⟨cs, hcs, htrades, htriggered, hpart, honce, fun f hf => ?_, hcas.reached, fun c' hc' => ?_,
    fun t ht => hcas.quiescent hkeyed ht⟩
  · refine OMap.get?_eq_none.mpr fun hk => ?_
    exact hdisjoint _ hk _ (List.mem_map_of_mem hf) rfl
  · exact (hcas.sublist hkeyed c' hc').trans hb.sublist

end

/-- The argument of `placeStopMarketOrder` for a well-formed order of user `u`. -/
def stopMarketOrder (orderId : String) (side : Side) (triggerPriceTicks quantity : Int) : Payload :=
  { limitOrder orderId side 1 quantity with
    priceTicks := .undefined
    triggerPriceTicks := .num (.int triggerPriceTicks) }

/-- Sell orders rest at the prices 1 and 2, and a stop order to sell waits for the price 1. -/
def twoAsksAndStop : OrderBook :=
  calls (OrderBook.new "BTC-USD" fun _ => 0) [.placeLimitOrder (some (limitOrder "a" .sell 1 1)),
    .placeLimitOrder (some (limitOrder "b" .sell 2 1)),
    .placeStopMarketOrder (some (stopMarketOrder "s" .sell 1 1))]

def marketBuy (quantity : Int) : Call :=
  .placeMarketOrder (some { limitOrder "c" .buy 1 quantity with priceTicks := .undefined })

theorem twoAsksAndStop_reachable : Reachable twoAsksAndStop :=
  .call _ (.call _ (.call _ (.new _ _ (by decide)) (by decide)) (by decide)) (by decide +kernel)

/-- The purchase at price 1 triggers the stop order. -/
theorem stop_cascade_exact_one : ∃ ps r cs, (call twoAsksAndStop (marketBuy 1)).1 = .ok r ∧
    twoAsksAndStop.cyclesOf (marketBuy 1) = .ok cs ∧
    CascadeExact twoAsksAndStop (call twoAsksAndStop (marketBuy 1)).2 ps r cs ∧
    (firedIn cs).map (·.stop.orderId) = [.str "s"] := by
  obtain ⟨ps, hps⟩ := twoAsksAndStop_reachable.ran.history
  have hok : (call twoAsksAndStop (marketBuy 1)).1.isOk = true := by decide +kernel
  have hids : (twoAsksAndStop.cyclesOf (marketBuy 1)).map (fun cs => (firedIn cs).map (·.stop.orderId)) =
      .ok [.str "s"] := by decide +kernel
  cases hr : (call twoAsksAndStop (marketBuy 1)).1 with
  | error e => rw [hr] at hok; cases hok
  | ok r =>
    obtain ⟨cs, hcs, hexact⟩ := stop_cascade_exact hps hr rfl
    rw [hcs] at hids
    exact ⟨ps, r, cs, rfl, hcs, hexact, Except.ok.inj hids⟩

/-! ## Stop orders left behind -/

section

variable {b b' : OrderBook} {c : Call} {r : Result}

theorem trail_plain {s : StopOrder} (h : s.type ≠ .trailingStopMarket) (last : Int) : trail last s = s := by
  unfold trail
  rw [if_pos h]

namespace Cascaded

variable {m m' : OMap JsVal StopOrder} {last last' : Option Int} {ts : List Trade} {cs : List Cycle}

theorem keys_sublist (h : Cascaded m last ts cs m' last') (hm : Keyed m) : m'.keys.Sublist m.keys := by
  induction h with
  | idle => exact List.Sublist.refl _
  | quiet => rw [OMap.keys_mapValues]
  | @fire m m' last last' batch t es fs cs final eligible stops rest ih =>
    have hkeyed := keyed_dwindling.trail m t.priceTicks hm
    refine (ih (keyed_without hkeyed es)).trans ?_
    rw [← keyed_values (keyed_without hkeyed es), values_without hkeyed, ← OMap.keys_mapValues (trail t.priceTicks) m,
      ← keyed_values hkeyed]
    exact List.filter_sublist.map _

/-- A stop order that does not trail stays, exactly if the last trade of no batch reaches it. -/
theorem stays_iff (h : Cascaded m last ts cs m' last') (hm : Keyed m) {s : StopOrder} (hs : s ∈ m.values)
    (ht : s.type ≠ .trailingStopMarket) :
    s.orderId ∈ m'.keys ↔ ∀ c ∈ cs, ∀ t ∈ c.batch.getLast?, reaches t.priceTicks s = false := by
  have htrail : ∀ {m : OMap JsVal StopOrder} {last : Int}, s ∈ m.values → s ∈ (m.mapValues (trail last)).values := by
    intro m last hs
    rw [OMap.values_mapValues]
    exact List.mem_map.mpr ⟨s, hs, trail_plain ht last⟩
  have hkey : ∀ {m : OMap JsVal StopOrder}, Keyed m → s ∈ m.values → s.orderId ∈ m.keys := by
    intro m hm hs
    rw [← keyed_values hm]
    exact List.mem_map_of_mem hs
  induction h with
  | idle => exact iff_of_true (hkey hm hs) (by simp)
  | @quiet m last batch t final eligible =>
    refine iff_of_true (hkey (keyed_dwindling.trail _ _ hm) (htrail hs)) fun c hc u hu => ?_
    obtain rfl := List.mem_singleton.mp hc
    obtain rfl : t = u := Option.some.inj (final.symm.trans hu)
    have hnone := (eligibleOf_ok eligible).2
    rw [eq_comm, List.filter_eq_nil_iff] at hnone
    exact Bool.eq_false_iff.mpr (hnone s (htrail hs))
  | @fire m m' last last' batch t es fs cs final eligible stops rest ih =>
    have hkeyed := keyed_dwindling.trail m t.priceTicks hm
    have hvalues := values_eligible hkeyed eligible
    by_cases hr : reaches t.priceTicks s = true
    · -- It is triggered here, and never comes back.
      refine iff_of_false (fun hk => ?_) fun hall => ?_
      · have hk := (rest.keys_sublist (keyed_without hkeyed es)).subset hk
        obtain ⟨s', hget⟩ := OMap.mem_keys.mp hk
        obtain ⟨hs', hid⟩ := (keyed_get (keyed_without hkeyed es)).mp hget
        rw [hvalues, List.mem_filter] at hs'
        have heq : some s' = some s := by
          rw [← (keyed_get hkeyed).mpr ⟨hs'.1, hid⟩, (keyed_get hkeyed).mpr ⟨htrail hs, rfl⟩]
        obtain rfl := Option.some.inj heq
        rw [hr] at hs'
        exact Bool.noConfusion hs'.2
      · rw [hall _ (List.mem_cons_self ..) t final] at hr
        exact Bool.noConfusion hr
    · rw [Bool.not_eq_true] at hr
      have hstays : s ∈ (without es (m.mapValues (trail t.priceTicks))).values := by
        rw [hvalues, List.mem_filter, hr]
        exact ⟨htrail hs, rfl⟩
      refine (ih (keyed_without hkeyed es) hstays).trans (Iff.trans ?_ List.forall_mem_cons.symm)
      refine ⟨fun h => ⟨fun u hu => ?_, h⟩, fun h => h.2⟩
      obtain rfl : t = u := Option.some.inj (final.symm.trans hu)
      exact hr

end Cascaded

/-- The stop order has a fixed trigger price. -/
def StopOrder.isPlain (s : StopOrder) : Prop := s.type = .stopMarket ∨ s.type = .stopLimit

instance (s : StopOrder) : Decidable s.isPlain := inferInstanceAs (Decidable (_ ∨ _))

/-- No stop order of `b` is pending in `b'` that one of the trades reached. -/
def NoneJumped (b b' : OrderBook) (r : Result) : Prop :=
  ∀ s ∈ b.stopOrdersById.values, s.isPlain → s.orderId ∈ b'.stopOrdersById.keys →
    ∀ t ∈ r.trades.getD [], reaches t.priceTicks s = false

/-- The trades of a placement come in batches: those of the incoming order, then those of the stop orders
of each cycle. A stop order stays pending, exactly if the last trade of no batch reaches it. -/
theorem stop_stays_iff (hb : Ran b) (h : (call b c).1 = .ok r) (hc : c.executes = true) :
    ∃ cs, b.cyclesOf c = .ok cs ∧ r.trades = some (cs.flatMap (·.batch)) ∧
      ∀ s ∈ b.stopOrdersById.values, s.isPlain →
        (s.orderId ∈ (call b c).2.stopOrdersById.keys ↔
          ∀ c ∈ cs, ∀ t ∈ c.batch.getLast?, reaches t.priceTicks s = false) := by
  obtain ⟨ts, cs, hcs, htrades, -, hcas, -⟩ := executes h hc
  refine ⟨cs, hcs, htrades, fun s hs hplain => hcas.stays_iff hb.keyed hs ?_⟩
  rcases hplain with h | h <;> rw [h] <;> decide

end

/-- A purchase of one trades at price 1, and the stop order does not stay. -/
theorem stop_stays_iff_one : ∃ r cs, (call twoAsksAndStop (marketBuy 1)).1 = .ok r ∧
    twoAsksAndStop.cyclesOf (marketBuy 1) = .ok cs ∧ r.trades = some (cs.flatMap (·.batch)) ∧
    ∀ s ∈ twoAsksAndStop.stopOrdersById.values, s.isPlain →
      (s.orderId ∈ (call twoAsksAndStop (marketBuy 1)).2.stopOrdersById.keys ↔
        ∀ c ∈ cs, ∀ t ∈ c.batch.getLast?, reaches t.priceTicks s = false) := by
  have hok : (call twoAsksAndStop (marketBuy 1)).1.isOk = true := by decide +kernel
  cases hr : (call twoAsksAndStop (marketBuy 1)).1 with
  | error e => rw [hr] at hok; cases hok
  | ok r =>
    obtain ⟨cs, hcs⟩ := stop_stays_iff twoAsksAndStop_reachable.ran hr rfl
    exact ⟨r, cs, rfl, hcs⟩

/-- A purchase of two trades at the prices 1 and 2: the stop order that waits for the price 1 is jumped over. -/
theorem stop_jumped : ∃ r, Reachable twoAsksAndStop ∧ (call twoAsksAndStop (marketBuy 2)).1 = .ok r ∧
    ¬ NoneJumped twoAsksAndStop (call twoAsksAndStop (marketBuy 2)).2 r := by
  have hprices : (call twoAsksAndStop (marketBuy 2)).1.map (fun r => (r.trades.getD []).map (·.priceTicks)) =
      .ok [1, 2] := by decide +kernel
  have hstays : (call twoAsksAndStop (marketBuy 2)).2.stopOrdersById.keys = [.str "s"] := by decide +kernel
  have hpending : (twoAsksAndStop.stopOrdersById.values.any fun s =>
      decide s.isPlain && decide (s.orderId = .str "s") && reaches 1 s) = true := by decide +kernel
  cases hr : (call twoAsksAndStop (marketBuy 2)).1 with
  | error e => rw [hr] at hprices; cases hprices
  | ok r =>
    refine ⟨r, twoAsksAndStop_reachable, rfl, fun hnone => ?_⟩
    rw [hr] at hprices
    obtain ⟨s, hs, hreach⟩ := List.any_eq_true.mp hpending
    rw [Bool.and_eq_true, Bool.and_eq_true, decide_eq_true_iff, decide_eq_true_iff] at hreach
    obtain ⟨t, ht, hone⟩ : ∃ t ∈ r.trades.getD [], t.priceTicks = 1 := by
      have hmap : (r.trades.getD []).map (·.priceTicks) = [1, 2] := Except.ok.inj hprices
      exact List.mem_map.mp (hmap ▸ List.mem_cons_self ..)
    have hfar := hnone s hs hreach.1.1 (by rw [hstays, hreach.1.2]; exact List.mem_cons_self ..) t ht
    rw [hone, hreach.2] at hfar
    exact Bool.noConfusion hfar

end Lob.Node
