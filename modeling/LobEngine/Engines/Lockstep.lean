import LobEngine.Engines.Values

/-!
# The two engines in lockstep

Both engines, as their specifications describe them, run the same command from views with the same
content: both return, with the same trades and the same triggered orders, or both throw, and the views
have the same content again (`program_lockstep`).

* `Related`: the content of two views is the same, and all prices and trailing amounts are exact.
* `Fit`: a pending stop order that a well-formed command placed.
-/

namespace Lob

open Exc

variable {price amount : Int → Prop}

/-- The sums of prices and trailing amounts are exact. -/
def SumsExact (price amount : Int → Prop) : Prop :=
  ∀ p a, price p → amount a → 0 < p ∧ 0 < a ∧ p + a ≤ Num.maxExact

/-- A stop order that a well-formed command placed. -/
structure Fit (price amount : Int → Prop) (s : Go.StopOrder) : Prop where
  orderId : Node.isBlank s.orderId = false
  userId : Node.isBlank s.userId = false
  kind : s.type = .stopMarket ∧ s.priceTicks = none ∨
    s.type = .stopLimit ∧ (∃ p, s.priceTicks = some p ∧ price p) ∨
    s.type = .trailingStopMarket ∧ s.priceTicks = none ∧ ∃ a, s.trailingAmountTicks = some a ∧ amount a

/-- The two views have the same content. -/
structure Related (price amount : Int → Prop) (v : Node.View) (w : Go.View) : Prop where
  depth : v.toDepth = w.toDepth
  symbol : v.symbol = w.symbol
  stops : v.stops = w.stops.rename str_injective Go.StopOrder.js
  last : v.lastTradePriceTicks = w.lastTradePriceTicks
  sequence : v.sequence = w.sequence
  clock : v.clock = w.clock
  named : Node.isBlank w.symbol = false
  fit : ∀ s ∈ w.stops.values, Fit price amount s
  prices : ∀ o ∈ w.orders, price o.price
  lastPrice : ∀ p, w.lastTradePriceTicks = some p → price p

/-- The orders that some trades triggered, and what they did. -/
structure SameTriggered (price : Int → Prop) (t : Node.Triggered) (t' : Go.StopResult) : Prop where
  trades : t.trades = t'.trades
  orders : t.orders = t'.triggeredOrders.map Go.StopOrder.js
  events : t.events.length = t'.events.length
  prices : ∀ x ∈ t'.trades, price x.priceTicks

theorem SameTriggered.none : SameTriggered price .none .empty :=
  ⟨rfl, rfl, rfl, fun x hx => by cases hx⟩

theorem SameTriggered.append {t u : Node.Triggered} {t' u' : Go.StopResult}
    (h : SameTriggered price t t') (h' : SameTriggered price u u') :
    SameTriggered price (t.append u) (t'.append u') where
  trades := by rw [Node.Triggered.append, Go.StopResult.append, h.trades, h'.trades]
  orders := by rw [Node.Triggered.append, Go.StopResult.append, h.orders, h'.orders, List.map_append]
  events := by
    rw [Node.Triggered.append, Go.StopResult.append, List.length_append, List.length_append, h.events,
      h'.events]
  prices := fun x hx => by
    rcases List.mem_append.mp hx with hx | hx
    · exact h.prices x hx
    · exact h'.prices x hx

/-! ## New orders -/

theorem not_blank {s : String} (h : Node.isBlank s = false) : s ≠ "" := by
  rintro rfl
  cases h

/-- Both constructors build the same order, or both throw. -/
theorem newOrder_agree {symbol : String} {typ : OrderType} {i : Go.OrderInput} {side : Side}
    (hsym : Node.isBlank symbol = false) (hid : Node.isBlank i.orderId = false)
    (huser : Node.isBlank i.userId = false) (hside : i.side = Go.sideText side)
    (ht : typ = .limit ∨ typ = .market) (clock : Bool) (o : Order) :
    Node.newOrder (i.js symbol typ clock) = .ok o ↔ Go.newOrder symbol typ i clock = .ok o := by
  have hof : Go.sideOf i.side = some side := by rw [hside, Go.sideOf_sideText]
  have hjs : ∀ f s, Node.isBlank s = false → Node.assertNonEmptyString f (.str s) = .ok s :=
    fun f s hs => Node.assertNonEmptyString_ok.mpr ⟨rfl, hs⟩
  have hjside : Node.assertSide (.str i.side) = .ok side :=
    Node.assertSide_ok.mpr (by rw [hside, Go.sideText_eq])
  unfold Node.newOrder Go.newOrder Go.OrderInput.js
  simp only [hjs _ _ hid, hjs _ _ huser, hjs _ _ hsym, hjside, hof, if_neg (not_blank hid),
    if_neg (not_blank huser), if_neg (not_blank hsym), Except.bind, bind]
  by_cases hq : 0 < i.quantity
  · by_cases hts : 0 ≤ i.timestamp
    · rw [Node.assertPositiveInteger_ok.mpr ⟨rfl, hq⟩, Node.assertNonNegativeInteger_ok.mpr ⟨rfl, hts⟩,
        if_neg (by omega), if_neg (by omega)]
      rcases ht with rfl | rfl <;> cases hp : i.priceTicks with
      | none => simp [jsNumber, Node.assertPrice, Node.assertPositiveInteger, Except.map, pure, Except.pure]
      | some p =>
        by_cases hpos : 0 < p
        · simp [jsNumber, Node.assertPrice, Node.assertPositiveInteger, Except.map, pure, Except.pure, hpos,
            not_le.mpr hpos]
        · simp [jsNumber, Node.assertPrice, Node.assertPositiveInteger, Except.map, hpos, not_lt.mp hpos]
    · simp [Node.assertPositiveInteger, Node.assertNonNegativeInteger, hq, hts, not_le.mp hts,
        not_le.mpr hq]
  · simp [Node.assertPositiveInteger, hq, not_lt.mp hq]

theorem newOrder_cases {symbol : String} {typ : OrderType} {i : Go.OrderInput} {side : Side}
    (hsym : Node.isBlank symbol = false) (hid : Node.isBlank i.orderId = false)
    (huser : Node.isBlank i.userId = false) (hside : i.side = Go.sideText side)
    (ht : typ = .limit ∨ typ = .market) (clock : Bool) :
    (∃ e e', Node.newOrder (i.js symbol typ clock) = .error e ∧
      Go.newOrder symbol typ i clock = .error e') ∨
    ∃ o, Node.newOrder (i.js symbol typ clock) = .ok o ∧ Go.newOrder symbol typ i clock = .ok o := by
  have hagree := newOrder_agree hsym hid huser hside ht clock
  cases hm : Node.newOrder (i.js symbol typ clock) with
  | ok o => exact .inr ⟨o, rfl, (hagree o).mp hm⟩
  | error e =>
    cases hg : Go.newOrder symbol typ i clock with
    | error e' => exact .inl ⟨e, e', rfl, rfl⟩
    | ok o =>
      rw [(hagree o).mpr hg] at hm
      cases hm

/-! ## Matching -/

section

variable {v : Node.View} {w : Go.View} {o : Order} {s : Go.StopOrder}

theorem Related.execute_eq (h : Related price amount v w) (o : Order) :
    v.executedOrder o = (w.execute o).2.1 ∧
      (v.fillFrom o (decide (o.type ≠ .limit))).1 = (w.execute o).1 ∧
      (v.executed o).toDepth = (w.execute o).2.2 := by
  unfold Node.View.executedOrder Node.View.executed
  rw [h.depth]
  exact ⟨rfl, rfl, rfl⟩

/-- Trades are at the prices of resting orders. -/
theorem Related.traded_prices (h : Related price amount v w) (o : Order) :
    ∀ t ∈ (w.execute o).1, price t.priceTicks := by
  intro t ht
  obtain ⟨x, hx, hp⟩ := Depth.execute_price ht
  rw [hp]
  exact h.prices x hx

theorem Related.executed (h : Related price amount v w) (hp : o.type = .limit → price o.price) :
    Related price amount (v.executed o) (w.executed o) where
  depth := (h.execute_eq o).2.2
  symbol := h.symbol
  stops := h.stops
  last := h.last
  sequence := h.sequence
  clock := h.clock
  named := h.named
  fit := h.fit
  prices := fun x hx => by
    obtain ⟨y, hy | ⟨rfl, ht⟩, n, rfl⟩ := Depth.mem_execute hx
    · exact h.prices y hy
    · exact hp ht
  lastPrice := h.lastPrice

/-- Both engines execute the order of an input, or neither can build it. -/
theorem execute_cases (h : Related price amount v w) {typ : OrderType} {i : Go.OrderInput} {side : Side}
    (hid : Node.isBlank i.orderId = false) (huser : Node.isBlank i.userId = false)
    (hside : i.side = Go.sideText side) (ht : typ = .limit ∨ typ = .market) (clock : Bool)
    (hp : typ = .limit → ∀ p, i.priceTicks = some p → price p) :
    (∃ e e', (Node.Spec.execute (i.js w.symbol typ clock)).run v = (.error e, v) ∧
      Go.newOrder w.symbol typ i clock = .error e') ∨
    ∃ o, Node.newOrder (i.js w.symbol typ clock) = .ok o ∧ Go.newOrder w.symbol typ i clock = .ok o ∧
      (Node.Spec.execute (i.js w.symbol typ clock)).run v =
        (.ok ((w.execute o).2.1, (w.execute o).1), v.executed o) ∧
      Related price amount (v.executed o) (w.executed o) ∧ ∀ t ∈ (w.execute o).1, price t.priceTicks := by
  rcases newOrder_cases h.named hid huser hside ht clock with ⟨e, e', he, he'⟩ | ⟨o, ho, ho'⟩
  · exact .inl ⟨e, e', Node.spec_execute_error he, he'⟩
  · have hN := Go.newOrder_ok.mp ho'
    have hprice : o.type = .limit → price o.price := by
      intro ht
      rw [hN.type] at ht
      obtain ⟨p, hp', -⟩ := hN.limit ht
      rw [Order.price, hN.priceTicks, hp']
      exact hp ht p hp'
    obtain ⟨hord, htr, -⟩ := h.execute_eq o
    refine .inr ⟨o, ho, ho', ?_, h.executed hprice, h.traded_prices o⟩
    rw [Node.spec_execute_ok ho, hord, htr]

/-! ## Pending stop orders -/

theorem Related.delete (h : Related price amount v w) (orderId : String) :
    Related price amount { v with stops := v.stops.delete (.str orderId) }
      { w with stops := w.stops.delete orderId } where
  depth := h.depth
  symbol := h.symbol
  stops := by
    show v.stops.delete _ = _
    rw [h.stops, OMap.delete_rename]
  last := h.last
  sequence := h.sequence
  clock := h.clock
  named := h.named
  fit := fun s hs => h.fit s (OMap.mem_values_delete hs)
  prices := h.prices
  lastPrice := h.lastPrice

theorem Related.set (h : Related price amount v w) (hs : Fit price amount s) :
    Related price amount { v with stops := v.stops.set s.js.orderId s.js }
      { w with stops := w.stops.set s.orderId s } where
  depth := h.depth
  symbol := h.symbol
  stops := by
    show v.stops.set _ _ = _
    rw [h.stops, OMap.set_rename]
    rfl
  last := h.last
  sequence := h.sequence
  clock := h.clock
  named := h.named
  fit := fun s' hs' => by
    obtain ⟨k, hk⟩ := OMap.mem_values.mp hs'
    rw [OMap.get?_set] at hk
    split at hk
    · cases hk
      exact hs
    · exact h.fit s' (OMap.mem_values.mpr ⟨k, hk⟩)
  prices := h.prices
  lastPrice := h.lastPrice

theorem Related.traded (h : Related price amount v w) {p : Int} (hp : price p) :
    Related price amount { v with lastTradePriceTicks := some p }
      { w with lastTradePriceTicks := some p } where
  depth := h.depth
  symbol := h.symbol
  stops := h.stops
  last := rfl
  sequence := h.sequence
  clock := h.clock
  named := h.named
  fit := h.fit
  prices := h.prices
  lastPrice := fun q hq => by cases hq; exact hp

/-- The new trigger price is exact in both engines. -/
theorem trail_js (hex : SumsExact price amount) {last : Int} (hl : price last) (hs : Fit price amount s) :
    Node.trail last s.js = (Go.View.trail last s).js := by
  unfold Go.View.trail Go.trailStop Node.trail
  by_cases ht : s.type = .trailingStopMarket
  · obtain ⟨a, ha, ham⟩ : ∃ a, s.trailingAmountTicks = some a ∧ amount a := by
      rcases hs.kind with ⟨h, -⟩ | ⟨h, -⟩ | ⟨-, -, h⟩
      · rw [h] at ht; cases ht
      · rw [h] at ht; cases ht
      · exact h
    obtain ⟨hp₀, ha₀, hle⟩ := hex last a hl ham
    have hsub : Num.ofInt (last - a) = .int (Go.wrap64 (last - a)) := by
      rw [Num.ofInt_exact (by unfold Num.maxExact at *; omega) (by omega),
        Go.wrap64_exact (by unfold Num.maxExact at *; omega) (by omega)]
    have hadd : Num.ofInt (last + a) = .int (Go.wrap64 (last + a)) := by
      rw [Num.ofInt_exact (by unfold Num.maxExact; omega) hle,
        Go.wrap64_exact (by unfold Num.maxExact; omega) hle]
    cases hside : s.side with
    | sell =>
      by_cases hpk : s.peakPriceTicks.all (fun peak => decide (peak < last)) = true
      · simp [Go.StopOrder.js, ht, ha, hside, hpk, hsub, Go.sideText, Node.sideText, Go.deref, bind,
          Except.bind, pure, Except.pure, Except.toOption]
      · simp [Go.StopOrder.js, ht, hside, hpk, Go.sideText, Node.sideText, pure, Except.pure,
          Except.toOption]
    | buy =>
      by_cases hvl : s.valleyPriceTicks.all (fun valley => decide (last < valley)) = true
      · simp [Go.StopOrder.js, ht, ha, hside, hvl, hadd, Go.sideText, Node.sideText, Go.deref, bind,
          Except.bind, pure, Except.pure, Except.toOption]
      · simp [Go.StopOrder.js, ht, hside, hvl, Go.sideText, Node.sideText, pure, Except.pure,
          Except.toOption]
  · rw [if_pos ht, if_pos (show s.js.type ≠ .trailingStopMarket from ht)]
    rfl

theorem Fit.trail (hs : Fit price amount s) (last : Int) : Fit price amount (Go.View.trail last s) := by
  obtain ⟨_, _, _, h⟩ := Go.trail_eq last s
  rw [h]
  exact ⟨hs.orderId, hs.userId, hs.kind⟩

theorem Related.trail (h : Related price amount v w) (hex : SumsExact price amount) {last : Int}
    (hl : price last) :
    Related price amount { v with stops := v.stops.mapValues (Node.trail last) }
      { w with stops := w.stops.mapValues (Go.View.trail last) } where
  depth := h.depth
  symbol := h.symbol
  stops := by
    show v.stops.mapValues _ = _
    rw [h.stops, OMap.mapValues_rename]
    exact fun s hs => (trail_js hex hl (h.fit s hs)).symm
  last := h.last
  sequence := h.sequence
  clock := h.clock
  named := h.named
  fit := fun s hs => by
    rw [OMap.values_mapValues] at hs
    obtain ⟨s', hs', rfl⟩ := List.mem_map.mp hs
    exact (h.fit s' hs').trail last
  prices := h.prices
  lastPrice := h.lastPrice

theorem isEligible_js (last : Int) (s : Go.StopOrder) :
    Node.isEligible last s.js = .ok (Go.isEligible last s) := by
  unfold Node.isEligible Go.isEligible
  cases hs : s.side <;> simp [Go.StopOrder.js, hs, Go.sideText, Node.sideText, Node.JsVal.toNumber]

theorem eligibleOf_js (last : Int) (L : List Go.StopOrder) :
    Node.eligibleOf last (L.map Go.StopOrder.js) =
      .ok ((L.filter (Go.isEligible last)).map Go.StopOrder.js) := by
  induction L with
  | nil => rfl
  | cons s L ih =>
    rw [List.map_cons, Node.eligibleOf, isEligible_js, ih]
    by_cases h : Go.isEligible last s = true
    · simp [h, bind, Except.bind, pure, Except.pure]
    · simp [h, bind, Except.bind, pure, Except.pure]

/-- Both engines find the same eligible stop orders. -/
theorem Related.eligible (h : Related price amount v w) :
    Node.Spec.getEligibleStopOrders.run v = (.ok (w.eligible.map Go.StopOrder.js), v) := by
  unfold Node.Spec.getEligibleStopOrders Go.View.eligible
  rw [run_get_bind, h.last]
  cases w.lastTradePriceTicks with
  | none => rfl
  | some last =>
    dsimp only
    rw [run_lift, h.stops, OMap.values_rename, eligibleOf_js]

/-! ## The cascade -/

/-- Both engines execute a triggered stop order, or neither can build its order. -/
theorem executeStop_lockstep (h : Related price amount v w) (hs : Fit price amount s) :
    Both (Node.Spec.executeTriggeredStopOrder s.js) (Go.Spec.executeStop s)
      (fun a a' x y => a = a' ∧ Related price amount x y ∧ ∀ t ∈ a'.2, price t.priceTicks)
      (Related price amount) v w := by
  have hnow : Related price amount { v with clock := v.clock.tail } { w with clock := w.clock.tail } :=
    ⟨h.depth, h.symbol, h.stops, h.last, h.sequence, by rw [h.clock], h.named, h.fit, h.prices,
      h.lastPrice⟩
  have htyp : Go.executedType s = .limit ∨ Go.executedType s = .market := by
    unfold Go.executedType
    split_ifs <;> simp
  have hprice : Go.executedType s = .limit → ∀ p, s.priceTicks = some p → price p := by
    unfold Go.executedType
    rintro ht p hp
    rcases hs.kind with ⟨h₁, -⟩ | ⟨-, q, hq, hpq⟩ | ⟨h₁, -⟩
    · simp [h₁] at ht
    · rw [hq] at hp
      cases hp
      exact hpq
    · simp [h₁] at ht
  -- What both engines do: read the clock, and execute the order of this input.
  have hnode : (Node.Spec.executeTriggeredStopOrder s.js).run v =
      (Node.Spec.execute ((Go.executedInput s (w.clock 0)).js w.symbol (Go.executedType s) true)).run
        { v with clock := v.clock.tail } := by
    rw [← h.clock, ← h.symbol]
    rcases hs.kind with ⟨h₁, h₂⟩ | ⟨h₁, -⟩ | ⟨h₁, h₂, -⟩ <;>
      simp only [Node.Spec.executeTriggeredStopOrder, run_get_bind, Go.StopOrder.js, h₁,
        Go.executedType, Go.executedInput, Go.OrderInput.js, reduceCtorEq, true_or, or_true, or_self,
        if_true, if_false]
    · rw [h₂]; rfl
    · rfl
    · rw [h₂]; rfl
  rcases execute_cases hnow (i := Go.executedInput s (w.clock 0)) hs.orderId hs.userId rfl htyp true hprice
    with ⟨e, e', he, he'⟩ | ⟨o, -, ho, hrun, hexec, hts⟩
  · refine Both.error (hnode.trans he) (d := e') (u := { w with clock := w.clock.tail }) ?_ hnow
    show Exc.run (Exc.lift (Go.newOrder w.symbol _ _ true) >>= _) _ = _
    rw [run_lift_bind, he']
  · refine Both.ok (hnode.trans hrun) (b := (_, _)) (u := _) ?_ ⟨rfl, hexec, hts⟩
    show Exc.run (Exc.lift (Go.newOrder w.symbol _ _ true) >>= _) _ = _
    rw [run_lift_bind, ho]
    rfl

theorem triggeredEvents_length (s : Go.StopOrder) (o : Order) (ts : List Trade) :
    (Node.triggeredEvents s.js o ts).length = (Go.triggeredEvents s o ts).length := by
  unfold Node.triggeredEvents Go.triggeredEvents Node.createTradeCreatedEvents
  split_ifs <;> simp

theorem triggerAll_lockstep (ss : List Go.StopOrder) (h : Related price amount v w)
    (hs : ∀ s ∈ ss, Fit price amount s) :
    Both (Node.Spec.triggerAll (ss.map Go.StopOrder.js)) (Go.Spec.triggerAll ss)
      (fun t t' x y => SameTriggered price t t' ∧ Related price amount x y) (Related price amount) v w := by
  induction ss generalizing v w with
  | nil => exact Both.ok rfl rfl ⟨.none, h⟩
  | cons s ss ih =>
    refine Both.step (t := _) (u := _) (a := ()) (b := ()) rfl rfl ?_
    have hfit := hs s List.mem_cons_self
    refine (executeStop_lockstep (h.delete s.orderId)
      (s := { s with status := .triggered }) ⟨hfit.orderId, hfit.userId, hfit.kind⟩).bind ?_
    rintro ⟨o, ts⟩ - x y ⟨rfl, hxy, hts⟩
    refine (ih hxy fun s' hs' => hs s' (List.mem_cons_of_mem _ hs')).bind ?_
    rintro t t' x' y' ⟨ht, hxy'⟩
    refine Both.ok rfl rfl ⟨SameTriggered.append ⟨rfl, rfl, ?_, hts⟩ ht, hxy'⟩
    exact triggeredEvents_length { s with status := .triggered } o ts

theorem cascade_lockstep (hex : SumsExact price amount) (cycles : Nat) {ts : List Trade}
    (h : Related price amount v w) (hts : ∀ t ∈ ts, price t.priceTicks) :
    Both (Node.Spec.cascade cycles ts) (Go.Spec.cascade cycles ts)
      (fun t t' x y => SameTriggered price t t' ∧ Related price amount x y) (Related price amount) v w := by
  induction cycles generalizing ts v w with
  | zero =>
    unfold Node.Spec.cascade Go.Spec.cascade
    cases hl : ts.getLast? with
    | none => exact Both.ok rfl rfl ⟨.none, h⟩
    | some t => exact Both.error rfl rfl h
  | succ cycles ih =>
    unfold Node.Spec.cascade Go.Spec.cascade
    cases hl : ts.getLast? with
    | none => exact Both.ok rfl rfl ⟨.none, h⟩
    | some t =>
      have ht : price t.priceTicks := hts t (List.mem_of_getLast? hl)
      have htr := (h.traded ht).trail hex ht
      refine Both.step (a := ()) (b := ()) rfl rfl (Both.step (a := ()) (b := ()) rfl rfl ?_)
      refine Both.step htr.eligible rfl ?_
      by_cases he : Go.View.eligible { w with
          lastTradePriceTicks := some t.priceTicks
          stops := w.stops.mapValues (Go.View.trail t.priceTicks) } = []
      · rw [if_pos (List.map_eq_nil_iff.mpr he), if_pos he]
        exact Both.ok rfl rfl ⟨.none, htr⟩
      · rw [if_neg (fun hc => he (List.map_eq_nil_iff.mp hc)), if_neg he]
        refine (triggerAll_lockstep _ htr fun s hs => htr.fit s ((Go.eligible_sublist _).subset hs)).bind ?_
        rintro r r' x y ⟨hr, hxy⟩
        rw [hr.trades]
        refine (ih hxy hr.prices).bind ?_
        rintro u u' x' y' ⟨hu, hxy'⟩
        exact Both.ok rfl rfl ⟨hr.append hu, hxy'⟩

end

end Lob
