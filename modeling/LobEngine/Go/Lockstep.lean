import LobEngine.Go.Reachable
import LobEngine.Go.Restamp

/-!
# Two runs of the Go engine side by side

A `Pairing` says which books are compared and how: what of the timestamps is seen, which ids the calls
may use, which trades end the comparison, and whether events are compared. `Pairing.program`: a call
from two books of the pairing has the same outcome, as far as it is seen, and leads to two such books.

* `Pairing.Related`: the views of the two books.
* `Pairing.Same`: what the two results have in common.
-/

namespace Lob.Go

open Exc

structure Pairing where
  /-- What is seen of a timestamp. -/
  seen : Stamp → Stamp
  /-- The ids of the orders. -/
  ids : String → Prop
  /-- A trade after which nothing is claimed. -/
  bad : Trade → Prop
  /-- Events and sequence numbers are compared. -/
  events : Prop
  sides : Depth → Depth → Prop
  has : ∀ {d e}, sides d e → ∀ key, ids key → (key ∈ d.ids ↔ key ∈ e.ids)
  find : ∀ {d e}, sides d e → ∀ key, ids key →
    (d.orders.find? (fun o => decide (o.orderId = key))).map (·.restamp seen) =
      (e.orders.find? (fun o => decide (o.orderId = key))).map (·.restamp seen)
  remove : ∀ {d e}, sides d e → ∀ key, ids key → sides (d.remove key) (e.remove key)
  execute : ∀ {d e}, sides d e → ∀ o p, o.restamp seen = p.restamp seen → ids o.orderId →
    (∀ t ∈ (d.execute o).1, ¬ bad t) →
      (d.execute o).1.map (·.restamp seen) = (e.execute p).1.map (·.restamp seen) ∧
      (d.execute o).2.1.restamp seen = (e.execute p).2.1.restamp seen ∧
      sides (d.execute o).2.2 (e.execute p).2.2
  levels : events → ∀ {d e}, sides d e → ∀ s,
    (d.side s).head?.map Order.price = (e.side s).head?.map Order.price ∧
      View.levels View.levelSnapshot (d.side s) = View.levels View.levelSnapshot (e.side s)

namespace Pairing

variable (P : Pairing)

/-- The clocks show the same, and are negative at the same time. -/
def Clocks (c c' : Clock) : Prop :=
  ∀ n, P.seen ⟨c n, true⟩ = P.seen ⟨c' n, true⟩ ∧ (c n < 0 ↔ c' n < 0)

/-- The views of two books of the pairing, when the first one has at least `n` trades. -/
structure Related (n : Nat) (v w : View) : Prop where
  sides : P.sides v.toDepth w.toDepth
  symbol : v.symbol = w.symbol
  stops : v.stops = w.stops
  ids : ∀ s ∈ v.stops.values, P.ids s.orderId
  last : v.lastTradePriceTicks = w.lastTradePriceTicks
  sequence : P.events → v.sequence = w.sequence
  clock : P.Clocks v.clock w.clock
  trades : n ≤ v.trades.length

/-- A bad trade was made after the first `n` trades. -/
def Broken (n : Nat) (v : View) : Prop := ∃ t ∈ v.trades.drop n, P.bad t

/-- What the two results have in common. -/
structure Same (r r' : Result) : Prop where
  order : r.order.restamp P.seen = r'.order.restamp P.seen
  trades : r.trades.map (·.restamp P.seen) = r'.trades.map (·.restamp P.seen)
  triggered : r.triggeredOrders = r'.triggeredOrders
  events : P.events → r.events.map (·.restamp P.seen) = r'.events.map (·.restamp P.seen)

/-- The same for the triggered stop orders; their events show no book. -/
structure SameStops (t t' : StopResult) : Prop where
  trades : t.trades.map (·.restamp P.seen) = t'.trades.map (·.restamp P.seen)
  triggered : t.triggeredOrders = t'.triggeredOrders
  events : t.events.map (·.restamp P.seen) = t'.events.map (·.restamp P.seen)

theorem stable_broken (n : Nat) : Stable (P.Broken n) where
  clock := fun _ h => h
  last := fun _ _ h => h
  delete := fun _ _ h => h
  trail := fun _ _ h => h
  sequence := fun _ _ h => h
  add := fun _ _ h _ => h
  remove := fun _ _ h => h
  execute := fun v o h _ => by
    obtain ⟨t, ht, hbad⟩ := h
    refine ⟨t, ?_, hbad⟩
    show t ∈ (v.trades ++ (v.execute o).1).drop n
    rw [List.drop_append]
    exact List.mem_append_left _ ht

section

variable {P} {n : Nat} {v w : View}

theorem SameStops.append {t t' u u' : StopResult} (h : P.SameStops t t') (h' : P.SameStops u u') :
    P.SameStops (t.append u) (t'.append u') := by
  unfold StopResult.append
  refine ⟨?_, ?_, ?_⟩
  · rw [List.map_append, List.map_append, h.trades, h'.trades]
  · rw [h.triggered, h'.triggered]
  · rw [List.map_append, List.map_append, h.events, h'.events]

theorem sameStops_empty : P.SameStops .empty .empty := ⟨rfl, rfl, rfl⟩

/-! ## Steps -/

theorem Related.tick (h : P.Related n v w) :
    P.Related n { v with clock := v.clock.tail } { w with clock := w.clock.tail } :=
  ⟨h.sides, h.symbol, h.stops, h.ids, h.last, h.sequence, fun k => h.clock (k + 1), h.trades⟩

/-- The pending stop orders and the last price change in both. -/
theorem Related.update (h : P.Related n v w) (m : OMap String StopOrder) (last : Option Int)
    (hm : ∀ s ∈ m.values, P.ids s.orderId) :
    P.Related n { v with stops := m, lastTradePriceTicks := last }
      { w with stops := m, lastTradePriceTicks := last } :=
  ⟨h.sides, h.symbol, rfl, hm, rfl, h.sequence, h.clock, h.trades⟩

theorem Related.delete (h : P.Related n v w) (key : String) :
    P.Related n { v with stops := v.stops.delete key } { w with stops := w.stops.delete key } :=
  ⟨h.sides, h.symbol, congrArg (·.delete key) h.stops, fun s hs => h.ids s (OMap.mem_values_delete hs),
    h.last, h.sequence, h.clock, h.trades⟩

theorem Related.execute {o p : Order} (h : P.Related n v w) (hop : o.restamp P.seen = p.restamp P.seen)
    (hid : P.ids o.orderId) (hb : ¬ P.Broken n (v.executed o)) :
    (v.execute o).1.map (·.restamp P.seen) = (w.execute p).1.map (·.restamp P.seen) ∧
      (v.execute o).2.1.restamp P.seen = (w.execute p).2.1.restamp P.seen ∧
      P.Related n (v.executed o) (w.executed p) := by
  obtain ⟨h₁, h₂, h₃⟩ := P.execute h.sides o p hop hid fun t ht hbad => hb ⟨t, by
    show t ∈ (v.trades ++ (v.execute o).1).drop n
    rw [List.drop_append, Nat.sub_eq_zero_of_le h.trades]
    exact List.mem_append_right _ ht, hbad⟩
  refine ⟨h₁, h₂, h₃, h.symbol, h.stops, h.ids, h.last, h.sequence, h.clock, ?_⟩
  show n ≤ (v.trades ++ _).length
  rw [List.length_append]
  exact h.trades.trans (Nat.le_add_right _ _)

/-! ## Cascades -/

/-- The order of a triggered stop order, with another reading of the clock. -/
theorem newOrder_executed (symbol : String) (stop : StopOrder) {ms ms' : Int}
    (h : P.seen ⟨ms, true⟩ = P.seen ⟨ms', true⟩) (hneg : ms < 0 ↔ ms' < 0) :
    (newOrder symbol (executedType stop) (executedInput stop ms) true).map (·.restamp P.seen) =
      (newOrder symbol (executedType stop) (executedInput stop ms') true).map (·.restamp P.seen) := by
  unfold newOrder executedInput
  cases sideOf (sideText stop.side) with
  | none => rfl
  | some s =>
    by_cases hms : ms < 0
    · simp only [hms, hneg.mp hms, if_true]
    · simp only [hms, mt hneg.mpr hms, if_false]
      split_ifs
      all_goals simp only [Except.map, Order.restamp, h]

theorem executeStop_lockstep (stop : StopOrder) (h : P.Related n v w) (hid : P.ids stop.orderId) :
    SimUnless (P.Broken n) (Spec.executeStop stop) (Spec.executeStop stop)
      (fun x y v w => x.1.restamp P.seen = y.1.restamp P.seen ∧
        x.2.map (·.restamp P.seen) = y.2.map (·.restamp P.seen) ∧ P.Related n v w)
      (P.Related n) v w := by
  obtain ⟨hclock, hneg⟩ := h.clock 0
  have hnew := newOrder_executed v.symbol stop hclock hneg
  unfold Spec.executeStop
  refine SimUnless.step rfl rfl (SimUnless.step rfl rfl ?_)
  rw [← h.symbol]
  cases ho : newOrder v.symbol (executedType stop) (executedInput stop (v.clock 0)) true with
  | error e =>
    rw [ho] at hnew
    cases hp : newOrder v.symbol (executedType stop) (executedInput stop (w.clock 0)) true with
    | error e' =>
      rw [hp] at hnew
      cases hnew
      exact SimUnless.error (by rw [run_lift_bind]) (by rw [run_lift_bind]) h.tick
    | ok p => rw [hp] at hnew; cases hnew
  | ok o =>
    rw [ho] at hnew
    cases hp : newOrder v.symbol (executedType stop) (executedInput stop (w.clock 0)) true with
    | error e => rw [hp] at hnew; cases hnew
    | ok p =>
      rw [hp] at hnew
      have hop : o.restamp P.seen = p.restamp P.seen := Except.ok.inj hnew
      have hoid : o.orderId = stop.orderId := (newOrder_ok.mp ho).orderId.1
      refine SimUnless.step (rfl : _ = (Except.ok o, _)) (rfl : _ = (Except.ok p, _))
        (SimUnless.ok rfl rfl fun hb => ?_)
      obtain ⟨h₁, h₂, h₃⟩ := h.tick.execute hop (hoid ▸ hid) hb
      exact ⟨h₂, h₁, h₃⟩

theorem triggerAll_lockstep (stops : List StopOrder) (hids : ∀ s ∈ stops, P.ids s.orderId)
    (h : P.Related n v w) :
    SimUnless (P.Broken n) (Spec.triggerAll stops) (Spec.triggerAll stops)
      (fun t t' v w => P.SameStops t t' ∧ P.Related n v w) (P.Related n) v w := by
  induction stops generalizing v w with
  | nil => exact SimUnless.ok rfl rfl fun _ => ⟨sameStops_empty, h⟩
  | cons s stops ih =>
    unfold Spec.triggerAll
    refine SimUnless.step rfl rfl ?_
    have hs := hids s List.mem_cons_self
    refine (executeStop_lockstep { s with status := .triggered } (h.delete s.orderId) hs).bind
      (fun x => ((P.stable_broken n).triggerAll stops).bind fun _ => Keeps.pure _) fun x y v₁ w₁ h₁ => ?_
    obtain ⟨hord, htr, h₁⟩ := h₁
    refine (ih (fun s hs => hids s (List.mem_cons_of_mem _ hs)) h₁).bind (fun _ => Keeps.pure _)
      fun t t' v₂ w₂ h₂ => ?_
    refine SimUnless.ok rfl rfl fun _ => ⟨SameStops.append ⟨htr, rfl, ?_⟩ h₂.1, h₂.2⟩
    rw [← triggeredEvents_restamp, ← triggeredEvents_restamp, hord, htr]

/-- The trailing stop orders follow the last price in both. -/
theorem Related.trail (h : P.Related n v w) :
    ∃ v' w', Spec.updateTrailingStops.run v = (.ok (), v') ∧
      Spec.updateTrailingStops.run w = (.ok (), w') ∧ P.Related n v' w' := by
  unfold Spec.updateTrailingStops
  rw [run_get_bind, run_get_bind, ← h.last]
  cases hl : v.lastTradePriceTicks with
  | none => exact ⟨v, w, rfl, rfl, h⟩
  | some last =>
    refine ⟨_, _, rfl, rfl, ⟨h.sides, h.symbol, congrArg (·.mapValues (View.trail last)) h.stops,
      fun s hs => ?_, h.last, h.sequence,
      h.clock, h.trades⟩⟩
    obtain ⟨k, hk⟩ := OMap.mem_values.mp hs
    rw [OMap.get?_mapValues, Option.map_eq_some_iff] at hk
    obtain ⟨s₀, hs₀, rfl⟩ := hk
    obtain ⟨_, _, _, htrail⟩ := trail_eq last s₀
    rw [htrail]
    exact h.ids s₀ (OMap.mem_values.mpr ⟨k, hs₀⟩)

theorem Related.eligible (h : P.Related n v w) : v.eligible = w.eligible := by
  unfold View.eligible
  rw [h.last, h.stops]

/-- Only the price of the last trade matters. -/
theorem lastPrice_eq {ts us : List Trade}
    (h : ts.map (·.restamp P.seen) = us.map (·.restamp P.seen)) :
    ts.getLast?.map (·.priceTicks) = us.getLast?.map (·.priceTicks) := by
  have hlast := congrArg (fun l => l.getLast?.map (·.priceTicks)) h
  rw [List.getLast?_map, List.getLast?_map, Option.map_map, Option.map_map] at hlast
  exact hlast

theorem cascade_lockstep (cycles : Nat) {ts us : List Trade}
    (hts : ts.map (·.restamp P.seen) = us.map (·.restamp P.seen)) (h : P.Related n v w) :
    SimUnless (P.Broken n) (Spec.cascade cycles ts) (Spec.cascade cycles us)
      (fun t t' v w => P.SameStops t t' ∧ P.Related n v w) (P.Related n) v w := by
  have hdone : ∀ {v w}, P.Related n v w → SimUnless (P.Broken n)
      (pure StopResult.empty : SpecProgram StopResult) (pure StopResult.empty : SpecProgram StopResult)
      (fun t t' v w => P.SameStops t t' ∧ P.Related n v w) (P.Related n) v w :=
    fun h => SimUnless.ok rfl rfl fun _ => ⟨sameStops_empty, h⟩
  have hlast := lastPrice_eq hts
  induction cycles generalizing ts us v w with
  | zero =>
    unfold Spec.cascade
    cases ht : ts.getLast? with
    | none =>
      rw [ht] at hlast
      rw [show us.getLast? = none from Option.map_eq_none_iff.mp hlast.symm]
      exact hdone h
    | some t =>
      rw [ht] at hlast
      obtain ⟨u, hu, -⟩ := Option.map_eq_some_iff.mp hlast.symm
      rw [hu]
      exact SimUnless.error rfl rfl h
  | succ cycles ih =>
    unfold Spec.cascade
    cases ht : ts.getLast? with
    | none =>
      rw [ht] at hlast
      rw [show us.getLast? = none from Option.map_eq_none_iff.mp hlast.symm]
      exact hdone h
    | some t =>
      rw [ht] at hlast
      obtain ⟨u, hu, hprice⟩ := Option.map_eq_some_iff.mp hlast.symm
      rw [hu]
      dsimp only
      rw [hprice]
      refine SimUnless.step rfl rfl ?_
      have h₀ : P.Related n { v with lastTradePriceTicks := some t.priceTicks }
          { w with lastTradePriceTicks := some t.priceTicks } :=
        ⟨h.sides, h.symbol, h.stops, h.ids, rfl, h.sequence, h.clock, h.trades⟩
      obtain ⟨v₁, w₁, hv₁, hw₁, h₁⟩ := h₀.trail
      refine SimUnless.step hv₁ hw₁ (SimUnless.step rfl rfl ?_)
      rw [← h₁.eligible]
      by_cases he : v₁.eligible = []
      · rw [if_pos he]
        exact hdone h₁
      · rw [if_neg he]
        have hids : ∀ s ∈ v₁.eligible, P.ids s.orderId := fun s hs =>
          h₁.ids s ((eligible_sublist v₁).subset hs)
        refine (triggerAll_lockstep v₁.eligible hids h₁).bind
          (fun _ => ((P.stable_broken n).cascade _ _).bind fun _ => Keeps.pure _) fun a a' v₂ w₂ h₂ => ?_
        refine (ih h₂.1.trades h₂.2 (lastPrice_eq h₂.1.trades)).bind (fun _ => Keeps.pure _)
          fun c c' v₃ w₃ h₃ => ?_
        exact SimUnless.ok rfl rfl fun _ => ⟨h₂.1.append h₃.1, h₃.2⟩

/-! ## Calls -/

theorem Related.snapshot (h : P.Related n v w) (he : P.events) : v.snapshot = w.snapshot := by
  obtain ⟨hbest, hbids⟩ := P.levels he h.sides .buy
  obtain ⟨hask, hasks⟩ := P.levels he h.sides .sell
  unfold View.snapshot
  rw [h.symbol, h.stops, h.last, h.sequence he]
  congr 1

/-- The end of a call. -/
theorem publish_lockstep {events events' : EventBody → List EventBody} {f k : List Event → Result}
    (h : P.Related n v w)
    (he : ∀ u u' : EventBody, u.restamp P.seen = u'.restamp P.seen →
      (events u).map (·.restamp P.seen) = (events' u').map (·.restamp P.seen))
    (hl : ∀ u u', (events u).length = (events u').length)
    (hr : ∀ es es', (P.events → es.map (·.restamp P.seen) = es'.map (·.restamp P.seen)) →
      P.Same (f es) (k es')) :
    SimUnless (P.Broken n)
      (do
        let updated ← Spec.bookUpdatedEvent
        let es ← Spec.stamp (events updated)
        return f es)
      (do
        let updated ← Spec.bookUpdatedEvent
        let es ← Spec.stamp (events' updated)
        return k es)
      (fun r r' v w => P.Same r r' ∧ P.Related n v w) (P.Related n) v w := by
  refine SimUnless.ok rfl rfl fun _ => ⟨hr _ _ fun hev => ?_, h.sides, h.symbol, h.stops, h.ids, h.last,
    fun hev => ?_, fun k => h.clock (k + 1), h.trades⟩
  · rw [← stampFrom_restamp, ← stampFrom_restamp]
    show stampFrom v.symbol v.sequence _ = stampFrom w.symbol w.sequence _
    rw [h.symbol, h.sequence hev]
    refine congrArg _ (he _ _ ?_)
    rw [h.snapshot hev]
    show EventBody.bookUpdated _ _ _ = EventBody.bookUpdated _ _ _
    rw [(h.clock 0).1]
  · have hlen := congrArg List.length (he (.bookUpdated none w.snapshot (w.clock 0)) _ rfl)
    rw [List.length_map, List.length_map] at hlen
    show v.sequence + _ = w.sequence + _
    rw [h.sequence hev, hl _ (.bookUpdated none w.snapshot (w.clock 0)), hlen]

theorem assertAvailable_lockstep {key : String} {f f' : Unit → SpecProgram Result} (h : P.Related n v w)
    (hid : P.ids key)
    (hf : SimUnless (P.Broken n) (f ()) (f' ()) (fun r r' v w => P.Same r r' ∧ P.Related n v w)
      (P.Related n) v w) :
    SimUnless (P.Broken n) (Spec.assertAvailable key >>= f) (Spec.assertAvailable key >>= f')
      (fun r r' v w => P.Same r r' ∧ P.Related n v w) (P.Related n) v w := by
  have hiff : v.hasId key ↔ w.hasId key := by
    unfold View.hasId
    rw [P.has h.sides key hid, h.stops]
  by_cases hk : v.hasId key
  · exact SimUnless.error (run_bind_error (Spec.assertAvailable_taken hk))
      (run_bind_error (Spec.assertAvailable_taken (hiff.mp hk))) h
  · exact SimUnless.step (Spec.assertAvailable_free hk) (Spec.assertAvailable_free (mt hiff.mpr hk)) hf

theorem finalOrder_restamp {o p : Order} {t t' : StopResult} (h : o.restamp P.seen = p.restamp P.seen)
    (ht : P.SameStops t t') :
    (Spec.finalOrder o t).restamp P.seen = (Spec.finalOrder p t').restamp P.seen := by
  have hid := (Order.of_restamp h).1
  have htr : traded o.orderId t.trades = traded p.orderId t'.trades := by
    rw [← traded_restamp P.seen, ht.trades, hid, traded_restamp]
  show (o.restamp P.seen).filledBy _ = (p.restamp P.seen).filledBy _
  rw [h, htr]

/-- The new order of a call executes, and the cascade follows. -/
theorem executeNew_lockstep {typ : OrderType} {input : OrderInput}
    {f f' : Order × List Trade → SpecProgram Result} (h : P.Related n v w) (hid : P.ids input.orderId)
    (hk : ∀ x, Keeps (P.Broken n) (f x))
    (hf : ∀ (o p : Order) ts us v w, o.restamp P.seen = p.restamp P.seen →
      ts.map (Trade.restamp P.seen) = us.map (Trade.restamp P.seen) → P.Related n v w →
      SimUnless (P.Broken n) (f (o, ts)) (f' (p, us)) (fun r r' v w => P.Same r r' ∧ P.Related n v w)
        (P.Related n) v w) :
    SimUnless (P.Broken n)
      (Exc.lift (newOrder v.symbol typ input false) >>= fun o => Spec.execute o >>= f)
      (Exc.lift (newOrder v.symbol typ input false) >>= fun o => Spec.execute o >>= f')
      (fun r r' v w => P.Same r r' ∧ P.Related n v w) (P.Related n) v w := by
  cases ho : newOrder v.symbol typ input false with
  | error e => exact SimUnless.error (by rw [run_lift_bind]) (by rw [run_lift_bind]) h
  | ok o =>
    refine SimUnless.step (rfl : _ = (Except.ok o, _)) (rfl : _ = (Except.ok o, _)) ?_
    have hoid : o.orderId = input.orderId := (newOrder_ok.mp ho).orderId.1
    refine SimUnless.bind (Q := fun x y v w => x.1.restamp P.seen = y.1.restamp P.seen ∧
      x.2.map (Trade.restamp P.seen) = y.2.map (Trade.restamp P.seen) ∧ P.Related n v w)
      (SimUnless.ok rfl rfl fun hb => ?_) hk fun x y v w hxy => hf _ _ _ _ _ _ hxy.1 hxy.2.1 hxy.2.2
    obtain ⟨h₁, h₂, h₃⟩ := h.execute (o := o) (p := o) rfl (hoid ▸ hid) hb
    exact ⟨h₂, h₁, h₃⟩

theorem placeLimit_lockstep (input : OrderInput) (hid : P.ids input.orderId) (h : P.Related n v w) :
    SimUnless (P.Broken n) (Spec.placeLimit input) (Spec.placeLimit input)
      (fun r r' v w => P.Same r r' ∧ P.Related n v w) (P.Related n) v w := by
  refine assertAvailable_lockstep h hid (SimUnless.step rfl rfl ?_)
  rw [← h.symbol]
  refine executeNew_lockstep h hid (fun _ => ((P.stable_broken n).cascade _ _).bind fun _ =>
    (P.stable_broken n).publish _ _) fun o p ts us v w hop hts h => ?_
  refine (cascade_lockstep maxCycles hts h).bind (fun _ => (P.stable_broken n).publish _ _)
    fun t t' v w ht => ?_
  have hev : ([orderAcceptedEvent o] ++ ts.map EventBody.trade ++ [orderFillEvent o]).map (·.restamp P.seen) =
      ([orderAcceptedEvent p] ++ us.map EventBody.trade ++ [orderFillEvent p]).map (·.restamp P.seen) := by
    rw [← executedEvents_restamp, ← executedEvents_restamp, hop, hts]
  have hrest : (if 0 < o.remainingQuantity then [orderRestedEvent o] else []).map (·.restamp P.seen) =
      (if 0 < p.remainingQuantity then [orderRestedEvent p] else []).map (·.restamp P.seen) := by
    rw [(Order.of_restamp hop).2]
    split_ifs
    · exact congrArg (fun o => [orderRestedEvent o]) hop
    · rfl
  refine publish_lockstep ht.2 (fun u u' hu => ?_) (fun u u' => by simp) fun es es' hes =>
    ⟨congrArg Placed.order (finalOrder_restamp hop ht.1), ?_, ht.1.triggered, hes⟩
  · rw [List.map_append, List.map_append, List.map_append, hev, hrest, ht.1.events,
      show [u].map (·.restamp P.seen) = [u'].map (·.restamp P.seen) from congrArg (fun x => [x]) hu]
    simp only [List.map_append]
  · rw [List.map_append, List.map_append, hts, ht.1.trades]

theorem placeMarket_lockstep (input : OrderInput) (hid : P.ids input.orderId) (h : P.Related n v w) :
    SimUnless (P.Broken n) (Spec.placeMarket input) (Spec.placeMarket input)
      (fun r r' v w => P.Same r r' ∧ P.Related n v w) (P.Related n) v w := by
  refine assertAvailable_lockstep h hid (SimUnless.step rfl rfl ?_)
  rw [← h.symbol]
  refine executeNew_lockstep h hid (fun _ => ((P.stable_broken n).cascade _ _).bind fun _ =>
    (P.stable_broken n).publish _ _) fun o p ts us v w hop hts h => ?_
  refine (cascade_lockstep maxCycles hts h).bind (fun _ => (P.stable_broken n).publish _ _)
    fun t t' v w ht => ?_
  have hev : ([orderAcceptedEvent o] ++ ts.map EventBody.trade ++ [orderFillEvent o]).map (·.restamp P.seen) =
      ([orderAcceptedEvent p] ++ us.map EventBody.trade ++ [orderFillEvent p]).map (·.restamp P.seen) := by
    rw [← executedEvents_restamp, ← executedEvents_restamp, hop, hts]
  refine publish_lockstep ht.2 (fun u u' hu => ?_) (fun u u' => by simp) fun es es' hes =>
    ⟨congrArg Placed.order (finalOrder_restamp hop ht.1), ?_, ht.1.triggered, hes⟩
  · rw [List.map_append, List.map_append, hev, ht.1.events,
      show [u].map (·.restamp P.seen) = [u'].map (·.restamp P.seen) from congrArg (fun x => [x]) hu]
    simp only [List.map_append]
  · rw [List.map_append, List.map_append, hts, ht.1.trades]

theorem placeStopWithExtrema_lockstep (input : OrderInput) (typ : OrderType) (peak valley : Option Int)
    (hid : P.ids input.orderId) (h : P.Related n v w) :
    SimUnless (P.Broken n) (Spec.placeStopWithExtrema input typ peak valley)
      (Spec.placeStopWithExtrema input typ peak valley)
      (fun r r' v w => P.Same r r' ∧ P.Related n v w) (P.Related n) v w := by
  refine assertAvailable_lockstep h hid (SimUnless.step rfl rfl ?_)
  rw [← h.symbol]
  cases hs : newStop v.symbol typ input peak valley with
  | error e => exact SimUnless.error (by rw [run_lift_bind]) (by rw [run_lift_bind]) h
  | ok s =>
    refine SimUnless.step (rfl : _ = (Except.ok s, _)) (rfl : _ = (Except.ok s, _)) (SimUnless.step rfl rfl ?_)
    have hadd : P.Related n { v with stops := v.stops.set s.orderId s }
        { w with stops := w.stops.set s.orderId s } := by
      refine ⟨h.sides, h.symbol, congrArg (·.set s.orderId s) h.stops, fun s' hs' => ?_, h.last,
        h.sequence, h.clock, h.trades⟩
      obtain ⟨k, hk⟩ := OMap.mem_values.mp hs'
      rw [OMap.get?_set] at hk
      split at hk
      · cases hk
        rw [(newStop_ok.mp hs).orderId.1]
        exact hid
      · exact h.ids s' (OMap.mem_values.mpr ⟨k, hk⟩)
    refine publish_lockstep (f := fun es => ⟨.stop s, [], [], es⟩)
      (k := fun es => ⟨.stop s, [], [], es⟩) hadd (fun u u' hu => ?_) (fun _ _ => rfl)
      fun es es' hes => ⟨rfl, rfl, rfl, hes⟩
    show [_, u.restamp P.seen] = [_, u'.restamp P.seen]
    rw [hu]

theorem cancelStop_lockstep (key : String) (s : StopOrder) (h : P.Related n v w) :
    SimUnless (P.Broken n) (Spec.cancelStop key s) (Spec.cancelStop key s)
      (fun r r' v w => P.Same r r' ∧ P.Related n v w) (P.Related n) v w := by
  refine SimUnless.step rfl rfl (SimUnless.ok rfl rfl fun _ => ⟨⟨rfl, rfl, rfl, fun hev => ?_⟩,
    (h.delete key).tick⟩)
  rw [(h.delete key).snapshot hev]
  show [_, Event.mk (.bookUpdated none _ _) none] = [_, Event.mk (.bookUpdated none _ _) none]
  rw [((h.delete key).clock 0).1]

theorem cancelResting_lockstep {o p : Order} (hop : o.restamp P.seen = p.restamp P.seen)
    (hid : P.ids o.orderId) (h : P.Related n v w) :
    SimUnless (P.Broken n) (Spec.cancelResting o) (Spec.cancelResting p)
      (fun r r' v w => P.Same r r' ∧ P.Related n v w) (P.Related n) v w := by
  have hcancel : ({ o with status := .cancelled } : Order).restamp P.seen =
      ({ p with status := .cancelled } : Order).restamp P.seen :=
    congrArg (fun o : Order => { o with status := .cancelled }) hop
  refine SimUnless.step rfl rfl ?_
  have hrem : P.Related n { v with toDepth := v.remove o.orderId } { w with toDepth := w.remove p.orderId } := by
    rw [← (Order.of_restamp hop).1]
    exact ⟨P.remove h.sides o.orderId hid, h.symbol, h.stops, h.ids, h.last, h.sequence, h.clock, h.trades⟩
  refine publish_lockstep hrem (fun u u' hu => ?_) (fun _ _ => rfl)
    fun es es' hes => ⟨congrArg Placed.order hcancel, rfl, rfl, hes⟩
  show [_, u.restamp P.seen] = [_, u'.restamp P.seen]
  rw [hu]
  exact congrArg (fun o => [orderCancelledEvent o, _]) hcancel

theorem cancelOrder_lockstep (key : String) (hid : P.ids key) (h : P.Related n v w) :
    SimUnless (P.Broken n) (Spec.cancelOrder key) (Spec.cancelOrder key)
      (fun r r' v w => P.Same r r' ∧ P.Related n v w) (P.Related n) v w := by
  have hfind := P.find h.sides key hid
  unfold Spec.cancelOrder
  refine SimUnless.step rfl rfl ?_
  rw [← h.stops]
  cases v.stops.get? key with
  | some s => exact cancelStop_lockstep key s h
  | none =>
    cases ho : v.orders.find? (fun o => decide (o.orderId = key)) with
    | none =>
      rw [ho] at hfind
      rw [Option.map_eq_none_iff.mp hfind.symm]
      exact SimUnless.error rfl rfl h
    | some o =>
      rw [ho] at hfind
      obtain ⟨p, hp, hop⟩ := Option.map_eq_some_iff.mp hfind.symm
      rw [hp]
      have hkey : o.orderId = key := by simpa using List.find?_some ho
      exact cancelResting_lockstep hop.symm (hkey ▸ hid) h

end

end Pairing

/-- The id that a call uses. -/
def Call.orderId : Call → String
  | .placeLimit input | .placeMarket input | .placeStopMarket input | .placeStopLimit input
  | .placeTrailingStopMarket input => input.orderId
  | .cancel orderId => orderId

namespace Pairing

variable {P : Pairing} {n : Nat} {v w : View}

theorem newTrailing_orderId {last : Option Int} {input i : OrderInput} {peak valley : Option Int}
    (h : newTrailing last input = .ok (i, peak, valley)) : i.orderId = input.orderId := by
  unfold newTrailing at h
  split at h
  · cases h
  · split at h
    · cases h
    · split_ifs at h
      split at h <;> cases h <;> rfl

/-- A call from two books of the pairing, as long as no bad trade is made. -/
theorem program (c : Call) (hid : P.ids c.orderId) (h : P.Related n v w) :
    SimUnless (P.Broken n) (Spec.program c) (Spec.program c)
      (fun r r' v w => P.Same r r' ∧ P.Related n v w) (P.Related n) v w := by
  cases c with
  | placeLimit input => exact placeLimit_lockstep input hid h
  | placeMarket input => exact placeMarket_lockstep input hid h
  | placeStopMarket input => exact placeStopWithExtrema_lockstep input _ _ _ hid h
  | placeStopLimit input => exact placeStopWithExtrema_lockstep input _ _ _ hid h
  | placeTrailingStopMarket input =>
    refine SimUnless.step rfl rfl ?_
    rw [← h.last]
    cases hn : newTrailing v.lastTradePriceTicks input with
    | error e => exact SimUnless.error (by rw [run_lift_bind]) (by rw [run_lift_bind]) h
    | ok x =>
      obtain ⟨i, peak, valley⟩ := x
      refine SimUnless.step (rfl : _ = (Except.ok (i, peak, valley), _)) rfl ?_
      exact placeStopWithExtrema_lockstep i _ peak valley (newTrailing_orderId hn ▸ hid) h
  | cancel key => exact cancelOrder_lockstep key hid h

/-! ## Runs -/

/-- What two outcomes have in common. -/
def SameOutcome (P : Pairing) (r r' : Except GoError Result) : Prop :=
  match r, r' with
  | .ok r, .ok r' => P.Same r r'
  | .error e, .error e' => e = e'
  | _, _ => False

/-- The views of two books are of the pairing. -/
def Together (P : Pairing) (n : Nat) (b b' : Book) : Prop :=
  ∃ v w, Good b v ∧ Good b' w ∧ P.Related n v w

/-- A call on two books. -/
theorem Together.call {b b' : Book} (h : P.Together n b b') (c : Call) (hid : P.ids c.orderId)
    (hbad : ∀ t ∈ (Go.call b c).2.trades.drop n, ¬ P.bad t) :
    P.SameOutcome (Go.call b c).1 (Go.call b' c).1 ∧ P.Together n (Go.call b c).2 (Go.call b' c).2 := by
  obtain ⟨v, w, hv, hw, hrel⟩ := h
  obtain ⟨hr, hv'⟩ := call_refines c hv
  obtain ⟨hr', hw'⟩ := call_refines c hw
  have hsim := program c hid hrel
  obtain ⟨⟨F, hrepr⟩, -⟩ := id hv'
  have hok : ¬ P.Broken n ((Spec.program c).run v).2 := by
    rintro ⟨t, ht, hb⟩
    rw [hrepr.trades] at ht
    exact hbad t ht hb
  have hsim := hsim hok
  rw [hr, hr']
  unfold Together
  revert hsim hv' hw'
  rcases (Spec.program c).run v with ⟨_ | r, v'⟩ <;> rcases (Spec.program c).run w with ⟨_ | r', w'⟩
  · exact fun hv' hw' hs => ⟨hs.1, v', w', hv', hw', hs.2⟩
  · exact fun _ _ hs => hs.elim
  · exact fun _ _ hs => hs.elim
  · exact fun hv' hw' hs => ⟨hs.1, v', w', hv', hw', hs.2⟩

/-- A bad trade stays in the book. -/
theorem broken_calls (P : Pairing) {b : Book} {v : View} (h : Good b v) (cs : List Call)
    (hb : ∃ t ∈ b.trades.drop n, P.bad t) : ∃ t ∈ (calls b cs).trades.drop n, P.bad t := by
  induction cs generalizing b v with
  | nil => exact hb
  | cons c cs ih =>
    have hg := (call_refines c h).2
    refine ih hg ?_
    obtain ⟨⟨F, hr⟩, -⟩ := h
    obtain ⟨⟨F', hr'⟩, -⟩ := hg
    rw [← hr'.trades]
    rw [← hr.trades] at hb
    exact (P.stable_broken n).program c v hb

/-- Calls on two books, one after the other. -/
theorem Together.steps {b b' : Book} (h : P.Together n b b') (cs : List Call)
    (hid : ∀ c ∈ cs, P.ids c.orderId) (hbad : ∀ t ∈ (calls b cs).trades.drop n, ¬ P.bad t) :
    List.Forall₂ (fun x y => P.SameOutcome x.1 y.1 ∧ P.Together n x.2 y.2) (steps b cs) (steps b' cs) ∧
      P.Together n (calls b cs) (calls b' cs) := by
  induction cs generalizing b b' with
  | nil => exact ⟨.nil, h⟩
  | cons c cs ih =>
    obtain ⟨v, w, hv, -⟩ := id h
    have hgood := (call_refines c hv).2
    have hc := h.call c (hid c List.mem_cons_self) fun t ht hb => by
      obtain ⟨t', ht', hb'⟩ := broken_calls P hgood cs ⟨t, ht, hb⟩
      exact hbad t' ht' hb'
    obtain ⟨h₁, h₂⟩ := ih hc.2 (fun c hc => hid c (List.mem_cons_of_mem _ hc)) hbad
    exact ⟨.cons hc h₁, h₂⟩

end Pairing

end Lob.Go
