import LobEngine.Go.Determinism
import LobEngine.Node.Conservation
import LobEngine.Node.Restamp

/-!
# What the results of the reference engine depend on

A recovery snapshot does not have the trades that the book has made, and a restored book reads the clock on its own.
What a call does depends on neither, but for the timestamps that are readings of the clock.

* `View.Alike f`: views with the same orders, up to what `f` sees of the timestamps. `program_agree`: what a call does
  to such views.
* `Twins f`: two books with such views. `Twins.call`: after the same call they are twins again, with the same result.
* `restored_same`: a book and the book restored from its recovery snapshot do the same from then on.
* `clock_unseen`: nor does the clock show in anything but timestamps.
-/

namespace Lob.Node

open Exc OrderBook

/-- The results of some calls and the books after them, whether they return or throw. -/
def outcomes (b : OrderBook) : List Call → List (Except JsError Result × OrderBook)
  | [] => []
  | c :: cs => call b c :: outcomes (call b c).2 cs

/-- The same orders, up to what `f` sees of the timestamps, and the same in all but the trades of the past; and clocks
that `f` does not tell apart. -/
structure View.Alike (f : Stamp → Stamp) (v w : View) : Prop where
  sides : v.toDepth.restamp f = w.toDepth.restamp f
  symbol : v.symbol = w.symbol
  stops : v.stops = w.stops
  last : v.lastTradePriceTicks = w.lastTradePriceTicks
  sequence : v.sequence = w.sequence
  clock : ∀ n, f ⟨v.clock n, true⟩ = f ⟨w.clock n, true⟩ ∧ (0 ≤ v.clock n ↔ 0 ≤ w.clock n)

section

variable {f : Stamp → Stamp} {v w : View}

namespace View.Alike

theorem execute (h : v.Alike f w) {o p : Order} (hop : o.restamp f = p.restamp f) :
    (v.execute o).1.map (·.restamp f) = (w.execute p).1.map (·.restamp f) ∧
      (v.executedOrder o).restamp f = (w.executedOrder p).restamp f ∧ (v.executed o).Alike f (w.executed p) := by
  have hv := Depth.execute_restamp f v.toDepth o
  have hw := Depth.execute_restamp f w.toDepth p
  rw [h.sides, hop, hw, Prod.mk.injEq, Prod.mk.injEq] at hv
  exact ⟨hv.1.symm, hv.2.1.symm, hv.2.2.symm, h.symbol, h.stops, h.last, h.sequence, h.clock⟩

theorem snapshot (h : v.Alike f w) : v.snapshot = w.snapshot := by
  have hside : ∀ s, (v.side s).map (·.restamp f) = (w.side s).map (·.restamp f) := fun s => by
    rw [← Depth.side_restamp, ← Depth.side_restamp, h.sides]
  have hbest : ∀ s, (v.side s).head?.map Order.price = (w.side s).head?.map Order.price := fun s => by
    have hhead := congrArg (fun L => L.head?.map Order.price) (hside s)
    rw [List.head?_map, List.head?_map, Option.map_map, Option.map_map] at hhead
    exact hhead
  have hlevels : ∀ s, levelSnapshots (v.side s) = levelSnapshots (w.side s) := fun s => by
    rw [← levelSnapshots_restamp f, hside, levelSnapshots_restamp]
  unfold View.snapshot
  rw [h.symbol, h.stops, h.last, h.sequence]
  congr 1
  · exact hbest .buy
  · exact hbest .sell
  · exact hlevels .buy
  · exact hlevels .sell

theorem recoverySnapshot (h : v.Alike f w) (id : Option String) :
    (v.toRecoverySnapshot id).restamp f = (w.toRecoverySnapshot id).restamp f := by
  have hside : ∀ s, (recoveryLevels (v.side s)).map (·.restamp f) = (recoveryLevels (w.side s)).map (·.restamp f) :=
    fun s => by
      rw [← recoveryLevels_restamp, ← recoveryLevels_restamp, ← Depth.side_restamp, ← Depth.side_restamp, h.sides]
  unfold View.toRecoverySnapshot RecoverySnapshot.restamp
  rw [h.symbol, h.stops, h.last, h.sequence]
  congr 1
  · exact hside .buy
  · exact hside .sell

theorem hasId (h : v.Alike f w) (id : JsVal) : v.hasId id = w.hasId id := by
  unfold View.hasId
  rw [← Depth.ids_restamp f v.toDepth, h.sides, Depth.ids_restamp, h.stops]

theorem find (h : v.Alike f w) (id : JsVal) :
    (v.orders.find? fun o => decide (.str o.orderId = id)).map (·.restamp f) =
      (w.orders.find? fun o => decide (.str o.orderId = id)).map (·.restamp f) := by
  have hfind : ∀ d : Depth, (d.orders.find? fun o => decide (.str o.orderId = id)).map (·.restamp f) =
      (d.restamp f).orders.find? fun o => decide (.str o.orderId = id) := fun d => by
    rw [Depth.orders_restamp, List.find?_map]
    rfl
  rw [hfind, hfind, h.sides]

end View.Alike

/-! ## The programs -/

/-- What two programs of the spec do to views that are alike. -/
abbrev SpecAgree {α γ : Type} (f : Stamp → Stamp) (g : α → γ) (m m' : SpecProgram α) : Prop :=
  Agree (View.Alike f) g m m'

theorem now_agree : SpecAgree f (fun ms => (f ⟨ms, true⟩, decide (0 ≤ ms))) Spec.now Spec.now :=
  .get fun _ _ h => .bind
    (.modify fun _ _ h => ⟨h.sides, h.symbol, h.stops, h.last, h.sequence, fun n => h.clock (n + 1)⟩)
    fun _ _ _ => .pure (Prod.ext (h.clock 0).1 (decide_eq_decide.mpr (h.clock 0).2))

theorem execute_agree {i i' : OrderInput} (h : (newOrder i).map (·.restamp f) = (newOrder i').map (·.restamp f)) :
    SpecAgree f (fun x => (x.1.restamp f, x.2.map (·.restamp f))) (Spec.execute i) (Spec.execute i') := by
  intro v w hvw
  cases ho : newOrder i with
  | error e =>
    cases hp : newOrder i' with
    | error e' =>
      rw [ho, hp] at h
      cases h
      rw [spec_execute_error ho, spec_execute_error hp]
      exact ⟨rfl, hvw⟩
    | ok p =>
      rw [ho, hp] at h
      cases h
  | ok o =>
    cases hp : newOrder i' with
    | error e' =>
      rw [ho, hp] at h
      cases h
    | ok p =>
      rw [ho, hp] at h
      obtain ⟨htrades, horder, hvw⟩ := hvw.execute (Except.ok.inj h)
      rw [spec_execute_ok ho, spec_execute_ok hp]
      exact ⟨Prod.ext horder htrades, hvw⟩

theorem stampEvents_agree {es es' : List EventBody} (h : es.map (·.restamp f) = es'.map (·.restamp f)) :
    SpecAgree f (List.map (·.restamp f)) (Spec.stampEvents es) (Spec.stampEvents es') := by
  have hlen := congrArg List.length h
  rw [List.length_map, List.length_map] at hlen
  refine .get fun v w hvw => .bind (.modify fun v w h => ?_) fun _ _ _ => .pure ?_
  · exact ⟨h.sides, h.symbol, h.stops, h.last, by rw [h.sequence, hlen], h.clock⟩
  · rw [← stampFrom_restamp, ← stampFrom_restamp, h, hvw.symbol, hvw.sequence]

theorem createBookUpdatedEvent_agree :
    SpecAgree f (·.restamp f) Spec.createBookUpdatedEvent Spec.createBookUpdatedEvent :=
  .get fun v w hvw => now_agree.bind fun ms ms' hms => .pure <| by
    rw [hvw.snapshot]
    exact congrArg (fun s : Stamp => EventBody.bookUpdated none w.snapshot s.ms) (Prod.mk.inj hms).1

theorem assertOrderIdAvailable_agree (key : JsVal) :
    SpecAgree f id (Spec.assertOrderIdAvailable key) (Spec.assertOrderIdAvailable key) :=
  .get fun _ _ hvw => .ite (by rw [hvw.hasId]) (fun _ => .throw _) fun _ => .pure rfl

theorem updateTrailingStopOrders_agree :
    SpecAgree f id Spec.updateTrailingStopOrders Spec.updateTrailingStopOrders := by
  refine .get fun v w hvw => ?_
  rw [← hvw.last]
  cases v.lastTradePriceTicks with
  | none => exact .pure rfl
  | some last =>
    exact .modify fun v w h => ⟨h.sides, h.symbol, congrArg (·.mapValues (trail last)) h.stops, h.last, h.sequence,
      h.clock⟩

theorem getEligibleStopOrders_agree : SpecAgree f id Spec.getEligibleStopOrders Spec.getEligibleStopOrders := by
  refine .get fun v w hvw => ?_
  rw [← hvw.last, ← hvw.stops]
  cases v.lastTradePriceTicks with
  | none => exact .pure rfl
  | some last => exact .lift _

theorem executeTriggeredStopOrder_agree (s : StopOrder) :
    SpecAgree f (fun x => (x.1.restamp f, x.2.map (·.restamp f))) (Spec.executeTriggeredStopOrder s)
      (Spec.executeTriggeredStopOrder s) := by
  refine .get fun v w hvw => ?_
  rw [← hvw.symbol]
  have htriggered : ∀ {type priceTicks} {ms ms' : Int},
      (f ⟨ms, true⟩, decide (0 ≤ ms)) = (f ⟨ms', true⟩, decide (0 ≤ ms')) →
      (newOrder (triggeredInput v.symbol s type priceTicks ms)).map (·.restamp f) =
        (newOrder (triggeredInput v.symbol s type priceTicks ms')).map (·.restamp f) := fun hms =>
    newOrder_triggered _ s _ _ (Prod.mk.inj hms).1 (decide_eq_decide.mp (Prod.mk.inj hms).2)
  exact .ite Iff.rfl (fun _ => now_agree.bind fun _ _ hms => execute_agree (htriggered hms)) fun _ =>
    .ite Iff.rfl (fun _ => now_agree.bind fun _ _ hms => execute_agree (htriggered hms)) fun _ => .throw _

theorem triggerAll_agree (ss : List StopOrder) :
    SpecAgree f (·.restamp f) (Spec.triggerAll ss) (Spec.triggerAll ss) := by
  induction ss with
  | nil => exact .pure rfl
  | cons s ss ih =>
    refine .bind (.modify fun v w h => ?_) fun _ _ _ => (executeTriggeredStopOrder_agree _).bind fun x y hxy =>
      ih.bind fun t u htu => .pure ?_
    · exact ⟨h.sides, h.symbol, congrArg (·.delete s.orderId) h.stops, h.last, h.sequence, h.clock⟩
    · obtain ⟨horder, htrades⟩ := Prod.mk.inj hxy
      rw [Triggered.append_restamp, Triggered.append_restamp, htu]
      refine congrArg (Triggered.append · (u.restamp f)) ?_
      unfold Triggered.restamp
      dsimp only
      rw [← triggeredEvents_restamp, ← triggeredEvents_restamp, horder, htrades]

/-- The last trades have one price. -/
theorem getLast_restamp {ts us : List Trade} (h : ts.map (·.restamp f) = us.map (·.restamp f)) :
    (ts.getLast? = none ∧ us.getLast? = none) ∨
      ∃ t u, ts.getLast? = some t ∧ us.getLast? = some u ∧ t.priceTicks = u.priceTicks := by
  have hlast := congrArg List.getLast? h
  rw [List.getLast?_map, List.getLast?_map] at hlast
  cases ht : ts.getLast? with
  | none =>
    rw [ht] at hlast
    exact .inl ⟨rfl, Option.map_eq_none_iff.mp hlast.symm⟩
  | some t =>
    rw [ht] at hlast
    obtain ⟨u, hu, hut⟩ := Option.map_eq_some_iff.mp hlast.symm
    have hprice := congrArg Trade.priceTicks hut
    exact .inr ⟨t, u, rfl, hu, hprice.symm⟩

theorem cascade_agree (cycles : Nat) {ts us : List Trade} (h : ts.map (·.restamp f) = us.map (·.restamp f)) :
    SpecAgree f (·.restamp f) (Spec.cascade cycles ts) (Spec.cascade cycles us) := by
  induction cycles generalizing ts us with
  | zero =>
    unfold Spec.cascade
    rcases getLast_restamp h with ⟨ht, hu⟩ | ⟨t, u, ht, hu, -⟩ <;> rw [ht, hu]
    · exact .pure rfl
    · exact .throw _
  | succ cycles ih =>
    unfold Spec.cascade
    rcases getLast_restamp h with ⟨ht, hu⟩ | ⟨t, u, ht, hu, hprice⟩ <;> rw [ht, hu]
    · exact .pure rfl
    · refine .bind (.modify fun v w h => ?_) fun _ _ _ => updateTrailingStopOrders_agree.bind fun _ _ _ =>
        getEligibleStopOrders_agree.bind fun eligible _ he => ?_
      · exact ⟨h.sides, h.symbol, h.stops, congrArg some hprice, h.sequence, h.clock⟩
      · cases he
        refine .ite Iff.rfl (fun _ => .pure rfl) fun _ => (triggerAll_agree eligible).bind fun round round' hround =>
          (ih (congrArg Triggered.trades hround)).bind fun rest rest' hrest => .pure ?_
        rw [Triggered.append_restamp, Triggered.append_restamp, hround, hrest]

theorem acceptStop_agree (s : StopOrder) : SpecAgree f (·.restamp f) (Spec.acceptStop s) (Spec.acceptStop s) := by
  refine .bind (.modify fun v w h => ?_) fun _ _ _ => createBookUpdatedEvent_agree.bind fun u u' hu =>
    (stampEvents_agree ?_).bind fun es es' hes => .pure (congrArg (Outcome.mk _ _) hes)
  · exact ⟨h.sides, h.symbol, congrArg (·.set s.orderId s) h.stops, h.last, h.sequence, h.clock⟩
  · exact congrArg ([EventBody.stopAccepted s] ++ [·]) hu

/-- The checks that all methods that place an order start with. -/
theorem checked_agree {args : Option Payload} {k : Payload → SpecProgram Outcome}
    (hk : ∀ p, SpecAgree f (·.restamp f) (k p) (k p)) :
    SpecAgree f (·.restamp f)
      (do let p ← Spec.destructure args; Spec.assertOrderIdAvailable p.orderId; k p : SpecProgram Outcome)
      (do let p ← Spec.destructure args; Spec.assertOrderIdAvailable p.orderId; k p : SpecProgram Outcome) := by
  cases args with
  | none => exact .bind (g := id) (.throw _) fun p p' hp =>
    (by cases hp; exact (assertOrderIdAvailable_agree _).bind fun _ _ _ => hk p)
  | some p =>
    exact .bind (g := id) (.pure rfl) fun p p' hp =>
      (by cases hp; exact (assertOrderIdAvailable_agree _).bind fun _ _ _ => hk p)

/-- What follows the execution of an order: the events, before and after those of the triggered stop orders. -/
theorem executed_agree {ts us : List Trade}
    (h : ts.map (·.restamp f) = us.map (·.restamp f)) {events events' : Triggered → EventBody → List EventBody}
    (he : ∀ t t' u u', t.restamp f = t'.restamp f → u.restamp f = u'.restamp f →
      (events t u).map (·.restamp f) = (events' t' u').map (·.restamp f)) :
    SpecAgree f (·.restamp f)
      (do
        let triggered ← Spec.cascade maxCycles ts
        let updated ← Spec.createBookUpdatedEvent
        let es ← Spec.stampEvents (events triggered updated)
        return ⟨some (ts ++ triggered.trades), some triggered.orders, es⟩ : SpecProgram Outcome)
      (do
        let triggered ← Spec.cascade maxCycles us
        let updated ← Spec.createBookUpdatedEvent
        let es ← Spec.stampEvents (events' triggered updated)
        return ⟨some (us ++ triggered.trades), some triggered.orders, es⟩ : SpecProgram Outcome) := by
  refine (cascade_agree maxCycles h).bind fun t t' ht => createBookUpdatedEvent_agree.bind fun u u' hu =>
    (stampEvents_agree (he t t' u u' ht hu)).bind fun es es' hes => .pure ?_
  have htrades : t.trades.map (·.restamp f) = t'.trades.map (·.restamp f) := (Triggered.mk.inj ht).1
  have horders : t.orders = t'.orders := (Triggered.mk.inj ht).2.1
  unfold Outcome.restamp
  dsimp only
  rw [Option.map_some, Option.map_some, List.map_append, List.map_append, h, htrades, horders, hes]

theorem executedEvents_restamp {o p : Order} (h : o.restamp f = p.restamp f) :
    (createOrderAcceptedEvent o).restamp f = (createOrderAcceptedEvent p).restamp f ∧
      (createOrderFillEvent o).restamp f = (createOrderFillEvent p).restamp f ∧
      (createOrderRestedEvent o).restamp f = (createOrderRestedEvent p).restamp f ∧
      (createOrderCancelledEvent o).restamp f = (createOrderCancelledEvent p).restamp f := by
  have hall : ∀ (g : Order → EventBody), (∀ x, (g x).restamp f = g (x.restamp f)) →
      (g o).restamp f = (g p).restamp f := fun g hg => by rw [hg, hg, h]
  exact ⟨hall _ fun _ => rfl, hall _ fun _ => rfl, hall _ fun _ => rfl, hall _ fun _ => rfl⟩

/-- What a call does depends neither on the trades of the past, nor on what `f` does not see of the timestamps. -/
theorem program_agree (c : Call) : SpecAgree f (·.restamp f) (Spec.program c) (Spec.program c) := by
  cases c with
  | placeLimitOrder args =>
    refine checked_agree fun p => .get fun v w hvw => ?_
    rw [hvw.symbol]
    refine (execute_agree rfl).bind fun x y hxy => executed_agree (Prod.mk.inj hxy).2 fun t t' u u' ht hu => ?_
    obtain ⟨horder, htrades⟩ := Prod.mk.inj hxy
    obtain ⟨haccepted, hfill, hrested, -⟩ := executedEvents_restamp horder
    have hremaining := (Order.of_restamp horder).2
    simp only [List.map_append, List.map_cons, List.map_nil, ← tradeEvents_restamp, htrades, haccepted, hfill, hu,
      hremaining, apply_ite (List.map (EventBody.restamp f)), hrested]
    rw [show t.events.map (·.restamp f) = _ from (Triggered.mk.inj ht).2.2]
  | placeMarketOrder args =>
    refine checked_agree fun p => .get fun v w hvw => ?_
    rw [hvw.symbol]
    refine (execute_agree rfl).bind fun x y hxy => executed_agree (Prod.mk.inj hxy).2 fun t t' u u' ht hu => ?_
    obtain ⟨horder, htrades⟩ := Prod.mk.inj hxy
    obtain ⟨haccepted, hfill, -, -⟩ := executedEvents_restamp horder
    simp only [List.map_append, List.map_cons, List.map_nil, ← tradeEvents_restamp, htrades, haccepted, hfill, hu]
    rw [show t.events.map (·.restamp f) = _ from (Triggered.mk.inj ht).2.2]
  | placeStopMarketOrder args =>
    refine checked_agree fun p => .get fun v w hvw => ?_
    rw [hvw.symbol]
    exact acceptStop_agree _
  | placeStopLimitOrder args =>
    refine checked_agree fun p => .get fun v w hvw => ?_
    rw [hvw.symbol]
    exact acceptStop_agree _
  | placeTrailingStopMarketOrder args =>
    refine checked_agree fun p => .get fun v w hvw => ?_
    rw [hvw.symbol, hvw.last]
    cases w.lastTradePriceTicks with
    | none => exact .throw _
    | some last =>
      refine Agree.bind (g := id) (.lift _) fun a a' ha => ?_
      cases ha
      exact acceptStop_agree _
  | cancelOrder key =>
    refine .get fun v w hvw => ?_
    rw [← hvw.stops]
    cases v.stops.get? key with
    | some s =>
      refine .bind (.modify fun v w h => ?_) fun _ _ _ => createBookUpdatedEvent_agree.bind fun u u' hu => .pure ?_
      · exact ⟨h.sides, h.symbol, congrArg (·.delete key) h.stops, h.last, h.sequence, h.clock⟩
      · unfold Outcome.restamp Event.restamp
        simp only [List.map_cons, List.map_nil, hu]
    | none =>
      have hfind := hvw.find key
      cases ho : v.orders.find? fun o => decide (.str o.orderId = key) with
      | none =>
        rw [ho] at hfind
        rw [Option.map_eq_none_iff.mp hfind.symm]
        exact .throw _
      | some o =>
        rw [ho] at hfind
        obtain ⟨p, hp, hop⟩ := Option.map_eq_some_iff.mp hfind.symm
        rw [hp]
        refine .bind (.modify fun v w h => ?_) fun _ _ _ => createBookUpdatedEvent_agree.bind fun u u' hu =>
          (stampEvents_agree ?_).bind fun es es' hes => .pure (congrArg (Outcome.mk _ _) hes)
        · have hremove : (v.remove o.orderId).restamp f = (w.remove p.orderId).restamp f := by
            rw [← Depth.remove_restamp, ← Depth.remove_restamp, h.sides, (Order.of_restamp hop).1]
          exact ⟨hremove, h.symbol, h.stops, h.last, h.sequence, h.clock⟩
        · have hcancelled : ({ o with status := .cancelled } : Order).restamp f =
              ({ p with status := .cancelled } : Order).restamp f :=
            congrArg (fun x : Order => { x with status := .cancelled }) hop.symm
          simp only [List.map_cons, List.map_nil, (executedEvents_restamp hcancelled).2.2.2, hu]

/-! ## Books -/

/-- Two books whose views are alike. -/
def Twins (f : Stamp → Stamp) (b b' : OrderBook) : Prop :=
  ∃ F F' v w, Repr b F v ∧ Repr b' F' w ∧ v.Ok ∧ w.Ok ∧ v.Alike f w

namespace Twins

variable {b b' : OrderBook} {c : Call}

theorem snapshot (h : Twins f b b') : b.snapshot = b'.snapshot := by
  obtain ⟨F, F', v, w, hr, hr', -, -, hvw⟩ := h
  rw [hr.snapshot_eq, hr'.snapshot_eq, hvw.snapshot]

theorem recoverySnapshot (h : Twins f b b') (id : Option String) :
    (b.toRecoverySnapshot id).restamp f = (b'.toRecoverySnapshot id).restamp f := by
  obtain ⟨F, F', v, w, hr, hr', -, -, hvw⟩ := h
  rw [hr.toRecoverySnapshot_eq, hr'.toRecoverySnapshot_eq, hvw.recoverySnapshot]

theorem exact (h : Twins f b b') : Exact b c ↔ Exact b' c := by
  obtain ⟨F, F', v, w, hr, hr', -, -, hvw⟩ := h
  have hquantity : ∀ d : Depth, (d.restamp f).quantity = d.quantity := fun d => by
    unfold Depth.quantity
    rw [Depth.orders_restamp, List.map_map]
    rfl
  rw [Exact, Exact, hr.openQuantity_eq, hr'.openQuantity_eq, View.openQuantity, View.openQuantity,
    ← hquantity v.toDepth, hvw.sides, hquantity, hvw.stops]

/-- The order of the result. -/
theorem shown {v w v' w' : View} (h : v.Alike f w) (h' : v'.Alike f w') {ts us : List Trade}
    (hts : ts.map (·.restamp f) = us.map (·.restamp f)) (c : Call) :
    (v.shown v' ts c).map (·.restamp f) = (w.shown w' us c).map (·.restamp f) := by
  have hplaced : ∀ i, ((newOrder i).toOption.map fun o => Placed.order (v.finalOrder o ts)).map (·.restamp f) =
      ((newOrder i).toOption.map fun o => Placed.order (w.finalOrder o us)).map (·.restamp f) := fun i => by
    cases (newOrder i).toOption with
    | none => rfl
    | some o => exact congrArg (fun o => some (Placed.order o)) (finalOrder_restamp f h.sides o hts)
  cases c with
  | placeLimitOrder args =>
    cases args with
    | none => rfl
    | some p =>
      unfold View.shown
      rw [h.symbol]
      exact hplaced _
  | placeMarketOrder args =>
    cases args with
    | none => rfl
    | some p =>
      unfold View.shown
      rw [h.symbol]
      exact hplaced _
  | placeStopMarketOrder args | placeStopLimitOrder args | placeTrailingStopMarketOrder args =>
    cases args with
    | none => rfl
    | some p =>
      unfold View.shown
      rw [h'.stops]
  | cancelOrder key =>
    unfold View.shown
    dsimp only
    rw [h.stops]
    cases w.stops.get? key with
    | some s => rfl
    | none =>
      have hfind := congrArg (Option.map fun o : Order => Placed.order { o with status := .cancelled }) (h.find key)
      rw [Option.map_map, Option.map_map] at hfind
      dsimp only
      rw [Option.map_map, Option.map_map]
      exact hfind

/-- The same call has the same result, and leads to twins again. -/
theorem call (h : Twins f b b') (hex : Exact b c) :
    (call b c).1.map (·.restamp f) = (call b' c).1.map (·.restamp f) ∧
      Twins f (Node.call b c).2 (Node.call b' c).2 := by
  have hex' := h.exact.mp hex
  obtain ⟨F, F', v, w, hr, hr', hv, hw, hvw⟩ := h
  rw [Exact, hr.openQuantity_eq] at hex
  rw [Exact, hr'.openQuantity_eq] at hex'
  obtain ⟨hout, ⟨F₁, hr₁⟩, hv₁, -⟩ := call_refines c hr hv hex
  obtain ⟨hout', ⟨F₁', hr₁'⟩, hw₁, -⟩ := call_refines c hr' hw hex'
  obtain ⟨hsame, hvw₁⟩ := (program_agree c).run hvw
  refine ⟨?_, F₁, F₁', _, _, hr₁, hr₁', hv₁, hw₁, hvw₁⟩
  rw [← hout, ← hout'] at hsame
  cases hcall : (Node.call b c).1 with
  | error e =>
    cases hcall' : (Node.call b' c).1 with
    | error e' =>
      rw [hcall, hcall'] at hsame
      exact congrArg Except.error (Except.error.inj hsame)
    | ok r' =>
      rw [hcall, hcall'] at hsame
      cases hsame
  | ok r =>
    cases hcall' : (Node.call b' c).1 with
    | error e' =>
      rw [hcall, hcall'] at hsame
      cases hsame
    | ok r' =>
      rw [hcall, hcall'] at hsame
      obtain ⟨htrades, htriggered, hevents⟩ := Outcome.mk.inj (Except.ok.inj hsame)
      have hlist : (r.trades.getD []).map (·.restamp f) = (r'.trades.getD []).map (·.restamp f) := by
        have hgetD : ∀ o : Option (List Trade), (o.getD []).map (·.restamp f) =
            (o.map fun ts => ts.map (·.restamp f)).getD [] := fun o => by cases o <;> rfl
        rw [hgetD, hgetD]
        exact congrArg (Option.getD · []) htrades
      have hshown := shown hvw hvw₁ hlist c
      rw [call_shown c hr hv hex hcall, call_shown c hr' hw hex' hcall'] at hshown
      refine congrArg Except.ok ?_
      unfold Result.restamp
      exact congr (congr (congr (congrArg Result.mk (Option.some.inj hshown)) htrades) htriggered) hevents

/-- Twins do the same in every sequence of calls. -/
theorem outcomes (h : Twins f b b') {cs : List Call} (hex : ExactRun b cs) :
    List.Forall₂ (fun x y => x.1.map (·.restamp f) = y.1.map (·.restamp f) ∧ x.2.snapshot = y.2.snapshot ∧
      ∀ id, (x.2.toRecoverySnapshot id).restamp f = (y.2.toRecoverySnapshot id).restamp f)
      (outcomes b cs) (Node.outcomes b' cs) := by
  induction cs generalizing b b' with
  | nil => exact .nil
  | cons c cs ih =>
    obtain ⟨hout, htwins⟩ := h.call hex.1
    exact .cons ⟨hout, htwins.snapshot, htwins.recoverySnapshot⟩ (ih htwins hex.2)

/-- A book and the book restored from its recovery snapshot. -/
theorem restored {b : OrderBook} {F : Side → List NodeRef} {v : View} (hr : Repr b F v) (hv : v.Ok) (id : Option String)
    {clock : Clock} (hclock : ∀ n, f ⟨b.clock n, true⟩ = f ⟨clock n, true⟩ ∧ (0 ≤ b.clock n ↔ 0 ≤ clock n)) :
    ∃ r, fromRecoverySnapshot (b.toRecoverySnapshot id) clock = (.ok (), r) ∧ Twins f b r := by
  obtain ⟨r, F', hrun, hr'⟩ := Node.restored hr hv id clock
  have hok : View.Ok { v with trades := [], clock } := ⟨hv.symbol, hv.separate, hv.keyed, hv.valid, hv.exact⟩
  exact ⟨r, hrun, F, F', v, _, hr, hr', hv, hok, rfl, rfl, rfl, rfl, rfl, hr.clock ▸ hclock⟩

end Twins

end

theorem map_restamp_id (r : Except JsError Result) : r.map (·.restamp id) = r := by
  cases r with
  | error e => rfl
  | ok r => exact congrArg Except.ok r.restamp_id

/-- A reachable book and the book restored from its recovery snapshot, with the same clock, show the same snapshots and
do the same in every sequence of calls whose numbers are exact. -/
theorem restored_same {b : OrderBook} (h : Reachable b) (key : Option String) {cs : List Call} (hex : ExactRun b cs) :
    ∃ r, fromRecoverySnapshot (b.toRecoverySnapshot key) b.clock = (.ok (), r) ∧
      b.snapshot = r.snapshot ∧ (∀ key, b.toRecoverySnapshot key = r.toRecoverySnapshot key) ∧
      List.Forall₂ (fun x y => x.1 = y.1 ∧ x.2.snapshot = y.2.snapshot ∧
        ∀ key, x.2.toRecoverySnapshot key = y.2.toRecoverySnapshot key) (outcomes b cs) (outcomes r cs) := by
  obtain ⟨F, v, hr, hv⟩ := h.repr
  obtain ⟨r, hrun, htwins⟩ := Twins.restored (f := id) hr hv key fun _ => ⟨rfl, Iff.rfl⟩
  have hsame : ∀ {r r' : RecoverySnapshot}, r.restamp id = r'.restamp id → r = r' := fun h => by
    rwa [RecoverySnapshot.restamp_id, RecoverySnapshot.restamp_id] at h
  refine ⟨r, hrun, htwins.snapshot, fun key => hsame (htwins.recoverySnapshot key), (htwins.outcomes hex).imp ?_⟩
  rintro x y ⟨hout, hsnapshot, hrecovery⟩
  rw [map_restamp_id, map_restamp_id] at hout
  exact ⟨hout, hsnapshot, fun key => hsame (hrecovery key)⟩

/-- The restored book makes the same trades, and triggers the same stop order. -/
theorem restored_same_mixed :
    ((call mixed sweep).1.toOption.map fun x => (x.trades.map (·.length), x.triggeredOrders.map (·.length))) =
        some (some 4, some 1) ∧
      ∃ r, fromRecoverySnapshot (mixed.toRecoverySnapshot none) mixed.clock = (.ok (), r) ∧
        (call mixed sweep).1 = (call r sweep).1 ∧ (call mixed sweep).2.snapshot = (call r sweep).2.snapshot := by
  refine ⟨by decide +kernel, ?_⟩
  obtain ⟨r, hr, -, -, hsteps⟩ := restored_same mixed_reachable none
    (show ExactRun mixed [sweep] by decide +kernel)
  obtain ⟨⟨hout, hsnapshots, -⟩, -⟩ := List.forall₂_cons.mp hsteps
  exact ⟨r, hr, hout, hsnapshots⟩

/-! ## The clock -/

theorem erase_reading {n m : Int} (hn : 0 ≤ n) (hm : 0 ≤ m) :
    Go.Stamp.erase ⟨n, true⟩ = Go.Stamp.erase ⟨m, true⟩ ∧ (0 ≤ n ↔ 0 ≤ m) :=
  ⟨rfl, iff_of_true hn hm⟩

/-- Two empty books with different clocks do the same in every sequence of calls: same outcomes, same snapshots and same
recovery snapshots, but for the timestamps of orders that a stop order triggered, of trades that such an order made as
the aggressor, and of the events of the book. -/
theorem clock_unseen {symbol : String} {c c' : Clock} (hs : isBlank symbol = false) (hc : ∀ n, 0 ≤ c n)
    (hc' : ∀ n, 0 ≤ c' n) {cs : List Call} (hex : ExactRun (OrderBook.new symbol c) cs) :
    List.Forall₂ (fun x y => x.1.map (·.restamp Go.Stamp.erase) = y.1.map (·.restamp Go.Stamp.erase) ∧
        x.2.snapshot = y.2.snapshot ∧ ∀ id, (x.2.toRecoverySnapshot id).restamp Go.Stamp.erase =
          (y.2.toRecoverySnapshot id).restamp Go.Stamp.erase)
      (outcomes (OrderBook.new symbol c) cs) (outcomes (OrderBook.new symbol c') cs) :=
  Twins.outcomes ⟨_, _, _, _, repr_new symbol c, repr_new symbol c', ok_new c hs, ok_new c' hs, rfl, rfl, rfl, rfl, rfl,
    fun n => erase_reading (hc n) (hc' n)⟩ hex

/-- The last call triggers a stop order, and its trade gets another timestamp. -/
theorem clock_unseen_mixed :
    ((call mixed sweep).1.toOption.map fun x => x.trades.map fun ts => ts.map (·.timestamp)) ≠
        ((call (calls (OrderBook.new "BTC-USD" fun n => n + 1) mixedCalls) sweep).1.toOption.map fun x =>
          x.trades.map fun ts => ts.map (·.timestamp)) ∧
      List.Forall₂ (fun x y => x.1.map (·.restamp Go.Stamp.erase) = y.1.map (·.restamp Go.Stamp.erase) ∧
          x.2.snapshot = y.2.snapshot ∧ ∀ id, (x.2.toRecoverySnapshot id).restamp Go.Stamp.erase =
            (y.2.toRecoverySnapshot id).restamp Go.Stamp.erase)
        (outcomes (OrderBook.new "BTC-USD" fun _ => 0) (mixedCalls ++ [sweep]))
        (outcomes (OrderBook.new "BTC-USD" fun n => n + 1) (mixedCalls ++ [sweep])) :=
  ⟨by decide +kernel, clock_unseen (by decide) (fun _ => le_rfl) (fun n => by positivity) (by decide +kernel)⟩

end Lob.Node
