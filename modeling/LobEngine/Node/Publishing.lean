import LobEngine.Lib.Publish
import LobEngine.Node.Frame

/-!
# What the event of the book shows, in the reference engine

As in the Go engine, the event of the book comes before the stop orders that a limit order triggers:
`publishes_iff_not_triggers`, for every book and every arguments, also where numbers are not exact.

* `OrderBook.triggers`: matching the limit order of a call triggers a pending stop order.
-/

namespace Lob.Node

open Exc OrderBook

/-- The snapshot in an event. -/
def EventBody.shows : EventBody → Option BookSnapshot
  | .bookUpdated _ snapshot _ => some snapshot
  | _ => none

/-- The events show the book as it is in the end, in one event. -/
def PublishesBook (events : List Event) (b : OrderBook) : Prop :=
  Publishes (fun e : Event => e.body.shows) (·.sequence) (·.sequence) events b.snapshot

/-- The trades that a new limit order makes with the resting orders. -/
def OrderBook.matched (b : OrderBook) (p : Payload) : Except JsError (List Trade) :=
  (Exc.run (do
    let r ← newOrderNode { p with symbol := b.symbol, type := .limit, clock := false }
    matchBySide r false) b).1

/-- The pending stop orders that trades trigger first, if `stops` are pending. -/
def firstTriggered (stops : List StopOrder) (trades : List Trade) : Except JsError (List StopOrder) :=
  match trades.getLast? with
  | none => .ok []
  | some t => eligibleOf t.priceTicks (stops.map (trail t.priceTicks))

/-- The call places a limit order whose trades with the resting orders trigger a pending stop order. -/
def OrderBook.triggers (b : OrderBook) : Call → Bool
  | .placeLimitOrder (some p) =>
    match b.matched p >>= firstTriggered b.stopOrdersById.values with
    | .error _ => false
    | .ok stops => stops ≠ []
  | _ => false

/-! ## Stamped events -/

theorem stampFrom_eq (symbol : String) (n : Int) (es : List EventBody) :
    stampFrom symbol n es = numbered (stamp symbol) n es := by
  induction es generalizing n with
  | nil => rfl
  | cons e es ih => rw [stampFrom, numbered, ih]

/-- A stamped list with one event of the book: it shows the book in the end if it is the last event. -/
theorem publishes_stamped {symbol : String} {n ms : Int} {A B : List EventBody} {snapshot : BookSnapshot}
    (hA : ∀ e ∈ A, e.shows = none) (hB : ∀ e ∈ B, e.shows = none) :
    Publishes (fun e : Event => e.body.shows) (·.sequence) (·.sequence)
      (stampFrom symbol n (A ++ [.bookUpdated none snapshot ms] ++ B))
      { snapshot with
        sequence := n + (A ++ [EventBody.bookUpdated none snapshot ms] ++ B).length } ↔ B = [] := by
  have hnone : ∀ e : EventBody, e.shows = none → ∀ k, (stamp symbol k e).body.shows = none := by
    intro e he k
    cases e <;> first | rfl | cases he
  rw [stampFrom_eq]
  exact @publishes_numbered _ _ _ (stamp symbol) n (fun e => e.body.shows) (·.sequence) (·.sequence)
    (.bookUpdated none snapshot ms) (fun k => { snapshot with sequence := k }) (fun k e => by cases e <;> rfl)
    (fun _ => rfl) (fun _ => rfl) _ _ (fun e he => hnone e (hA e he)) fun e he => hnone e (hB e he)

/-! ## Matching leaves the pending stop orders alone -/

/-- The pending stop orders are those of `m`. -/
def Stops (m : OMap JsVal StopOrder) (b : OrderBook) : Prop := b.stopOrdersById = m

section

variable {m : OMap JsVal StopOrder}

theorem framed_stops : Framed (Stops m) :=
  .of_heap (fun _ _ h => h) (fun b _ _ h => (setSide_stopOrdersById b _ _).trans h) fun _ _ h => h

theorem stops_newOrderNode {i : OrderInput} : Keeps (Stops m) (newOrderNode i) :=
  (Keeps.lift _).bind fun _ => Keeps.get.bind fun _ => (Keeps.modify fun _ h => by exact h).bind fun _ =>
    Keeps.pure _

theorem stops_matchBySide {r : NodeRef} (ignore : Bool) : Keeps (Stops m) (matchBySide r ignore) :=
  framed_stops.matchBySide (fun _ _ _ h => h) (fun _ _ h => h) r ignore

theorem stops_restIfActive {r : NodeRef} : Keeps (Stops m) (restIfActive r) :=
  framed_stops.restIfActive (fun _ _ h => h) r

end

/-! ## Cascades -/

section

variable {b b' : OrderBook}

/-- No event of what triggered stop orders did is one of the book. -/
theorem triggeredEvents_shows (stop : StopOrder) (o : Order) (ts : List Trade) :
    ∀ e ∈ triggeredEvents stop o ts, e.shows = none := by
  intro e he
  unfold triggeredEvents createTradeCreatedEvents at he
  simp only [List.mem_append, List.mem_cons, List.not_mem_nil, or_false, List.mem_map] at he
  rcases he with ((rfl | ⟨t, -, rfl⟩) | rfl) | he
  · rfl
  · rfl
  · rfl
  · split at he
    · rw [List.mem_singleton.mp he]
      rfl
    · cases he

theorem triggerAll_shows {stops : List StopOrder} {t : Triggered}
    (h : (triggerAll stops).run b = (.ok t, b')) :
    (∀ e ∈ t.events, e.shows = none) ∧ (t.events = [] ↔ stops = []) := by
  induction stops generalizing b t b' with
  | nil =>
    cases h
    simp [Triggered.none]
  | cons s stops ih =>
    unfold triggerAll at h
    rw [run_modify_bind] at h
    obtain ⟨⟨o, ts⟩, b₁, -, h⟩ := bind_ok h
    obtain ⟨t', b₂, ht', h⟩ := bind_ok h
    cases h
    refine ⟨fun e he => ?_, iff_of_false ?_ (List.cons_ne_nil _ _)⟩
    · rcases List.mem_append.mp he with he | he
      · exact triggeredEvents_shows _ _ _ e he
      · exact (ih ht').1 e he
    · simp [Triggered.append, triggeredEvents]

/-- The events of a cascade: none is of the book, and there are none if the first trades trigger no
stop order. -/
theorem cascade_shows {cycles : Nat} {ts : List Trade} {t : Triggered}
    (h : (cascade cycles ts).run b = (.ok t, b')) :
    (∀ e ∈ t.events, e.shows = none) ∧
      ∃ stops, firstTriggered b.stopOrdersById.values ts = .ok stops ∧ (t.events = [] ↔ stops = []) := by
  induction cycles generalizing b ts t b' with
  | zero =>
    unfold cascade at h
    unfold firstTriggered
    cases hl : ts.getLast? with
    | none =>
      rw [hl] at h
      cases h
      exact ⟨by simp [Triggered.none], [], rfl, iff_of_true rfl rfl⟩
    | some x => rw [hl] at h; cases h
  | succ cycles ih =>
    unfold cascade at h
    unfold firstTriggered
    cases hl : ts.getLast? with
    | none =>
      rw [hl] at h
      cases h
      exact ⟨by simp [Triggered.none], [], rfl, iff_of_true rfl rfl⟩
    | some x =>
      rw [hl] at h
      dsimp only at h ⊢
      set b₀ : OrderBook := { b with
        lastTradePriceTicks := some x.priceTicks
        stopOrdersById := b.stopOrdersById.mapValues (trail x.priceTicks) } with hb₀
      rw [run_modify_bind, run_bind_ok (show updateTrailingStopOrders.run _ = (.ok (), b₀) from rfl)] at h
      obtain ⟨stops, b₁, hstops, h⟩ := bind_ok h
      have helig : eligibleOf x.priceTicks (b.stopOrdersById.values.map (trail x.priceTicks)) = .ok stops := by
        rw [← OMap.values_mapValues]
        exact congrArg Prod.fst hstops
      refine ⟨?_, stops, helig, ?_⟩ <;> by_cases he : stops = []
      · rw [if_pos he] at h
        obtain rfl : Triggered.none = t := Except.ok.inj (congrArg Prod.fst h)
        simp [Triggered.none]
      · rw [if_neg he] at h
        obtain ⟨a, b₂, ha, h⟩ := bind_ok h
        obtain ⟨c, b₃, hc, h⟩ := bind_ok h
        cases h
        intro e hmem
        rcases List.mem_append.mp hmem with hmem | hmem
        · exact (triggerAll_shows ha).1 e hmem
        · exact (ih hc).1 e hmem
      · rw [if_pos he] at h
        obtain rfl : Triggered.none = t := Except.ok.inj (congrArg Prod.fst h)
        exact iff_of_true rfl he
      · rw [if_neg he] at h
        obtain ⟨a, b₂, ha, h⟩ := bind_ok h
        obtain ⟨c, b₃, hc, h⟩ := bind_ok h
        cases h
        refine iff_of_false (fun hnil => he ?_) he
        exact (triggerAll_shows ha).2.mp (List.append_eq_nil_iff.mp hnil).1

/-! ## Calls -/

/-- The end of a call that places an order. -/
theorem publish_shows {A B : List EventBody} {f : OrderBook → List Event → Result} {r : Result}
    (hA : ∀ e ∈ A, e.shows = none) (hB : ∀ e ∈ B, e.shows = none)
    (hr : ∀ b es, (f b es).events = es)
    (h : Exc.run (do
      let updated ← createBookUpdatedEvent
      let es ← stampEvents (A ++ [updated] ++ B)
      let b ← get
      return f b es) b = (.ok r, b')) : PublishesBook r.events b' ↔ B = [] := by
  obtain rfl : f _ _ = r := Except.ok.inj (congrArg Prod.fst h)
  obtain rfl : _ = b' := congrArg Prod.snd h
  unfold PublishesBook
  rw [hr]
  exact publishes_stamped hA hB

/-- As `publish_shows`, where the event of the book comes last. -/
theorem publish_last {A : List EventBody} {f : OrderBook → List Event → Result} {r : Result}
    (hA : ∀ e ∈ A, e.shows = none) (hr : ∀ b es, (f b es).events = es)
    (h : Exc.run (do
      let updated ← createBookUpdatedEvent
      let es ← stampEvents (A ++ [updated])
      let b ← get
      return f b es) b = (.ok r, b')) : PublishesBook r.events b' := by
  refine (publish_shows (b := b) (B := []) hA (by simp) hr ?_).mpr rfl
  simpa only [List.append_nil] using h

theorem executedEvents_shows (o : Order) (ts : List Trade) :
    ∀ e ∈ [createOrderAcceptedEvent o] ++ createTradeCreatedEvents ts ++ [createOrderFillEvent o],
      e.shows = none := by
  intro e he
  unfold createTradeCreatedEvents at he
  simp only [List.mem_append, List.mem_singleton, List.mem_map] at he
  rcases he with (rfl | ⟨t, -, rfl⟩) | rfl <;> rfl

/-- A placement that returned: it has an argument, whose id was free. -/
theorem checked_ok {args : Option Payload} {f : Payload → Program Result} {r : Result}
    (h : (destructure args >>= fun p => assertOrderIdAvailable p.orderId >>= fun _ => f p).run b =
      (.ok r, b')) : ∃ p, args = some p ∧ (f p).run b = (.ok r, b') := by
  cases args with
  | none => cases h
  | some p =>
    refine ⟨p, rfl, ?_⟩
    obtain ⟨_, b₁, hp, h⟩ := bind_ok h
    cases hp
    obtain ⟨_, b₁, hb₁, h⟩ := bind_ok h
    unfold assertOrderIdAvailable at hb₁
    rw [run_get_bind] at hb₁
    split at hb₁
    · cases hb₁
    · obtain rfl : b = b₁ := congrArg Prod.snd hb₁
      exact h

theorem placeLimitOrder_shows {args : Option Payload} {r : Result}
    (h : (placeLimitOrder args).run b = (.ok r, b')) :
    PublishesBook r.events b' ↔ b.triggers (.placeLimitOrder args) = false := by
  obtain ⟨p, hargs, hp⟩ := checked_ok h
  rw [hargs]
  clear h
  rw [run_get_bind] at hp
  rename' hp => h
  obtain ⟨x, b₁, h₁, h⟩ := bind_ok h
  obtain ⟨ts, b₂, h₂, h⟩ := bind_ok h
  rw [run_get_bind] at h
  obtain ⟨_, b₃, h₃, h⟩ := bind_ok h
  obtain ⟨t, b₄, h₄, h⟩ := bind_ok h
  have hmatched : b.matched p = .ok ts := by
    unfold OrderBook.matched
    rw [run_bind_ok h₁, h₂]
  have hstops : Stops b.stopOrdersById b₃ := by
    have hs₁ : Stops b.stopOrdersById b₁ := stops_newOrderNode.of_run rfl h₁
    have hs₂ : Stops b.stopOrdersById b₂ := (stops_matchBySide false).of_run hs₁ h₂
    exact stops_restIfActive.of_run hs₂ h₃
  obtain ⟨hshows, stops, hfirst, hnil⟩ := cascade_shows h₄
  rw [hstops] at hfirst
  have htriggers : b.triggers (.placeLimitOrder (some p)) = decide (stops ≠ []) := by
    unfold OrderBook.triggers
    dsimp only
    rw [hmatched, show (Except.ok ts >>= firstTriggered b.stopOrdersById.values) = .ok stops from hfirst]
  refine Iff.trans (publish_shows (fun e he => ?_) hshows (fun _ _ => rfl) h) ?_
  · rcases List.mem_append.mp he with he | he
    · exact executedEvents_shows _ _ e he
    · split at he
      · rw [List.mem_singleton.mp he]
        rfl
      · cases he
  · rw [hnil, htriggers]
    simp

theorem placeMarketOrder_shows {args : Option Payload} {r : Result}
    (h : (placeMarketOrder args).run b = (.ok r, b')) : PublishesBook r.events b' := by
  obtain ⟨p, -, h⟩ := checked_ok h
  rw [run_get_bind] at h
  obtain ⟨x, b₁, -, h⟩ := bind_ok h
  obtain ⟨ts, b₂, -, h⟩ := bind_ok h
  obtain ⟨_, b₃, -, h⟩ := bind_ok h
  rw [run_get_bind] at h
  obtain ⟨t, b₄, h₄, h⟩ := bind_ok h
  refine publish_last (fun e he => ?_) (fun _ _ => rfl) h
  rcases List.mem_append.mp he with he | he
  · exact executedEvents_shows _ _ e he
  · exact (cascade_shows h₄).1 e he

theorem acceptStop_shows {s : StopOrder} {r : Result} (h : (acceptStop s).run b = (.ok r, b')) :
    PublishesBook r.events b' := by
  refine publish_last (b := { b with stopOrdersById := b.stopOrdersById.set s.orderId s })
    (A := [.stopAccepted s]) (f := fun _ es => ⟨.stop s, some [], some [], es⟩)
    (by simp [EventBody.shows]) (fun _ _ => rfl) h

theorem cancelResting_shows {key : JsVal} {x : NodeRef} {r : Result}
    (h : (cancelResting key x).run b = (.ok r, b')) : PublishesBook r.events b' := by
  unfold cancelResting at h
  rw [run_get_bind] at h
  dsimp only at h
  split at h
  · cases h
  · split at h
    · cases h
    · obtain ⟨_, b₁, -, h⟩ := bind_ok h
      rw [run_get_bind] at h
      have hevent : ∀ e ∈ [createOrderCancelledEvent (b₁.order x)], e.shows = none := by
        simp [createOrderCancelledEvent, orderEvent, EventBody.shows]
      exact publish_last hevent (fun _ _ => rfl) h

theorem cancelOrder_shows {key : JsVal} {r : Result}
    (h : (Node.cancelOrder key).run b = (.ok r, b')) : PublishesBook r.events b' := by
  unfold Node.cancelOrder at h
  rw [run_get_bind] at h
  split at h
  · next s hs =>
    cases h
    refine ⟨⟨[⟨createStopCancelledEvent { s with status := .cancelled }, none⟩], _, [], rfl, ?_, rfl⟩, ?_⟩
    · simp [createStopCancelledEvent, EventBody.shows]
    · simp
  · split at h
    · cases h
    · next x hx =>
      exact cancelResting_shows h

/-- A successful call publishes the book as it is afterwards, exactly if it does not place a limit order
that triggers a pending stop order. -/
theorem publishes_iff_not_triggers {c : Call} {r : Result} (h : (call b c).1 = .ok r) :
    PublishesBook r.events (call b c).2 ↔ b.triggers c = false := by
  have hrun : c.program.run b = (.ok r, (call b c).2) := Prod.ext h rfl
  cases c with
  | placeLimitOrder args => exact placeLimitOrder_shows hrun
  | placeMarketOrder args => exact iff_of_true (placeMarketOrder_shows hrun) rfl
  | placeStopMarketOrder args =>
    obtain ⟨p, rfl, hrun⟩ := checked_ok hrun
    exact iff_of_true (acceptStop_shows hrun) rfl
  | placeStopLimitOrder args =>
    obtain ⟨p, rfl, hrun⟩ := checked_ok hrun
    exact iff_of_true (acceptStop_shows hrun) rfl
  | placeTrailingStopMarketOrder args =>
    obtain ⟨p, rfl, hrun⟩ := checked_ok hrun
    refine iff_of_true ?_ rfl
    rw [run_get_bind] at hrun
    split at hrun
    · cases hrun
    · obtain ⟨amount, b₁, -, hrun⟩ := bind_ok hrun
      exact acceptStop_shows hrun
  | cancelOrder key => exact iff_of_true (cancelOrder_shows hrun) rfl

end

end Lob.Node
