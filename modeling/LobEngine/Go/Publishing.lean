import LobEngine.Go.Untouched
import LobEngine.Lib.Publish

/-!
# What the event of the book shows

The event of the book is stamped with the number that its snapshot then has. A limit order is published
before the stop orders that it triggers, whose effect its snapshot has, and everything else after them:
a call publishes the book as it leaves it unless it places a limit order that triggers a stop order
(`publishes_iff_not_triggers`).

* `Book.triggers`: the limit order of a call trades at a price that triggers a pending stop order.
-/

namespace Lob.Go

open Exc

/-- The snapshot in an event. -/
def EventBody.shows : EventBody → Option BookSnapshot
  | .bookUpdated _ snapshot _ => some snapshot
  | _ => none

/-- The events show the book as it is in the end, in one event. -/
def PublishesBook (events : List Event) (b : Book) : Prop :=
  Publishes (fun e : Event => e.body.shows) (·.sequence) (·.sequence) events b.snapshot

/-- The resting orders of a side, best price first, and at one price the oldest first. -/
def Book.resting (b : Book) (s : Side) : List Order := (b.recoverySide s).flatMap (·.orders)

/-- The pending stop orders that trades trigger first, if `stops` are pending. -/
def firstTriggered (stops : List StopOrder) (trades : List Trade) : List StopOrder :=
  match trades.getLast? with
  | none => []
  | some t => (stops.map (View.trail t.priceTicks)).filter (isEligible t.priceTicks)

/-- The call places a limit order whose trades with the resting orders trigger a pending stop order. -/
def Book.triggers (b : Book) : Call → Bool
  | .placeLimit input =>
    match newOrder b.symbol .limit input false with
    | .error _ => false
    | .ok o =>
      firstTriggered b.stopSnapshots (tradesOf o (greedy o false (b.resting o.side.opposite))) ≠ []
  | _ => false

/-! ## Stamped events -/

theorem stampFrom_eq (symbol : String) (n : Int) (es : List EventBody) :
    stampFrom symbol n es = numbered (stampEvent symbol) n es := by
  induction es generalizing n with
  | nil => rfl
  | cons e es ih => rw [stampFrom, numbered, ih]

/-- A stamped list with one event of the book: it shows the book in the end if it is the last event. -/
theorem publishes_stamped {symbol : String} {n ms : Int} {A B : List EventBody} {snapshot : BookSnapshot}
    (hA : ∀ e ∈ A, e.shows = none) (hB : ∀ e ∈ B, e.shows = none) :
    Publishes (fun e : Event => e.body.shows) (·.sequence) (·.sequence)
      (stampFrom symbol n (A ++ [.bookUpdated none snapshot ms] ++ B))
      { snapshot with
        sequence := n + (A ++ [EventBody.bookUpdated none snapshot ms] ++ B).length } ↔ B = [] := by
  have hnone : ∀ e : EventBody, e.shows = none → ∀ k, (stampEvent symbol k e).body.shows = none := by
    intro e he k
    cases e <;> first | rfl | cases he
  rw [stampFrom_eq]
  exact @publishes_numbered _ _ _ (stampEvent symbol) n (fun e => e.body.shows) (·.sequence) (·.sequence)
    (.bookUpdated none snapshot ms) (fun k => { snapshot with sequence := k }) (fun k e => by cases e <;> rfl)
    (fun _ => rfl) (fun _ => rfl) _ _ (fun e he => hnone e (hA e he)) fun e he => hnone e (hB e he)

/-! ## Cascades -/

/-- No event of what triggered stop orders did is one of the book. -/
theorem triggeredEvents_shows (stop : StopOrder) (o : Order) (ts : List Trade) :
    ∀ e ∈ triggeredEvents stop o ts, e.shows = none := by
  intro e he
  unfold triggeredEvents at he
  simp only [List.mem_append, List.mem_cons, List.not_mem_nil, or_false, List.mem_map] at he
  rcases he with ((rfl | ⟨t, -, rfl⟩) | rfl) | he
  · rfl
  · rfl
  · rfl
  · split at he
    · rw [List.mem_singleton.mp he]
      rfl
    · cases he

section

variable {v w : View}

theorem triggerAll_shows {stops : List StopOrder} {t : StopResult}
    (h : (Spec.triggerAll stops).run v = (.ok t, w)) :
    (∀ e ∈ t.events, e.shows = none) ∧ (t.events = [] ↔ stops = []) := by
  induction stops generalizing v t w with
  | nil =>
    cases h
    simp [StopResult.empty]
  | cons s stops ih =>
    unfold Spec.triggerAll at h
    rw [run_modify_bind] at h
    obtain ⟨⟨o, ts⟩, v₁, -, h⟩ := bind_ok h
    obtain ⟨t', v₂, ht', h⟩ := bind_ok h
    cases h
    refine ⟨fun e he => ?_, iff_of_false ?_ (List.cons_ne_nil _ _)⟩
    · rcases List.mem_append.mp he with he | he
      · exact triggeredEvents_shows _ _ _ e he
      · exact (ih ht').1 e he
    · simp [StopResult.append, triggeredEvents]

/-- The events of a cascade: none is of the book, and there are none if the first trades trigger no
stop order. -/
theorem cascade_shows {cycles : Nat} {ts : List Trade} {t : StopResult}
    (h : (Spec.cascade cycles ts).run v = (.ok t, w)) :
    (∀ e ∈ t.events, e.shows = none) ∧
      (t.events = [] ↔ firstTriggered v.stops.values ts = []) := by
  induction cycles generalizing v ts t w with
  | zero =>
    unfold Spec.cascade at h
    unfold firstTriggered
    cases hl : ts.getLast? with
    | none =>
      rw [hl] at h
      cases h
      simp [StopResult.empty]
    | some x => rw [hl] at h; cases h
  | succ cycles ih =>
    unfold Spec.cascade at h
    unfold firstTriggered
    cases hl : ts.getLast? with
    | none =>
      rw [hl] at h
      cases h
      simp [StopResult.empty]
    | some x =>
      rw [hl] at h
      dsimp only at h ⊢
      set v₀ : View := { v with
        lastTradePriceTicks := some x.priceTicks
        stops := v.stops.mapValues (View.trail x.priceTicks) } with hv₀
      rw [run_modify_bind, run_bind_ok (show Spec.updateTrailingStops.run _ = (.ok (), v₀) from rfl),
        run_get_bind] at h
      rw [← OMap.values_mapValues]
      by_cases he : v₀.eligible = []
      · rw [if_pos he] at h
        obtain rfl : StopResult.empty = t := Except.ok.inj (congrArg Prod.fst h)
        exact ⟨by simp [StopResult.empty], iff_of_true rfl he⟩
      · rw [if_neg he] at h
        obtain ⟨a, v₁, ha, h⟩ := bind_ok h
        obtain ⟨c, v₂, hc, h⟩ := bind_ok h
        cases h
        obtain ⟨h₁, h₂⟩ := triggerAll_shows ha
        refine ⟨fun e hmem => ?_, iff_of_false (fun hnil => ?_) he⟩
        · rcases List.mem_append.mp hmem with hmem | hmem
          · exact h₁ e hmem
          · exact (ih hc).1 e hmem
        · exact he (h₂.mp (List.append_eq_nil_iff.mp hnil).1)

/-! ## Calls -/

/-- `Publishes`, of the events of a call and the view after it. -/
def Shows (events : List Event) (v : View) : Prop :=
  Publishes (fun e : Event => e.body.shows) (·.sequence) (·.sequence) events v.snapshot

/-- The end of a call. -/
theorem publish_shows {A B : List EventBody} {f : List Event → Result} {r : Result}
    (hA : ∀ e ∈ A, e.shows = none) (hB : ∀ e ∈ B, e.shows = none) (hr : ∀ es, (f es).events = es)
    (h : Exc.run (do
      let updated ← Spec.bookUpdatedEvent
      let es ← Spec.stamp (A ++ [updated] ++ B)
      return f es) v = (.ok r, w)) : Shows r.events w ↔ B = [] := by
  obtain rfl : f _ = r := Except.ok.inj (congrArg Prod.fst h)
  obtain rfl : _ = w := congrArg Prod.snd h
  unfold Shows
  rw [hr]
  exact publishes_stamped hA hB

/-- As `publish_shows`, where the event of the book comes last. -/
theorem publish_last {A : List EventBody} {f : List Event → Result} {r : Result}
    (hA : ∀ e ∈ A, e.shows = none) (hr : ∀ es, (f es).events = es)
    (h : Exc.run (do
      let updated ← Spec.bookUpdatedEvent
      let es ← Spec.stamp (A ++ [updated])
      return f es) v = (.ok r, w)) : Shows r.events w := by
  refine (publish_shows (v := v) (B := []) hA (by simp) hr ?_).mpr rfl
  simpa only [List.append_nil] using h

theorem executedEvents_shows (o : Order) (ts : List Trade) :
    ∀ e ∈ [orderAcceptedEvent o] ++ ts.map EventBody.trade ++ [orderFillEvent o], e.shows = none := by
  intro e he
  simp only [List.mem_append, List.mem_singleton, List.mem_map] at he
  rcases he with (rfl | ⟨t, -, rfl⟩) | rfl <;> rfl

theorem assertAvailable_ok {key : String} {f : Unit → SpecProgram Result} {r : Result}
    (h : (Spec.assertAvailable key >>= f).run v = (.ok r, w)) : (f ()).run v = (.ok r, w) := by
  obtain ⟨_, v₁, hv₁, h⟩ := bind_ok h
  unfold Spec.assertAvailable at hv₁
  rw [run_get_bind] at hv₁
  split at hv₁
  · cases hv₁
  · obtain rfl : v = v₁ := congrArg Prod.snd hv₁
    exact h

/-- The call places a limit order whose trades trigger a pending stop order. -/
def View.triggers (v : View) : Call → Prop
  | .placeLimit input => ∃ o, newOrder v.symbol .limit input false = .ok o ∧
      firstTriggered v.stops.values (tradesOf o (greedy o false (v.side o.side.opposite))) ≠ []
  | _ => False

theorem placeLimit_shows {input : OrderInput} {r : Result}
    (h : (Spec.placeLimit input).run v = (.ok r, w)) :
    Shows r.events w ↔ ¬ v.triggers (.placeLimit input) := by
  have h := assertAvailable_ok h
  rw [run_get_bind, run_lift_bind] at h
  cases ho : newOrder v.symbol .limit input false with
  | error e => rw [ho] at h; cases h
  | ok o =>
    rw [ho] at h
    dsimp only at h
    have htrades : (v.execute o).1 = tradesOf o (greedy o false (v.side o.side.opposite)) := by
      unfold Depth.execute Depth.fillFrom
      simp [(newOrder_ok.mp ho).type]
    rw [run_bind_ok (show (Spec.execute o).run v =
      (.ok ((v.execute o).2.1, (v.execute o).1), v.executed o) from rfl)] at h
    obtain ⟨t, v₁, ht, h⟩ := bind_ok h
    obtain ⟨hshows, hnil⟩ := cascade_shows ht
    refine Iff.trans (publish_shows (fun e he => ?_) hshows (fun _ => rfl) h) ?_
    · rcases List.mem_append.mp he with he | he
      · exact executedEvents_shows _ _ e he
      · split at he
        · rw [List.mem_singleton.mp he]
          rfl
        · cases he
    · rw [hnil]
      show firstTriggered v.stops.values (v.execute o).1 = [] ↔ _
      rw [htrades]
      constructor
      · rintro hn ⟨x, hx, hne⟩
        obtain rfl : o = x := Except.ok.inj (ho.symm.trans hx)
        exact hne hn
      · exact fun hn => by_contra fun hne => hn ⟨o, ho, hne⟩

theorem placeMarket_shows {input : OrderInput} {r : Result}
    (h : (Spec.placeMarket input).run v = (.ok r, w)) : Shows r.events w := by
  have h := assertAvailable_ok h
  rw [run_get_bind, run_lift_bind] at h
  cases ho : newOrder v.symbol .market input false with
  | error e => rw [ho] at h; cases h
  | ok o =>
    rw [ho] at h
    dsimp only at h
    rw [run_bind_ok (show (Spec.execute o).run v =
      (.ok ((v.execute o).2.1, (v.execute o).1), v.executed o) from rfl)] at h
    obtain ⟨t, v₁, ht, h⟩ := bind_ok h
    refine publish_last (fun e he => ?_) (fun _ => rfl) h
    rcases List.mem_append.mp he with he | he
    · exact executedEvents_shows _ _ e he
    · exact (cascade_shows ht).1 e he

theorem placeStop_shows {input : OrderInput} {typ : OrderType} {peak valley : Option Int} {r : Result}
    (h : (Spec.placeStopWithExtrema input typ peak valley).run v = (.ok r, w)) : Shows r.events w := by
  have h := assertAvailable_ok h
  rw [run_get_bind, run_lift_bind] at h
  cases hs : newStop v.symbol typ input peak valley with
  | error e => rw [hs] at h; cases h
  | ok s =>
    rw [hs] at h
    dsimp only at h
    rw [run_modify_bind] at h
    exact publish_last (A := [.stopAccepted s]) (f := fun es => ⟨.stop s, [], [], es⟩)
      (by simp [EventBody.shows]) (fun _ => rfl) h

theorem cancelOrder_shows {key : String} {r : Result}
    (h : (Spec.cancelOrder key).run v = (.ok r, w)) : Shows r.events w := by
  unfold Spec.cancelOrder at h
  rw [run_get_bind] at h
  cases hs : v.stops.get? key with
  | some s =>
    rw [hs] at h
    cases h
    refine ⟨⟨[⟨stopCancelledEvent { s with status := .cancelled }, none⟩], _, [], rfl, ?_, rfl⟩, ?_⟩
    · simp [stopCancelledEvent, EventBody.shows]
    · simp
  | none =>
    rw [hs] at h
    dsimp only at h
    cases ho : v.orders.find? (fun o => decide (o.orderId = key)) with
    | none => rw [ho] at h; cases h
    | some o =>
      rw [ho] at h
      dsimp only at h
      unfold Spec.cancelResting at h
      rw [run_modify_bind] at h
      exact publish_last (A := [orderCancelledEvent { o with status := .cancelled }])
        (f := fun es => ⟨.order { o with status := .cancelled }, [], [], es⟩)
        (by simp [orderCancelledEvent, EventBody.shows]) (fun _ => rfl) h

/-- A call publishes the book as it leaves it, unless it places a limit order that triggers a stop
order. -/
theorem program_shows {c : Call} {r : Result} (h : (Spec.program c).run v = (.ok r, w)) :
    Shows r.events w ↔ ¬ v.triggers c := by
  cases c with
  | placeLimit input => exact placeLimit_shows h
  | placeMarket input => exact iff_of_true (placeMarket_shows h) not_false
  | placeStopMarket input => exact iff_of_true (placeStop_shows h) not_false
  | placeStopLimit input => exact iff_of_true (placeStop_shows h) not_false
  | placeTrailingStopMarket input =>
    refine iff_of_true ?_ not_false
    unfold Spec.program Spec.placeTrailingStopMarket at h
    rw [run_get_bind, run_lift_bind] at h
    cases hn : newTrailing v.lastTradePriceTicks input with
    | error e => rw [hn] at h; cases h
    | ok x =>
      rw [hn] at h
      exact placeStop_shows h
  | cancel key => exact iff_of_true (cancelOrder_shows h) not_false

end

/-! ## Books -/

section

variable {b : Book} {v : View}

/-- The flat sides of the view are the resting orders of the book. -/
theorem Repr.resting {F : Side → List Ref} (h : Repr b F v) (s : Side) : b.resting s = v.side s := by
  unfold Book.resting
  rw [h.recoverySide_eq]
  unfold View.levels
  rw [List.flatMap_map]
  exact flatMap_filter_dedup s.rank_injective (h.sorted s)

theorem Good.resting (h : Good b v) (s : Side) : b.resting s = v.side s := by
  obtain ⟨⟨F, hr⟩, -⟩ := h
  exact hr.resting s

theorem Good.triggers (h : Good b v) (c : Call) : b.triggers c = true ↔ v.triggers c := by
  have hrest := h.resting
  obtain ⟨⟨F, hr⟩, -⟩ := h
  unfold Book.triggers View.triggers
  cases c with
  | placeLimit input =>
    simp only [← hr.symbol, hr.filterMap_stops, hrest]
    cases newOrder v.symbol .limit input false with
    | error e => simp
    | ok o => simp
  | _ => simp

/-- A successful call of a reachable book publishes the book as it is afterwards, exactly if the call
does not place a limit order that triggers a pending stop order. -/
theorem publishes_iff_not_triggers (h : Reachable b) {c : Call} {r : Result} (hc : (call b c).1 = .ok r) :
    PublishesBook r.events (call b c).2 ↔ b.triggers c = false := by
  obtain ⟨v, hv⟩ := h.good
  obtain ⟨hout, hgood⟩ := call_refines c hv
  rw [hc] at hout
  have hshows := program_shows (w := ((Spec.program c).run v).2) (Prod.ext hout.symm rfl)
  obtain ⟨⟨F, hr⟩, -⟩ := hgood
  unfold PublishesBook
  rw [hr.snapshot_eq, ← Bool.not_eq_true, hv.triggers]
  exact hshows

end

end Lob.Go
