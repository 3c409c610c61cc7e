import LobEngine.Engines.Agreement

/-!
# The events of the two engines

An event of the Go engine as the reference engine has it (`Event.js`): the same fields, and a nil pointer is `null`.

* `events_agree_but_quantity`: for the same well-formed commands, the two engines return the same events but for the
  quantities of orders, which the reference engine leaves out.
* `events_agree_iff`: so a command has the same events in both engines exactly if it places no limit or market order.
-/

namespace Lob

open Exc

namespace Go

def OrderEventType.js : OrderEventType → Node.OrderEventType
  | .orderAccepted => .orderAccepted
  | .orderRested => .orderRested
  | .orderCancelled => .orderCancelled
  | .orderFilled => .orderFilled
  | .orderPartiallyFilled => .orderPartiallyFilled

def OrderEvent.js (e : OrderEvent) : Node.OrderEvent := { e with type := e.type.js }

/-- The event about a stop order that was cancelled. -/
def OrderEvent.stopJs (e : OrderEvent) : Node.StopCancelledEvent where
  symbol := e.symbol
  orderId := .str e.orderId
  userId := .str e.userId
  side := .str (sideText e.side)
  orderType := e.orderType
  priceTicks := jsNumber e.priceTicks
  remainingQuantity := .num (.int e.remainingQuantity)
  status := e.status.getD .cancelled
  timestamp := .num (.int e.timestamp.ms)

/-- Of the resting orders, which are limit orders, and the stop orders, the latter have events of their own. -/
def EventBody.js : EventBody → Node.EventBody
  | .order e => if e.type = .orderCancelled ∧ e.orderType ≠ .limit then .stopCancelled e.stopJs else .order e.js
  | .trade t => .trade t
  | .stopAccepted s => .stopAccepted s.js
  | .stopTriggered s => .stopTriggered s.js
  | .bookUpdated symbol snapshot ms => .bookUpdated symbol snapshot.js ms

def Event.js (e : Event) : Node.Event := ⟨e.body.js, e.sequence⟩

end Go

namespace Node

/-- The event has the quantity of an order. -/
def EventBody.hasQuantity : EventBody → Bool
  | .order e => e.quantity.isSome
  | _ => false

def EventBody.withoutQuantity : EventBody → EventBody
  | .order e => .order { e with quantity := none }
  | e => e

def Event.withoutQuantity (e : Event) : Event := ⟨e.body.withoutQuantity, e.sequence⟩

theorem Event.withoutQuantity_eq_iff {e : Event} : e.withoutQuantity = e ↔ e.body.hasQuantity = false := by
  obtain ⟨body, sequence⟩ := e
  cases body with
  | order e =>
    obtain ⟨_, _, _, _, _, _, _, quantity, _, _, _⟩ := e
    cases quantity with
    | none => simp [Event.withoutQuantity, EventBody.withoutQuantity, EventBody.hasQuantity]
    | some q => simp [Event.withoutQuantity, EventBody.withoutQuantity, EventBody.hasQuantity]
  | _ => simp [Event.withoutQuantity, EventBody.withoutQuantity, EventBody.hasQuantity]

end Node

/-- The command places a limit or a market order. -/
def Command.placesOrder : Command → Bool
  | .limit _ _ | .market _ => true
  | _ => false

/-- The events of the reference engine are those of the Go engine without the quantities of orders, which the latter
has if the command places an order. -/
structure EventsMatch (c : Command) (es : List Node.Event) (es' : List Go.Event) : Prop where
  plain : es = es'.map fun e => e.js.withoutQuantity
  quantity : es'.any (fun e => e.js.body.hasQuantity) = c.placesOrder

theorem EventsMatch.eq_iff {c : Command} {es : List Node.Event} {es' : List Go.Event} (h : EventsMatch c es es') :
    es = es'.map Go.Event.js ↔ c.placesOrder = false := by
  have hmap : es = es'.map Go.Event.js ↔ ∀ e ∈ es', e.js.body.hasQuantity = false := by
    rw [h.plain, List.map_inj_left]
    exact forall₂_congr fun e _ => Node.Event.withoutQuantity_eq_iff
  rw [hmap, ← h.quantity, List.any_eq_false]
  exact forall₂_congr fun e _ => (Bool.not_eq_true _).symm.to_iff

/-- The same bodies of events, but for the quantities of orders. -/
def BodiesMatch (es : List Node.EventBody) (es' : List Go.EventBody) : Prop :=
  es = es'.map fun e => e.js.withoutQuantity

namespace BodiesMatch

variable {es fs : List Node.EventBody} {es' fs' : List Go.EventBody}

theorem append (h : BodiesMatch es es') (h' : BodiesMatch fs fs') : BodiesMatch (es ++ fs) (es' ++ fs') := by
  rw [BodiesMatch, List.map_append, ← h, ← h']

theorem trades (ts : List Trade) : BodiesMatch (Node.createTradeCreatedEvents ts) (ts.map .trade) := by
  rw [BodiesMatch, List.map_map]
  rfl

/-- The bodies with their numbers. -/
theorem stamp (h : BodiesMatch es es') (symbol : String) (n : Int) :
    Node.stampFrom symbol n es = (Go.stampFrom symbol n es').map fun e => e.js.withoutQuantity := by
  subst h
  induction es' generalizing n with
  | nil => rfl
  | cons e es' ih =>
    rw [List.map_cons, Node.stampFrom, Go.stampFrom, List.map_cons, ih]
    congr 1
    cases e with
    | order e =>
      by_cases hs : e.type = .orderCancelled ∧ e.orderType ≠ .limit
      · simp [Go.EventBody.js, Go.Event.js, Go.stampEvent, Node.stamp, Node.Event.withoutQuantity,
          Node.EventBody.withoutQuantity, hs]
      · simp [Go.EventBody.js, Go.Event.js, Go.stampEvent, Node.stamp, Node.Event.withoutQuantity,
          Node.EventBody.withoutQuantity, if_neg hs]
    | _ => rfl

end BodiesMatch

/-! ## The events of a call -/

section

variable {price amount : Int → Prop} {v : Node.View} {w : Go.View}

theorem fillEvent_same (o : Order) : BodiesMatch [Node.createOrderFillEvent o] [Go.orderFillEvent o] := by
  by_cases h : o.remainingQuantity = 0
  · simp [BodiesMatch, Node.createOrderFillEvent, Node.orderEvent, Go.orderFillEvent, Go.EventBody.js,
      Go.OrderEvent.js, Go.OrderEventType.js, Node.EventBody.withoutQuantity, h]
  · simp [BodiesMatch, Node.createOrderFillEvent, Node.orderEvent, Go.orderFillEvent, Go.EventBody.js,
      Go.OrderEvent.js, Go.OrderEventType.js, Node.EventBody.withoutQuantity, h]

theorem triggeredEvents_same (s : Go.StopOrder) (o : Order) (ts : List Trade) :
    BodiesMatch (Node.triggeredEvents s.js o ts) (Go.triggeredEvents s o ts) := by
  refine .append (.append (.append rfl (.trades ts)) (fillEvent_same o)) ?_
  split_ifs <;> rfl

theorem triggerAll_events (ss : List Go.StopOrder) (h : Related price amount v w)
    (hs : ∀ s ∈ ss, Fit price amount s) :
    Both (Node.Spec.triggerAll (ss.map Go.StopOrder.js)) (Go.Spec.triggerAll ss)
      (fun t t' x y => BodiesMatch t.events t'.events ∧ SameTriggered price t t' ∧ Related price amount x y)
      (Related price amount) v w := by
  induction ss generalizing v w with
  | nil => exact Both.ok rfl rfl ⟨rfl, .none, h⟩
  | cons s ss ih =>
    refine Both.step (t := _) (u := _) (a := ()) (b := ()) rfl rfl ?_
    have hfit := hs s List.mem_cons_self
    refine (executeStop_lockstep (h.delete s.orderId)
      (s := { s with status := .triggered }) ⟨hfit.orderId, hfit.userId, hfit.kind⟩).bind ?_
    rintro ⟨o, ts⟩ - x y ⟨rfl, hxy, hts⟩
    refine (ih hxy fun s' hs' => hs s' (List.mem_cons_of_mem _ hs')).bind ?_
    rintro t t' x' y' ⟨hev, ht, hxy'⟩
    have hsame := triggeredEvents_same { s with status := .triggered } o ts
    refine Both.ok rfl rfl ⟨hsame.append hev, SameTriggered.append ⟨rfl, rfl, ?_, hts⟩ ht, hxy'⟩
    exact triggeredEvents_length { s with status := .triggered } o ts

theorem cascade_events (hex : SumsExact price amount) (cycles : Nat) {ts : List Trade}
    (h : Related price amount v w) (hts : ∀ t ∈ ts, price t.priceTicks) :
    Both (Node.Spec.cascade cycles ts) (Go.Spec.cascade cycles ts)
      (fun t t' x y => BodiesMatch t.events t'.events ∧ SameTriggered price t t' ∧ Related price amount x y)
      (Related price amount) v w := by
  induction cycles generalizing ts v w with
  | zero =>
    unfold Node.Spec.cascade Go.Spec.cascade
    cases hl : ts.getLast? with
    | none => exact Both.ok rfl rfl ⟨rfl, .none, h⟩
    | some t => exact Both.error rfl rfl h
  | succ cycles ih =>
    unfold Node.Spec.cascade Go.Spec.cascade
    cases hl : ts.getLast? with
    | none => exact Both.ok rfl rfl ⟨rfl, .none, h⟩
    | some t =>
      have ht : price t.priceTicks := hts t (List.mem_of_getLast? hl)
      have htr := (h.traded ht).trail hex ht
      refine Both.step (a := ()) (b := ()) rfl rfl (Both.step (a := ()) (b := ()) rfl rfl ?_)
      refine Both.step htr.eligible rfl ?_
      by_cases he : Go.View.eligible { w with
          lastTradePriceTicks := some t.priceTicks
          stops := w.stops.mapValues (Go.View.trail t.priceTicks) } = []
      · rw [if_pos (List.map_eq_nil_iff.mpr he), if_pos he]
        exact Both.ok rfl rfl ⟨rfl, .none, htr⟩
      · rw [if_neg (fun hc => he (List.map_eq_nil_iff.mp hc)), if_neg he]
        refine (triggerAll_events _ htr fun s hs => htr.fit s ((Go.eligible_sublist _).subset hs)).bind ?_
        rintro r r' x y ⟨hev, hr, hxy⟩
        rw [hr.trades]
        refine (ih hxy hr.prices).bind ?_
        rintro u u' x' y' ⟨hev', hu, hxy'⟩
        exact Both.ok rfl rfl ⟨hev.append hev', hr.append hu, hxy'⟩

/-- What the events of two calls have in common, if the books show the same after them. -/
def SameNews (c : Command) (es : List Node.Event) (es' : List Go.Event) (x : Node.View) (y : Go.View) : Prop :=
  x.snapshot = y.snapshot.js → EventsMatch c es es'

/-- Both engines take the snapshot of the book and number the events. -/
theorem publish_events {c : Command} {α β : Type} {g : Node.EventBody → List Node.EventBody}
    {f : Go.EventBody → List Go.EventBody} {k : List Node.Event → α} {k' : List Go.Event → β}
    {Q : α → β → Node.View → Go.View → Prop} (h : Related price amount v w)
    (hsame : ∀ snapshot ms, BodiesMatch (g (.bookUpdated none snapshot.js ms)) (f (.bookUpdated none snapshot ms)))
    (hquantity : ∀ snapshot ms, (f (.bookUpdated none snapshot ms)).any (fun e => e.js.hasQuantity) = c.placesOrder)
    (hQ : ∀ es es' x y, SameNews c es es' x y → Q (k es) (k' es') x y) :
    Both
      (do
        let updated ← Node.Spec.createBookUpdatedEvent
        let es ← Node.Spec.stampEvents (g updated)
        return k es)
      (do
        let updated ← Go.Spec.bookUpdatedEvent
        let es ← Go.Spec.stamp (f updated)
        return k' es) Q (Related price amount) v w := by
  refine Both.ok rfl rfl (hQ _ _ _ _ fun hshown => ?_)
  -- the snapshot that is published shows the book as it is after the call, but for its number
  have hsnap : v.snapshot = w.snapshot.js := by
    have := congrArg (fun s : Node.BookSnapshot => { s with sequence := v.sequence }) hshown
    simpa [Node.View.snapshot, Go.View.snapshot, Go.BookSnapshot.js, h.sequence] using this
  have hbodies := hsame w.snapshot (w.clock 0)
  rw [← hsnap] at hbodies
  constructor
  · show Node.stampFrom v.symbol v.sequence (g (.bookUpdated none v.snapshot (v.clock 0))) = _
    rw [h.symbol, h.sequence, h.clock]
    exact hbodies.stamp w.symbol w.sequence
  · rw [← hquantity w.snapshot (w.clock 0)]
    show (Go.stampFrom w.symbol w.sequence _).any _ = _
    generalize f _ = bodies
    generalize w.sequence = n
    induction bodies generalizing n with
    | nil => rfl
    | cons e bodies ih =>
      rw [Go.stampFrom, List.any_cons, List.any_cons, ih]
      congr 1
      cases e <;> rfl

/-! ## The commands -/

theorem acceptedEvent_same (o : Order) : BodiesMatch [Node.createOrderAcceptedEvent o] [Go.orderAcceptedEvent o] := rfl

theorem restedEvents_same (o : Order) : BodiesMatch
    (if 0 < o.remainingQuantity then [Node.createOrderRestedEvent o] else [])
    (if 0 < o.remainingQuantity then [Go.orderRestedEvent o] else []) := by
  split_ifs <;> rfl

section

variable {p : Placement}

theorem limit_events {n : Int} (hex : SumsExact price amount) (h : Related price amount v w) (hp : p.WellFormed)
    (hn : price n) :
    BothOk (Node.Spec.program (Command.limit p n).node) (Go.Spec.program (Command.limit p n).go)
      (fun o r x y => SameNews (.limit p n) o.events r.events x y) v w := by
  refine .of_both (E := Related price amount) (available_lockstep h fun _ => ?_)
  refine Both.step (a := v) (b := w) rfl rfl ?_
  rcases execute_cases h (i := { p.input with priceTicks := some n }) hp.orderId hp.userId rfl (.inl rfl)
    false (fun _ q hq => by cases hq; exact hn) with
    ⟨e, e', he, he'⟩ | ⟨o, ho, ho', hrun, hexec, hts⟩
  all_goals rw [← (p.payload_input _ n).1, ← h.symbol] at *
  · refine Both.error (run_bind_error he) (d := e') ?_ h
    rw [run_lift_bind, he']
  · refine Both.step hrun (by rw [run_lift, ho']) (Both.right rfl ?_)
    refine (cascade_events hex Node.maxCycles hexec hts).bind ?_
    rintro t t' x y ⟨hev, -, hxy⟩
    refine publish_events (c := .limit p n) hxy (fun snapshot ms => ?_) (fun snapshot ms => rfl) fun _ _ _ _ h => h
    exact .append (.append (.append (.append (.append (acceptedEvent_same _) (.trades _)) (fillEvent_same _))
      (restedEvents_same _)) rfl) hev

theorem market_events (hex : SumsExact price amount) (h : Related price amount v w) (hp : p.WellFormed) :
    BothOk (Node.Spec.program (Command.market p).node) (Go.Spec.program (Command.market p).go)
      (fun o r x y => SameNews (.market p) o.events r.events x y) v w := by
  refine .of_both (E := Related price amount) (available_lockstep h fun _ => ?_)
  refine Both.step (a := v) (b := w) rfl rfl ?_
  rcases execute_cases h (i := p.input) hp.orderId hp.userId rfl (.inr rfl) false (fun ht => by cases ht)
    with ⟨e, e', he, he'⟩ | ⟨o, ho, ho', hrun, hexec, hts⟩
  all_goals rw [← (p.payload_input _ 0).2, ← h.symbol] at *
  · refine Both.error (run_bind_error he) (d := e') ?_ h
    rw [run_lift_bind, he']
  · refine Both.step hrun (by rw [run_lift, ho']) (Both.right rfl ?_)
    refine (cascade_events hex Node.maxCycles hexec hts).bind ?_
    rintro t t' x y ⟨hev, -, hxy⟩
    refine publish_events (c := .market p) hxy (fun snapshot ms => ?_) (fun snapshot ms => rfl) fun _ _ _ _ h => h
    exact .append (.append (.append (.append (acceptedEvent_same _) (.trades _)) (fillEvent_same _)) hev) rfl

theorem available (h : Related price amount v w) {id : String} (hid : ¬ w.hasId id) :
    (Node.Spec.assertOrderIdAvailable (.str id)).run v = (.ok (), v) := by
  rw [Node.Spec.assertOrderIdAvailable, run_get_bind, if_neg fun hc => hid ((h.hasId id).mp hc), run_pure]

/-- Both engines announce a stop order. -/
theorem acceptStop_events {c : Command} {s : Go.StopOrder} {i : Go.OrderInput} {typ : OrderType}
    {peak valley : Option Int} (hc : c.placesOrder = false) (h : Related price amount v w) (hs : Fit price amount s)
    (hnew : Go.newStop w.symbol typ i peak valley = .ok s) :
    BothOk (Node.Spec.acceptStop s.js)
      (do
        let stop ← lift (Go.newStop w.symbol typ i peak valley)
        modify fun v => { v with stops := v.stops.set stop.orderId stop }
        let updated ← Go.Spec.bookUpdatedEvent
        let events ← Go.Spec.stamp [.stopAccepted stop, updated]
        return (⟨.stop stop, [], [], events⟩ : Go.Result))
      (fun o r x y => SameNews c o.events r.events x y) v w := by
  refine .of_both (E := Related price amount) (Both.right (by rw [run_lift, hnew]) (Both.step rfl rfl ?_))
  exact publish_events (h.set hs) (g := fun u => [_, u]) (f := fun u => [_, u]) (fun _ _ => rfl) (fun _ _ => hc.symm)
    fun _ _ _ _ h => h

theorem stopMarket_events (h : Related price amount v w) (hp : p.WellFormed) (t : Int) :
    BothOk (Node.Spec.program (Command.stopMarket p t).node) (Go.Spec.program (Command.stopMarket p t).go)
      (fun o r x y => SameNews (.stopMarket p t) o.events r.events x y) v w := by
  by_cases hid : w.hasId p.orderId
  · exact .error (run_bind_error (Go.Spec.assertAvailable_taken hid))
  have hs : Fit price amount (p.stop w.symbol .stopMarket t none none none none) :=
    ⟨hp.orderId, hp.userId, .inl ⟨rfl, rfl⟩⟩
  refine .left rfl (.left (available h hid) (.right (Go.Spec.assertAvailable_free hid) (.left rfl (.right rfl ?_))))
  rw [h.symbol]
  exact acceptStop_events rfl h hs (newStop_eq hp _ _ none none none fun ht => by cases ht)

theorem stopLimit_events (h : Related price amount v w) (hp : p.WellFormed) (t : Int) {n : Int} (hn : price n)
    (hpos : 0 < n) :
    BothOk (Node.Spec.program (Command.stopLimit p t n).node) (Go.Spec.program (Command.stopLimit p t n).go)
      (fun o r x y => SameNews (.stopLimit p t n) o.events r.events x y) v w := by
  by_cases hid : w.hasId p.orderId
  · exact .error (run_bind_error (Go.Spec.assertAvailable_taken hid))
  have hs : Fit price amount (p.stop w.symbol .stopLimit t (some n) none none none) :=
    ⟨hp.orderId, hp.userId, .inr (.inl ⟨rfl, n, rfl, hn⟩)⟩
  refine .left rfl (.left (available h hid) (.right (Go.Spec.assertAvailable_free hid) (.left rfl (.right rfl ?_))))
  rw [h.symbol]
  exact acceptStop_events rfl h hs (newStop_eq hp _ _ none none none fun _ => ⟨n, rfl, hpos⟩)

theorem trailing_events (hex : SumsExact price amount) (h : Related price amount v w) (hp : p.WellFormed) {a : Int}
    (ha : 0 < a → amount a) :
    BothOk (Node.Spec.program (Command.trailingStopMarket p a).node)
      (Go.Spec.program (Command.trailingStopMarket p a).go)
      (fun o r x y => SameNews (.trailingStopMarket p a) o.events r.events x y) v w := by
  by_cases hid : w.hasId p.orderId
  · obtain ⟨e, he⟩ := go_trailing_taken (i := { p.input with trailingAmountTicks := some a }) hid
    exact .error he
  refine .right rfl ?_
  cases hl : w.lastTradePriceTicks with
  | none => exact .error rfl
  | some last =>
    by_cases hpos : 0 < a
    · have hs : Fit price amount (p.trailing w.symbol last a) :=
        ⟨hp.orderId, hp.userId, .inr (.inr ⟨rfl, rfl, a, rfl, ha hpos⟩)⟩
      have hpositive : Node.assertPositiveInteger "trailingAmountTicks" (.num (.int a)) = .ok a :=
        Node.assertPositiveInteger_ok.mpr ⟨rfl, hpos⟩
      refine .left rfl (.left (available h hid) (.left (a := v) rfl ?_))
      rw [h.last, hl, h.symbol]
      refine .left (a := a) (t := v) (congrArg (·, v) hpositive) ?_
      refine .right (by rw [run_lift, newTrailing_eq p hpos]) ?_
      refine .right (Go.Spec.assertAvailable_free hid) (.right (b := w) rfl ?_)
      refine (congrArg (fun s => BothOk (Node.Spec.acceptStop s) _ _ v w)
        (trailing_js hex (h.lastPrice last hl) (ha hpos) p w.symbol)).mpr ?_
      exact acceptStop_events rfl h hs (newStop_eq hp _ _ (some a) _ _ fun ht => by cases ht)
    · refine .error (d := .error "trailingAmountTicks must be a positive integer") (u := w) ?_
      rw [run_lift_bind]
      unfold Go.newTrailing
      simp [not_lt.mp hpos]

theorem cancel_events (h : Related price amount v w) (hrest : w.Rests) (id : String) :
    BothOk (Node.Spec.program (Command.cancel id).node) (Go.Spec.program (Command.cancel id).go)
      (fun o r x y => SameNews (.cancel id) o.events r.events x y) v w := by
  have hget : v.stops.get? (.str id) = (w.stops.get? id).map Go.StopOrder.js := by
    rw [h.stops]
    exact OMap.get?_rename str_injective _ _ id
  have hfind : v.orders.find? (fun o => decide (Node.JsVal.str o.orderId = .str id)) =
      w.orders.find? (fun o => decide (o.orderId = id)) := by
    rw [h.depth]
    congr
    funext o
    exact decide_eq_decide.mpr (Node.JsVal.str.injEq _ _ ▸ Iff.rfl)
  refine .left (a := v) rfl (.right (b := w) rfl ?_)
  rw [hget]
  cases hs : w.stops.get? id with
  | some s =>
    have hstop : s.type ≠ .limit := by
      rcases (h.fit s (OMap.mem_values.mpr ⟨id, hs⟩)).kind with ⟨ht, -⟩ | ⟨ht, -⟩ | ⟨ht, -⟩ <;> simp [ht]
    have hbody : (Go.stopCancelledEvent { s with status := .cancelled }).js =
        Node.createStopCancelledEvent { s.js with status := .cancelled } := by
      simp [Go.stopCancelledEvent, Go.EventBody.js, hstop, Node.createStopCancelledEvent, Go.OrderEvent.stopJs,
        Go.StopOrder.js]
    refine .left (a := ()) rfl (.right (b := ()) rfl (.of_both (E := Related price amount) (Both.ok rfl rfl ?_)))
    intro hshown
    constructor
    · simp only [List.map_cons, List.map_nil, Go.Event.js, hbody, Node.Event.withoutQuantity]
      rw [h.clock]
      refine congrArg (fun snapshot => ([⟨_, none⟩, ⟨.bookUpdated none snapshot _, none⟩] : List Node.Event)) ?_
      exact hshown
    · rw [List.any_cons, Go.Event.js, hbody]
      rfl
  | none =>
    dsimp only [Option.map_none]
    rw [hfind]
    cases hf : w.orders.find? (fun o => decide (o.orderId = id)) with
    | none => exact .error rfl
    | some o =>
      have hlimit : o.type = .limit := by
        obtain ⟨side, ho⟩ := Depth.mem_orders.mp (List.mem_of_find?_eq_some hf)
        exact (hrest side o ho).type
      refine .left (a := ()) rfl (.right (b := ()) rfl (.of_both (E := Related price amount) ?_))
      refine publish_events (h.remove o.orderId) (g := fun u => [_, u]) (f := fun u => [_, u])
        (fun snapshot ms => ?_) (fun snapshot ms => ?_) fun _ _ _ _ h => h
      · simp [BodiesMatch, Node.createOrderCancelledEvent, Node.orderEvent, Go.orderCancelledEvent, Go.EventBody.js,
          Go.OrderEvent.js, Go.OrderEventType.js, Node.EventBody.withoutQuantity, hlimit]
      · simp [Go.orderCancelledEvent, Go.EventBody.js, Go.OrderEvent.js, Node.EventBody.hasQuantity, hlimit,
          Command.placesOrder]

end

/-- Both engines announce a command with the same events. -/
theorem program_events {c : Command} (hex : SumsExact price amount) (h : Related price amount v w) (hrest : w.Rests)
    (hc : c.WellFormed) (hp : ∀ n, c.price = some n → price n) (ha : ∀ a, c.amount = some a → 0 < a → amount a) :
    BothOk (Node.Spec.program c.node) (Go.Spec.program c.go)
      (fun o r x y => SameNews c o.events r.events x y) v w := by
  cases c with
  | limit p n => exact limit_events hex h (hc.placement p rfl) (hp n rfl)
  | market p => exact market_events hex h (hc.placement p rfl)
  | stopMarket p t => exact stopMarket_events h (hc.placement p rfl) t
  | stopLimit p t n => exact stopLimit_events h (hc.placement p rfl) t (hp n rfl) (hc.price n rfl)
  | trailingStopMarket p a => exact trailing_events hex h (hc.placement p rfl) (ha a rfl)
  | cancel id => exact cancel_events h hrest id

end

/-! ## Runs -/

section

variable {price amount : Int → Prop} {b : Node.OrderBook} {b' : Go.Book} {F : Side → List Node.NodeRef}
  {v : Node.View} {w : Go.View} {r : Node.Result} {r' : Go.Result}

/-- The events of a command that both engines accept. -/
theorem Linked.events (h : Linked price amount b b' F v w) (hex : SumsExact price amount) {c : Command}
    (hc : c.WellFormed) (hp : ∀ n, c.price = some n → price n) (ha : ∀ a, c.amount = some a → 0 < a → amount a)
    (hq : Node.Exact b c.node) (hr : (Node.call b c.node).1 = .ok r) (hr' : (Go.call b' c.go).1 = .ok r') :
    EventsMatch c r.events r'.events := by
  obtain ⟨-, F₁, v₁, w₁, hlinked⟩ := h.step hex hc hp ha hq
  rw [Node.Exact, h.node.openQuantity_eq] at hq
  obtain ⟨hout, ⟨F₂, hrepr⟩, hok, -⟩ := Node.call_refines c.node h.node h.ok hq
  obtain ⟨hout', hgood⟩ := Go.call_refines c.go h.go
  have hrest : w.toDepth.Rests := h.related.depth ▸ h.node.rests
  have hevents := program_events hex h.related hrest hc hp ha
  have hsnap : ((Node.Spec.program c.node).run v).2.snapshot = ((Go.Spec.program c.go).run w).2.snapshot.js := by
    obtain ⟨F₃, hgo⟩ := hgood.1
    rw [← hrepr.snapshot_eq, ← hgo.snapshot_eq]
    exact hlinked.sameBook.snapshot
  rcases hm : (Node.Spec.program c.node).run v with ⟨e | o, x⟩ <;> rw [hm, hr] at hout
  · cases hout
  rcases hm' : (Go.Spec.program c.go).run w with ⟨e' | o', y⟩ <;> rw [hm', hr'] at hout'
  · cases hout'
  obtain rfl : r.outcome = o := Except.ok.inj hout
  obtain rfl : r' = o' := Except.ok.inj hout'
  rw [hm, hm'] at hsnap
  exact hevents _ _ _ _ hm hm' hsnap

/-- The outcomes of the commands of a run. -/
theorem Linked.run_events (hex : SumsExact price amount) {cs : List Command} (hcs : ∀ c ∈ cs, c.WellFormed)
    (hp : ∀ c ∈ cs, ∀ n, c.price = some n → price n) (ha : ∀ c ∈ cs, ∀ a, c.amount = some a → 0 < a → amount a)
    (h : Linked price amount b b' F v w) (hq : Node.ExactRun b (cs.map Command.node)) {i : Nat} {c : Command}
    {x : Node.OrderBook} {y : Go.Book} (hc : cs[i]? = some c)
    (hr : (Node.steps b (cs.map Command.node))[i]? = some (.ok r, x))
    (hr' : (Go.steps b' (cs.map Command.go))[i]? = some (.ok r', y)) : EventsMatch c r.events r'.events := by
  induction cs generalizing b b' F v w i with
  | nil => cases hc
  | cons d cs ih =>
    have hd := hcs d List.mem_cons_self
    obtain ⟨-, F₁, v₁, w₁, h₁⟩ := h.step hex hd (hp d List.mem_cons_self) (ha d List.mem_cons_self) hq.1
    cases i with
    | zero =>
      obtain rfl : d = c := Option.some.inj hc
      exact h.events hex hd (hp d List.mem_cons_self) (ha d List.mem_cons_self) hq.1
        (congrArg Prod.fst (Option.some.inj hr)) (congrArg Prod.fst (Option.some.inj hr'))
    | succ i =>
      exact ih (fun d hd => hcs d (List.mem_cons_of_mem _ hd)) (fun d hd => hp d (List.mem_cons_of_mem _ hd))
        (fun d hd => ha d (List.mem_cons_of_mem _ hd)) h₁ hq.2 hc hr hr'

/-- The events of the same well-formed commands on empty books with the same symbol and clock. -/
theorem same_events {symbol : String} (hnode : Node.isBlank symbol = false) (hgo : Go.isBlank symbol = false)
    (clock : Clock) {cs : List Command} (hcs : ∀ c ∈ cs, c.WellFormed)
    (hsums : ∀ c ∈ cs, ∀ d ∈ cs, ∀ p a, c.price = some p → d.amount = some a → p + a ≤ Num.maxExact)
    (hexact : Node.ExactRun (.new symbol clock) (cs.map Command.node)) {i : Nat} {c : Command}
    {x : Node.OrderBook} {y : Go.Book} (hc : cs[i]? = some c)
    (hr : (Node.steps (.new symbol clock) (cs.map Command.node))[i]? = some (.ok r, x))
    (hr' : (Go.steps (.empty symbol clock) (cs.map Command.go))[i]? = some (.ok r', y)) :
    EventsMatch c r.events r'.events := by
  have hsums : SumsExact (fun p => ∃ c ∈ cs, c.price = some p) fun a => 0 < a ∧ ∃ d ∈ cs, d.amount = some a := by
    rintro p a ⟨c, hc, hp⟩ ⟨hpos, d, hd, ha⟩
    exact ⟨(hcs c hc).price p hp, hpos, hsums c hc d hd p a hp ha⟩
  refine Linked.run_events hsums hcs (fun c hc n hn => ⟨c, hc, hn⟩) (fun c hc a ha hpos => ⟨hpos, c, hc, ha⟩)
    ⟨Node.repr_new symbol clock, Node.ok_new clock hnode, Go.good_empty clock hgo, ?_⟩ hexact hc hr hr'
  exact ⟨rfl, rfl, rfl, rfl, rfl, rfl, hnode, by simp [Go.View.empty, OMap.values, OMap.empty],
    by simp [Go.View.empty, Depth.orders, Depth.empty], fun p hp => by cases hp⟩

/-- The same well-formed commands on empty books of the two engines: whatever both accept has the same events, one by
one and with the same numbers, but that the reference engine leaves out the quantities of orders. -/
theorem events_agree_but_quantity {symbol : String} (hnode : Node.isBlank symbol = false)
    (hgo : Go.isBlank symbol = false) (clock : Clock) {cs : List Command} (hcs : ∀ c ∈ cs, c.WellFormed)
    (hsums : ∀ c ∈ cs, ∀ d ∈ cs, ∀ p a, c.price = some p → d.amount = some a → p + a ≤ Num.maxExact)
    (hexact : Node.ExactRun (.new symbol clock) (cs.map Command.node)) {i : Nat} {x : Node.OrderBook} {y : Go.Book}
    (hr : (Node.steps (.new symbol clock) (cs.map Command.node))[i]? = some (.ok r, x))
    (hr' : (Go.steps (.empty symbol clock) (cs.map Command.go))[i]? = some (.ok r', y)) :
    r.events = r'.events.map fun e => e.js.withoutQuantity := by
  cases hc : cs[i]? with
  | none =>
    have hlen : ∀ (b : Go.Book) (cs : List Go.Call), (Go.steps b cs).length = cs.length := by
      intro b cs
      induction cs generalizing b with
      | nil => rfl
      | cons c cs ih => exact congrArg Nat.succ (ih _)
    have hi := (List.getElem?_eq_some_iff.mp hr').1
    rw [hlen, List.length_map] at hi
    rw [List.getElem?_eq_getElem hi] at hc
    cases hc
  | some c => exact (same_events hnode hgo clock hcs hsums hexact hc hr hr').plain

end

/-- Both engines accept the trailing stop order, and then its cancel. -/
theorem trailedTrade_accepted (i : Nat) (hi : i = 1 ∨ i = 2) : ∃ r x r' y,
    (Node.steps (.new "BTC-USD" fun _ => 0) (trailedTrade.map Command.node))[i]? = some (.ok r, x) ∧
    (Go.steps (.empty "BTC-USD" fun _ => 0) (trailedTrade.map Command.go))[i]? = some (.ok r', y) := by
  have hnode : ((Node.steps (.new "BTC-USD" fun _ => 0) (trailedTrade.map Command.node))[i]?.any
      fun x => x.1.isOk) = true := by
    rcases hi with rfl | rfl <;> decide +kernel
  have hgo : ((Go.steps (.empty "BTC-USD" fun _ => 0) (trailedTrade.map Command.go))[i]?.any
      fun x => x.1.isOk) = true := by
    rcases hi with rfl | rfl <;> decide +kernel
  obtain ⟨⟨_ | r, x⟩, hx, hok⟩ := (Option.any_eq_true _ _).mp hnode
  · cases hok
  obtain ⟨⟨_ | r', y⟩, hy, hok'⟩ := (Option.any_eq_true _ _).mp hgo
  · cases hok'
  exact ⟨r, x, r', y, hx, hy⟩

theorem trailedTrade_sums : ∀ c ∈ trailedTrade, ∀ d ∈ trailedTrade, ∀ p a, c.price = some p → d.amount = some a →
    p + a ≤ Num.maxExact := by
  intro c hc d hd p a hp ha
  simp only [trailedTrade, List.mem_cons, List.not_mem_nil, or_false] at hc hd
  rcases hc with rfl | rfl | rfl | rfl <;> cases hp
  rcases hd with rfl | rfl | rfl | rfl <;> cases ha
  decide

/-- The events of the market order. -/
theorem events_agree_but_quantity_trade : ∃ r x r' y,
    (Node.steps (.new "BTC-USD" fun _ => 0) (trailedTrade.map Command.node))[1]? = some (.ok r, x) ∧
    (Go.steps (.empty "BTC-USD" fun _ => 0) (trailedTrade.map Command.go))[1]? = some (.ok r', y) ∧
    r.events = r'.events.map fun e => e.js.withoutQuantity := by
  obtain ⟨r, x, r', y, hr, hr'⟩ := trailedTrade_accepted 1 (.inl rfl)
  exact ⟨r, x, r', y, hr, hr', events_agree_but_quantity (by decide) (by decide) _ trailedTrade_wellFormed
    trailedTrade_sums (by decide +kernel) hr hr'⟩

section

variable {r : Node.Result} {r' : Go.Result}

/-- The same well-formed commands on empty books of the two engines: a command that both accept has the same events,
field by field, exactly if it places no limit order and no market order. -/
theorem events_agree_iff {symbol : String} (hnode : Node.isBlank symbol = false) (hgo : Go.isBlank symbol = false)
    (clock : Clock) {cs : List Command} (hcs : ∀ c ∈ cs, c.WellFormed)
    (hsums : ∀ c ∈ cs, ∀ d ∈ cs, ∀ p a, c.price = some p → d.amount = some a → p + a ≤ Num.maxExact)
    (hexact : Node.ExactRun (.new symbol clock) (cs.map Command.node)) {i : Nat} {c : Command}
    {x : Node.OrderBook} {y : Go.Book} (hc : cs[i]? = some c)
    (hr : (Node.steps (.new symbol clock) (cs.map Command.node))[i]? = some (.ok r, x))
    (hr' : (Go.steps (.empty symbol clock) (cs.map Command.go))[i]? = some (.ok r', y)) :
    r.events = r'.events.map Go.Event.js ↔ c.placesOrder = false :=
  (same_events hnode hgo clock hcs hsums hexact hc hr hr').eq_iff

end

/-- The events of the trailing stop order are the same. -/
theorem events_agree_stop : ∃ r x r' y,
    (Node.steps (.new "BTC-USD" fun _ => 0) (trailedTrade.map Command.node))[2]? = some (.ok r, x) ∧
    (Go.steps (.empty "BTC-USD" fun _ => 0) (trailedTrade.map Command.go))[2]? = some (.ok r', y) ∧
    r.events = r'.events.map Go.Event.js := by
  obtain ⟨r, x, r', y, hr, hr'⟩ := trailedTrade_accepted 2 (.inr rfl)
  exact ⟨r, x, r', y, hr, hr', (events_agree_iff (by decide) (by decide) _ trailedTrade_wellFormed
    trailedTrade_sums (by decide +kernel) rfl hr hr').mpr rfl⟩

/-- The events of the first limit order of a book differ. -/
theorem events_differ :
    (Command.limit (placementOf "a" .sell 1) 1).WellFormed ∧ ∃ r r',
      (Node.call (.new "BTC-USD" fun _ => 0) (Command.limit (placementOf "a" .sell 1) 1).node).1 = .ok r ∧
      (Go.call (.empty "BTC-USD" fun _ => 0) (Command.limit (placementOf "a" .sell 1) 1).go).1 = .ok r' ∧
      r.events ≠ r'.events.map Go.Event.js := by
  refine ⟨⟨fun p hp => ?_, fun n hn => ?_⟩, ?_⟩
  · cases hp
    exact ⟨by decide, by decide, by decide, by decide⟩
  · cases hn
    decide
  · have hdiff :
        ((Node.call (.new "BTC-USD" fun _ => 0) (Command.limit (placementOf "a" .sell 1) 1).node).1.toOption.map
          (·.events)) ≠
        ((Go.call (.empty "BTC-USD" fun _ => 0) (Command.limit (placementOf "a" .sell 1) 1).go).1.toOption.map
          fun r => r.events.map Go.Event.js) := by
      decide +kernel
    have hnode : (Node.call (.new "BTC-USD" fun _ => 0)
        (Command.limit (placementOf "a" .sell 1) 1).node).1.isOk = true := by decide +kernel
    have hgo : (Go.call (.empty "BTC-USD" fun _ => 0)
        (Command.limit (placementOf "a" .sell 1) 1).go).1.isOk = true := by decide +kernel
    cases hn : (Node.call (.new "BTC-USD" fun _ => 0) (Command.limit (placementOf "a" .sell 1) 1).node).1 with
    | error e =>
      rw [hn] at hnode
      cases hnode
    | ok r =>
      cases hg : (Go.call (.empty "BTC-USD" fun _ => 0) (Command.limit (placementOf "a" .sell 1) 1).go).1 with
      | error e =>
        rw [hg] at hgo
        cases hgo
      | ok r' =>
        rw [hn, hg] at hdiff
        exact ⟨r, r', rfl, rfl, fun h => hdiff (congrArg some h)⟩

end Lob
