import LobEngine.Engines.Lockstep

/-!
# The calls of the two engines in lockstep

`program_lockstep`: from views with the same content, both engines accept a well-formed command or both
reject it; they return the same, and the views have the same content again.

* `Agrees`: what two calls that returned have in common.
* `publish_lockstep`, `finish_lockstep`: how all calls end.
-/

namespace Lob

open Exc

variable {price amount : Int → Prop} {v : Node.View} {w : Go.View}

/-- What two calls that returned have in common. -/
structure Agrees (price amount : Int → Prop) (c : Command) (v : Node.View) (o : Node.Outcome)
    (r : Go.Result) (x : Node.View) (y : Go.View) : Prop where
  related : Related price amount x y
  trades : o.trades.getD [] = r.trades
  triggered : o.triggeredOrders.getD [] = r.triggeredOrders.map Go.StopOrder.js
  order : v.shown x r.trades c.node = some r.order.js

/-! ## The end of a call -/

theorem publish_lockstep {α β : Type} {g : Node.EventBody → List Node.EventBody}
    {f : Go.EventBody → List Go.EventBody} {k : List Node.Event → α} {k' : List Go.Event → β}
    {Q : α → β → Node.View → Go.View → Prop} (h : Related price amount v w)
    (hlen : ∀ u u', (g u).length = (f u').length)
    (hQ : ∀ es es' x y, Related price amount x y → x.stops = v.stops → Q (k es) (k' es') x y) :
    Both
      (do
        let updated ← Node.Spec.createBookUpdatedEvent
        let es ← Node.Spec.stampEvents (g updated)
        return k es)
      (do
        let updated ← Go.Spec.bookUpdatedEvent
        let es ← Go.Spec.stamp (f updated)
        return k' es) Q (Related price amount) v w := by
  refine Both.ok rfl rfl (hQ _ _ _ _ ?_ rfl)
  refine ⟨h.depth, h.symbol, h.stops, h.last, ?_, ?_, h.named, h.fit, h.prices, h.lastPrice⟩
  · show v.sequence + ((g _).length : Int) = w.sequence + ((f _).length : Int)
    rw [h.sequence, hlen]
  · show v.clock.tail = w.clock.tail
    rw [h.clock]

/-- The order that the commands of an order show at the end. -/
theorem finalOrder_agree (h : Related price amount v w) (o : Order) {t' : Go.StopResult} :
    v.finalOrder o ((w.execute o).1 ++ t'.trades) = Go.Spec.finalOrder (w.execute o).2.1 t' := by
  obtain ⟨hord, htr, -⟩ := h.execute_eq o
  unfold Node.View.finalOrder Go.Spec.finalOrder
  rw [htr, List.drop_left, hord, ← hord, Node.executedOrder_orderId]

theorem finish_lockstep {c : Command} {o : Order}
    {g : Node.EventBody → Node.Triggered → List Node.EventBody}
    {f : Go.EventBody → Go.StopResult → List Go.EventBody} (hex : SumsExact price amount)
    (h : Related price amount v w)
    (hexec : Related price amount (v.executed o) (w.executed o))
    (hts : ∀ t ∈ (w.execute o).1, price t.priceTicks)
    (hlen : ∀ u t u' t', t.events.length = t'.events.length → (g u t).length = (f u' t').length)
    (hshown : ∀ x trades, v.shown x trades c.node = some (.order (v.finalOrder o trades))) :
    Both
      (do
        let triggered ← Node.Spec.cascade Node.maxCycles (w.execute o).1
        let updated ← Node.Spec.createBookUpdatedEvent
        let events ← Node.Spec.stampEvents (g updated triggered)
        return ⟨some ((w.execute o).1 ++ triggered.trades), some triggered.orders, events⟩)
      (do
        let triggered ← Go.Spec.cascade Go.maxCycles (w.execute o).1
        let updated ← Go.Spec.bookUpdatedEvent
        let events ← Go.Spec.stamp (f updated triggered)
        return ⟨.order (Go.Spec.finalOrder (w.execute o).2.1 triggered), (w.execute o).1 ++ triggered.trades,
          triggered.triggeredOrders, events⟩)
      (Agrees price amount c v) (Related price amount) (v.executed o) (w.executed o) := by
  refine (cascade_lockstep hex Node.maxCycles hexec hts).bind ?_
  rintro t t' x y ⟨ht, hxy⟩
  refine publish_lockstep hxy (fun u u' => hlen u t u' t' ht.events) fun es es' x' y' hxy' _ => ?_
  refine ⟨hxy', ?_, ?_, ?_⟩
  · rw [Option.getD_some, ht.trades]
  · rw [Option.getD_some, ht.orders]
  · rw [hshown, finalOrder_agree h]
    rfl

/-! ## The beginning of a call -/

theorem Related.hasId (h : Related price amount v w) (id : String) :
    v.hasId (.str id) = true ↔ w.hasId id := by
  unfold Node.View.hasId Go.View.hasId
  rw [Bool.or_eq_true, decide_eq_true_eq, List.mem_map_of_injective str_injective, h.depth, h.stops,
    OMap.has_rename, OMap.has_iff]

theorem available_lockstep {α β : Type} {f : Unit → Node.SpecProgram α} {f' : Unit → Go.SpecProgram β}
    {Q : α → β → Node.View → Go.View → Prop} {id : String} (h : Related price amount v w)
    (hf : ¬ w.hasId id → Both (f ()) (f' ()) Q (Related price amount) v w) :
    Both (Node.Spec.assertOrderIdAvailable (.str id) >>= f) (Go.Spec.assertAvailable id >>= f') Q
      (Related price amount) v w := by
  by_cases hid : w.hasId id
  · refine Both.error (e := .errorFor "order already exists: " (.str id)) (run_bind_error ?_)
      (run_bind_error (Go.Spec.assertAvailable_taken hid)) h
    rw [Node.Spec.assertOrderIdAvailable, run_get_bind, if_pos ((h.hasId id).mpr hid), run_throw]
  · refine Both.step ?_ (Go.Spec.assertAvailable_free hid) (hf hid)
    rw [Node.Spec.assertOrderIdAvailable, run_get_bind, if_neg fun hc => hid ((h.hasId id).mp hc),
      run_pure]

/-! ## Orders -/

section

variable {p : Placement}

/-- The payload of an order is the input of the same order. -/
theorem Placement.payload_input (p : Placement) (symbol : String) (n : Int) :
    ({ { p.payload with priceTicks := .num (.int n) } with symbol, type := .limit, clock := false } :
      Node.OrderInput) = Go.OrderInput.js { p.input with priceTicks := some n } symbol .limit false ∧
    ({ p.payload with symbol, type := .market, priceTicks := .null, clock := false } : Node.OrderInput) =
      Go.OrderInput.js p.input symbol .market false := ⟨rfl, rfl⟩

theorem limit_lockstep {n : Int} (hex : SumsExact price amount) (h : Related price amount v w)
    (hp : p.WellFormed) (hn : price n) :
    Both (Node.Spec.program (Command.limit p n).node) (Go.Spec.program (Command.limit p n).go)
      (Agrees price amount (.limit p n) v) (Related price amount) v w := by
  refine available_lockstep h fun _ => ?_
  refine Both.step (a := v) (b := w) rfl rfl ?_
  rcases execute_cases h (i := { p.input with priceTicks := some n }) hp.orderId hp.userId rfl (.inl rfl)
    false (fun _ q hq => by cases hq; exact hn) with
    ⟨e, e', he, he'⟩ | ⟨o, ho, ho', hrun, hexec, hts⟩
  all_goals rw [← (p.payload_input _ n).1, ← h.symbol] at *
  · refine Both.error (run_bind_error he) (d := e') ?_ h
    rw [run_lift_bind, he']
  · refine Both.step hrun (by rw [run_lift, ho']) (Both.right rfl ?_)
    refine finish_lockstep (g := fun u t => _) (f := fun u t => _) hex h hexec hts ?_ ?_
    · intro u t u' t' ht
      unfold Node.createTradeCreatedEvents
      split_ifs <;> simp [ht]
    · intro x trades
      show Option.map _ (Except.toOption (Node.newOrder _)) = _
      rw [ho]
      rfl

theorem market_lockstep (hex : SumsExact price amount) (h : Related price amount v w)
    (hp : p.WellFormed) :
    Both (Node.Spec.program (Command.market p).node) (Go.Spec.program (Command.market p).go)
      (Agrees price amount (.market p) v) (Related price amount) v w := by
  refine available_lockstep h fun _ => ?_
  refine Both.step (a := v) (b := w) rfl rfl ?_
  rcases execute_cases h (i := p.input) hp.orderId hp.userId rfl (.inr rfl) false (fun ht => by cases ht)
    with ⟨e, e', he, he'⟩ | ⟨o, ho, ho', hrun, hexec, hts⟩
  all_goals rw [← (p.payload_input _ 0).2, ← h.symbol] at *
  · refine Both.error (run_bind_error he) (d := e') ?_ h
    rw [run_lift_bind, he']
  · refine Both.step hrun (by rw [run_lift, ho']) (Both.right rfl ?_)
    refine finish_lockstep (g := fun u t => _) (f := fun u t => _) hex h hexec hts ?_ ?_
    · intro u t u' t' ht
      unfold Node.createTradeCreatedEvents
      simp [ht]
    · intro x trades
      show Option.map _ (Except.toOption (Node.newOrder _)) = _
      rw [ho]
      rfl

/-! ## Stop orders -/

/-- The stop order of a placement. -/
def Placement.stop (p : Placement) (symbol : String) (type : OrderType) (triggerPriceTicks : Int)
    (priceTicks trailingAmountTicks peakPriceTicks valleyPriceTicks : Option Int) : Go.StopOrder where
  orderId := p.orderId
  userId := p.userId
  symbol := symbol
  side := p.side
  type := type
  triggerPriceTicks := triggerPriceTicks
  priceTicks := priceTicks
  trailingAmountTicks := trailingAmountTicks
  peakPriceTicks := peakPriceTicks
  valleyPriceTicks := valleyPriceTicks
  quantity := p.quantity
  remainingQuantity := p.quantity
  status := .opened
  timestamp := p.timestamp

theorem newStop_eq (hp : p.WellFormed) (symbol : String) {typ : OrderType} (trigger : Int)
    {n : Option Int} (a peak valley : Option Int) (hn : typ = .stopLimit → ∃ k, n = some k ∧ 0 < k) :
    Go.newStop symbol typ { p.input with
      priceTicks := n, triggerPriceTicks := some trigger, trailingAmountTicks := a } peak valley =
      .ok (p.stop symbol typ trigger n a peak valley) :=
  Go.newStop_ok.mpr ⟨⟨rfl, not_blank hp.orderId⟩, ⟨rfl, not_blank hp.userId⟩, rfl,
    Go.sideOf_sideText p.side, rfl, rfl, rfl, rfl, ⟨rfl, rfl⟩, ⟨rfl, rfl, hp.quantity⟩, hn, rfl, rfl⟩

/-- Both engines accept a stop order. -/
theorem acceptStop_lockstep {c : Command} {s : Go.StopOrder} {i : Go.OrderInput} {typ : OrderType}
    {peak valley : Option Int} (h : Related price amount v w) (hs : Fit price amount s)
    (hnew : Go.newStop w.symbol typ i peak valley = .ok s)
    (hshown : ∀ x : Node.View, x.stops.get? (.str s.orderId) = some s.js →
      v.shown x [] c.node = some (.stop s.js)) :
    Both (Node.Spec.acceptStop s.js)
      (do
        let stop ← lift (Go.newStop w.symbol typ i peak valley)
        modify fun v => { v with stops := v.stops.set stop.orderId stop }
        let updated ← Go.Spec.bookUpdatedEvent
        let events ← Go.Spec.stamp [.stopAccepted stop, updated]
        return ⟨.stop stop, [], [], events⟩)
      (Agrees price amount c v) (Related price amount) v w := by
  refine Both.right (by rw [run_lift, hnew]) (Both.step rfl rfl ?_)
  refine publish_lockstep (h.set hs) (g := fun u => [_, u]) (f := fun u => [_, u]) (fun _ _ => rfl)
    fun es es' x y hxy hstops => ⟨hxy, rfl, rfl, hshown x ?_⟩
  rw [hstops]
  exact OMap.get?_set_self _ _ _

theorem stopMarket_lockstep (h : Related price amount v w) (hp : p.WellFormed) (t : Int) :
    Both (Node.Spec.program (Command.stopMarket p t).node) (Go.Spec.program (Command.stopMarket p t).go)
      (Agrees price amount (.stopMarket p t) v) (Related price amount) v w := by
  refine available_lockstep h fun _ => Both.step (a := v) (b := w) rfl rfl ?_
  have hs : Fit price amount (p.stop w.symbol .stopMarket t none none none none) :=
    ⟨hp.orderId, hp.userId, .inl ⟨rfl, rfl⟩⟩
  rw [h.symbol]
  refine acceptStop_lockstep h hs (newStop_eq hp _ _ none none none fun ht => by cases ht) fun x hx => ?_
  show Option.map _ (x.stops.get? (.str p.orderId)) = _
  rw [show x.stops.get? (.str p.orderId) = _ from hx]
  rfl

theorem stopLimit_lockstep (h : Related price amount v w) (hp : p.WellFormed) (t : Int) {n : Int}
    (hn : price n) (hpos : 0 < n) :
    Both (Node.Spec.program (Command.stopLimit p t n).node) (Go.Spec.program (Command.stopLimit p t n).go)
      (Agrees price amount (.stopLimit p t n) v) (Related price amount) v w := by
  refine available_lockstep h fun _ => Both.step (a := v) (b := w) rfl rfl ?_
  have hs : Fit price amount (p.stop w.symbol .stopLimit t (some n) none none none) :=
    ⟨hp.orderId, hp.userId, .inr (.inl ⟨rfl, n, rfl, hn⟩)⟩
  rw [h.symbol]
  refine acceptStop_lockstep h hs (newStop_eq hp _ _ none none none fun _ => ⟨n, rfl, hpos⟩) fun x hx => ?_
  show Option.map _ (x.stops.get? (.str p.orderId)) = _
  rw [show x.stops.get? (.str p.orderId) = _ from hx]
  rfl

/-- The stop order that trails by `a` behind `last`, with the extrema of its side. -/
def Placement.trailing (p : Placement) (symbol : String) (last a : Int) : Go.StopOrder :=
  p.stop symbol .trailingStopMarket (Go.wrap64 (if p.side = .sell then last - a else last + a)) none (some a)
    (if p.side = .sell then some last else none) (if p.side = .buy then some last else none)

theorem newTrailing_eq (p : Placement) {last a : Int} (ha : 0 < a) :
    Go.newTrailing (some last) { p.input with trailingAmountTicks := some a } =
      .ok ({ p.input with
          trailingAmountTicks := some a
          triggerPriceTicks := some (Go.wrap64 (if p.side = .sell then last - a else last + a)) },
        if p.side = .sell then some last else none, if p.side = .buy then some last else none) := by
  unfold Go.newTrailing
  cases hs : p.side <;> simp [Placement.input, hs, Go.sideOf_sideText, not_le.mpr ha]

/-- The trigger price is exact in both engines. -/
theorem trailing_js (hex : SumsExact price amount) {last a : Int} (hl : price last) (ha : amount a)
    (p : Placement) (symbol : String) :
    ({ p.payload with
        symbol, type := .trailingStopMarket, priceTicks := .null
        remainingQuantity := p.payload.quantity, status := .opened
        triggerPriceTicks := .num (.ofInt
          (if p.payload.side = .str (Node.sideText .sell) then last - a else last + a))
        trailingAmountTicks := some a
        peakPriceTicks := if p.payload.side = .str (Node.sideText .sell) then some last else none
        valleyPriceTicks := if p.payload.side = .str (Node.sideText .buy) then some last else none } :
      Node.StopOrder) = (p.trailing symbol last a).js := by
  obtain ⟨hp₀, ha₀, hle⟩ := hex last a hl ha
  have hexact : ∀ n, -Num.maxExact ≤ n → n ≤ Num.maxExact → Num.ofInt n = .int (Go.wrap64 n) :=
    fun n h₀ h₁ => by rw [Num.ofInt_exact h₀ h₁, Go.wrap64_exact h₀ h₁]
  have hsub := hexact (last - a) (by unfold Num.maxExact at *; omega) (by omega)
  have hadd := hexact (last + a) (by unfold Num.maxExact; omega) hle
  cases hs : p.side <;>
    simp [Placement.trailing, Placement.stop, Go.StopOrder.js, Placement.payload, hs, hsub, hadd,
      Node.sideText, Go.sideText, jsNumber]

/-- A new trailing stop order is an error before its id is checked, or its id is. -/
theorem go_trailing_taken {i : Go.OrderInput} (hid : w.hasId i.orderId) :
    ∃ e, (Go.Spec.placeTrailingStopMarket i).run w = (.error e, w) := by
  show ∃ e, Exc.run (Exc.lift (Go.newTrailing w.lastTradePriceTicks i) >>= _) w = _
  cases hn : Go.newTrailing w.lastTradePriceTicks i with
  | error e => exact ⟨e, by rw [run_lift_bind]⟩
  | ok x =>
    obtain ⟨i', peak, valley⟩ := x
    have hi : i'.orderId = i.orderId := by
      unfold Go.newTrailing at hn
      split at hn
      · cases hn
      · split at hn
        · cases hn
        · split_ifs at hn
          split at hn <;> cases hn <;> rfl
    refine ⟨.error ("order already exists: " ++ i'.orderId), ?_⟩
    rw [run_lift_bind]
    exact run_bind_error (Go.Spec.assertAvailable_taken (hi ▸ hid))

/-- Both engines compute the same trigger price, or both reject the trailing stop order. -/
theorem trailing_lockstep (hex : SumsExact price amount) (h : Related price amount v w)
    (hp : p.WellFormed) {a : Int} (ha : 0 < a → amount a) :
    Both (Node.Spec.program (Command.trailingStopMarket p a).node)
      (Go.Spec.program (Command.trailingStopMarket p a).go)
      (Agrees price amount (.trailingStopMarket p a) v) (Related price amount) v w := by
  by_cases hid : w.hasId p.orderId
  · -- The reference engine checks the id first, the Go engine last.
    obtain ⟨e', he'⟩ := go_trailing_taken (i := { p.input with trailingAmountTicks := some a }) hid
    refine Both.error (e := .errorFor "order already exists: " (.str p.orderId)) ?_ he' h
    show Exc.run (Node.Spec.assertOrderIdAvailable (.str p.orderId) >>= _) v = _
    refine run_bind_error ?_
    rw [Node.Spec.assertOrderIdAvailable, run_get_bind, if_pos ((h.hasId _).mpr hid), run_throw]
  have hnode : (Node.Spec.assertOrderIdAvailable (.str p.orderId)).run v = (.ok (), v) := by
    rw [Node.Spec.assertOrderIdAvailable, run_get_bind, if_neg fun hc => hid ((h.hasId _).mp hc), run_pure]
  cases hl : w.lastTradePriceTicks with
  | none =>
    refine Both.error (e := .error "cannot place trailing stop before first trade")
      (d := .error "cannot place trailing stop before first trade") ?_ ?_ h
    · show Exc.run (Node.Spec.assertOrderIdAvailable (.str p.orderId) >>= _) v = _
      rw [run_bind_ok hnode, run_get_bind, h.last, hl]
      rfl
    · show Exc.run (Exc.lift (Go.newTrailing w.lastTradePriceTicks _) >>= _) w = _
      rw [hl]
      rfl
  | some last =>
    by_cases hpos : 0 < a
    · have hs : Fit price amount (p.trailing w.symbol last a) :=
        ⟨hp.orderId, hp.userId, .inr (.inr ⟨rfl, rfl, a, rfl, ha hpos⟩)⟩
      have hpositive : Node.assertPositiveInteger "trailingAmountTicks" (.num (.int a)) = .ok a :=
        Node.assertPositiveInteger_ok.mpr ⟨rfl, hpos⟩
      refine Both.left rfl (Both.left hnode (Both.left (a := v) rfl (Both.right (b := w) rfl ?_)))
      rw [h.last, hl, h.symbol]
      refine Both.left (a := a) (t := v) (congrArg (·, v) hpositive) ?_
      refine Both.right (by rw [run_lift, newTrailing_eq p hpos]) ?_
      refine Both.right (Go.Spec.assertAvailable_free hid) (Both.right (b := w) rfl ?_)
      refine (congrArg (fun s => Both (Node.Spec.acceptStop s) _ _ _ v w)
        (trailing_js hex (h.lastPrice last hl) (ha hpos) p w.symbol)).mpr ?_
      refine acceptStop_lockstep h hs (newStop_eq hp _ _ (some a) _ _ fun ht => by cases ht) fun x hx => ?_
      show Option.map _ (x.stops.get? (.str p.orderId)) = _
      rw [show x.stops.get? (.str p.orderId) = _ from hx]
      rfl
    · have hle : ¬ 0 < a := hpos
      refine Both.error (e := .error ("trailingAmountTicks" ++ " must be a positive integer"))
        (d := .error "trailingAmountTicks must be a positive integer") ?_ ?_ h
      · show Exc.run (Node.Spec.assertOrderIdAvailable (.str p.orderId) >>= _) v = _
        rw [run_bind_ok hnode, run_get_bind, h.last, hl]
        show Exc.run (Exc.lift (Node.assertPositiveInteger _ (.num (.int a))) >>= _) v = _
        rw [run_lift_bind, Node.assertPositiveInteger, if_neg hle]
      · show Exc.run (Exc.lift (Go.newTrailing w.lastTradePriceTicks _) >>= _) w = _
        rw [run_lift_bind, hl]
        unfold Go.newTrailing
        simp [not_lt.mp hle]

/-! ## Cancels -/

theorem Related.remove (h : Related price amount v w) (id : String) :
    Related price amount { v with toDepth := v.remove id } { w with toDepth := w.remove id } where
  depth := by
    show v.toDepth.remove id = _
    rw [h.depth]
  symbol := h.symbol
  stops := h.stops
  last := h.last
  sequence := h.sequence
  clock := h.clock
  named := h.named
  fit := h.fit
  prices := fun o ho => by
    have ho : o ∈ (w.toDepth.remove id).orders := ho
    rw [Depth.remove_orders] at ho
    exact h.prices o (List.mem_of_mem_filter ho)
  lastPrice := h.lastPrice

theorem cancel_lockstep (h : Related price amount v w) (id : String) :
    Both (Node.Spec.program (Command.cancel id).node) (Go.Spec.program (Command.cancel id).go)
      (Agrees price amount (.cancel id) v) (Related price amount) v w := by
  have hget : v.stops.get? (.str id) = (w.stops.get? id).map Go.StopOrder.js := by
    rw [h.stops]
    exact OMap.get?_rename str_injective _ _ id
  have hfind : v.orders.find? (fun o => decide (Node.JsVal.str o.orderId = .str id)) =
      w.orders.find? (fun o => decide (o.orderId = id)) := by
    rw [h.depth]
    congr
    funext o
    exact decide_eq_decide.mpr (Node.JsVal.str.injEq _ _ ▸ Iff.rfl)
  refine Both.left (a := v) rfl (Both.right (b := w) rfl ?_)
  rw [hget]
  cases hs : w.stops.get? id with
  | some s =>
    refine Both.step (a := ()) (b := ()) rfl rfl (Both.ok rfl rfl ⟨?_, rfl, rfl, ?_⟩)
    · have hd := h.delete id
      exact ⟨hd.depth, hd.symbol, hd.stops, hd.last, hd.sequence, congrArg Clock.tail h.clock, hd.named,
        hd.fit, hd.prices, hd.lastPrice⟩
    · show v.shown _ [] (.cancelOrder (.str id)) = _
      rw [Node.View.shown, hget, hs]
      rfl
  | none =>
    dsimp only [Option.map_none]
    rw [hfind]
    cases hf : w.orders.find? (fun o => decide (o.orderId = id)) with
    | none => exact Both.error rfl rfl h
    | some o =>
      refine Both.step (a := ()) (b := ()) rfl rfl ?_
      refine publish_lockstep (h.remove o.orderId) (g := fun u => [_, u]) (f := fun u => [_, u])
        (fun _ _ => rfl) fun es es' x y hxy _ => ⟨hxy, rfl, rfl, ?_⟩
      show v.shown x [] (.cancelOrder (.str id)) = _
      rw [Node.View.shown, hget, hs]
      dsimp only [Option.map_none]
      rw [hfind, hf]
      rfl

end

/-- Both engines accept a well-formed command, with the same result, or both reject it. -/
theorem program_lockstep {c : Command} (hex : SumsExact price amount) (h : Related price amount v w)
    (hc : c.WellFormed) (hp : ∀ n, c.price = some n → price n)
    (ha : ∀ a, c.amount = some a → 0 < a → amount a) :
    Both (Node.Spec.program c.node) (Go.Spec.program c.go) (Agrees price amount c v)
      (Related price amount) v w := by
  cases c with
  | limit p n => exact limit_lockstep hex h (hc.placement p rfl) (hp n rfl)
  | market p => exact market_lockstep hex h (hc.placement p rfl)
  | stopMarket p t => exact stopMarket_lockstep h (hc.placement p rfl) t
  | stopLimit p t n => exact stopLimit_lockstep h (hc.placement p rfl) t (hp n rfl) (hc.price n rfl)
  | trailingStopMarket p a => exact trailing_lockstep hex h (hc.placement p rfl) (ha a rfl)
  | cancel id => exact cancel_lockstep h id

end Lob
