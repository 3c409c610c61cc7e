import LobEngine.Node.Refinement

/-!
# Whole calls

`program_sim`: the public methods refine their specifications, and what a call does to the orders is
`Called`: it places one order, or accepts one stop order, or neither, and then makes `Changes`.

* `View.shown`: the order that a call returns.
* `call_refines`: the same about the outcome and the book after one call.
-/

namespace Lob.Node

open Exc OrderBook Relation

/-- The id and the quantity that a call places. -/
def Call.placed : Call → Option (JsVal × JsVal)
  | .placeLimitOrder args | .placeMarketOrder args | .placeStopMarketOrder args
  | .placeStopLimitOrder args | .placeTrailingStopMarketOrder args =>
    args.map fun p => (p.orderId, p.quantity)
  | .cancelOrder _ => none

/-- What a call adds to the open quantity at most. -/
def Call.quantity (c : Call) : Int := (c.placed.map fun p => quantityOf p.2).getD 0

/-- What the call `c` does to the orders of the book. -/
inductive Called (c : Call) (b b' : OrderBook) : Prop
  | kept (changes : Changes b b')
  | placed (Y : String) (q : Int) (b₁ : OrderBook) (ts : List Trade)
    (call : c.placed = some (.str Y, .num (.int q)))
    (unused : b.stopOrdersById.get? (.str Y) = none)
    (quantity : (b₁.order b.nodes).initialQuantity = q)
    (executed : Executed b b₁ Y ts) (changes : Changes b₁ b')
  | accepted (s : StopOrder) (b₁ : OrderBook)
    (call : c.placed = some (s.orderId, s.remainingQuantity))
    (unused : b.ordersById.get? s.orderId = none ∧ b.stopOrdersById.get? s.orderId = none)
    (set : b₁ = { b with stopOrdersById := b.stopOrdersById.set s.orderId s })
    (changes : Changes b₁ b')

/-- After the call `c` of the book `b`. -/
def After (c : Call) (b b' : OrderBook) (v' : View) : Prop :=
  (∃ F, Repr b' F v') ∧ v'.Ok ∧ Called c b b'

/-- The placed order `o` after a call that made these trades. -/
def View.finalOrder (v : View) (o : Order) (trades : List Trade) : Order :=
  (v.executedOrder o).filledBy
    (traded o.orderId (trades.drop (v.fillFrom o (decide (o.type ≠ .limit))).1.length))

/-- The order that a call returns, if it leads from the view `v` to `w` and makes these trades. -/
def View.shown (v w : View) (trades : List Trade) : Call → Option Placed
  | .placeLimitOrder (some p) =>
    (newOrder { p with symbol := v.symbol, type := .limit, clock := false }).toOption.map fun o =>
      .order (v.finalOrder o trades)
  | .placeMarketOrder (some p) =>
    (newOrder { p with
      symbol := v.symbol, type := .market, priceTicks := .null, clock := false }).toOption.map fun o =>
        .order (v.finalOrder o trades)
  | .placeStopMarketOrder (some p) | .placeStopLimitOrder (some p)
  | .placeTrailingStopMarketOrder (some p) => (w.stops.get? p.orderId).map .stop
  | .cancelOrder key =>
    match v.stops.get? key with
    | some s => some (.stop { s with status := .cancelled })
    | none => (v.orders.find? fun o => decide (.str o.orderId = key)).map fun o =>
        .order { o with status := .cancelled }
  | _ => none

/-- The result of the call `c`, from the view `v` to `w`, has this outcome. -/
def Returned (c : Call) (v : View) (r : Result) (o : Outcome) (w : View) : Prop :=
  r.outcome = o ∧ v.shown w (r.trades.getD []) c = some r.order

section

variable {c : Call} {b : OrderBook} {F : Side → List NodeRef} {v : View}

theorem executedOrder_orderId (v : View) (o : Order) : (v.executedOrder o).orderId = o.orderId := by
  unfold View.executedOrder View.settle
  dsimp only
  split_ifs <;> rfl

theorem After.of_rel {b' : OrderBook} {v' : View} (h : Rel b b' v') : After c b b' v' :=
  ⟨h.1, h.2.1, .kept h.2.2⟩

theorem Repr.rel (h : Repr b F v) (hv : v.Ok) : Rel b b v := ⟨⟨F, h⟩, hv, .refl⟩

/-- The checks that all methods that place an order start with. -/
theorem checked_sim {args : Option Payload} {f : Payload → Program Result}
    {f' : Payload → SpecProgram Outcome} {Q : Result → Outcome → OrderBook → View → Prop}
    {E : OrderBook → View → Prop} (h : Repr b F v) (hE : E b v)
    (hf : ∀ p, args = some p → v.hasId p.orderId = false →
      Sim (fun x y => x = b ∧ y = v) (f p) (f' p) Q E) :
    Sim (fun x y => x = b ∧ y = v)
      (do let p ← destructure args; assertOrderIdAvailable p.orderId; f p)
      (do let p ← Spec.destructure args; Spec.assertOrderIdAvailable p.orderId; f' p) Q E := by
  cases args with
  | none => exact Sim.of_error rfl rfl hE
  | some p =>
    refine Sim.left (a := p) rfl (Sim.right (a := p) rfl ?_)
    by_cases hid : v.hasId p.orderId = true
    · have hb := h.hasId_eq p.orderId
      refine Sim.of_error (e := .errorFor "order already exists: " p.orderId) (t := b) (w := v)
        (run_bind_error ?_) (run_bind_error ?_) hE
      · rw [assertOrderIdAvailable, run_get_bind, if_pos (hb ▸ hid)]; rfl
      · rw [Spec.assertOrderIdAvailable, run_get_bind, if_pos hid]; rfl
    · have hb := h.hasId_eq p.orderId
      refine Sim.left (a := ()) (t := b) ?_ (Sim.right (a := ()) (w := v) ?_
        (hf p rfl (by simpa using hid)))
      · rw [assertOrderIdAvailable, run_get_bind, if_neg (hb ▸ hid)]; rfl
      · rw [Spec.assertOrderIdAvailable, run_get_bind, if_neg hid]; rfl

theorem hasId_false {id : JsVal} (h : v.hasId id = false) :
    (∀ i ∈ v.ids, id ≠ .str i) ∧ v.stops.get? id = none := by
  rw [View.hasId, Bool.or_eq_false_iff, decide_eq_false_iff_not] at h
  exact ⟨fun i hi e => h.1 (e ▸ List.mem_map_of_mem hi), OMap.has_eq_false.mp h.2⟩

/-- The order of the call executes, or its construction throws. -/
theorem place_execute {p : Payload} {i : OrderInput} (h : Repr b F v) (hv : v.Ok)
    (hc : c.placed = some (p.orderId, p.quantity)) (hfree : v.hasId p.orderId = false)
    (hex : v.openQuantity + c.quantity ≤ Num.maxExact) (hid : i.orderId = p.orderId)
    (hq : i.quantity = p.quantity) (hsym : i.symbol = v.symbol) :
    (∃ e, newOrder i = .error e) ∨
    ∃ o b₂ b₃ b₄, newOrder i = .ok o ∧ (newOrderNode i).run b = (.ok b.nodes, b₂) ∧
      (matchBySide b.nodes (decide (i.type ≠ .limit))).run b₂ =
        (.ok (v.fillFrom o (decide (o.type ≠ .limit))).1, b₃) ∧
      b₃.order b.nodes = (v.fillFrom o (decide (o.type ≠ .limit))).2.1 ∧
      (settleNode i.type b.nodes).run b₃ = (.ok (), b₄) ∧
      b₄.order b.nodes = v.executedOrder o ∧ Rel b₄ b₄ (v.executed o) ∧
      Holds b₄ b.nodes (v.executedOrder o) ∧ ∀ b' v', Rel b₄ b' v' → After c b b' v' := by
  cases ho : newOrder i with
  | error e => exact .inl ⟨e, rfl⟩
  | ok o =>
    right
    have hN := newOrder_ok.mp ho
    have hkey : p.orderId = .str o.orderId := hid.symm.trans hN.orderId.1
    obtain ⟨hids, hstops⟩ := hasId_false hfree
    have hini : c.quantity = o.initialQuantity := by
      rw [Call.quantity, hc, ← hq, hN.quantity.1]
      exact max_eq_left hN.quantity.2.le
    rw [hini] at hex
    rw [hkey] at hstops
    obtain ⟨b₂, b₃, b₄, F', h₂, h₃, hord₃, h₄, hord₄, hr₄, hexd⟩ :=
      execute_run h ho hsym (fun hmem => hids _ hmem hkey) hex
    refine ⟨o, b₂, b₃, b₄, rfl, h₂, h₃, hord₃, h₄, hord₄,
      hr₄.rel (hv.executed h.rests hN hsym hstops hex), hord₄ ▸ hexd.holds (h.stops ▸ hstops),
      fun b' v' hrel => ⟨hrel.1, hrel.2.1, ?_⟩⟩
    refine .placed o.orderId o.initialQuantity b₄ _ ?_ ?_ ?_ hexd hrel.2.2
    · rw [hc, hkey, ← hq, hN.quantity.1]
    · rw [← h.stops]; exact hstops
    · rw [hord₄]
      unfold View.executedOrder View.settle
      dsimp only
      split_ifs <;> rfl

theorem executedOrder_limit {o : Order} (ht : o.type = .limit) :
    v.executedOrder o = (v.fillFrom o (decide (o.type ≠ .limit))).2.1 := by
  unfold View.executedOrder View.settle
  dsimp only
  split_ifs with h₁ h₂
  · rfl
  · exact absurd ht h₂
  · rfl

/-- The end of a call: the event of the book is created, and the events are stamped. -/
theorem publish_sim {b₀ b : OrderBook} {v : View} {g : EventBody → List EventBody}
    {f : OrderBook → List Event → Result} {k : List Event → Outcome} (h : Rel b₀ b v)
    (hf : ∀ b es, (f b es).outcome = k es) :
    Sim (fun x y => x = b ∧ y = v)
      (do
        let updated ← createBookUpdatedEvent
        let es ← stampEvents (g updated)
        let b ← get
        return f b es)
      (do
        let updated ← Spec.createBookUpdatedEvent
        let es ← Spec.stampEvents (g updated)
        return k es)
      (fun r o x y => r.outcome = o ∧ Rel b₀ x y ∧ x.toHeap = b.toHeap ∧ x.ordersById = b.ordersById ∧
        x.stopOrdersById = b.stopOrdersById ∧ y.stops = v.stops ∧ ∃ es, r = f x es) (Rel b₀) := by
  obtain ⟨⟨F, hr⟩, -⟩ := id h
  refine Sim.of_ok rfl rfl ⟨?_, ?_, rfl, rfl, rfl, rfl, _, rfl⟩
  · rw [hf]
    show k (stampFrom b.symbol b.sequence (g (.bookUpdated none b.snapshot (b.clock 0)))) =
      k (stampFrom v.symbol v.sequence (g (.bookUpdated none v.snapshot (v.clock 0))))
    rw [hr.snapshot_eq, hr.symbol, hr.sequence, hr.clock]
  · rw [hr.snapshot_eq]
    exact h.scalars rfl (by simp only [hr.clock, hr.last, hr.sequence])

/-- What the methods do after the cascade. -/
theorem finish_sim {b₀ : OrderBook} {order : OrderBook → Placed} {ts : List Trade}
    {g : EventBody → Triggered → List EventBody} {b : OrderBook} {v : View} (h : Rel b₀ b v) :
    Sim (fun x y => x = b ∧ y = v)
      (do
        let triggered ← processStopOrdersAfterTrades ts
        let updated ← createBookUpdatedEvent
        let events ← stampEvents (g updated triggered)
        let b ← get
        return ⟨order b, some (ts ++ triggered.trades), some triggered.orders, events⟩ : Program Result)
      (do
        let triggered ← Spec.cascade maxCycles ts
        let updated ← Spec.createBookUpdatedEvent
        let events ← Spec.stampEvents (g updated triggered)
        return ⟨some (ts ++ triggered.trades), some triggered.orders, events⟩ : SpecProgram Outcome)
      (fun r o x y => r.outcome = o ∧ Rel b₀ x y ∧ r.order = order x ∧
        ∃ us, r.trades = some (ts ++ us) ∧ Carries b x us) (Rel b₀) := by
  refine ((cascade_sim maxCycles ts).at ⟨h, .refl b⟩).bind fun t t' => Sim.of_at ?_
  rintro b₁ v₁ ⟨rfl, h₁, hcarry⟩
  refine (publish_sim (g := fun u => g u t) (f := fun b es => ⟨order b, some (ts ++ t.trades), some t.orders, es⟩)
    (k := fun es => ⟨some (ts ++ t.trades), some t.orders, es⟩) h₁ fun _ _ => rfl).conseq
    (fun _ _ h => h) ?_ fun _ _ h => h
  rintro r o x y ⟨hout, hrel, hh, hi, hs, -, es, rfl⟩
  exact ⟨hout, hrel, rfl, t.trades, rfl, hcarry.frame hh hi fun id hid => by rw [hs]; exact hid⟩

/-- The order in the result, where the new order `o` executed and the trades `us` followed. -/
theorem finalOrder_eq {b₄ b' : OrderBook} {o : Order} {us : List Trade}
    (hholds : Holds b₄ b.nodes (v.executedOrder o)) (hcarry : Carries b₄ b' us) :
    v.finalOrder o ((v.fillFrom o (decide (o.type ≠ .limit))).1 ++ us) = b'.order b.nodes := by
  have hfinal := (hcarry.2 _ _ hholds).order
  rw [executedOrder_orderId] at hfinal
  rw [View.finalOrder, List.drop_left, hfinal]

theorem placeLimitOrder_sim {args : Option Payload} (h : Repr b F v) (hv : v.Ok)
    (hex : v.openQuantity + (Call.placeLimitOrder args).quantity ≤ Num.maxExact) :
    Sim (fun x y => x = b ∧ y = v) (placeLimitOrder args) (Spec.placeLimitOrder args)
      (fun r o x y => Returned (.placeLimitOrder args) v r o y ∧ After (.placeLimitOrder args) b x y)
      (After (.placeLimitOrder args) b) := by
  refine checked_sim h (.of_rel (h.rel hv)) fun p hp hfree => ?_
  refine Sim.left rfl (Sim.right rfl ?_)
  dsimp only
  rw [h.symbol]
  rcases place_execute (c := .placeLimitOrder args)
    (i := { p with symbol := b.symbol, type := .limit, clock := false }) h hv (by rw [hp]; rfl) hfree
    hex rfl rfl h.symbol.symm with ⟨e, he⟩ |
    ⟨o, b₂, b₃, b₄, ho, h₂, h₃, hord₃, h₄, hord₄, hrel, hholds, hafter⟩
  · exact Sim.of_error (run_bind_error (newOrderNode_error he))
      (run_bind_error (spec_execute_error he)) (.of_rel (h.rel hv))
  · have ht : o.type = .limit := (newOrder_ok.mp ho).type
    have hact : (b₃.order b.nodes).isActive = true ∧ 0 < (b₃.order b.nodes).remainingQuantity ↔
        0 < (v.executedOrder o).remainingQuantity := by
      rw [hord₃, executedOrder_limit ht, Depth.fillFrom_order]
      refine ⟨fun h => h.2, fun h => ⟨Order.filledBy_isActive ?_ h, h⟩⟩
      simp [Order.isActive, (newOrder_ok.mp ho).status]
    have hord : b₃.order b.nodes = v.executedOrder o := by rw [hord₃, executedOrder_limit ht]
    refine Sim.left h₂ (Sim.left h₃ (Sim.left rfl (Sim.left h₄ (Sim.right (spec_execute_ok ho) ?_))))
    simp only [hact]
    rw [hord]
    refine (finish_sim hrel).conseq (fun _ _ h => h) ?_ hafter
    rintro r o' x y ⟨hout, hrel', hord, us, htrades, hcarry⟩
    refine ⟨⟨hout, ?_⟩, hafter _ _ hrel'⟩
    rw [hp, View.shown, h.symbol, ho, htrades, hord]
    show some (Placed.order _) = _
    rw [Option.getD_some, finalOrder_eq hholds hcarry]

theorem placeMarketOrder_sim {args : Option Payload} (h : Repr b F v) (hv : v.Ok)
    (hex : v.openQuantity + (Call.placeMarketOrder args).quantity ≤ Num.maxExact) :
    Sim (fun x y => x = b ∧ y = v) (placeMarketOrder args) (Spec.placeMarketOrder args)
      (fun r o x y => Returned (.placeMarketOrder args) v r o y ∧ After (.placeMarketOrder args) b x y)
      (After (.placeMarketOrder args) b) := by
  refine checked_sim h (.of_rel (h.rel hv)) fun p hp hfree => ?_
  refine Sim.left rfl (Sim.right rfl ?_)
  dsimp only
  rw [h.symbol]
  rcases place_execute (c := .placeMarketOrder args)
    (i := { p with symbol := b.symbol, type := .market, priceTicks := .null, clock := false }) h hv
    (by rw [hp]; rfl) hfree hex rfl rfl h.symbol.symm with
    ⟨e, he⟩ | ⟨o, b₂, b₃, b₄, ho, h₂, h₃, -, h₄, hord₄, hrel, hholds, hafter⟩
  · exact Sim.of_error (run_bind_error (newOrderNode_error he))
      (run_bind_error (spec_execute_error he)) (.of_rel (h.rel hv))
  · refine Sim.left h₂ (Sim.left h₃ (Sim.left h₄ (Sim.left rfl (Sim.right (spec_execute_ok ho) ?_))))
    rw [hord₄]
    refine (finish_sim hrel).conseq (fun _ _ h => h) ?_ hafter
    rintro r o' x y ⟨hout, hrel', hord, us, htrades, hcarry⟩
    refine ⟨⟨hout, ?_⟩, hafter _ _ hrel'⟩
    rw [hp, View.shown, h.symbol, ho, htrades, hord]
    show some (Placed.order _) = _
    rw [Option.getD_some, finalOrder_eq hholds hcarry]

/-! ## Stop orders -/

theorem openQuantity_set {s : StopOrder} (hs : v.stops.get? s.orderId = none) :
    ({ v with stops := v.stops.set s.orderId s } : View).openQuantity =
      v.openQuantity + quantityOf s.remainingQuantity := by
  show v.quantity + ((v.stops.set s.orderId s).values.map _).sum = v.quantity + _ + _
  rw [OMap.values_set_new s hs, List.map_append, List.sum_append, List.map_singleton,
    List.sum_singleton, add_assoc]

theorem acceptStop_sim {s : StopOrder} (h : Repr b F v) (hv : v.Ok)
    (hc : c.placed = some (s.orderId, s.remainingQuantity)) (hfree : v.hasId s.orderId = false)
    (hex : v.openQuantity + c.quantity ≤ Num.maxExact)
    (hshown : ∀ w : View, w.stops.get? s.orderId = some s → v.shown w [] c = some (.stop s)) :
    Sim (fun x y => x = b ∧ y = v) (acceptStop s) (Spec.acceptStop s)
      (fun r o x y => Returned c v r o y ∧ After c b x y) (After c b) := by
  obtain ⟨hids, hstops⟩ := hasId_false hfree
  set b₁ : OrderBook := { b with stopOrdersById := b.stopOrdersById.set s.orderId s } with hb₁
  set v₁ : View := { v with stops := v.stops.set s.orderId s } with hv₁
  have hrel : Rel b₁ b₁ v₁ := by
    refine ⟨⟨F, h.scalars rfl ?_⟩, ⟨hv.symbol, fun id hid => ?_, fun k s' hs' => ?_, hv.valid, ?_⟩, .refl⟩
    · rw [hv₁, hb₁]
      simp only [h.stops, h.last, h.sequence, h.clock]
    · show (v.stops.set s.orderId s).get? _ = none
      rw [OMap.get?_set_ne _ _ (hids id hid).symm]
      exact hv.separate id hid
    · have hs' : (v.stops.set s.orderId s).get? k = some s' := hs'
      rw [OMap.get?_set] at hs'
      split at hs'
      · next e => cases hs'; exact e.symm
      · exact hv.keyed k s' hs'
    · rw [hv₁, openQuantity_set hstops]
      rwa [Call.quantity, hc] at hex
  have hindex : b.ordersById.get? s.orderId = none := by
    have := h.hasId_eq s.orderId
    rw [hfree] at this
    exact OMap.has_eq_false.mp (Bool.or_eq_false_iff.mp this.symm).1
  have hafter : ∀ b' v', Rel b₁ b' v' → After c b b' v' := fun b' v' hrel =>
    ⟨hrel.1, hrel.2.1, .accepted s b₁ hc ⟨hindex, h.stops ▸ hstops⟩ hb₁ hrel.2.2⟩
  unfold acceptStop Spec.acceptStop
  refine Sim.left (t := b₁) rfl (Sim.right (w := v₁) rfl ?_)
  refine (publish_sim (f := fun _ es => ⟨.stop s, some [], some [], es⟩) (k := fun es => ⟨some [], some [], es⟩)
    (g := fun u => [.stopAccepted s, u]) hrel fun _ _ => rfl).conseq (fun _ _ h => h) ?_ hafter
  rintro r o x y ⟨hout, hrel', -, -, -, hstops', es, rfl⟩
  refine ⟨⟨hout, hshown y ?_⟩, hafter _ _ hrel'⟩
  rw [hstops']
  exact OMap.get?_set_self _ _ _

theorem placeStopMarketOrder_sim {args : Option Payload} (h : Repr b F v) (hv : v.Ok)
    (hex : v.openQuantity + (Call.placeStopMarketOrder args).quantity ≤ Num.maxExact) :
    Sim (fun x y => x = b ∧ y = v) (placeStopMarketOrder args) (Spec.placeStopMarketOrder args)
      (fun r o x y => Returned (.placeStopMarketOrder args) v r o y ∧
        After (.placeStopMarketOrder args) b x y)
      (After (.placeStopMarketOrder args) b) := by
  refine checked_sim h (.of_rel (h.rel hv)) fun p hp hfree => Sim.left rfl (Sim.right rfl ?_)
  rw [h.symbol]
  exact acceptStop_sim h hv (by rw [hp]; rfl) hfree hex fun w hw => by rw [hp, View.shown, hw]; rfl

theorem placeStopLimitOrder_sim {args : Option Payload} (h : Repr b F v) (hv : v.Ok)
    (hex : v.openQuantity + (Call.placeStopLimitOrder args).quantity ≤ Num.maxExact) :
    Sim (fun x y => x = b ∧ y = v) (placeStopLimitOrder args) (Spec.placeStopLimitOrder args)
      (fun r o x y => Returned (.placeStopLimitOrder args) v r o y ∧
        After (.placeStopLimitOrder args) b x y)
      (After (.placeStopLimitOrder args) b) := by
  refine checked_sim h (.of_rel (h.rel hv)) fun p hp hfree => Sim.left rfl (Sim.right rfl ?_)
  rw [h.symbol]
  exact acceptStop_sim h hv (by rw [hp]; rfl) hfree hex fun w hw => by rw [hp, View.shown, hw]; rfl

theorem placeTrailingStopMarketOrder_sim {args : Option Payload} (h : Repr b F v) (hv : v.Ok)
    (hex : v.openQuantity + (Call.placeTrailingStopMarketOrder args).quantity ≤ Num.maxExact) :
    Sim (fun x y => x = b ∧ y = v) (placeTrailingStopMarketOrder args)
      (Spec.placeTrailingStopMarketOrder args)
      (fun r o x y => Returned (.placeTrailingStopMarketOrder args) v r o y ∧
        After (.placeTrailingStopMarketOrder args) b x y)
      (After (.placeTrailingStopMarketOrder args) b) := by
  have hkept : After (.placeTrailingStopMarketOrder args) b b v := .of_rel (h.rel hv)
  refine checked_sim h hkept fun p hp hfree => Sim.left rfl (Sim.right rfl ?_)
  rw [h.symbol, h.last]
  cases b.lastTradePriceTicks with
  | none => exact Sim.of_error rfl rfl hkept
  | some last =>
    cases ha : assertPositiveInteger "trailingAmountTicks" p.trailingAmountTicks with
    | error e => exact Sim.of_error rfl rfl hkept
    | ok amount =>
      refine Sim.left rfl (Sim.right rfl ?_)
      exact acceptStop_sim h hv (by rw [hp]; rfl) hfree hex fun w hw => by rw [hp, View.shown, hw]; rfl

/-! ## Cancels -/

theorem cancelStop_sim {id : JsVal} {s : StopOrder} (h : Rel b b v)
    (hs : v.stops.get? id = some s) :
    Sim (fun x y => x = b ∧ y = v) (cancelStop id s) (Spec.cancelStop id s)
      (fun r o x y => Returned (.cancelOrder id) v r o y ∧ After (.cancelOrder id) b x y)
      (After (.cancelOrder id) b) := by
  have hclock : v.clock = b.clock := by obtain ⟨⟨F, hr⟩, -⟩ := h; exact hr.clock
  have hdel := h.delete b.clock hs
  unfold cancelStop Spec.cancelStop
  refine Sim.left (t := { b with stopOrdersById := b.stopOrdersById.delete id, clock := b.clock }) rfl
    (Sim.right (a := ()) (w := { v with stops := v.stops.delete id, clock := b.clock }) ?_ ?_)
  · rw [← hclock]; rfl
  · refine Sim.conseq (Q := fun r o x y => Returned (.cancelOrder id) v r o y ∧ Rel b x y) (E := Rel b) ?_
      (fun _ _ h => h) (fun _ _ _ _ h => ⟨h.1, .of_rel h.2⟩) fun _ _ h => .of_rel h
    refine (createBookUpdatedEvent_sim.at hdel).bind fun u u' => Sim.of_at ?_
    rintro b₂ v₂ ⟨rfl, h₂⟩
    refine Sim.of_ok rfl rfl ⟨⟨rfl, ?_⟩, h₂⟩
    rw [View.shown, hs]

/-- The index finds the order that the view has under an id. -/
theorem Repr.find? (h : Repr b F v) (id : JsVal) :
    v.orders.find? (fun o => decide (.str o.orderId = id)) = (b.ordersById.get? id).map b.order := by
  cases hr : b.ordersById.get? id with
  | none =>
    rw [Option.map_none, List.find?_eq_none]
    intro o ho hid
    obtain ⟨s, r, hrs, rfl⟩ := h.mem_orders.mp ho
    rw [(h.index id r).mpr ⟨⟨s, hrs⟩, (of_decide_eq_true hid).symm⟩] at hr
    cases hr
  | some r =>
    obtain ⟨⟨s, hs⟩, hid⟩ := (h.index id r).mp hr
    have hmem : b.order r ∈ v.orders := h.mem_orders.mpr ⟨s, r, hs, rfl⟩
    have hsome := List.find?_isSome (p := fun o => decide (.str o.orderId = id)) |>.mpr
      ⟨_, hmem, by rw [hid]; simp⟩
    obtain ⟨o, ho⟩ := Option.isSome_iff_exists.mp hsome
    rw [ho, Option.map_some]
    obtain ⟨s', r', hr', rfl⟩ := h.mem_orders.mp (List.mem_of_find?_eq_some ho)
    have hid' : JsVal.str (b.order r').orderId = id := by simpa using List.find?_some ho
    have := (h.index id r').mpr ⟨⟨s', hr'⟩, hid'.symm⟩
    rw [hr, Option.some_inj] at this
    rw [this]

theorem cancelResting_sim {id : JsVal} {r : NodeRef} (h : Repr b F v) (hv : v.Ok)
    (hid : b.ordersById.get? id = some r) (hpend : v.stops.get? id = none) :
    Sim (fun x y => x = b ∧ y = v) (cancelResting id r) (Spec.cancelResting (b.order r))
      (fun r o x y => Returned (.cancelOrder id) v r o y ∧ After (.cancelOrder id) b x y)
      (After (.cancelOrder id) b) := by
  have hshown : v.shown v [] (.cancelOrder id) = some (.order { b.order r with status := .cancelled }) := by
    rw [View.shown, h.find?, hid, hpend]
    rfl
  obtain ⟨⟨s, hs⟩, rfl⟩ := (h.index id r).mp hid
  have hmax : b.remaining (F s) ≤ Num.maxExact :=
    ((h.remaining_le s).2.trans v.quantity_le_open).trans hv.exact
  obtain ⟨l, b₁, G, hl, hrun, hr₁, -, hord, hother, hnodes, hidx⟩ := h.remove hs hmax
  have hrel : Rel b b₁ { v with toDepth := v.remove (b.order r).orderId } := by
    refine ⟨⟨_, hr₁⟩, ⟨hv.symbol, fun i hi => ?_, hv.keyed, fun o ho => ?_, ?_⟩, .single (.quiet hnodes ?_
      (fun x => ?_) (fun i x hx => ?_) fun i s' hs' => ?_)⟩
    · exact hv.separate i ((Depth.remove_ids _).subset hi)
    · have ho : o ∈ Depth.orders (v.remove (b.order r).orderId) := ho
      rw [Depth.remove_orders] at ho
      exact hv.valid o (List.mem_of_mem_filter ho)
    · have := Depth.remove_quantity h.rests (b.order r).orderId
      have hopen := hv.exact
      unfold View.openQuantity at hopen ⊢
      dsimp only
      omega
    · rw [← hr₁.trades, ← h.trades]
    · by_cases hx : x = r
      · rw [hx, hord]; exact ⟨rfl, rfl, rfl⟩
      · rw [hother x hx]; exact ⟨rfl, rfl, rfl⟩
    · rw [hidx, OMap.get?_delete] at hx
      split at hx
      · cases hx
      · exact hx
    · rw [← hr₁.stops] at hs'
      exact ⟨s', by rw [← h.stops]; exact hs', rfl⟩
  have hact : ¬ (b.order r).isActive = false := by
    rw [((h.sides s).rests r hs).isActive]; simp
  unfold cancelResting Spec.cancelResting
  refine Sim.left rfl ?_
  dsimp only
  rw [if_neg hact, hl]
  refine Sim.left hrun (Sim.left rfl (Sim.right rfl ?_))
  rw [hord]
  refine (publish_sim (g := fun u => [createOrderCancelledEvent { b.order r with status := .cancelled }, u])
    (f := fun _ es => ⟨.order { b.order r with status := .cancelled }, none, none, es⟩)
    (k := fun es => ⟨none, none, es⟩) hrel fun _ _ => rfl).conseq (fun _ _ h => h) ?_
    fun _ _ h => After.of_rel h
  rintro r' o x y ⟨hout, hrel', -, -, -, -, es, rfl⟩
  exact ⟨⟨hout, hshown⟩, After.of_rel hrel'⟩

theorem cancelOrder_sim {id : JsVal} (h : Repr b F v) (hv : v.Ok) :
    Sim (fun x y => x = b ∧ y = v) (cancelOrder id) (Spec.cancelOrder id)
      (fun r o x y => Returned (.cancelOrder id) v r o y ∧ After (.cancelOrder id) b x y)
      (After (.cancelOrder id) b) := by
  unfold cancelOrder Spec.cancelOrder
  refine Sim.left rfl (Sim.right rfl ?_)
  rw [h.find?, ← h.stops]
  cases hs : v.stops.get? id with
  | some s => exact cancelStop_sim (h.rel hv) hs
  | none =>
    cases hid : b.ordersById.get? id with
    | none => exact Sim.of_error rfl rfl (.of_rel (h.rel hv))
    | some r => exact cancelResting_sim h hv hid hs

/-! ## All calls -/

theorem program_sim (c : Call) (h : Repr b F v) (hv : v.Ok)
    (hex : v.openQuantity + c.quantity ≤ Num.maxExact) :
    Sim (fun x y => x = b ∧ y = v) c.program (Spec.program c)
      (fun r o x y => Returned c v r o y ∧ After c b x y) (After c b) := by
  cases c with
  | placeLimitOrder args => exact placeLimitOrder_sim h hv hex
  | placeMarketOrder args => exact placeMarketOrder_sim h hv hex
  | placeStopMarketOrder args => exact placeStopMarketOrder_sim h hv hex
  | placeStopLimitOrder args => exact placeStopLimitOrder_sim h hv hex
  | placeTrailingStopMarketOrder args => exact placeTrailingStopMarketOrder_sim h hv hex
  | cancelOrder id => exact cancelOrder_sim h hv

/-- A call and its specification: the same outcome, and the book represents the view again. -/
theorem call_refines (c : Call) (h : Repr b F v) (hv : v.Ok)
    (hex : v.openQuantity + c.quantity ≤ Num.maxExact) :
    (call b c).1.map Result.outcome = ((Spec.program c).run v).1 ∧
      After c b (call b c).2 ((Spec.program c).run v).2 := by
  have hsim := program_sim c h hv hex b v ⟨rfl, rfl⟩
  unfold call
  rcases hm : c.program.run b with ⟨_ | r, b'⟩ <;>
    rcases hm' : (Spec.program c).run v with ⟨_ | o, v'⟩ <;> rw [hm, hm'] at hsim
  · exact ⟨congrArg Except.error hsim.1, hsim.2⟩
  · exact hsim.elim
  · exact hsim.elim
  · exact ⟨congrArg Except.ok hsim.1.1, hsim.2⟩

/-- The order that a successful call returns. -/
theorem call_shown (c : Call) (h : Repr b F v) (hv : v.Ok)
    (hex : v.openQuantity + c.quantity ≤ Num.maxExact) {r : Result} (hr : (call b c).1 = .ok r) :
    v.shown ((Spec.program c).run v).2 (r.trades.getD []) c = some r.order := by
  have hsim := program_sim c h hv hex b v ⟨rfl, rfl⟩
  unfold call at hr
  rcases hm : c.program.run b with ⟨_ | r', b'⟩ <;>
    rcases hm' : (Spec.program c).run v with ⟨_ | o, v'⟩ <;> rw [hm, hm'] at hsim <;> rw [hm] at hr
  · cases hr
  · cases hr
  · exact hsim.elim
  · cases hr
    exact hsim.1.2

end

end Lob.Node
