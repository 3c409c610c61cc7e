import LobEngine.Node.Execution
import Mathlib.Logic.Relation

/-!
# The methods refine their specification

`program_sim`: from a book that represents a view, a call and its specification both return, with the
same outcome, or both throw the same, and the book represents the view again. The open quantity has
to stay exact: `openQuantity` plus the quantity of the call is at most `2^53`.

* `Change`: one step of a call, as the orders see it; what a call does is `Called`.
* `Rel`: the relation between book and view that the simulations keep.
* `Carries`: some trades fill the orders they name, and change no other order.
-/

namespace Lob.Node

open Exc OrderBook Relation

/-- A step that trades nothing, or a stop order that triggers and executes. -/
inductive Change (b b' : OrderBook) : Prop
  | quiet (nodes : b'.nodes = b.nodes) (trades : b'.trades = b.trades)
    (order : ∀ r, (b'.order r).orderId = (b.order r).orderId ∧
      (b'.order r).initialQuantity = (b.order r).initialQuantity ∧
      (b'.order r).remainingQuantity = (b.order r).remainingQuantity)
    (index : ∀ id x, b'.ordersById.get? id = some x → b.ordersById.get? id = some x)
    (stops : ∀ id s', b'.stopOrdersById.get? id = some s' →
      ∃ s, b.stopOrdersById.get? id = some s ∧ s'.remainingQuantity = s.remainingQuantity)
  | trigger (Y : String) (s : StopOrder) (clock : Clock) (ts : List Trade)
    (pending : b.stopOrdersById.get? (.str Y) = some s)
    (quantity : s.remainingQuantity = .num (.int (b'.order b.nodes).initialQuantity))
    (executed : Executed
      { b with stopOrdersById := b.stopOrdersById.delete (.str Y), clock } b' Y ts)

abbrev Changes := ReflTransGen Change

/-- A step that changes neither the heap, the index nor the trades, and only removes stop orders. -/
theorem Change.of_stops {b b' : OrderBook} (hh : b'.toHeap = b.toHeap) (ht : b'.trades = b.trades)
    (hi : b'.ordersById = b.ordersById)
    (hs : ∀ id s', b'.stopOrdersById.get? id = some s' →
      ∃ s, b.stopOrdersById.get? id = some s ∧ s'.remainingQuantity = s.remainingQuantity) :
    Change b b' :=
  .quiet (by rw [hh]) ht (fun r => by rw [hh]; exact ⟨rfl, rfl, rfl⟩) (fun id x hx => hi ▸ hx) hs

/-- The book `b`, which developed from `b₀`, represents the view. -/
def Rel (b₀ b : OrderBook) (v : View) : Prop := (∃ F, Repr b F v) ∧ v.Ok ∧ Changes b₀ b

/-! ## Orders that are not pending -/

/-- The node `r` has the order `o`, and no other order of the book has its id. -/
structure Holds (b : OrderBook) (r : NodeRef) (o : Order) : Prop where
  order : b.order r = o
  bound : r < b.nodes
  index : ∀ x, b.ordersById.get? (.str o.orderId) = some x → x = r
  own : ∀ id, b.ordersById.get? id = some r → id = .str o.orderId
  pending : b.stopOrdersById.get? (.str o.orderId) = none

/-- From `b` to `b'` the trades `ts` are made, and they fill the orders they name. -/
def Carries (b b' : OrderBook) (ts : List Trade) : Prop :=
  (∀ t ∈ ts, 0 < t.quantity) ∧ ∀ r o, Holds b r o → Holds b' r (o.filledBy (traded o.orderId ts))

theorem Holds.frame {b b' : OrderBook} {r : NodeRef} {o : Order} (h : Holds b r o)
    (hh : b'.toHeap = b.toHeap) (hi : b'.ordersById = b.ordersById)
    (hs : ∀ id, b.stopOrdersById.get? id = none → b'.stopOrdersById.get? id = none) : Holds b' r o where
  order := by rw [hh, h.order]
  bound := by rw [hh]; exact h.bound
  index := fun x hx => h.index x (hi ▸ hx)
  own := fun id hid => h.own id (hi ▸ hid)
  pending := hs _ h.pending

theorem Carries.refl (b : OrderBook) : Carries b b [] :=
  ⟨fun t ht => (by cases ht), fun r o h => by rw [traded_nil, Order.filledBy_zero]; exact h⟩

theorem Carries.trans {b b' b'' : OrderBook} {ts us : List Trade} (h : Carries b b' ts)
    (h' : Carries b' b'' us) : Carries b b'' (ts ++ us) := by
  refine ⟨fun t ht => ?_, fun r o hr => ?_⟩
  · rcases List.mem_append.mp ht with ht | ht
    · exact h.1 t ht
    · exact h'.1 t ht
  · have hh := h'.2 r _ (h.2 r o hr)
    rwa [Order.filledBy_orderId, Order.filledBy_filledBy _ (traded_nonneg h.1 _) (traded_nonneg h'.1 _),
      ← traded_append] at hh

theorem Carries.frame {b b' b'' : OrderBook} {ts : List Trade} (h : Carries b b' ts)
    (hh : b''.toHeap = b'.toHeap) (hi : b''.ordersById = b'.ordersById)
    (hs : ∀ id, b'.stopOrdersById.get? id = none → b''.stopOrdersById.get? id = none) :
    Carries b b'' ts :=
  ⟨h.1, fun r o hr => (h.2 r o hr).frame hh hi hs⟩

/-- The new order, once it executed. -/
theorem Executed.holds {b b' : OrderBook} {Y : String} {ts : List Trade} (h : Executed b b' Y ts)
    (hs : b.stopOrdersById.get? (.str Y) = none) : Holds b' b.nodes (b'.order b.nodes) where
  order := rfl
  bound := by rw [h.nodes]; exact Nat.lt_succ_self _
  index := fun x hx => by
    rw [h.id] at hx
    rcases h.index _ x hx with hx | hx
    · rw [h.unused] at hx; cases hx
    · exact hx.1
  own := fun id hid => by
    rw [h.id]
    rcases h.index id _ hid with hx | hx
    · exact absurd (h.bounded id _ hx) (lt_irrefl _)
    · exact hx.2
  pending := by rw [h.stops, h.id]; exact hs

/-- A stop order that triggers and executes: no other order has its id. -/
theorem Executed.carries {b b' : OrderBook} {Y : String} {s : StopOrder} {clock : Clock}
    {ts : List Trade} (hp : b.stopOrdersById.get? (.str Y) = some s)
    (h : Executed { b with stopOrdersById := b.stopOrdersById.delete (.str Y), clock } b' Y ts) :
    Carries b b' ts := by
  refine ⟨fun t ht => (h.names t ht).2.1, fun r o hr => ?_⟩
  have hY : o.orderId ≠ Y := fun e => by
    have := hr.pending
    rw [e, hp] at this
    cases this
  have hold : ∀ id x, b'.ordersById.get? id = some x → x ≠ b.nodes → b.ordersById.get? id = some x :=
    fun id x hx hne => (h.index id x hx).resolve_right fun e => hne e.1
  refine ⟨?_, ?_, fun x hx => ?_, fun id hid => ?_, ?_⟩
  · cases hx : b.ordersById.get? (.str o.orderId) with
    | some x =>
      obtain rfl := hr.index x hx
      rw [h.resting _ x hx, ← hr.order]
    | none =>
      -- Nothing rests under its id, so no trade names it.
      have hno : traded o.orderId ts = 0 := traded_eq_zero fun t ht hn => by
        rcases (h.names t ht).2.2 _ hn with e | ⟨x, e⟩
        · exact hY e
        · rw [hx] at e; cases e
      rw [hno, Order.filledBy_zero, h.other r hr.bound fun id e => ?_]
      · exact hr.order
      · rw [hr.own _ e, hx] at e
        cases e
  · rw [h.nodes]
    exact Nat.lt_succ_of_lt hr.bound
  · rcases h.index _ x hx with hx | hx
    · exact hr.index x hx
    · exact absurd (JsVal.str.inj hx.2) hY
  · exact hr.own id (hold id r hid hr.bound.ne)
  · rw [h.stops, Order.filledBy_orderId]
    show (b.stopOrdersById.delete (.str Y)).get? _ = none
    rw [OMap.get?_delete_ne _ fun e => hY (JsVal.str.inj e)]
    exact hr.pending

section

variable {b₀ b : OrderBook} {F : Side → List NodeRef} {v : View}

/-- A step that does not touch the heap, the sides, the index and the trades. -/
theorem Repr.scalars {b' : OrderBook} {v' : View} (h : Repr b F v)
    (hb : b' = { b with
      stopOrdersById := b'.stopOrdersById, lastTradePriceTicks := b'.lastTradePriceTicks
      sequence := b'.sequence, clock := b'.clock })
    (hv : v' = { v with
      stops := b'.stopOrdersById, lastTradePriceTicks := b'.lastTradePriceTicks
      sequence := b'.sequence, clock := b'.clock }) : Repr b' F v' := by
  rw [hb, hv]
  exact ⟨fun s => (by cases s <;> exact h.sides _), h.orders, h.index, h.ids, h.history, h.arrived,
    h.symbol, rfl, h.trades, rfl, rfl, rfl⟩

theorem Rel.scalars {b' : OrderBook} {v' : View} (h : Rel b₀ b v)
    (hb : b' = { b with
      lastTradePriceTicks := b'.lastTradePriceTicks
      sequence := b'.sequence, clock := b'.clock })
    (hv : v' = { v with
      lastTradePriceTicks := b'.lastTradePriceTicks
      sequence := b'.sequence, clock := b'.clock }) : Rel b₀ b' v' := by
  obtain ⟨⟨F, h⟩, hok, hch⟩ := h
  have hs : b'.stopOrdersById = b.stopOrdersById := by rw [hb]
  refine ⟨⟨F, h.scalars (by rw [hs]; exact hb) (by rw [hs, ← h.stops]; exact hv)⟩, ?_,
    hch.tail (.of_stops (by rw [hb]) (by rw [hb]) (by rw [hb]) fun id s' hs' =>
      ⟨s', by rwa [← hs], rfl⟩)⟩
  rw [hv]
  exact ⟨hok.symbol, hok.separate, hok.keyed, hok.valid, hok.exact⟩

/-! ## Small programs -/

theorem now_sim : Sim (Rel b₀) now Spec.now (fun a a' b v => a = a' ∧ Rel b₀ b v) (Rel b₀) := by
  refine Sim.of_at fun b v h => ?_
  unfold now Spec.now
  rintro _ _ ⟨rfl, rfl⟩
  obtain ⟨⟨F, hr⟩, -, -⟩ := id h
  exact ⟨by rw [hr.clock], h.scalars rfl (by simp only [hr.clock, hr.last, hr.sequence])⟩

theorem createBookUpdatedEvent_sim : Sim (Rel b₀) createBookUpdatedEvent Spec.createBookUpdatedEvent
    (fun a a' b v => a = a' ∧ Rel b₀ b v) (Rel b₀) := by
  unfold createBookUpdatedEvent Spec.createBookUpdatedEvent
  refine Sim.get fun b v h => ?_
  obtain ⟨⟨F, hr⟩, -, -⟩ := id h
  refine Sim.bind (now_sim.at h) fun ms ms' => ?_
  refine Sim.pure fun t t' ht => ?_
  rw [hr.snapshot_eq, ht.1]
  exact ⟨rfl, ht.2⟩

/-! ## Triggered stop orders -/

theorem spec_execute_ok {i : OrderInput} {o : Order} (ho : newOrder i = .ok o) :
    (Spec.execute i).run v =
      (.ok (v.executedOrder o, (v.fillFrom o (decide (o.type ≠ .limit))).1), v.executed o) := by
  rw [Spec.execute, run_lift_bind, ho, ← (newOrder_ok.mp ho).type]
  rfl

theorem spec_execute_error {i : OrderInput} {e : JsError} (he : newOrder i = .error e) :
    (Spec.execute i).run v = (.error e, v) := by
  rw [Spec.execute, run_lift_bind, he]

theorem newOrderNode_error {i : OrderInput} {e : JsError} (he : newOrder i = .error e) :
    (newOrderNode i).run b = (.error e, b) := by
  rw [newOrderNode, run_lift_bind, he]

/-- A pending stop order leaves the open quantity. -/
theorem openQuantity_delete {k : JsVal} {s : StopOrder} (hs : v.stops.get? k = some s) :
    { v with stops := v.stops.delete k }.openQuantity + quantityOf s.remainingQuantity =
      v.openQuantity := by
  have h := ((OMap.values_delete_perm hs).map fun s => quantityOf s.remainingQuantity).sum_eq
  rw [List.map_cons, List.sum_cons] at h
  have e : v.openQuantity =
    v.quantity + (v.stops.values.map fun s => quantityOf s.remainingQuantity).sum := rfl
  rw [e, h]
  show v.quantity + ((v.stops.delete k).values.map fun s => quantityOf s.remainingQuantity).sum + _ = _
  omega

theorem View.Ok.delete {k : JsVal} {s : StopOrder} {clock : Clock} (hv : v.Ok)
    (hs : v.stops.get? k = some s) : { v with stops := v.stops.delete k, clock }.Ok where
  symbol := hv.symbol
  separate := fun id hid => by
    have h := hv.separate id hid
    show (v.stops.delete k).get? _ = none
    rw [OMap.get?_delete]
    split
    · rfl
    · exact h
  keyed := fun k' s' hs' => by
    have hs' : (v.stops.delete k).get? k' = some s' := hs'
    rw [OMap.get?_delete] at hs'
    split at hs'
    · cases hs'
    · exact hv.keyed k' s' hs'
  valid := hv.valid
  exact := by
    have := openQuantity_delete hs
    have := quantityOf_nonneg s.remainingQuantity
    have := hv.exact
    show { v with stops := v.stops.delete k }.openQuantity ≤ _
    omega

/-- A stop order that is no longer pending. -/
theorem Rel.delete {k : JsVal} {s : StopOrder} (h : Rel b₀ b v) (clock : Clock)
    (hs : v.stops.get? k = some s) :
    Rel b₀ { b with stopOrdersById := b.stopOrdersById.delete k, clock }
      { v with stops := v.stops.delete k, clock } := by
  obtain ⟨⟨F, hr⟩, hok, hch⟩ := h
  refine ⟨⟨F, hr.scalars rfl (by rw [hr.stops, hr.last, hr.sequence])⟩, hok.delete hs,
    hch.tail (.of_stops rfl rfl rfl fun id s' hs' => ?_)⟩
  have hs' : (b.stopOrdersById.delete k).get? id = some s' := hs'
  rw [OMap.get?_delete] at hs'
  split at hs'
  · cases hs'
  · exact ⟨s', hs', rfl⟩

/-- The order of a triggered stop order executes, or its construction throws. -/
theorem trigger_execute {s : StopOrder} {i : OrderInput} (clock : Clock) (h : Rel b₀ b v)
    (hs : v.stops.get? s.orderId = some s) (hid : i.orderId = s.orderId)
    (hq : i.quantity = s.remainingQuantity) (hsym : i.symbol = v.symbol) {b₁ : OrderBook} {v₁ : View}
    (hb₁ : b₁ = { b with stopOrdersById := b.stopOrdersById.delete s.orderId, clock })
    (hv₁ : v₁ = { v with stops := v.stops.delete s.orderId, clock }) :
    (∃ e, newOrder i = .error e ∧ Rel b₀ b₁ v₁) ∨
    ∃ o b₂ b₃ b₄, newOrder i = .ok o ∧ (newOrderNode i).run b₁ = (.ok b₁.nodes, b₂) ∧
      (matchBySide b₁.nodes (decide (i.type ≠ .limit))).run b₂ =
        (.ok (v₁.fillFrom o (decide (o.type ≠ .limit))).1, b₃) ∧
      (settleNode i.type b₁.nodes).run b₃ = (.ok (), b₄) ∧
      b₄.order b₁.nodes = v₁.executedOrder o ∧ Rel b₀ b₄ (v₁.executed o) ∧
      Carries b b₄ (v₁.fillFrom o (decide (o.type ≠ .limit))).1 := by
  have hrel := h.delete clock hs
  rw [← hb₁, ← hv₁] at hrel
  cases ho : newOrder i with
  | error e => exact .inl ⟨e, rfl, hrel⟩
  | ok o =>
    right
    have hN := newOrder_ok.mp ho
    obtain ⟨⟨F, hr⟩, hok, -⟩ := hrel
    have hkey : s.orderId = .str o.orderId := hid.symm.trans hN.orderId.1
    have hini : quantityOf s.remainingQuantity = o.initialQuantity := by
      rw [← hq, hN.quantity.1, quantityOf, max_eq_left hN.quantity.2.le]
    have hfresh : o.orderId ∉ v.ids := fun hmem => by
      have := h.2.1.separate _ hmem
      rw [← hkey, hs] at this
      cases this
    have hopen : v₁.openQuantity + o.initialQuantity ≤ Num.maxExact := by
      have := openQuantity_delete hs
      have := h.2.1.exact
      rw [hv₁, ← hini]
      show { v with stops := v.stops.delete s.orderId }.openQuantity + _ ≤ _
      omega
    have hsym₁ : i.symbol = v₁.symbol := by rw [hsym, hv₁]
    obtain ⟨b₂, b₃, b₄, F', h₂, h₃, -, h₄, hord, hr₄, hex⟩ :=
      execute_run hr ho hsym₁ (by rw [hv₁]; exact hfresh) hopen
    have hpend : b.stopOrdersById.get? (.str o.orderId) = some s := by
      obtain ⟨⟨F₀, hr₀⟩, -, -⟩ := h
      rw [← hr₀.stops, ← hkey]
      exact hs
    rw [hb₁, hkey] at hex
    refine ⟨o, b₂, b₃, b₄, rfl, h₂, h₃, h₄, hord, ⟨⟨F', hr₄⟩, ?_, ?_⟩, hex.carries hpend⟩
    · refine hok.executed hr.rests hN hsym₁ ?_ hopen
      rw [hv₁, ← hkey]
      exact OMap.get?_delete_self _ _
    · have hb : b₁.nodes = b.nodes := by rw [hb₁]
      have hinit : (b₄.order b₁.nodes).initialQuantity = o.initialQuantity := by
        rw [hord]
        unfold View.executedOrder View.settle
        dsimp only
        split_ifs <;> rfl
      refine h.2.2.tail (.trigger o.orderId s clock
        (v₁.fillFrom o (decide (o.type ≠ .limit))).1 hpend ?_ hex)
      rw [← hb, hinit, ← hq, hN.quantity.1]

theorem executeTriggeredStopOrder_sim {s s' : StopOrder} (h : Rel b₀ b v)
    (hs : v.stops.get? s.orderId = some s) (hs' : s' = { s with status := .triggered }) :
    Sim (fun x y => x = { b with stopOrdersById := b.stopOrdersById.delete s.orderId } ∧
        y = { v with stops := v.stops.delete s.orderId })
      (executeTriggeredStopOrder s') (Spec.executeTriggeredStopOrder s')
      (fun a a' x y => a = a' ∧ (Rel b₀ x y ∧ Carries b x a.2) ∧ y.stops = v.stops.delete s.orderId)
      (Rel b₀) := by
  have hclock : v.clock = b.clock := by obtain ⟨⟨F, hr⟩, -⟩ := h; exact hr.clock
  have hsym : b.symbol = v.symbol := by obtain ⟨⟨F, hr⟩, -⟩ := h; exact hr.symbol.symm
  -- The order is constructed and executed, on both sides, or its construction throws on both.
  have hexec : ∀ type priceTicks,
      Sim (fun x y => x = { b with
            stopOrdersById := b.stopOrdersById.delete s.orderId, clock := b.clock.tail } ∧
          y = { v with stops := v.stops.delete s.orderId, clock := b.clock.tail })
        (do
          let r ← newOrderNode (triggeredInput b.symbol s' type priceTicks (b.clock 0))
          let trades ← matchBySide r (decide (type ≠ .limit))
          settleNode type r
          let b ← get
          return (b.order r, trades))
        (Spec.execute (triggeredInput v.symbol s' type priceTicks (b.clock 0)))
        (fun a a' x y => a = a' ∧ (Rel b₀ x y ∧ Carries b x a.2) ∧ y.stops = v.stops.delete s.orderId)
        (Rel b₀) := by
    intro type priceTicks
    rw [hs']
    rcases trigger_execute (i := triggeredInput b.symbol { s with status := .triggered } type priceTicks
      (b.clock 0)) b.clock.tail h hs rfl rfl hsym rfl rfl with
      ⟨e, he, hrel⟩ | ⟨o, b₂, b₃, b₄, ho, h₂, h₃, h₄, hord, hrel, hcarry⟩
    · exact Sim.of_error (run_bind_error (newOrderNode_error he))
        (spec_execute_error (by rw [← hsym]; exact he)) hrel
    · refine Sim.left h₂ (Sim.left h₃ (Sim.left h₄ ?_))
      refine Sim.of_ok rfl (spec_execute_ok (by rw [← hsym]; exact ho)) ⟨?_, ⟨hrel, hcarry⟩, rfl⟩
      rw [← hord]
  unfold executeTriggeredStopOrder Spec.executeTriggeredStopOrder
  refine Sim.left rfl (Sim.right rfl ?_)
  dsimp only
  by_cases ht : s'.type = .stopMarket ∨ s'.type = .trailingStopMarket
  · rw [if_pos ht, if_pos ht]
    refine Sim.left (show now.run _ = (.ok (b.clock 0), _) from rfl)
      (Sim.right (show Spec.now.run _ = (.ok (v.clock 0), _) from rfl) ?_)
    rw [hclock]
    exact hexec .market .null
  · rw [if_neg ht, if_neg ht]
    by_cases hl : s'.type = .stopLimit
    · rw [if_pos hl, if_pos hl]
      refine Sim.left (show now.run _ = (.ok (b.clock 0), _) from rfl)
        (Sim.right (show Spec.now.run _ = (.ok (v.clock 0), _) from rfl) ?_)
      rw [hclock]
      exact hexec .limit s'.priceTicks
    · rw [if_neg hl, if_neg hl]
      have hdel := h.delete b.clock hs
      refine Sim.of_error rfl rfl ?_
      rw [← hclock] at hdel
      have e : ({ b with stopOrdersById := b.stopOrdersById.delete s.orderId } : OrderBook) =
        { b with stopOrdersById := b.stopOrdersById.delete s.orderId, clock := v.clock } := by
        rw [hclock]
      rw [e]
      exact hdel

/-- The stop orders of `ss` are pending, each once. -/
def Pending (v : View) (ss : List StopOrder) : Prop :=
  (ss.map (·.orderId)).Nodup ∧ ∀ s ∈ ss, v.stops.get? s.orderId = some s

theorem triggerAll_sim {c : OrderBook} {us : List Trade} (ss : List StopOrder) :
    Sim (fun b v => Rel b₀ b v ∧ Pending v ss ∧ Carries c b us) (triggerAll ss) (Spec.triggerAll ss)
      (fun a a' b v => a = a' ∧ Rel b₀ b v ∧ Carries c b (us ++ a.trades)) (Rel b₀) := by
  induction ss generalizing us with
  | nil =>
    refine Sim.pure fun _ _ h => ⟨rfl, h.1, ?_⟩
    rw [Triggered.none, List.append_nil]
    exact h.2.2
  | cons s ss ih =>
    refine Sim.of_at ?_
    rintro b v ⟨h, ⟨hnd, hp⟩, hcarry⟩
    unfold triggerAll Spec.triggerAll
    refine Sim.left rfl (Sim.right rfl ?_)
    have hs := hp s List.mem_cons_self
    refine (executeTriggeredStopOrder_sim h hs rfl).bind fun ⟨o, ts⟩ ⟨o', ts'⟩ => ?_
    refine Sim.of_at ?_
    rintro b₁ v₁ ⟨he, ⟨h₁, hcarry₁⟩, hstops⟩
    cases he
    rw [List.map_cons, List.nodup_cons] at hnd
    have hp₁ : Pending v₁ ss := ⟨hnd.2, fun x hx => by
      rw [hstops, OMap.get?_delete_ne _ (ne_of_mem_of_not_mem
        (List.mem_map_of_mem (f := fun s : StopOrder => s.orderId) hx) hnd.1)]
      exact hp x (List.mem_cons_of_mem _ hx)⟩
    refine (ih.at ⟨h₁, hp₁, hcarry.trans hcarry₁⟩).bind fun r r' => ?_
    refine Sim.pure fun b₂ v₂ h₂ => ⟨by rw [h₂.1], h₂.2.1, ?_⟩
    have hcarry₂ := h₂.2.2
    rw [List.append_assoc] at hcarry₂
    exact hcarry₂

theorem trail_same (last : Int) (s : StopOrder) : (trail last s).orderId = s.orderId ∧
    (trail last s).remainingQuantity = s.remainingQuantity := by
  unfold trail
  split_ifs <;> exact ⟨rfl, rfl⟩

/-- The pending trailing stop orders follow the last trade. -/
theorem Rel.trail (h : Rel b₀ b v) (last : Int) :
    Rel b₀ { b with stopOrdersById := b.stopOrdersById.mapValues (trail last) }
      { v with stops := v.stops.mapValues (trail last) } := by
  obtain ⟨⟨F, hr⟩, hok, hch⟩ := h
  refine ⟨⟨F, hr.scalars rfl ?_⟩, ⟨hok.symbol, fun id hid => ?_, fun k s hs => ?_, hok.valid, ?_⟩,
    hch.tail (.of_stops rfl rfl rfl fun id s' hs' => ?_)⟩
  · simp only [hr.stops, hr.last, hr.sequence, hr.clock]
  · show (v.stops.mapValues _).get? _ = none
    rw [OMap.get?_mapValues, hok.separate id hid]
    rfl
  · rw [OMap.get?_mapValues, Option.map_eq_some_iff] at hs
    obtain ⟨s₀, hs₀, rfl⟩ := hs
    exact (trail_same _ _).1.trans (hok.keyed k s₀ hs₀)
  · have e : ({ v with stops := v.stops.mapValues (Node.trail last) } : View).openQuantity =
        v.openQuantity := by
      unfold View.openQuantity
      rw [OMap.values_mapValues, List.map_map]
      congr 2
      exact List.map_congr_left fun s _ => by rw [Function.comp_apply, (trail_same _ _).2]
    rw [e]
    exact hok.exact
  · have hs' : (b.stopOrdersById.mapValues (Node.trail last)).get? id = some s' := hs'
    rw [OMap.get?_mapValues, Option.map_eq_some_iff] at hs'
    obtain ⟨s₀, hs₀, rfl⟩ := hs'
    exact ⟨s₀, hs₀, (trail_same _ _).2⟩

/-- The relation of `Rel` in a cascade that started in `c` and has made the trades `us`. -/
def Going (b₀ c : OrderBook) (us : List Trade) (b : OrderBook) (v : View) : Prop :=
  Rel b₀ b v ∧ Carries c b us

theorem updateTrailingStopOrders_sim {c : OrderBook} {us : List Trade} :
    Sim (Going b₀ c us) updateTrailingStopOrders Spec.updateTrailingStopOrders
      (fun _ _ b v => Going b₀ c us b v) (Rel b₀) := by
  unfold updateTrailingStopOrders Spec.updateTrailingStopOrders
  refine Sim.get fun b v h => ?_
  have hl : v.lastTradePriceTicks = b.lastTradePriceTicks := by
    obtain ⟨⟨⟨F, hr⟩, -⟩, -⟩ := h
    exact hr.last
  rw [hl]
  cases b.lastTradePriceTicks with
  | none => exact (Sim.pure (Q := fun _ _ b v => Going b₀ c us b v) fun _ _ h => h).at h
  | some last =>
    refine Sim.modify ?_
    rintro _ _ ⟨rfl, rfl⟩
    refine ⟨h.1.trail last, h.2.frame rfl rfl fun id hid => ?_⟩
    rw [OMap.get?_mapValues, hid]
    rfl

/-- The eligible stop orders are among the pending ones. -/
theorem eligibleOf_sublist {last : Int} {L es : List StopOrder} (h : eligibleOf last L = .ok es) :
    es.Sublist L := by
  induction L generalizing es with
  | nil => cases h; exact List.Sublist.refl _
  | cons s L ih =>
    obtain ⟨e, -, h⟩ := except_bind_ok.mp h
    obtain ⟨es', hes, h⟩ := except_bind_ok.mp h
    cases h
    cases e with
    | true => exact (ih hes).cons_cons s
    | false => exact (ih hes).cons s

theorem View.Ok.pending (hv : v.Ok) {es : List StopOrder} (h : es.Sublist v.stops.values) :
    Pending v es := by
  have hk : v.stops.values.map (·.orderId) = v.stops.keys := by
    unfold OMap.values OMap.keys
    rw [List.map_map]
    exact List.map_congr_left fun e he => hv.keyed e.1 e.2 (OMap.mem_entries.mp he)
  refine ⟨(h.map _).nodup (hk ▸ v.stops.keys_nodup), fun s hs => ?_⟩
  obtain ⟨k, hk⟩ := OMap.mem_values.mp (h.subset hs)
  rw [hv.keyed k s hk]
  exact hk

theorem getEligibleStopOrders_sim {c : OrderBook} {us : List Trade} :
    Sim (Going b₀ c us) getEligibleStopOrders Spec.getEligibleStopOrders
      (fun a a' b v => a = a' ∧ Rel b₀ b v ∧ Pending v a ∧ Carries c b us) (Rel b₀) := by
  unfold getEligibleStopOrders Spec.getEligibleStopOrders
  refine Sim.get fun b v ⟨h, hcarry⟩ => ?_
  obtain ⟨⟨F, hr⟩, hok, -⟩ := id h
  rw [← hr.last, ← hr.stops]
  cases v.lastTradePriceTicks with
  | none =>
    refine Sim.pure ?_
    rintro _ _ ⟨rfl, rfl⟩
    exact ⟨rfl, h, hok.pending (List.nil_sublist _), hcarry⟩
  | some last =>
    refine Sim.lift ?_ ?_
    · rintro _ _ ⟨rfl, rfl⟩
      exact h
    · rintro es _ _ hes ⟨rfl, rfl⟩
      exact ⟨rfl, h, hok.pending (eligibleOf_sublist hes), hcarry⟩

theorem none_sim {c : OrderBook} {us : List Trade} :
    Sim (Going b₀ c us) (pure Triggered.none : Program Triggered)
      (pure Triggered.none : SpecProgram Triggered)
      (fun a a' b v => a = a' ∧ Going b₀ c (us ++ a.trades) b v) (Rel b₀) := by
  refine Sim.pure fun _ _ h => ⟨rfl, ?_⟩
  rw [Triggered.none, List.append_nil]
  exact h

theorem cascade_sim {c : OrderBook} {us : List Trade} (cycles : Nat) (ts : List Trade) :
    Sim (Going b₀ c us) (cascade cycles ts) (Spec.cascade cycles ts)
      (fun a a' b v => a = a' ∧ Going b₀ c (us ++ a.trades) b v) (Rel b₀) := by
  induction cycles generalizing ts us with
  | zero =>
    unfold cascade Spec.cascade
    cases ts.getLast? with
    | none => exact none_sim
    | some t => exact Sim.throw fun _ _ h => h.1
  | succ cycles ih =>
    unfold cascade Spec.cascade
    cases ts.getLast? with
    | none => exact none_sim
    | some t =>
      refine Sim.bind (Q := fun _ _ b v => Going b₀ c us b v) (Sim.modify ?_) fun _ _ => ?_
      · rintro b v ⟨h, hcarry⟩
        obtain ⟨⟨F, hr⟩, -⟩ := id h
        exact ⟨h.scalars rfl (by simp only [hr.sequence, hr.clock]), hcarry.frame rfl rfl fun _ h => h⟩
      refine updateTrailingStopOrders_sim.bind fun _ _ => getEligibleStopOrders_sim.bind fun es es' => ?_
      refine Sim.of_at ?_
      rintro b v ⟨rfl, h, hp, hcarry⟩
      by_cases hnil : es = []
      · rw [if_pos hnil, if_pos hnil]
        exact none_sim.at ⟨h, hcarry⟩
      · rw [if_neg hnil, if_neg hnil]
        refine ((triggerAll_sim es).at ⟨h, hp, hcarry⟩).bind fun r r' => ?_
        refine Sim.of_at ?_
        rintro b₁ v₁ ⟨rfl, h₁⟩
        refine ((ih r.trades).at h₁).bind fun s s' => ?_
        refine Sim.pure fun b₂ v₂ h₂ => ⟨by rw [h₂.1], ?_⟩
        have hgoing := h₂.2
        rw [List.append_assoc] at hgoing
        exact hgoing

end

end Lob.Node
