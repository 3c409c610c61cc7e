import LobEngine.Go.Refinement

/-!
# The calls of the Go engine

`call_refines`: a call from a book that represents a view returns what its specification returns, and
the book represents the view of the specification again.
-/

namespace Lob.Go

open Exc Book

section

variable {b : Book} {v : View}

/-- The event of the book, with its snapshot and the reading of the clock. -/
theorem bookUpdatedEvent_run (h : Good b v) :
    bookUpdatedEvent.run b = (.ok (.bookUpdated none v.snapshot (v.clock 0)),
        { b with now := v.clock.tail }) ∧
      Spec.bookUpdatedEvent.run v = (.ok (.bookUpdated none v.snapshot (v.clock 0)),
        { v with clock := v.clock.tail }) ∧
      Good { b with now := v.clock.tail } { v with clock := v.clock.tail } := by
  obtain ⟨⟨F, hr⟩, -⟩ := id h
  refine ⟨?_, rfl, h.scalars rfl (by simp only [hr.last, hr.sequence])⟩
  rw [← hr.snapshot_eq, hr.clock]
  rfl

theorem stamp_run (h : Good b v) (es : List EventBody) :
    (stamp es).run b = (.ok (stampFrom v.symbol v.sequence es),
        { b with sequence := v.sequence + es.length }) ∧
      Good { b with sequence := v.sequence + es.length }
        { v with sequence := v.sequence + es.length } := by
  obtain ⟨⟨F, hr⟩, -⟩ := id h
  refine ⟨?_, h.scalars rfl (by simp only [hr.last, hr.clock])⟩
  rw [hr.symbol, hr.sequence]
  rfl

/-- A call that ends with an event of the book: it is stamped with the events before and after it. -/
theorem publish_sim {events : EventBody → List EventBody} {f : Book → List Event → Result}
    {f' : List Event → Result} (h : Good b v)
    (hres : ∀ now sequence es, f { b with now, sequence } es = f' es) :
    Sim (fun x y => x = b ∧ y = v)
      (do
        let updated ← bookUpdatedEvent
        let es ← stamp (events updated)
        let b ← get
        return f b es)
      (do
        let updated ← Spec.bookUpdatedEvent
        let es ← Spec.stamp (events updated)
        return f' es)
      (fun a a' x y => a = a' ∧ Good x y) Good := by
  obtain ⟨hb, hv, h₁⟩ := bookUpdatedEvent_run h
  obtain ⟨hs, h₂⟩ := stamp_run h₁ (events (.bookUpdated none v.snapshot (v.clock 0)))
  exact Sim.left hb (Sim.right hv (Sim.left hs (Sim.left rfl (Sim.right rfl
    (Sim.of_ok rfl rfl ⟨hres _ _ _, h₂⟩)))))

theorem assertAvailable_sim {α α' : Type} {orderId : String} {f : Unit → Program α}
    {f' : Unit → SpecProgram α'} {Q : α → α' → Book → View → Prop} (h : Good b v)
    (hf : orderId ∉ v.ids → v.stops.get? orderId = none → Sim (fun x y => x = b ∧ y = v) (f ()) (f' ()) Q Good) :
    Sim (fun x y => x = b ∧ y = v) (assertAvailable orderId >>= f) (Spec.assertAvailable orderId >>= f') Q Good := by
  obtain ⟨⟨F, hr⟩, -⟩ := id h
  by_cases hid : v.hasId orderId
  · refine Sim.of_error (run_bind_error ?_) (run_bind_error (Spec.assertAvailable_taken hid)) h
    rw [assertAvailable, run_get_bind, if_pos ((hr.has_iff orderId).mpr hid), run_throw]
  · have hf := hf (fun hc => hid (.inl hc)) (OMap.get?_eq_none.mpr fun hc => hid (.inr hc))
    refine Sim.left (a := ()) (t := b) ?_ (Sim.right (Spec.assertAvailable_free hid) hf)
    rw [assertAvailable, run_get_bind, if_neg fun hc => hid ((hr.has_iff orderId).mp hc), run_pure]

/-! ## Orders -/

theorem execute_sim_error {α α' : Type} {typ : OrderType} {i : OrderInput} {e : GoError}
    {f : Ref → Program α} {f' : Order → SpecProgram α'} {Q : α → α' → Book → View → Prop} (h : Good b v)
    (he : newOrder b.symbol typ i false = .error e) :
    Sim (fun x y => x = b ∧ y = v) (allocate b.symbol typ i false >>= f)
      (Exc.lift (newOrder b.symbol typ i false) >>= f') Q Good :=
  Sim.of_error (run_bind_error (allocate_error he)) (by rw [run_lift_bind, he]) h

theorem placeLimit_sim (input : OrderInput) (h : Good b v) :
    Sim (fun x y => x = b ∧ y = v) (placeLimit input) (Spec.placeLimit input)
      (fun a a' x y => a = a' ∧ Good x y) Good := by
  refine assertAvailable_sim h fun hid hp => Sim.left rfl (Sim.right rfl ?_)
  rw [h.symbol]
  cases ho : newOrder b.symbol .limit input false with
  | error e => exact ho ▸ execute_sim_error h ho
  | ok o =>
    obtain ⟨⟨F, hr⟩, hok⟩ := id h
    have hN := newOrder_ok.mp ho
    rw [← hN.orderId.1] at hid hp
    obtain ⟨b₁, b₂, b₃, F₃, h₁, h₂, hord₂, h₃, hrepr, hex⟩ := execute_run hr ho hid hp
    have hrel : Rel b.next (v.execute o).2.1 b₃ (v.executed o) :=
      ⟨⟨⟨F₃, hrepr⟩, hok.executed hp⟩, hex.new⟩
    have hlimit : (v.execute o).2.1 = b₂.order b.next := by rw [hord₂, Depth.execute_limit hN.type]
    have hact : (b₂.order b.next).isActive = true ∧ 0 < (b₂.order b.next).remainingQuantity ↔
        0 < (v.execute o).2.1.remainingQuantity := by
      rw [hlimit, hord₂]
      refine ⟨fun h => h.2, fun h => ⟨Order.filledBy_isActive ?_ h, h⟩⟩
      simp [Order.isActive, hN.status]
    refine Sim.left h₁ (Sim.left h₂ (Sim.left rfl (Sim.left h₃ (Sim.right rfl (Sim.right rfl ?_)))))
    simp only [hact]
    rw [← hlimit]
    refine ((cascade_sim maxCycles _ _).at hrel).bind fun t t' => Sim.of_at ?_
    rintro b₄ v₄ ⟨rfl, -, h₄⟩
    refine publish_sim h₄.1 fun _ _ _ => ?_
    rw [show ({ b₄ with now := _, sequence := _ } : Book).order b.next = _ from h₄.2.order]
    rfl

theorem placeMarket_sim (input : OrderInput) (h : Good b v) :
    Sim (fun x y => x = b ∧ y = v) (placeMarket input) (Spec.placeMarket input)
      (fun a a' x y => a = a' ∧ Good x y) Good := by
  refine assertAvailable_sim h fun hid hp => Sim.left rfl (Sim.right rfl ?_)
  rw [h.symbol]
  cases ho : newOrder b.symbol .market input false with
  | error e => exact ho ▸ execute_sim_error h ho
  | ok o =>
    obtain ⟨⟨F, hr⟩, hok⟩ := id h
    rw [← (newOrder_ok.mp ho).orderId.1] at hid hp
    obtain ⟨b₁, b₂, b₃, F₃, h₁, h₂, -, h₃, hrepr, hex⟩ := execute_run hr ho hid hp
    have hrel : Rel b.next (v.execute o).2.1 b₃ (v.executed o) :=
      ⟨⟨⟨F₃, hrepr⟩, hok.executed hp⟩, hex.new⟩
    refine Sim.left h₁ (Sim.left h₂ (Sim.left h₃ (Sim.left rfl (Sim.right rfl (Sim.right rfl ?_)))))
    rw [hex.new.order]
    refine ((cascade_sim maxCycles _ _).at hrel).bind fun t t' => Sim.of_at ?_
    rintro b₄ v₄ ⟨rfl, -, h₄⟩
    refine publish_sim h₄.1 fun _ _ _ => ?_
    rw [show ({ b₄ with now := _, sequence := _ } : Book).order b.next = _ from h₄.2.order]
    rfl

/-! ## Stop orders -/

/-- What `newStop` checks, and the stop order it builds. -/
structure NewStop (symbol : String) (typ : OrderType) (i : OrderInput) (peak valley : Option Int)
    (s : StopOrder) : Prop where
  orderId : s.orderId = i.orderId ∧ i.orderId ≠ ""
  userId : s.userId = i.userId ∧ i.userId ≠ ""
  symbol : s.symbol = symbol
  side : sideOf i.side = some s.side
  type : s.type = typ
  trigger : i.triggerPriceTicks = some s.triggerPriceTicks
  priceTicks : s.priceTicks = i.priceTicks
  trailing : s.trailingAmountTicks = i.trailingAmountTicks
  extrema : s.peakPriceTicks = peak ∧ s.valleyPriceTicks = valley
  quantity : s.quantity = i.quantity ∧ s.remainingQuantity = i.quantity ∧ 0 < i.quantity
  limit : typ = .stopLimit → ∃ p, i.priceTicks = some p ∧ 0 < p
  status : s.status = .opened
  timestamp : s.timestamp = i.timestamp

theorem newStop_ok {symbol : String} {typ : OrderType} {i : OrderInput} {peak valley : Option Int}
    {s : StopOrder} : newStop symbol typ i peak valley = .ok s ↔ NewStop symbol typ i peak valley s := by
  unfold newStop
  constructor
  · intro h
    cases hside : sideOf i.side with
    | none => rw [hside] at h; split_ifs at h
    | some side =>
      cases ht : i.triggerPriceTicks with
      | none => rw [hside, ht] at h; split_ifs at h
      | some t =>
        rw [hside, ht] at h
        dsimp only at h
        split_ifs at h with h₁ h₂ h₃ h₄
        cases h
        refine ⟨⟨rfl, h₁⟩, ⟨rfl, h₂⟩, rfl, hside, rfl, ht, rfl, rfl, ⟨rfl, rfl⟩, ⟨rfl, rfl, by omega⟩,
          fun ht => ?_, rfl, rfl⟩
        exact by_contra fun hp => h₄ ⟨ht, all_nonpos.mpr hp⟩
  · intro h
    rw [if_neg h.orderId.2, if_neg h.userId.2, h.side, h.trigger]
    have hq := h.quantity.2.2
    dsimp only
    rw [if_neg (by omega), if_neg fun hc => all_nonpos.mp hc.2 (h.limit hc.1)]
    congr 1
    rw [← h.orderId.1, ← h.userId.1, ← h.symbol, ← h.type, ← h.priceTicks, ← h.trailing, ← h.extrema.1,
      ← h.extrema.2, ← h.timestamp]
    cases s
    simp only [StopOrder.mk.injEq, true_and, and_true]
    exact ⟨h.quantity.1.symm, h.quantity.2.1.symm, h.status.symm⟩

theorem placeStopWithExtrema_sim (input : OrderInput) (typ : OrderType) (peak valley : Option Int)
    (h : Good b v)
    (ht : typ = .trailingStopMarket → ∃ a, input.trailingAmountTicks = some a) :
    Sim (fun x y => x = b ∧ y = v) (placeStopWithExtrema input typ peak valley)
      (Spec.placeStopWithExtrema input typ peak valley) (fun a a' x y => a = a' ∧ Good x y) Good := by
  refine assertAvailable_sim h fun hid hp => Sim.left rfl (Sim.right rfl ?_)
  rw [h.symbol]
  cases hs : newStop b.symbol typ input peak valley with
  | error e => exact Sim.of_error (by rw [run_lift_bind]) (by rw [run_lift_bind]) h
  | ok s =>
    obtain ⟨⟨F, hr⟩, hok⟩ := id h
    have hN := newStop_ok.mp hs
    rw [← hN.orderId.1] at hid hp
    have hnew : b.stopOrders.get? s.orderId = none := hr.stops ▸ hp
    have h₁ : Good { b with
          stopOrders := b.stopOrders.set s.orderId s
          stopOrderIDs := b.stopOrderIDs ++ [s.orderId] }
        { v with stops := v.stops.set s.orderId s } := by
      refine h.stops rfl ?_ ?_ (fun id hid' => ?_) fun k s' hk => ?_
      · simp only [hr.stops, hr.last, hr.sequence, hr.clock]
      · show b.stopOrderIDs ++ _ = (b.stopOrders.set _ _).keys
        rw [hr.stopIDs, OMap.keys, OMap.keys, OMap.entries_set_new s hnew, List.map_append]
        rfl
      · show (b.stopOrders.set s.orderId s).get? id = none
        rw [OMap.get?_set_ne _ _ (ne_of_mem_of_not_mem hid' hid), ← hr.stops]
        exact hok.separate id hid'
      · have hk : (b.stopOrders.set s.orderId s).get? k = some s' := hk
        rw [OMap.get?_set] at hk
        split at hk
        · next e =>
          cases hk
          exact ⟨e.symm, fun hty => by rw [hN.trailing]; exact ht (hN.type ▸ hty)⟩
        · rw [← hr.stops] at hk
          exact ⟨hok.keyed k s' hk, hok.trailing k s' hk⟩
    refine Sim.left (a := s) (t := b) rfl (Sim.right (a := s) (w := v) rfl (Sim.left rfl (Sim.right rfl ?_)))
    exact publish_sim (f := fun _ es => ⟨.stop s, [], [], es⟩) h₁ fun _ _ _ => rfl

theorem newTrailing_ok {last : Option Int} {input i : OrderInput} {peak valley : Option Int}
    (h : newTrailing last input = .ok (i, peak, valley)) : ∃ a, i.trailingAmountTicks = some a := by
  unfold newTrailing at h
  split at h
  · cases h
  · split at h
    · cases h
    · next amount ha =>
      split_ifs at h
      split at h
      · cases h
      · cases h; exact ⟨amount, ha⟩
      · cases h; exact ⟨amount, ha⟩

theorem placeTrailingStopMarket_sim (input : OrderInput) (h : Good b v) :
    Sim (fun x y => x = b ∧ y = v) (placeTrailingStopMarket input)
      (Spec.placeTrailingStopMarket input) (fun a a' x y => a = a' ∧ Good x y) Good := by
  have hl : v.lastTradePriceTicks = b.lastTradePriceTicks := by
    obtain ⟨⟨F, hr⟩, -⟩ := h
    exact hr.last
  refine Sim.left rfl (Sim.right rfl ?_)
  rw [hl]
  cases hn : newTrailing b.lastTradePriceTicks input with
  | error e => exact Sim.of_error (by rw [run_lift_bind]) (by rw [run_lift_bind]) h
  | ok x =>
    obtain ⟨i, peak, valley⟩ := x
    refine Sim.left (a := (i, peak, valley)) (t := b) rfl (Sim.right (a := (i, peak, valley)) (w := v) rfl ?_)
    exact placeStopWithExtrema_sim i _ peak valley h fun _ => newTrailing_ok hn

/-! ## Cancels -/

theorem cancelStop_sim (orderId : String) (s : StopOrder) (h : Good b v) :
    Sim (fun x y => x = b ∧ y = v) (cancelStop orderId s) (Spec.cancelStop orderId s)
      (fun a a' x y => a = a' ∧ Good x y) Good := by
  obtain ⟨hb, hv, h₁⟩ := bookUpdatedEvent_run (h.delete orderId)
  exact Sim.left rfl (Sim.right rfl (Sim.left hb (Sim.right hv (Sim.of_ok rfl rfl ⟨rfl, h₁⟩))))

/-- The index finds the order that the view has under an id. -/
theorem Repr.find? {F : Side → List Ref} (h : Repr b F v) (key : String) :
    v.orders.find? (fun o => decide (o.orderId = key)) = (b.orders.get? key).map b.order := by
  cases hr : b.orders.get? key with
  | none =>
    rw [Option.map_none, List.find?_eq_none]
    intro o ho hid
    obtain ⟨s, r, hrs, rfl⟩ := h.mem_orders.mp ho
    rw [(h.index key r).mpr ⟨⟨s, hrs⟩, of_decide_eq_true hid⟩] at hr
    cases hr
  | some r =>
    obtain ⟨⟨s, hs⟩, hid⟩ := (h.index key r).mp hr
    have hsome := List.find?_isSome (p := fun o => decide (o.orderId = key)) |>.mpr
      ⟨_, h.mem_orders.mpr ⟨s, r, hs, rfl⟩, by simpa using hid⟩
    obtain ⟨o, ho⟩ := Option.isSome_iff_exists.mp hsome
    rw [ho, Option.map_some]
    obtain ⟨s', r', hr', rfl⟩ := h.mem_orders.mp (List.mem_of_find?_eq_some ho)
    have hkey : (b.order r').orderId = key := by simpa using List.find?_some ho
    rw [h.inj hr' hs (hkey.trans hid.symm)]

theorem cancelResting_sim {orderId : String} {r : Ref} (h : Good b v)
    (hid : b.orders.get? orderId = some r) :
    Sim (fun x y => x = b ∧ y = v) (cancelResting orderId r) (Spec.cancelResting (b.order r))
      (fun a a' x y => a = a' ∧ Good x y) Good := by
  obtain ⟨⟨F, hr⟩, hok⟩ := id h
  obtain ⟨⟨s, hs⟩, rfl⟩ := (hr.index orderId r).mp hid
  have hrest := (hr.rests s r hs).2
  obtain ⟨p, hp, -⟩ := hrest.price
  have hprice : priceOf b.order r = p := by rw [priceOf, Order.price, hp]; rfl
  obtain ⟨A, B, hF⟩ := List.append_of_mem hs
  obtain ⟨l, hl, -⟩ := (hr.levels s).level hs
  have hc : discard cancel (b.order r) = { b.order r with status := .cancelled } := by
    unfold discard cancel
    rw [if_neg (by simp [hrest.isActive])]
  set order := Function.update b.order r (discard cancel (b.order r)) with ho
  have hself : order r = { b.order r with status := .cancelled } :=
    (Function.update_self _ _ _).trans hc
  have herase := hr.erase order hF hl (fun x hx => Function.update_of_ne hx _ _) b.trades
  have hL : v.side s = A.map b.order ++ b.order r :: B.map b.order := by
    rw [hr.orders, hF, List.map_append, List.map_cons]
  rw [List.map_append, ← Depth.remove_eq hr.ids hL, hprice] at herase
  have h₁ : Good (({ b with order, orders := b.orders.delete (b.order r).orderId }).setSide s
      (putLevel (b.side s) p (l.remove b.order r))) { v with toDepth := v.remove (b.order r).orderId } := by
    refine ⟨⟨Function.update F s (A ++ B), ?_⟩, hok.symbol,
      fun id hid => hok.separate id ((Depth.remove_ids _).subset hid), hok.keyed, hok.trailing⟩
    rw [hr.trades]
    exact herase
  have hord₁ : (({ b with order, orders := b.orders.delete (b.order r).orderId } : Book).setSide s
      (putLevel (b.side s) p (l.remove b.order r))).order r = { b.order r with status := .cancelled } := by
    rw [setSide_order]
    exact hself
  rw [hprice] at hl
  unfold cancelResting
  refine Sim.left rfl ?_
  dsimp only
  rw [if_neg (by simp [hrest.isActive]), hrest.side, hp]
  refine Sim.left (a := p) (t := b) rfl ?_
  rw [hl]
  dsimp only
  refine Sim.left rfl (Sim.left rfl (Sim.left (t := _) (a := ()) (show Exc.run _ _ = (Except.ok (),
    ({ b with order, orders := b.orders.delete (b.order r).orderId } : Book).setSide s
      (putLevel (b.side s) p (l.remove b.order r))) from by cases s <;> rfl) ?_))
  unfold Spec.cancelResting
  refine Sim.left rfl (Sim.right rfl ?_)
  rw [hord₁]
  obtain ⟨hb, hv, h₂⟩ := bookUpdatedEvent_run h₁
  refine Sim.left hb (Sim.right hv ?_)
  obtain ⟨hst, h₃⟩ := stamp_run h₂ [orderCancelledEvent { b.order r with status := .cancelled },
    .bookUpdated none _ _]
  exact Sim.left hst (Sim.right rfl (Sim.of_ok rfl rfl ⟨rfl, h₃⟩))

theorem cancelOrder_sim (orderId : String) (h : Good b v) :
    Sim (fun x y => x = b ∧ y = v) (cancelOrder orderId) (Spec.cancelOrder orderId)
      (fun a a' x y => a = a' ∧ Good x y) Good := by
  obtain ⟨⟨F, hr⟩, -⟩ := id h
  unfold cancelOrder Spec.cancelOrder
  refine Sim.left rfl (Sim.right rfl ?_)
  rw [hr.find?, ← hr.stops]
  cases hs : v.stops.get? orderId with
  | some s => exact cancelStop_sim orderId s h
  | none =>
    cases hid : b.orders.get? orderId with
    | none => exact Sim.of_error rfl rfl h
    | some r => exact cancelResting_sim h hid

/-! ## All calls -/

theorem program_sim (c : Call) (h : Good b v) :
    Sim (fun x y => x = b ∧ y = v) c.program (Spec.program c) (fun a a' x y => a = a' ∧ Good x y) Good := by
  cases c with
  | placeLimit input => exact placeLimit_sim input h
  | placeMarket input => exact placeMarket_sim input h
  | placeStopMarket input =>
    exact placeStopWithExtrema_sim input _ _ _ h fun ht => by cases ht
  | placeStopLimit input =>
    exact placeStopWithExtrema_sim input _ _ _ h fun ht => by cases ht
  | placeTrailingStopMarket input => exact placeTrailingStopMarket_sim input h
  | cancel orderId => exact cancelOrder_sim orderId h

/-- A call and its specification: the same outcome, and the book represents the view again. -/
theorem call_refines (c : Call) (h : Good b v) :
    (call b c).1 = ((Spec.program c).run v).1 ∧ Good (call b c).2 ((Spec.program c).run v).2 := by
  have hsim := program_sim c h b v ⟨rfl, rfl⟩
  unfold call
  rcases hm : c.program.run b with ⟨_ | r, b'⟩ <;>
    rcases hm' : (Spec.program c).run v with ⟨_ | o, v'⟩ <;> rw [hm, hm'] at hsim
  · exact ⟨congrArg Except.error hsim.1, hsim.2⟩
  · exact hsim.elim
  · exact hsim.elim
  · exact ⟨congrArg Except.ok hsim.1, hsim.2⟩

end

end Lob.Go
