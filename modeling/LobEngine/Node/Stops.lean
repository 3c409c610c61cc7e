import LobEngine.Node.Atomic

/-!
# Executing what was accepted

The methods that place a stop order check its id only, and a trailing amount. The other fields are
checked when the stop order is triggered, as those of a new order.

* `StopOrder.Fits`: the fields of the stop order are those of a valid order.
* `FitRun.fit`: every stop order that is pending in a run that accepted only such stop orders fits.
* `executeTriggered_ok`: a pending stop order that fits is executed without an error.
* `cascade_error`: a cascade of such stop orders errs only at its limit.
* `FitRun.stopsExecute`: the same about every pending stop order and every call of such a run.
-/

namespace Lob.Node

open Exc OrderBook

/-- The fields of the stop order are valid, and its trigger price can be compared with a number. -/
structure StopOrder.Fits (s : StopOrder) : Prop where
  orderId : ∃ id, s.orderId = .str id ∧ isBlank id = false
  userId : ∃ id, s.userId = .str id ∧ isBlank id = false
  side : ∃ t, s.side = .str (sideText t)
  remaining : ∃ q, s.remainingQuantity = .num (.int q) ∧ 0 < q
  limit : s.type = .stopLimit → ∃ p, s.priceTicks = .num (.int p) ∧ 0 < p
  type : s.type = .stopMarket ∨ s.type = .trailingStopMarket ∨ s.type = .stopLimit
  trigger : s.triggerPriceTicks.toNumber ≠ none

/-- Every pending stop order fits. -/
def Fit (m : OMap JsVal StopOrder) : Prop := ∀ s ∈ m.values, s.Fits

/-- Runs with exact numbers whose accepted stop orders fit. -/
inductive FitRun : OrderBook → Prop
  | new (symbol : String) (clock : Clock) (valid : isBlank symbol = false) :
    FitRun (OrderBook.new symbol clock)
  | call {b : OrderBook} (c : Call) (h : FitRun b) (exact : Exact b c)
    (fits : (Node.call b c).1.isOk = true → ∀ s, b.stopOf c = some s → s.Fits) : FitRun (Node.call b c).2
  | restore {b : OrderBook} (h : FitRun b) (id : Option String) (clock : Clock) :
    FitRun (fromRecoverySnapshot (b.toRecoverySnapshot id) clock).2

section

variable {b : OrderBook} {v : View} {s : StopOrder}

theorem StopOrder.Fits.trail (h : s.Fits) (last : Int) : (Node.trail last s).Fits := by
  unfold Node.trail
  split
  · exact h
  split
  · exact ⟨h.orderId, h.userId, h.side, h.remaining, h.limit, h.type, by simp [JsVal.toNumber]⟩
  split
  · exact ⟨h.orderId, h.userId, h.side, h.remaining, h.limit, h.type, by simp [JsVal.toNumber]⟩
  · exact h

theorem fit_dwindling : Dwindling Fit where
  trail := fun m last h s hs => by
    rw [OMap.values_mapValues] at hs
    obtain ⟨t, ht, rfl⟩ := List.mem_map.mp hs
    exact (h t ht).trail last
  delete := fun _ _ h s hs => h s (OMap.mem_values_delete hs)

theorem fit_set {m : OMap JsVal StopOrder} (h : Fit m) (hs : s.Fits) : Fit (m.set s.orderId s) := by
  intro t ht
  obtain ⟨k, hk⟩ := OMap.mem_values.mp ht
  rw [OMap.get?_set] at hk
  split at hk
  · cases hk
    exact hs
  · exact h t (OMap.mem_values.mpr ⟨k, hk⟩)

theorem FitRun.reachable (h : FitRun b) : Reachable b := by
  induction h with
  | new symbol clock valid => exact .new symbol clock valid
  | call c h exact fits ih => exact .call c ih exact
  | restore h id clock ih => exact .restore ih id clock

theorem FitRun.fit (h : FitRun b) : Fit b.stopOrdersById := by
  induction h with
  | new symbol clock valid => exact fun s hs => by cases hs
  | @call b c h exact fits ih =>
    refine (?_ : Fit (Node.call b c).2.stopOrdersById)
    cases hs : b.stopOf c with
    | none => exact fit_dwindling.call c ih fun s hs' => by rw [hs] at hs'; cases hs'
    | some s =>
      rcases stopOf_call hs with ⟨-, ⟨r, hr⟩, hset⟩ | ⟨e, he⟩
      · rw [hset]
        exact fit_set ih (fits (by rw [hr]; rfl) s hs)
      · rw [he]
        exact ih
  | restore h id clock ih =>
    have hok := restore_ok h.reachable id clock
    rw [(restored_stops h.reachable.ran.keyed (Prod.ext hok rfl)).1]
    exact ih

/-! ## Executing -/

/-- The pending stop orders can be executed. -/
structure View.Ready (v : View) : Prop where
  fit : Fit v.stops
  clock : ∀ n, 0 ≤ v.clock n
  symbol : isBlank v.symbol = false

/-- The order of a stop order that fits passes the constructor. -/
theorem StopOrder.Fits.newOrder (h : s.Fits) {symbol : String} (hsym : isBlank symbol = false) {ms : Int}
    (hms : 0 ≤ ms) {type : OrderType} {priceTicks : JsVal}
    (hprice : ∃ p, assertPrice type priceTicks = .ok p) :
    ∃ o, Node.newOrder (triggeredInput symbol s type priceTicks ms) = .ok o := by
  obtain ⟨id, hid⟩ := h.orderId
  obtain ⟨user, huser⟩ := h.userId
  obtain ⟨t, ht⟩ := h.side
  obtain ⟨q, hq⟩ := h.remaining
  obtain ⟨p, hp⟩ := hprice
  exact ⟨⟨id, user, symbol, t, type, p, q, q, .opened, ⟨ms, true⟩⟩,
    newOrder_ok.mpr ⟨hid, huser, ⟨rfl, hsym⟩, ht, rfl, hp, hq, rfl, rfl, ⟨rfl, hms⟩, rfl⟩⟩

theorem spec_executeTriggered_ok (h : v.Ready) (hs : s.Fits) :
    ∃ x w, (Spec.executeTriggeredStopOrder s).run v = (.ok x, w) ∧ w.Ready := by
  have hexec : ∀ {type priceTicks}, (∃ p, assertPrice type priceTicks = .ok p) → ∃ x w,
      (do
        let ms ← Spec.now
        Spec.execute (triggeredInput v.symbol s type priceTicks ms)).run v = (.ok x, w) ∧ w.Ready := by
    intro type priceTicks hprice
    obtain ⟨o, ho⟩ := hs.newOrder h.symbol (h.clock 0) hprice
    refine ⟨_, _, (run_bind_ok (show Spec.now.run v = (.ok (v.clock 0), { v with clock := v.clock.tail })
      from rfl)).trans (spec_execute_ok ho), ⟨h.fit, fun n => h.clock (n + 1), h.symbol⟩⟩
  unfold Spec.executeTriggeredStopOrder
  rw [run_get_bind]
  by_cases ht : s.type = .stopMarket ∨ s.type = .trailingStopMarket
  · rw [if_pos ht]
    exact hexec ⟨none, rfl⟩
  · have hl : s.type = .stopLimit := by
      have := hs.type
      tauto
    obtain ⟨p, hp, hpos⟩ := hs.limit hl
    rw [if_neg ht, if_pos hl]
    refine hexec ⟨some p, ?_⟩
    rw [hp]
    unfold assertPrice
    rw [assertPositiveInteger_ok.mpr ⟨rfl, hpos⟩]
    rfl

/-- Executing a pending stop order that fits. -/
theorem executeTriggered_ok {F : Side → List NodeRef} (h : Repr b F v) (hv : v.Ok) (hready : v.Ready)
    (hs : s ∈ b.stopOrdersById.values) :
    ((executeTriggeredStopOrder { s with status := .triggered }).run
      { b with stopOrdersById := b.stopOrdersById.delete s.orderId }).1.isOk = true := by
  rw [← h.stops] at hs
  obtain ⟨k, hk⟩ := OMap.mem_values.mp hs
  have hget : v.stops.get? s.orderId = some s := (hv.keyed k s hk).symm ▸ hk
  have hfits := hready.fit s hs
  have hfits' : StopOrder.Fits { s with status := .triggered } :=
    ⟨hfits.orderId, hfits.userId, hfits.side, hfits.remaining, hfits.limit, hfits.type, hfits.trigger⟩
  have hdel : { v with stops := v.stops.delete s.orderId }.Ready :=
    ⟨fit_dwindling.delete _ _ hready.fit, hready.clock, hready.symbol⟩
  obtain ⟨x, w, hrun, -⟩ := spec_executeTriggered_ok hdel hfits'
  have hsim := executeTriggeredStopOrder_sim (h.rel hv) hget rfl _ _ ⟨rfl, rfl⟩
  rw [hrun] at hsim
  rcases hm : (executeTriggeredStopOrder { s with status := .triggered }).run
    { b with stopOrdersById := b.stopOrdersById.delete s.orderId } with ⟨_ | _, _⟩
  · rw [hm] at hsim
    exact hsim.elim
  · rfl

/-! ## Cascades -/

/-- The error of a cascade that does not end. -/
def limitError : JsError := .error "stop order trigger cycle limit exceeded"

theorem triggerAll_ok (ss : List StopOrder) (h : v.Ready) (hss : ∀ s ∈ ss, s.Fits) :
    ∃ t w, (Spec.triggerAll ss).run v = (.ok t, w) ∧ w.Ready := by
  induction ss generalizing v with
  | nil => exact ⟨_, _, rfl, h⟩
  | cons s ss ih =>
    have hs := hss s List.mem_cons_self
    have hs' : StopOrder.Fits { s with status := .triggered } :=
      ⟨hs.orderId, hs.userId, hs.side, hs.remaining, hs.limit, hs.type, hs.trigger⟩
    have hdel : { v with stops := v.stops.delete s.orderId }.Ready :=
      ⟨fit_dwindling.delete _ _ h.fit, h.clock, h.symbol⟩
    obtain ⟨⟨o, ts⟩, w₁, hexec, hw₁⟩ := spec_executeTriggered_ok hdel hs'
    obtain ⟨t, w, hrun, hw⟩ := ih hw₁ fun s' hs' => hss s' (List.mem_cons_of_mem _ hs')
    refine ⟨Triggered.append ⟨ts, [{ s with status := .triggered }],
      triggeredEvents { s with status := .triggered } o ts⟩ t, w, ?_, hw⟩
    unfold Spec.triggerAll
    rw [run_modify_bind]
    dsimp only
    rw [run_bind_ok hexec]
    dsimp only
    rw [run_bind_ok hrun]
    rfl

/-- The trigger prices can be compared. -/
theorem eligibleOf_fits {last : Int} {ss : List StopOrder} (h : ∀ s ∈ ss, s.Fits) :
    ∃ es, eligibleOf last ss = .ok es := by
  induction ss with
  | nil => exact ⟨[], rfl⟩
  | cons s ss ih =>
    obtain ⟨es, hes⟩ := ih fun s hs => h s (List.mem_cons_of_mem _ hs)
    obtain ⟨e, he⟩ : ∃ e, isEligible last s = .ok e := by
      obtain ⟨t, ht⟩ := Option.ne_none_iff_exists'.mp (h s List.mem_cons_self).trigger
      unfold isEligible
      rw [ht]
      split
      · exact ⟨_, rfl⟩
      · split <;> exact ⟨_, rfl⟩
    refine ⟨if e then s :: es else es, ?_⟩
    unfold eligibleOf
    rw [he, hes]
    rfl

/-- A cascade of stop orders that fit errs only at its limit. -/
theorem cascade_error (cycles : Nat) (ts : List Trade) (h : v.Ready) {e : JsError}
    (he : ((Spec.cascade cycles ts).run v).1 = .error e) : e = limitError := by
  induction cycles generalizing v ts with
  | zero =>
    unfold Spec.cascade at he
    cases ht : ts.getLast? with
    | none =>
      rw [ht] at he
      cases he
    | some t =>
      rw [ht] at he
      cases he
      rfl
  | succ cycles ih =>
    unfold Spec.cascade at he
    cases ht : ts.getLast? with
    | none =>
      rw [ht] at he
      cases he
    | some t =>
      rw [ht] at he
      dsimp only at he
      rw [run_modify_bind] at he
      set v₁ : View := { v with
        lastTradePriceTicks := some t.priceTicks
        stops := v.stops.mapValues (trail t.priceTicks) } with hv₁
      have hready : v₁.Ready := ⟨fit_dwindling.trail _ _ h.fit, h.clock, h.symbol⟩
      obtain ⟨es, hes⟩ := @eligibleOf_fits t.priceTicks _ hready.fit
      rw [run_bind_ok (show Spec.updateTrailingStopOrders.run
        { v with lastTradePriceTicks := some t.priceTicks } = (.ok (), v₁) from rfl),
        run_bind_ok (show Spec.getEligibleStopOrders.run v₁ = (.ok es, v₁) from
          congrArg (·, v₁) hes)] at he
      split at he
      · cases he
      · obtain ⟨r, w, hrun, hw⟩ := triggerAll_ok es hready fun s hs =>
          hready.fit s ((eligibleOf_sublist hes).subset hs)
        rw [run_bind_ok hrun] at he
        rcases hrest : (Spec.cascade cycles r.trades).run w with ⟨e' | r', w'⟩
        · rw [run_bind_error hrest] at he
          cases he
          exact ih _ hw (by rw [hrest])
        · rw [run_bind_ok hrest] at he
          cases he

/-- A call that throws after it began to match, in a book whose pending stop orders fit. -/
theorem call_limit_error {F : Side → List NodeRef} (h : Repr b F v) (hv : v.Ok) (hready : v.Ready) {c : Call}
    (hex : v.openQuantity + c.quantity ≤ Num.maxExact) {e : JsError} (hc : b.begins c = true)
    (he : (call b c).1 = .error e) : e = limitError := by
  obtain ⟨o, f, -, hrun, hf⟩ := program_begun ((h.begins c).mp hc)
  have hout := (call_refines c h hv hex).1
  rw [he, hrun] at hout
  have hexecuted : (v.executed o).Ready := ⟨hready.fit, hready.clock, hready.symbol⟩
  have hcascade := bind_error (Prod.ext hout.symm rfl) hf
  exact cascade_error _ _ hexecuted (by rw [hcascade])

/-! ## Every pending stop order -/

/-- Every pending stop order is executed without an error, so that no call fails because of one. -/
structure StopsExecute (b : OrderBook) : Prop where
  executes : ∀ s ∈ b.stopOrdersById.values, ((executeTriggeredStopOrder { s with status := .triggered }).run
    { b with stopOrdersById := b.stopOrdersById.delete s.orderId }).1.isOk = true
  call : ∀ c e, Exact b c → (Node.call b c).1 = .error e → b.begins c = true → e = limitError

theorem FitRun.stopsExecute (h : FitRun b) (hclock : ∀ n, 0 ≤ b.clock n) : StopsExecute b := by
  obtain ⟨F, v, hr, hv⟩ := h.reachable.repr
  have hready : v.Ready := ⟨hr.stops ▸ h.fit, hr.clock ▸ hclock, hv.symbol⟩
  refine ⟨fun s hs => executeTriggered_ok hr hv hready hs, fun c e hex he hc => ?_⟩
  rw [Exact, hr.openQuantity_eq] at hex
  exact call_limit_error hr hv hready hex hc he

end

end Lob.Node
