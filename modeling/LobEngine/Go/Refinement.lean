import LobEngine.Go.Cascade
import LobEngine.Go.Execution

/-!
# The functions of the Go engine refine their specification

`program_sim`: from a book that represents a view, a call and its specification both return, with the
same result, or both end with the same error, and the book represents the view again.

* `View.Ok`: what holds of the views of the books that calls reach.
* `Rel`: the relation that the cascade keeps; the order of the call is followed through it.
-/

namespace Lob.Go

open Exc Book

/-- What the engine guarantees of its book. -/
structure View.Ok (v : View) : Prop where
  symbol : isBlank v.symbol = false
  separate : ∀ id ∈ v.ids, v.stops.get? id = none
  keyed : ∀ k s, v.stops.get? k = some s → s.orderId = k
  trailing : ∀ k s, v.stops.get? k = some s → s.type = .trailingStopMarket →
    ∃ a, s.trailingAmountTicks = some a

/-- The book represents the view. -/
def Good (b : Book) (v : View) : Prop := (∃ F, Repr b F v) ∧ v.Ok

/-- The book represents the view, and the order behind `r` is `o`. -/
def Rel (r : Ref) (o : Order) (b : Book) (v : View) : Prop := Good b v ∧ Holds b r o

section

variable {b b' : Book} {F : Side → List Ref} {v : View} {r : Ref} {o : Order}

/-! ## Steps that touch no order -/

theorem Holds.scalars (h : Holds b r o) (ho : b'.order = b.order) (hn : b'.next = b.next)
    (hi : b'.orders = b.orders) (hs : b'.stopOrders.get? o.orderId = none) : Holds b' r o :=
  ⟨by rw [ho]; exact h.order, hn ▸ h.bound, hi ▸ h.index, hs⟩

/-- The pending stop orders change as the view says, and nothing else that matters. -/
theorem Good.stops {v' : View} (h : Good b v)
    (hb : b' = { b with
      stopOrders := b'.stopOrders, stopOrderIDs := b'.stopOrderIDs
      lastTradePriceTicks := b'.lastTradePriceTicks, sequence := b'.sequence, now := b'.now })
    (hv : v' = { v with
      stops := b'.stopOrders, lastTradePriceTicks := b'.lastTradePriceTicks
      sequence := b'.sequence, clock := b'.now })
    (hids : b'.stopOrderIDs = b'.stopOrders.keys)
    (hsep : ∀ id ∈ v.ids, b'.stopOrders.get? id = none)
    (hkey : ∀ k s, b'.stopOrders.get? k = some s → s.orderId = k ∧
      (s.type = .trailingStopMarket → ∃ a, s.trailingAmountTicks = some a)) : Good b' v' := by
  obtain ⟨⟨F, hr⟩, hok⟩ := h
  have ht : b'.trades = v.trades := by rw [hb]; exact hr.trades.symm
  refine ⟨⟨F, hr.scalars (by rw [hb]) ?_ hids⟩, ?_⟩
  · rw [hv, ht]
  · rw [hv]
    exact ⟨hok.symbol, hsep, fun k s hs => (hkey k s hs).1, fun k s hs => (hkey k s hs).2⟩

/-- Only the scalars change. -/
theorem Good.scalars {v' : View} (h : Good b v)
    (hb : b' = { b with
      lastTradePriceTicks := b'.lastTradePriceTicks, sequence := b'.sequence, now := b'.now })
    (hv : v' = { v with
      lastTradePriceTicks := b'.lastTradePriceTicks, sequence := b'.sequence, clock := b'.now }) :
    Good b' v' := by
  obtain ⟨⟨F, hr⟩, hok⟩ := id h
  have hs : b'.stopOrders = v.stops := by rw [hb]; exact hr.stops.symm
  refine h.stops (by rw [hb]) (by rw [hs]; exact hv) ?_ ?_ ?_
  · rw [hb]; exact hr.stopIDs
  · rw [hs]; exact hok.separate
  · rw [hs]; exact fun k s hk => ⟨hok.keyed k s hk, hok.trailing k s hk⟩

/-- A stop order is no longer pending. -/
theorem Good.delete (h : Good b v) (key : String) :
    Good (b.deleteStop key) { v with stops := v.stops.delete key } := by
  obtain ⟨⟨F, hr⟩, hok⟩ := id h
  have hsub : ∀ k s, (b.stopOrders.delete key).get? k = some s → v.stops.get? k = some s := by
    intro k s hk
    rw [OMap.get?_delete] at hk
    split at hk
    · cases hk
    · rw [hr.stops]; exact hk
  refine h.stops rfl ?_ ?_ (fun k hk => ?_) fun k s hs => ?_
  · show _ = _
    simp only [deleteStop, hr.stops, hr.last, hr.sequence, hr.clock]
  · show b.stopOrderIDs.erase key = _
    rw [hr.stopIDs]
    exact (OMap.keys_delete _ _).symm
  · cases hc : (b.deleteStop key).stopOrders.get? k with
    | none => rfl
    | some s =>
      have := hsub k s hc
      rw [hok.separate k hk] at this
      cases this
  · exact ⟨hok.keyed k s (hsub k s hs), hok.trailing k s (hsub k s hs)⟩

theorem Good.symbol (h : Good b v) : v.symbol = b.symbol := by
  obtain ⟨⟨F, hr⟩, -⟩ := h
  exact hr.symbol

/-! ## Triggered stop orders -/

theorem View.Ok.executed (hv : v.Ok) (hid : v.stops.get? o.orderId = none) : (v.executed o).Ok where
  symbol := hv.symbol
  separate := fun id hid' => by
    obtain ⟨x, hx, rfl⟩ := List.mem_map.mp hid'
    obtain ⟨y, hy | ⟨rfl, -⟩, n, rfl⟩ := Depth.mem_execute hx
    · exact hv.separate y.orderId (List.mem_map_of_mem hy)
    · exact hid
  keyed := hv.keyed
  trailing := hv.trailing

theorem allocate_error {typ : OrderType} {i : OrderInput} {clock : Bool} {e : GoError} {symbol : String}
    (he : newOrder symbol typ i clock = .error e) :
    (allocate symbol typ i clock).run b = (.error e, b) := by
  rw [allocate, run_lift_bind, he]

theorem executedType_market (stop : StopOrder) :
    decide (executedType stop = .market) = decide (executedType stop ≠ .limit) := by
  unfold executedType
  split <;> simp

/-- The order of a stop order that is no longer pending executes, or it is rejected. -/
theorem executeStop_sim (stop : StopOrder) (h : Rel r o b v) (hid : stop.orderId ∉ v.ids)
    (hp : v.stops.get? stop.orderId = none) (hne : o.orderId ≠ stop.orderId) :
    Sim (fun x y => x = b ∧ y = v) (executeStop stop) (Spec.executeStop stop)
      (fun a a' x y => x.order a.1 = a'.1 ∧ a.2 = a'.2 ∧ (∀ t ∈ a'.2, 0 < t.quantity) ∧
        Rel r (o.filledBy (traded o.orderId a'.2)) x y ∧ y.stops = v.stops) Good := by
  have hgood : Good { b with now := b.now.tail } { v with clock := v.clock.tail } := by
    obtain ⟨⟨F, hr⟩, -⟩ := id h.1
    exact h.1.scalars rfl (by simp only [hr.clock, hr.last, hr.sequence])
  have hholds : Holds { b with now := b.now.tail } r o := h.2.scalars rfl rfl rfl h.2.pending
  obtain ⟨⟨F, hr⟩, hok⟩ := hgood
  have hclock : v.clock = b.now := by obtain ⟨⟨F, hr⟩, -⟩ := h.1; exact hr.clock
  unfold executeStop Spec.executeStop
  refine Sim.left rfl (Sim.right rfl ?_)
  refine Sim.left (show now.run b = (.ok (b.now 0), _) from rfl)
    (Sim.right (show Spec.now.run v = (.ok (b.now 0), _) by rw [← hclock]; rfl) ?_)
  rw [h.1.symbol, executedType_market]
  cases ho : newOrder b.symbol (executedType stop) (executedInput stop (b.now 0)) true with
  | error e =>
    exact Sim.of_error (run_bind_error (allocate_error ho)) (run_bind_error rfl) ⟨⟨F, hr⟩, hok⟩
  | ok x =>
    have hx := (newOrder_ok.mp ho).orderId.1
    obtain ⟨b₁, b₂, b₃, F₃, h₁, h₂, -, h₃, hrepr, hex⟩ :=
      execute_run hr ho (by rw [hx]; exact hid) (by rw [hx]; exact hp)
    refine Sim.left h₁ (Sim.right rfl (Sim.left h₂ (Sim.left h₃ ?_)))
    refine Sim.of_ok rfl rfl ⟨hex.new.order, rfl, hex.positive, ⟨⟨⟨F₃, hrepr⟩, ?_⟩, ?_⟩, rfl⟩
    · exact hok.executed (by rw [hx]; exact hp)
    · exact hex.holds r o (by rw [hx]; exact hne) hholds

/-- The stop orders of `stops` are pending, each once. -/
def Pending (v : View) (stops : List StopOrder) : Prop :=
  (stops.map (·.orderId)).Nodup ∧ ∀ s ∈ stops, v.stops.get? s.orderId = some s

theorem fireAll_sim (stops : List StopOrder) (o : Order) :
    Sim (fun b v => Rel r o b v ∧ Pending v stops) (fireAll stops) (Spec.fireAll stops)
      (fun a a' b v => a = a' ∧ (∀ t ∈ a.flatMap (·.trades), 0 < t.quantity) ∧
        Rel r (o.filledBy (traded o.orderId (a.flatMap (·.trades)))) b v) Good := by
  induction stops generalizing o with
  | nil =>
    refine Sim.pure fun _ _ h => ⟨rfl, by simp, ?_⟩
    simpa using h.1
  | cons s stops ih =>
    refine Sim.of_at ?_
    rintro b v ⟨h, hnd, hp⟩
    have hs := hp s List.mem_cons_self
    obtain ⟨⟨F, hr⟩, hok⟩ := id h.1
    have hne : o.orderId ≠ s.orderId := fun e => by
      have hpend := h.2.pending
      rw [e, ← hr.stops, hs] at hpend
      cases hpend
    have hdel : Rel r o (b.deleteStop s.orderId) { v with stops := v.stops.delete s.orderId } := by
      refine ⟨h.1.delete _, h.2.scalars rfl rfl rfl ?_⟩
      show (b.stopOrders.delete s.orderId).get? _ = none
      rw [OMap.get?_delete_ne _ hne]
      exact h.2.pending
    unfold fireAll Spec.fireAll
    refine Sim.left rfl (Sim.right rfl ?_)
    dsimp only
    refine (executeStop_sim { s with status := .triggered } hdel (fun hid => ?_)
      (OMap.get?_delete_self _ _) hne).bind fun ⟨r', ts⟩ ⟨o', ts'⟩ => ?_
    · have := hok.separate _ hid
      rw [hs] at this
      cases this
    refine Sim.of_at ?_
    rintro b₁ v₁ ⟨rfl, rfl, hpos, h₁, hstops⟩
    rw [List.map_cons, List.nodup_cons] at hnd
    have hp₁ : Pending v₁ stops := ⟨hnd.2, fun x hx => by
      rw [hstops]
      show (v.stops.delete s.orderId).get? _ = _
      rw [OMap.get?_delete_ne _ (ne_of_mem_of_not_mem
        (List.mem_map_of_mem (f := fun s : StopOrder => s.orderId) hx) hnd.1)]
      exact hp x (List.mem_cons_of_mem _ hx)⟩
    refine Sim.left rfl (((ih _).at ⟨h₁, hp₁⟩).bind fun a a' => ?_)
    refine Sim.pure fun b₂ v₂ h₂ => ?_
    obtain ⟨rfl, hpos₂, h₂⟩ := h₂
    rw [Order.filledBy_orderId, Order.filledBy_filledBy _ (traded_nonneg hpos _)
      (traded_nonneg hpos₂ _), ← traded_append] at h₂
    refine ⟨rfl, fun t ht => ?_, h₂⟩
    rcases List.mem_append.mp ht with ht | ht
    · exact hpos t ht
    · exact hpos₂ t ht

/-! ## Trailing stop orders -/

/-- Only the trigger price and the extrema of a pending stop order follow the trades. -/
theorem trail_eq (last : Int) (s : StopOrder) : ∃ trigger peak valley, View.trail last s =
    { s with triggerPriceTicks := trigger, peakPriceTicks := peak, valleyPriceTicks := valley } := by
  obtain ⟨_, _, _, _, _, trigger, _, amount, peak, valley, _, _, _, _⟩ := s
  unfold View.trail trailStop
  split_ifs
  · exact ⟨trigger, peak, valley, rfl⟩
  · cases amount with
    | none => exact ⟨trigger, peak, valley, rfl⟩
    | some a => exact ⟨_, _, _, rfl⟩
  · cases amount with
    | none => exact ⟨trigger, peak, valley, rfl⟩
    | some a => exact ⟨_, _, _, rfl⟩
  · exact ⟨trigger, peak, valley, rfl⟩

theorem trailStop_ok (last : Int) {s : StopOrder}
    (h : s.type = .trailingStopMarket → ∃ a, s.trailingAmountTicks = some a) :
    trailStop last s = .ok (View.trail last s) := by
  have hok : ∃ s', trailStop last s = .ok s' := by
    unfold trailStop
    split_ifs with h₁
    · exact ⟨_, rfl⟩
    all_goals obtain ⟨a, ha⟩ := h (not_not.mp h₁)
    · rw [ha]; exact ⟨_, rfl⟩
    · rw [ha]; exact ⟨_, rfl⟩
    · exact ⟨_, rfl⟩
  obtain ⟨s', hs'⟩ := hok
  rw [View.trail, hs']
  rfl

theorem trailStops_run (last : Int) (ids : List String) (hnd : ids.Nodup)
    (hids : ∀ id ∈ ids, ∃ s, b.stopOrders.get? id = some s ∧
      (s.type = .trailingStopMarket → ∃ a, s.trailingAmountTicks = some a)) :
    ∃ m, (trailStops last ids).run b = (.ok (), { b with stopOrders := m }) ∧
      m.keys = b.stopOrders.keys ∧ ∀ k, m.get? k =
        if k ∈ ids then (b.stopOrders.get? k).map (View.trail last) else b.stopOrders.get? k := by
  induction ids generalizing b with
  | nil => exact ⟨b.stopOrders, rfl, rfl, fun k => by simp⟩
  | cons id ids ih =>
    obtain ⟨s, hs, ha⟩ := hids id List.mem_cons_self
    rw [List.nodup_cons] at hnd
    have hkeys : (b.stopOrders.set id (View.trail last s)).keys = b.stopOrders.keys :=
      OMap.keys_set_of_mem _ (OMap.mem_keys.mpr ⟨s, hs⟩)
    obtain ⟨m, hrun, hk, hg⟩ := ih (b := { b with stopOrders := b.stopOrders.set id (View.trail last s) })
      hnd.2 fun k hk' => by
        obtain ⟨t, ht, ha⟩ := hids k (List.mem_cons_of_mem _ hk')
        exact ⟨t, (OMap.get?_set_ne _ _ (ne_of_mem_of_not_mem hk' hnd.1)).trans ht, ha⟩
    refine ⟨m, ?_, hk.trans hkeys, fun k => ?_⟩
    · unfold trailStops
      rw [run_get_bind, hs]
      dsimp only
      rw [run_lift_bind, trailStop_ok last ha]
      exact hrun
    · rw [hg k]
      show (if k ∈ ids then ((b.stopOrders.set id _).get? k).map _ else (b.stopOrders.set id _).get? k) = _
      by_cases hki : k = id
      · rw [hki, if_neg hnd.1, if_pos List.mem_cons_self, OMap.get?_set_self, hs]; rfl
      · rw [OMap.get?_set_ne _ _ hki]
        simp [hki]

/-- The pending trailing stop orders follow the last trade. -/
theorem updateTrailingStops_sim :
    Sim (Rel r o) updateTrailingStops Spec.updateTrailingStops (fun _ _ b v => Rel r o b v) Good := by
  unfold updateTrailingStops Spec.updateTrailingStops
  refine Sim.get fun b v h => ?_
  obtain ⟨⟨F, hr⟩, hok⟩ := id h.1
  rw [hr.last]
  cases b.lastTradePriceTicks with
  | none => exact Sim.of_ok rfl rfl h
  | some last =>
    obtain ⟨m, hrun, hk, hg⟩ := trailStops_run (b := b) last b.stopOrderIDs
      (hr.stopIDs ▸ b.stopOrders.keys_nodup) fun id hid => by
        rw [hr.stopIDs, OMap.mem_keys] at hid
        obtain ⟨s, hs⟩ := hid
        exact ⟨s, hs, hok.trailing id s (hr.stops ▸ hs)⟩
    have hm : m = b.stopOrders.mapValues (View.trail last) := by
      refine OMap.ext_get? (hk.trans (OMap.keys_mapValues _ _).symm) fun k => ?_
      rw [hg, OMap.get?_mapValues, hr.stopIDs]
      split
      · rfl
      · next hn => rw [OMap.get?_eq_none.mpr hn]; rfl
    subst hm
    have hnone : ∀ k, b.stopOrders.get? k = none → (b.stopOrders.mapValues (View.trail last)).get? k = none :=
      fun k hk => by rw [OMap.get?_mapValues, hk]; rfl
    refine Sim.of_ok hrun rfl ⟨h.1.stops rfl ?_ ?_ (fun id hid => ?_) fun k s hs => ?_,
      h.2.scalars rfl rfl rfl (hnone _ h.2.pending)⟩
    · simp only [hr.stops, hr.last, hr.sequence, hr.clock]
    · exact hr.stopIDs.trans hk.symm
    · exact hnone id (hr.stops ▸ hok.separate id hid)
    · have hs : (b.stopOrders.mapValues (View.trail last)).get? k = some s := hs
      rw [OMap.get?_mapValues, Option.map_eq_some_iff] at hs
      obtain ⟨s₀, hs₀, rfl⟩ := hs
      rw [← hr.stops] at hs₀
      obtain ⟨_, _, _, htrail⟩ := trail_eq last s₀
      rw [htrail]
      exact ⟨hok.keyed k s₀ hs₀, hok.trailing k s₀ hs₀⟩

theorem pending_sublist (hkey : ∀ k s, v.stops.get? k = some s → s.orderId = k) {es : List StopOrder}
    (h : es.Sublist v.stops.values) : Pending v es := by
  have hk : v.stops.values.map (·.orderId) = v.stops.keys := by
    unfold OMap.values OMap.keys
    rw [List.map_map]
    exact List.map_congr_left fun e he => hkey e.1 e.2 (OMap.mem_entries.mp he)
  refine ⟨(h.map _).nodup (hk ▸ v.stops.keys_nodup), fun s hs => ?_⟩
  obtain ⟨k, hk⟩ := OMap.mem_values.mp (h.subset hs)
  rw [hkey k s hk]
  exact hk

theorem View.Ok.pending (hv : v.Ok) {es : List StopOrder} (h : es.Sublist v.stops.values) : Pending v es :=
  pending_sublist hv.keyed h

theorem eligible_sublist (v : View) : v.eligible.Sublist v.stops.values := by
  unfold View.eligible
  split
  · exact List.nil_sublist _
  · exact List.filter_sublist

theorem fireCycles_sim (cycles : Nat) (ts : List Trade) (o : Order) :
    Sim (Rel r o) (fireCycles cycles ts) (Spec.fireCycles cycles ts)
      (fun a a' b v => a = a' ∧ (∀ t ∈ a.flatMap (·.trades), 0 < t.quantity) ∧
        Rel r (o.filledBy (traded o.orderId (a.flatMap (·.trades)))) b v) Good := by
  have hdone : ∀ b v, Rel r o b v → ([] : List Firing) = [] ∧
      (∀ t ∈ ([] : List Firing).flatMap (·.trades), 0 < t.quantity) ∧
      Rel r (o.filledBy (traded o.orderId (([] : List Firing).flatMap (·.trades)))) b v := fun b v h =>
    ⟨rfl, by simp, by simpa using h⟩
  induction cycles generalizing ts o with
  | zero =>
    unfold fireCycles Spec.fireCycles
    cases ts.getLast? with
    | none => exact Sim.pure hdone
    | some t => exact Sim.throw fun _ _ h => h.1
  | succ cycles ih =>
    unfold fireCycles Spec.fireCycles
    cases ts.getLast? with
    | none => exact Sim.pure hdone
    | some t =>
      refine Sim.bind (Q := fun _ _ b v => Rel r o b v) (Sim.modify fun b v h => ?_) fun _ _ => ?_
      · obtain ⟨⟨F, hr⟩, -⟩ := id h.1
        exact ⟨h.1.scalars rfl (by simp only [hr.sequence, hr.clock]),
          h.2.scalars rfl rfl rfl h.2.pending⟩
      refine updateTrailingStops_sim.bind fun _ _ => Sim.get fun b v h => ?_
      have he : eligibleStops b = v.eligible := by
        obtain ⟨⟨F, hr⟩, -⟩ := h.1
        exact hr.eligible_eq
      rw [he]
      by_cases hnil : v.eligible = []
      · rw [if_pos hnil, if_pos hnil]
        exact Sim.of_ok rfl rfl (hdone b v h)
      · rw [if_neg hnil, if_neg hnil]
        refine ((fireAll_sim v.eligible o).at ⟨h, h.1.2.pending (eligible_sublist v)⟩).bind
          fun a a' => Sim.of_at ?_
        rintro b₁ v₁ ⟨rfl, hpos, h₁⟩
        refine ((ih (a.flatMap (·.trades)) _ fun b v h => ?_).at h₁).bind fun c c' => ?_
        · exact ⟨rfl, by simp, by simpa using h⟩
        refine Sim.pure fun b₂ v₂ h₂ => ?_
        obtain ⟨rfl, hpos₂, h₂⟩ := h₂
        rw [Order.filledBy_orderId, Order.filledBy_filledBy _ (traded_nonneg hpos _)
          (traded_nonneg hpos₂ _), ← traded_append] at h₂
        rw [List.flatMap_append]
        refine ⟨rfl, fun t ht => ?_, h₂⟩
        rcases List.mem_append.mp ht with ht | ht
        · exact hpos t ht
        · exact hpos₂ t ht

theorem cascade_sim (cycles : Nat) (ts : List Trade) (o : Order) :
    Sim (Rel r o) (cascade cycles ts) (Spec.cascade cycles ts)
      (fun a a' b v => a = a' ∧ (∀ t ∈ a.trades, 0 < t.quantity) ∧
        Rel r (o.filledBy (traded o.orderId a.trades)) b v) Good := by
  refine (cascade_fireCycles cycles ts).sim (Spec.cascade_fireCycles cycles ts) (fireCycles_sim cycles ts o) ?_
  rintro fs _ b v ⟨rfl, hpos, h⟩
  exact ⟨rfl, hpos, h⟩

end

end Lob.Go
