import LobEngine.Go.Atomic
import LobEngine.Go.Reachable

/-!
# Executing what was accepted

A stop order is checked when it is placed, and again as a new order when it is triggered. The second
check asks for more: an order that executes as a market order has no price (`Call.fits`).

* `StopOrder.Fits`: the stop order passes the second check.
* `FitRun.fit`: every stop order that is pending in a run of fitting calls fits.
* `executeStop_ok`: a pending stop order that fits is executed without an error.
* `cascade_error`: a cascade of such stop orders errs only at its limit.
-/

namespace Lob.Go

open Exc Book

/-- The stop order of the call has no price, if it executes as a market order. -/
def Call.fits : Call → Prop
  | .placeStopMarket input | .placeTrailingStopMarket input => input.priceTicks = none
  | _ => True

/-- The stop order passes the checks of `newOrder`. -/
structure StopOrder.Fits (s : StopOrder) : Prop where
  orderId : s.orderId ≠ ""
  userId : s.userId ≠ ""
  remaining : 0 < s.remainingQuantity
  limit : s.type = .stopLimit → ∃ p, s.priceTicks = some p ∧ 0 < p
  market : s.type ≠ .stopLimit → s.priceTicks = none

/-- Every pending stop order fits. -/
def View.Fit (v : View) : Prop := ∀ s ∈ v.stops.values, s.Fits

/-- Runs whose accepted calls all fit. -/
inductive FitRun : Book → Prop
  | empty (symbol : String) (now : Clock) (valid : isBlank symbol = false) :
    FitRun (Book.empty symbol now)
  | call {b : Book} (h : FitRun b) (c : Call) (fits : (Go.call b c).1.isOk = true → c.fits) :
    FitRun (Go.call b c).2
  | restore {b b' : Book} (h : FitRun b) (id : Option String) (now : Clock)
    (restored : fromRecoverySnapshot (b.recoverySnapshot id) now = .ok b') : FitRun b'

section

variable {b : Book} {v w : View} {s : StopOrder}

theorem StopOrder.Fits.trail (h : s.Fits) (last : Int) : (View.trail last s).Fits := by
  obtain ⟨trigger, peak, valley, he⟩ := trail_eq last s
  rw [he]
  exact ⟨h.orderId, h.userId, h.remaining, h.limit, h.market⟩

theorem cascading_fit : Cascading View.Fit where
  clock := fun _ h => h
  last := fun _ _ h => h
  delete := fun _ _ h s hs => h s (OMap.mem_values_delete hs)
  trail := fun _ last h s hs => by
    rw [OMap.values_mapValues] at hs
    obtain ⟨t, ht, rfl⟩ := List.mem_map.mp hs
    exact (h t ht).trail last
  execute := fun _ _ h _ => h

/-- An accepted stop order fits, if its call does. -/
theorem NewStop.fits {symbol : String} {typ : OrderType} {i : OrderInput} {peak valley : Option Int}
    (h : NewStop symbol typ i peak valley s) (hprice : typ ≠ .stopLimit → i.priceTicks = none) :
    s.Fits where
  orderId := h.orderId.1 ▸ h.orderId.2
  userId := h.userId.1 ▸ h.userId.2
  remaining := by
    obtain ⟨-, hrem, hpos⟩ := h.quantity
    rw [hrem]
    exact hpos
  limit ht := by
    obtain ⟨p, hp, hpos⟩ := h.limit (h.type ▸ ht)
    exact ⟨p, h.priceTicks.trans hp, hpos⟩
  market ht := h.priceTicks.trans (hprice (h.type ▸ ht))

/-! ## Calls -/

theorem fit_publish (g : EventBody → List EventBody) (f : List Event → Result) : Keeps View.Fit (do
    let updated ← Spec.bookUpdatedEvent
    let es ← Spec.stamp (g updated)
    return f es : SpecProgram Result) :=
  cascading_fit.bookUpdatedEvent.bind fun _ => Keeps.bind (fun _ h => h) fun _ => Keeps.pure _

/-- A stop order is placed: it fits, or the call erred and nothing was placed. -/
theorem fit_placeStop {i : OrderInput} {typ : OrderType} {peak valley : Option Int} (h : v.Fit)
    (hprice : ((Spec.placeStopWithExtrema i typ peak valley).run v).1.isOk = true →
      typ ≠ .stopLimit → i.priceTicks = none) :
    ((Spec.placeStopWithExtrema i typ peak valley).run v).2.Fit := by
  unfold Spec.placeStopWithExtrema at hprice ⊢
  by_cases hid : v.hasId i.orderId
  · rw [run_bind_error (Spec.assertAvailable_taken hid)]
    exact h
  · rw [run_bind_ok (Spec.assertAvailable_free hid), run_get_bind, run_lift_bind] at hprice ⊢
    cases hs : newStop v.symbol typ i peak valley with
    | error e => exact h
    | ok s =>
      rw [hs] at hprice
      have hfits := (newStop_ok.mp hs).fits (hprice rfl)
      refine fit_publish (fun updated => [.stopAccepted s, updated]) (fun es => ⟨.stop s, [], [], es⟩) _
        fun t ht => ?_
      obtain ⟨k, hk⟩ := OMap.mem_values.mp ht
      rw [OMap.get?_set] at hk
      split at hk
      · cases hk
        exact hfits
      · exact h t (OMap.mem_values.mpr ⟨k, hk⟩)

theorem newTrailing_price {last : Option Int} {i j : OrderInput} {peak valley : Option Int}
    (h : newTrailing last i = .ok (j, peak, valley)) : j.priceTicks = i.priceTicks := by
  unfold newTrailing at h
  split at h
  · cases h
  · split at h
    · cases h
    · split_ifs at h
      split at h <;> cases h <;> rfl

/-- A fitting call keeps the pending stop orders fit. -/
theorem fit_program (c : Call) (h : v.Fit) (hc : ((Spec.program c).run v).1.isOk = true → c.fits) :
    ((Spec.program c).run v).2.Fit := by
  cases c with
  | placeLimit i =>
    exact ((Stable.assertAvailable _).bind fun _ _ hv => Post.get <| cascading_fit.executeNew .limit i
      false hv fun _ => (cascading_fit.cascade _ _).bind fun _ => fit_publish _ _) v h
  | placeMarket i =>
    exact ((Stable.assertAvailable _).bind fun _ _ hv => Post.get <| cascading_fit.executeNew .market i
      false hv fun _ => (cascading_fit.cascade _ _).bind fun _ => fit_publish _ _) v h
  | placeStopMarket i => exact fit_placeStop h fun hok _ => hc hok
  | placeStopLimit i => exact fit_placeStop h fun _ hne => absurd rfl hne
  | placeTrailingStopMarket i =>
    unfold Spec.program Spec.placeTrailingStopMarket at hc ⊢
    rw [run_get_bind, run_lift_bind] at hc ⊢
    cases hn : newTrailing v.lastTradePriceTicks i with
    | error e => exact h
    | ok x =>
      rw [hn] at hc
      exact fit_placeStop h fun hok _ => (newTrailing_price hn).trans (hc hok)
  | cancel key =>
    refine (Keeps.get.bind fun v => ?_ : Keeps View.Fit (Spec.cancelOrder key)) v h
    split
    · refine Keeps.bind (Keeps.modify fun v hv => cascading_fit.delete v _ hv) fun _ => ?_
      exact cascading_fit.bookUpdatedEvent.bind fun _ => Keeps.pure _
    · split
      · exact Keeps.throw _
      · exact Keeps.bind (Keeps.modify fun _ hv => hv) fun _ => fit_publish _ _

theorem FitRun.fit (h : FitRun b) : ∃ v, Good b v ∧ v.Fit := by
  induction h with
  | empty symbol now valid =>
    refine ⟨_, good_empty now valid, fun s hs => ?_⟩
    cases hs
  | call h c fits ih =>
    obtain ⟨v, hv, hfit⟩ := ih
    obtain ⟨hout, hgood⟩ := call_refines c hv
    rw [hout] at fits
    exact ⟨_, hgood, fit_program c hfit fits⟩
  | restore h id now hb ih =>
    obtain ⟨v, hv, hfit⟩ := ih
    obtain ⟨b₁, hb₁, hgood⟩ := restored hv id now
    rw [hb] at hb₁
    cases hb₁
    exact ⟨_, hgood, hfit⟩

/-! ## Executing -/

/-- The order of a stop order that fits passes `newOrder`. -/
theorem StopOrder.Fits.newOrder (h : s.Fits) {symbol : String} (hsym : isBlank symbol = false) {ms : Int}
    (hms : 0 ≤ ms) : ∃ o, Go.newOrder symbol (executedType s) (executedInput s ms) true = .ok o := by
  refine ⟨⟨s.orderId, s.userId, symbol, s.side, executedType s, s.priceTicks, s.remainingQuantity,
    s.remainingQuantity, .opened, ⟨ms, true⟩⟩, newOrder_ok.mpr ⟨⟨rfl, h.orderId⟩, ⟨rfl, h.userId⟩,
    ⟨rfl, ?_⟩, ?_, rfl, rfl, ⟨rfl, rfl, h.remaining⟩, ⟨rfl, hms⟩, fun ht => ?_, fun ht => ?_, rfl⟩⟩
  · rintro rfl
    exact absurd hsym (by decide)
  · show sideOf (sideText s.side) = some s.side
    cases s.side <;> rfl
  · unfold executedType at ht
    split at ht
    · next hlimit => exact h.limit hlimit
    · cases ht
  · unfold executedType at ht
    split at ht
    · cases ht
    · next hlimit => exact h.market hlimit

/-- Executing a pending stop order: without an error, exactly if `newOrder` accepts its order. -/
theorem executeStop_ok (h : Good b v) {key : String} (hs : v.stops.get? key = some s) (hfit : s.Fits)
    (hnow : 0 ≤ b.now 0) :
    ((executeStop { s with status := .triggered }).run (b.deleteStop s.orderId)).1.isOk = true := by
  have hgood := h.delete s.orderId
  obtain ⟨⟨F, hr⟩, hok⟩ := id hgood
  have hkey : s.orderId = key := h.2.keyed key s hs
  have hid : s.orderId ∉ v.ids := fun hc => by
    have := h.2.separate s.orderId hc
    rw [hkey, hs] at this
    cases this
  have hfit' : StopOrder.Fits { s with status := .triggered } :=
    ⟨hfit.orderId, hfit.userId, hfit.remaining, hfit.limit, hfit.market⟩
  have hsym : isBlank (b.deleteStop s.orderId).symbol = false := hr.symbol ▸ hok.symbol
  obtain ⟨o, ho⟩ := hfit'.newOrder hsym hnow
  have hnowgood : Good { b.deleteStop s.orderId with now := b.now.tail }
      { v with stops := v.stops.delete s.orderId, clock := v.clock.tail } :=
    hgood.scalars rfl (by
      have hclock : v.clock = b.now := hr.clock
      have hlast : v.lastTradePriceTicks = b.lastTradePriceTicks := hr.last
      have hsequence : v.sequence = b.sequence := hr.sequence
      simp only [hclock, hlast, hsequence, deleteStop])
  obtain ⟨⟨F₁, hr₁⟩, -⟩ := hnowgood
  have hoid := (newOrder_ok.mp ho).orderId.1
  obtain ⟨b₁, b₂, b₃, F₃, h₁, h₂, -, h₃, -⟩ := execute_run hr₁ ho
    (by rw [hoid]; exact hid) (by rw [hoid]; exact OMap.get?_delete_self ..)
  unfold executeStop
  rw [run_get_bind, run_bind_ok (show now.run (b.deleteStop s.orderId) =
    (.ok (b.now 0), { b.deleteStop s.orderId with now := b.now.tail }) from rfl)]
  rw [run_bind_ok h₁, executedType_market]
  rw [run_bind_ok h₂, run_bind_ok h₃]
  rfl

/-! ## Cascades -/

/-- The error of a cascade that does not end. -/
def limitError : GoError := .error "stop order trigger cycle limit exceeded"

/-- The pending stop orders can be executed. -/
structure View.Ready (v : View) : Prop where
  fit : v.Fit
  clock : ∀ n, 0 ≤ v.clock n
  symbol : isBlank v.symbol = false

theorem cascading_ready : Cascading View.Ready where
  clock := fun _ h => ⟨h.fit, fun n => h.clock (n + 1), h.symbol⟩
  last := fun _ _ h => ⟨h.fit, h.clock, h.symbol⟩
  delete := fun v key h => ⟨cascading_fit.delete v key h.fit, h.clock, h.symbol⟩
  trail := fun v last h => ⟨cascading_fit.trail v last h.fit, h.clock, h.symbol⟩
  execute := fun _ _ h _ => ⟨h.fit, h.clock, h.symbol⟩

theorem spec_executeStop_ok (h : v.Ready) (hs : s.Fits) :
    ∃ x w, (Spec.executeStop s).run v = (.ok x, w) ∧ w.Ready := by
  obtain ⟨o, ho⟩ := hs.newOrder h.symbol (h.clock 0)
  have hready := cascading_ready.execute _ o (cascading_ready.clock v h) (newOrder_ok.mp ho).symbol.1
  refine ⟨((v.toDepth.execute o).2.1, (v.toDepth.execute o).1), _, ?_, hready⟩
  unfold Spec.executeStop
  rw [run_get_bind, run_bind_ok (show Spec.now.run v = (.ok (v.clock 0), { v with clock := v.clock.tail })
    from rfl), run_lift_bind, ho]
  rfl

theorem triggerAll_ok (ss : List StopOrder) (h : v.Ready) (hss : ∀ s ∈ ss, s.Fits) :
    ∃ t w, (Spec.triggerAll ss).run v = (.ok t, w) ∧ w.Ready := by
  induction ss generalizing v with
  | nil => exact ⟨_, _, rfl, h⟩
  | cons s ss ih =>
    have hs := hss s List.mem_cons_self
    have hs' : StopOrder.Fits { s with status := .triggered } :=
      ⟨hs.orderId, hs.userId, hs.remaining, hs.limit, hs.market⟩
    obtain ⟨⟨o, ts⟩, w₁, hexec, hw₁⟩ :=
      spec_executeStop_ok (cascading_ready.delete v s.orderId h) hs'
    obtain ⟨t, w, hrun, hw⟩ := ih hw₁ fun s' hs' => hss s' (List.mem_cons_of_mem _ hs')
    refine ⟨StopResult.append ⟨ts, [{ s with status := .triggered }],
      triggeredEvents { s with status := .triggered } o ts⟩ t, w, ?_, hw⟩
    unfold Spec.triggerAll
    rw [run_modify_bind]
    dsimp only
    rw [run_bind_ok hexec]
    dsimp only
    rw [run_bind_ok hrun]
    rfl

/-- A cascade of stop orders that fit errs only at its limit. -/
theorem cascade_error (cycles : Nat) (ts : List Trade) (h : v.Ready) {e : GoError}
    (he : ((Spec.cascade cycles ts).run v).1 = .error e) : e = limitError := by
  induction cycles generalizing v ts with
  | zero =>
    unfold Spec.cascade at he
    cases ht : ts.getLast? with
    | none =>
      rw [ht] at he
      cases he
    | some t =>
      rw [ht] at he
      cases he
      rfl
  | succ cycles ih =>
    unfold Spec.cascade at he
    cases ht : ts.getLast? with
    | none =>
      rw [ht] at he
      cases he
    | some t =>
      rw [ht] at he
      dsimp only at he
      rw [run_modify_bind] at he
      have hlast := cascading_ready.last v (some t.priceTicks) h
      have htrail := cascading_ready.trail _ t.priceTicks hlast
      rw [run_bind_ok (show Spec.updateTrailingStops.run { v with lastTradePriceTicks := some t.priceTicks } =
        (.ok (), { v with
          lastTradePriceTicks := some t.priceTicks
          stops := v.stops.mapValues (View.trail t.priceTicks) }) from rfl), run_get_bind] at he
      split at he
      · cases he
      · obtain ⟨r, w, hrun, hw⟩ := triggerAll_ok _ htrail fun s hs =>
          htrail.fit s ((eligible_sublist _).subset hs)
        rw [run_bind_ok hrun] at he
        rcases hrest : (Spec.cascade cycles r.trades).run w with ⟨e' | r', w'⟩
        · rw [run_bind_error hrest] at he
          cases he
          exact ih _ hw (by rw [hrest])
        · rw [run_bind_ok hrest] at he
          cases he

/-- A call that errs after it began to match, in a book whose pending stop orders fit. -/
theorem call_limit_error (h : Good b v) (hfit : v.Fit) (hnow : ∀ n, 0 ≤ b.now n) {c : Call} {e : GoError}
    (hc : b.begins c = true) (he : (call b c).1 = .error e) : e = limitError := by
  have hready : v.Ready := by
    obtain ⟨⟨F, hr⟩, hok⟩ := id h
    exact ⟨hfit, hr.clock ▸ hnow, hok.symbol⟩
  obtain ⟨o, f, -, hsym, hrun, hf⟩ := program_begun ((h.begins c).mp hc)
  rw [(call_refines c h).1, hrun] at he
  have hcascade := bind_error (Prod.ext he rfl) hf
  exact cascade_error _ _ (cascading_ready.execute v o hready hsym) (by rw [hcascade])

/-! ## Every pending stop order -/

/-- Every pending stop order is executed without an error, so that no call fails because of one. -/
structure StopsExecute (b : Book) : Prop where
  executes : ∀ s ∈ b.stopSnapshots,
    ((executeStop { s with status := .triggered }).run (b.deleteStop s.orderId)).1.isOk = true
  call : ∀ c e, (Go.call b c).1 = .error e → b.begins c = true → e = limitError

theorem FitRun.stopsExecute (h : FitRun b) (hnow : ∀ n, 0 ≤ b.now n) : StopsExecute b := by
  obtain ⟨v, hv, hfit⟩ := h.fit
  refine ⟨fun s hs => ?_, fun c e he hc => call_limit_error hv hfit hnow hc he⟩
  obtain ⟨⟨F, hr⟩, -⟩ := id hv
  rw [hr.filterMap_stops] at hs
  obtain ⟨k, hk⟩ := OMap.mem_values.mp hs
  exact executeStop_ok hv hk (hfit s hs) (hnow 0)

end

end Lob.Go
