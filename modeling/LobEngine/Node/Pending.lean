import LobEngine.Node.Cascade
import LobEngine.Node.Reachable

/-!
# The pending stop orders of a run

A call trails, deletes and adds pending stop orders, and does nothing else to them: `Dwindling.call` says so for
any property of the pending stop orders, for calls that return and calls that throw.

* `OrderBook.stopOf`: the stop order that a call adds.
* `Ran`: the books of all runs, also where numbers are not exact.
* `Ran.keyed`: a pending stop order is found under its id.
-/

namespace Lob.Node

open Exc OrderBook

/-- The stop order that a call adds to the pending ones, if it returns. -/
def OrderBook.stopOf (b : OrderBook) : Call → Option StopOrder
  | .placeStopMarketOrder (some p) => some { p with
      symbol := b.symbol, type := .stopMarket, priceTicks := .null, remainingQuantity := p.quantity
      status := .opened, trailingAmountTicks := none, peakPriceTicks := none, valleyPriceTicks := none }
  | .placeStopLimitOrder (some p) => some { p with
      symbol := b.symbol, type := .stopLimit, remainingQuantity := p.quantity
      status := .opened, trailingAmountTicks := none, peakPriceTicks := none, valleyPriceTicks := none }
  | .placeTrailingStopMarketOrder (some p) =>
    match b.lastTradePriceTicks, assertPositiveInteger "trailingAmountTicks" p.trailingAmountTicks with
    | some last, .ok amount => some { p with
        symbol := b.symbol, type := .trailingStopMarket, priceTicks := .null
        remainingQuantity := p.quantity, status := .opened
        triggerPriceTicks := .num (.ofInt
          (if p.side = .str (sideText .sell) then last - amount else last + amount))
        trailingAmountTicks := some amount
        peakPriceTicks := if p.side = .str (sideText .sell) then some last else none
        valleyPriceTicks := if p.side = .str (sideText .buy) then some last else none }
    | _, _ => none
  | _ => none

/-- The call places an order that is executed at once. -/
def Call.executes : Call → Bool
  | .placeLimitOrder _ | .placeMarketOrder _ => true
  | _ => false

/-- A stop order is found under its id. -/
def Keyed (m : OMap JsVal StopOrder) : Prop := ∀ k s, m.get? k = some s → s.orderId = k

/-- The books that calls and restarts lead to. -/
inductive Ran : OrderBook → Prop
  | new (symbol : String) (clock : Clock) (valid : isBlank symbol = false) : Ran (OrderBook.new symbol clock)
  | call {b : OrderBook} (c : Call) (h : Ran b) : Ran (Node.call b c).2
  | restore {b b' : OrderBook} (h : Ran b) (id : Option String) (clock : Clock)
    (restored : fromRecoverySnapshot (b.toRecoverySnapshot id) clock = (.ok (), b')) : Ran b'

theorem Reachable.ran {b : OrderBook} (h : Reachable b) : Ran b := by
  induction h with
  | new symbol clock valid => exact .new symbol clock valid
  | call c h exact ih => exact .call c ih
  | restore h id clock ih => exact .restore ih id clock (Prod.ext (restore_ok h id clock) rfl)

/-! ## Properties of the pending stop orders -/

section

variable {b b' : OrderBook} {c : Call} {r : Result}

/-- The pending stop orders have the property `I`. -/
def OfStops (I : OMap JsVal StopOrder → Prop) (b : OrderBook) : Prop := I b.stopOrdersById

theorem Aside.keeps {I : OMap JsVal StopOrder → Prop} {α : Type} {p : Program α}
    (hp : ∀ b₀, Keeps (Aside b₀) p) : Keeps (OfStops I) p := fun b hb => by
  have h := hp b b (.refl b)
  unfold OfStops Post at *
  dsimp only at h ⊢
  rw [h.stops]
  exact hb

variable {I : OMap JsVal StopOrder → Prop}

theorem stops_executeTriggered (s : StopOrder) : Keeps (OfStops I) (executeTriggeredStopOrder s) := by
  have hnow : Keeps (OfStops I) now := Keeps.get.bind fun _ => (Keeps.modify fun _ h => by exact h).bind
    fun _ => Keeps.pure _
  refine Keeps.get.bind fun b => Keeps.ite ?_ (Keeps.ite ?_ (Keeps.throw _))
  · exact hnow.bind fun _ => (Aside.keeps fun _ => aside_newOrderNode).bind fun _ =>
      (Aside.keeps fun _ => aside_matchBySide _).bind fun _ =>
      (Aside.keeps fun _ => aside_cancelRemainder).bind fun _ => Keeps.get.bind fun _ => Keeps.pure _
  · exact hnow.bind fun _ => (Aside.keeps fun _ => aside_newOrderNode).bind fun _ =>
      (Aside.keeps fun _ => aside_matchBySide _).bind fun _ =>
      (Aside.keeps fun _ => aside_restIfActive).bind fun _ => Keeps.get.bind fun _ => Keeps.pure _

theorem stops_triggerAll (hdelete : ∀ m k, I m → I (m.delete k)) (ss : List StopOrder) :
    Keeps (OfStops I) (triggerAll ss) := by
  induction ss with
  | nil => exact Keeps.pure _
  | cons s ss ih =>
    refine Keeps.bind (Keeps.modify fun b hb => hdelete _ _ hb) fun _ => ?_
    exact (stops_executeTriggered _).bind fun _ => ih.bind fun _ => Keeps.pure _

theorem stops_now : Keeps (OfStops I) now :=
  Keeps.get.bind fun _ => (Keeps.modify fun _ h => by exact h).bind fun _ => Keeps.pure _

theorem stops_updated : Keeps (OfStops I) createBookUpdatedEvent :=
  Keeps.get.bind fun _ => stops_now.bind fun _ => Keeps.pure _

theorem stops_stampEvents (es : List EventBody) : Keeps (OfStops I) (stampEvents es) :=
  Keeps.get.bind fun _ => (Keeps.modify fun _ h => by exact h).bind fun _ => Keeps.pure _

/-- The checks before a placement. -/
theorem stops_checked {α : Type} {args : Option Payload} {f : Payload → Program α}
    (hf : ∀ p, args = some p → b.stopOrdersById.get? p.orderId = none → (f p).Post b fun _ b' => OfStops I b')
    (hb : OfStops I b) :
    (destructure args >>= fun p => assertOrderIdAvailable p.orderId >>= fun _ => f p).Post b
      fun _ b' => OfStops I b' := by
  cases args with
  | none => exact hb
  | some p =>
    unfold Post
    rw [show destructure (some p) = pure p from rfl, run_pure_bind, assertOrderIdAvailable, run_bind_assoc,
      run_get_bind]
    by_cases hid : (b.ordersById.has p.orderId || b.stopOrdersById.has p.orderId) = true
    · rw [if_pos hid]
      exact hb
    · rw [if_neg hid, run_pure_bind]
      refine hf p rfl (OMap.has_eq_false.mp ?_)
      rw [Bool.not_eq_true, Bool.or_eq_false_iff] at hid
      exact hid.2

/-- A call that executes no order only adds or deletes a pending stop order. -/
theorem stops_call (hdelete : ∀ m k, I m → I (m.delete k)) (hc : c.executes = false)
    (hb : I b.stopOrdersById)
    (hset : ∀ s, b.stopOf c = some s → b.stopOrdersById.get? s.orderId = none →
      I (b.stopOrdersById.set s.orderId s)) :
    I (Node.call b c).2.stopOrdersById := by
  have haccept : ∀ s : StopOrder, b.stopOf c = some s → b.stopOrdersById.get? s.orderId = none →
      (acceptStop s).Post b fun _ b' => OfStops I b' := by
    intro s hs hfree
    refine Post.modify ?_
    exact (stops_updated.bind fun _ => (stops_stampEvents _).bind fun _ => Keeps.pure _) _ (hset s hs hfree)
  cases c with
  | placeLimitOrder args => cases hc
  | placeMarketOrder args => cases hc
  | placeStopMarketOrder args =>
    refine stops_checked (fun p hp hfree => ?_) hb
    subst hp
    exact Post.get (haccept _ rfl hfree)
  | placeStopLimitOrder args =>
    refine stops_checked (fun p hp hfree => ?_) hb
    subst hp
    exact Post.get (haccept _ rfl hfree)
  | placeTrailingStopMarketOrder args =>
    refine stops_checked (fun p hp hfree => ?_) hb
    subst hp
    refine Post.get ?_
    cases hl : b.lastTradePriceTicks with
    | none => exact hb
    | some last =>
      dsimp only
      unfold Post
      rw [run_lift_bind]
      cases ha : assertPositiveInteger "trailingAmountTicks" p.trailingAmountTicks with
      | error e => exact hb
      | ok amount => exact haccept _ (by simp only [OrderBook.stopOf, hl, ha]) hfree
  | cancelOrder key =>
    show (Node.cancelOrder key).Post b fun _ b' => OfStops I b'
    unfold Node.cancelOrder
    refine Post.get ?_
    cases hs : b.stopOrdersById.get? key with
    | some s =>
      refine Post.modify ?_
      exact (stops_updated.bind fun _ => Keeps.pure _) _ (hdelete _ _ hb)
    | none =>
      dsimp only
      cases hr : b.ordersById.get? key with
      | none => exact hb
      | some r =>
        refine Post.get ?_
        have hunlink : ∀ b₀ o l, Keeps (Aside b₀) (unlink key o r l) := fun b₀ o l =>
          aside_onHeap.bind fun _ => aside_onHeap.bind fun _ =>
            (Keeps.modify fun _ h => by exact ⟨h.stops, h.last, h.symbol, h.sequence⟩).bind fun _ =>
            Keeps.get.bind fun _ => Keeps.ite
              (Keeps.modify fun b h => h.trans (Aside.setSide b _ _)) (Keeps.pure ())
        dsimp only
        split
        · exact hb
        · split
          · exact hb
          · exact ((Aside.keeps fun b₀ => hunlink b₀ _ _).bind fun _ => Keeps.get.bind fun _ =>
              stops_updated.bind fun _ => (stops_stampEvents _).bind fun _ => Keeps.pure _) b hb

/-- The property is kept when the pending stop orders follow a price, and when one of them goes. -/
structure Dwindling (I : OMap JsVal StopOrder → Prop) : Prop where
  trail : ∀ m last, I m → I (m.mapValues (trail last))
  delete : ∀ m k, I m → I (m.delete k)

namespace Dwindling

variable (h : Dwindling I)
include h

theorem cascade (limit : Nat) (ts : List Trade) : Keeps (OfStops I) (cascade limit ts) := by
  induction limit generalizing ts with
  | zero =>
    unfold Node.cascade
    cases ts.getLast? with
    | none => exact Keeps.pure _
    | some t => exact Keeps.throw _
  | succ limit ih =>
    unfold Node.cascade
    cases ts.getLast? with
    | none => exact Keeps.pure _
    | some t =>
      refine Keeps.bind (Keeps.modify fun _ hb => by exact hb) fun _ => Keeps.bind ?_ fun _ => Keeps.bind ?_
        fun es => ?_
      · refine Keeps.get.bind fun b => ?_
        cases b.lastTradePriceTicks with
        | none => exact Keeps.pure _
        | some last => exact Keeps.modify fun b hb => h.trail _ _ hb
      · refine Keeps.get.bind fun b => ?_
        cases b.lastTradePriceTicks with
        | none => exact Keeps.pure _
        | some last => exact Keeps.lift _
      · exact Keeps.ite (Keeps.pure _) ((stops_triggerAll h.delete _).bind fun _ => (ih _).bind fun _ => Keeps.pure _)

/-- A call keeps a property of the pending stop orders, if the stop order that it adds does. -/
theorem call (c : Call) (hb : I b.stopOrdersById)
    (hset : ∀ s, b.stopOf c = some s → b.stopOrdersById.get? s.orderId = none →
      I (b.stopOrdersById.set s.orderId s)) :
    I (Node.call b c).2.stopOrdersById := by
  cases c with
  | placeLimitOrder args =>
    refine stops_checked (fun p hp _ => ?_) hb
    refine Post.get ?_
    refine ((Aside.keeps fun _ => aside_newOrderNode).bind fun r =>
      (Aside.keeps fun _ => aside_matchBySide _).bind fun ts => Keeps.get.bind fun b₁ =>
      (Aside.keeps fun _ => aside_restIfActive).bind fun _ => (h.cascade _ _).bind fun t =>
      stops_updated.bind fun u => (stops_stampEvents _).bind fun es => Keeps.get.bind fun _ => Keeps.pure _) b hb
  | placeMarketOrder args =>
    refine stops_checked (fun p hp _ => ?_) hb
    refine Post.get ?_
    refine ((Aside.keeps fun _ => aside_newOrderNode).bind fun r =>
      (Aside.keeps fun _ => aside_matchBySide _).bind fun ts =>
      (Aside.keeps fun _ => aside_cancelRemainder).bind fun _ => Keeps.get.bind fun b₁ =>
      (h.cascade _ _).bind fun t =>
      stops_updated.bind fun u => (stops_stampEvents _).bind fun es => Keeps.get.bind fun _ => Keeps.pure _) b hb
  | _ => exact stops_call h.delete rfl hb hset

end Dwindling

/-! ## Ids -/

theorem keyed_dwindling : Dwindling Keyed where
  trail := fun m last h k s hs => by
    rw [OMap.get?_mapValues, Option.map_eq_some_iff] at hs
    obtain ⟨s₀, hs₀, rfl⟩ := hs
    rw [(trail_same last s₀).1]
    exact h k s₀ hs₀
  delete := fun m key h k s hs => by
    rw [OMap.get?_delete] at hs
    split at hs
    · cases hs
    · exact h k s hs

theorem keyed_set {m : OMap JsVal StopOrder} (h : Keyed m) (s : StopOrder) : Keyed (m.set s.orderId s) := by
  intro k t ht
  rw [OMap.get?_set] at ht
  split at ht
  · next hk =>
    rw [hk]
    exact congrArg _ (Option.some.inj ht).symm
  · exact h k t ht

/-- Restoring a book touches no pending stop order before the end. -/
theorem aside_restoreOrder {b₀ : OrderBook} (l : LevelRef) (o : Order) :
    Keeps (Aside b₀) (restoreOrder l o) := by
  unfold restoreOrder
  refine Keeps.ite (Keeps.pure _) ?_
  refine aside_newOrderNode.bind fun _ => Keeps.bind ?_ fun _ => aside_onHeap.bind fun _ =>
    Keeps.bind ?_ fun _ => ?_
  all_goals exact Keeps.modify fun _ h => ⟨h.stops, h.last, h.symbol, h.sequence⟩

theorem aside_restoreOrders {b₀ : OrderBook} (l : LevelRef) (os : List Order) :
    Keeps (Aside b₀) (restoreOrders l os) := by
  induction os with
  | nil => exact Keeps.pure _
  | cons o os ih => exact (aside_restoreOrder l o).bind fun _ => ih

theorem aside_restoreSide {b₀ : OrderBook} (s : Side) (vs : List RecoveryLevel) :
    Keeps (Aside b₀) (restoreBookSideFromRecoverySnapshot s vs) := by
  induction vs with
  | nil => exact Keeps.pure _
  | cons v vs ih =>
    refine Keeps.bind ?_ fun _ => ih
    refine Keeps.get.bind fun b => Keeps.ite (Keeps.throw _) ?_
    refine Keeps.bind (Keeps.modify fun _ h => by exact ⟨h.stops, h.last, h.symbol, h.sequence⟩) fun _ => ?_
    refine (aside_restoreOrders _ _).bind fun _ => Keeps.get.bind fun b' => ?_
    exact Keeps.ite (Keeps.modify fun b h => h.trans (Aside.setSide b _ _)) (Keeps.pure ())

/-- A restored book has the pending stop orders of the book, and its last price. -/
theorem restored_stops (hk : Keyed b.stopOrdersById) {id : Option String} {clock : Clock}
    (h : fromRecoverySnapshot (b.toRecoverySnapshot id) clock = (.ok (), b')) :
    b'.stopOrdersById = b.stopOrdersById ∧ b'.lastTradePriceTicks = b.lastTradePriceTicks ∧
      b'.symbol = b.symbol := by
  unfold fromRecoverySnapshot at h
  split at h
  · cases h
  · obtain ⟨_, b₁, h₁, h⟩ := bind_ok h
    obtain ⟨_, b₂, h₂, h⟩ := bind_ok h
    cases h
    have ha := (aside_restoreSide .sell _).of_run ((aside_restoreSide .buy _).of_run (Aside.refl _) h₁) h₂
    refine ⟨?_, ha.last, ha.symbol⟩
    show List.foldl _ b₂.stopOrdersById b.stopOrdersById.values = _
    rw [ha.stops]
    exact OMap.foldl_set_values hk

theorem Ran.keyed (h : Ran b) : Keyed b.stopOrdersById := by
  induction h with
  | new symbol clock valid => exact fun k s hs => by cases hs
  | call c h ih => exact keyed_dwindling.call c ih fun s _ _ => keyed_set ih s
  | restore h id clock restored ih =>
    rw [(restored_stops ih restored).1]
    exact ih

/-! ## Placements -/

theorem available_ok {id : JsVal} {u : Unit} (h : (assertOrderIdAvailable id).run b = (.ok u, b')) :
    b' = b ∧ b.ordersById.get? id = none ∧ b.stopOrdersById.get? id = none := by
  unfold assertOrderIdAvailable at h
  rw [run_get_bind] at h
  split at h
  · cases h
  · next hid =>
    rw [Bool.not_eq_true, Bool.or_eq_false_iff] at hid
    exact ⟨(congrArg Prod.snd h).symm, OMap.has_eq_false.mp hid.1, OMap.has_eq_false.mp hid.2⟩

/-- A placement that returned: its argument, and its id was free. -/
theorem placed_ok {args : Option Payload} {f : Payload → Program Result}
    (h : (destructure args >>= fun p => assertOrderIdAvailable p.orderId >>= fun _ => f p).run b =
      (.ok r, b')) : ∃ p, args = some p ∧ (assertOrderIdAvailable p.orderId).run b = (.ok (), b) ∧
        (f p).run b = (.ok r, b') := by
  cases args with
  | none => cases h
  | some p =>
    obtain ⟨_, b₁, hp, h⟩ := bind_ok h
    cases hp
    obtain ⟨_, b₁, hb₁, h⟩ := bind_ok h
    have hb := (available_ok hb₁).1
    rw [hb] at hb₁ h
    exact ⟨p, rfl, hb₁, h⟩

/-- A call that places a stop order: it returns if the id is free, and the stop order is pending then. -/
theorem stopOf_call {s : StopOrder} (hs : b.stopOf c = some s) :
    (b.stopOrdersById.get? s.orderId = none ∧ (∃ r, (call b c).1 = .ok r) ∧
      (call b c).2.stopOrdersById = b.stopOrdersById.set s.orderId s) ∨
    (∃ e, call b c = (.error e, b)) := by
  have hplace : ∀ (p : Payload) (f : Payload → Program Result), s.orderId = p.orderId →
      (f p).run b = (acceptStop s).run b → call b c = (destructure (some p) >>= fun p =>
        assertOrderIdAvailable p.orderId >>= fun _ => f p).run b →
      (b.stopOrdersById.get? s.orderId = none ∧ (∃ r, (call b c).1 = .ok r) ∧
        (call b c).2.stopOrdersById = b.stopOrdersById.set s.orderId s) ∨
      (∃ e, call b c = (.error e, b)) := by
    intro p f hid hf hc
    rw [hc, show destructure (some p) = pure p from rfl, run_pure_bind, assertOrderIdAvailable,
      run_bind_assoc, run_get_bind]
    by_cases hfree : (b.ordersById.has p.orderId || b.stopOrdersById.has p.orderId) = true
    · rw [if_pos hfree]
      exact .inr ⟨_, rfl⟩
    · rw [if_neg hfree, run_pure_bind, hf, hid]
      rw [Bool.not_eq_true, Bool.or_eq_false_iff] at hfree
      refine .inl ⟨OMap.has_eq_false.mp hfree.2, ⟨_, rfl⟩, ?_⟩
      rw [← hid]
      rfl
  cases c with
  | placeStopMarketOrder args =>
    cases args with
    | none => cases hs
    | some p =>
      cases hs
      exact hplace p _ rfl rfl rfl
  | placeStopLimitOrder args =>
    cases args with
    | none => cases hs
    | some p =>
      cases hs
      exact hplace p _ rfl rfl rfl
  | placeTrailingStopMarketOrder args =>
    cases args with
    | none => cases hs
    | some p =>
      cases hl : b.lastTradePriceTicks with
      | none => rw [OrderBook.stopOf, hl] at hs; cases hs
      | some last =>
        cases ha : assertPositiveInteger "trailingAmountTicks" p.trailingAmountTicks with
        | error e => rw [OrderBook.stopOf, hl, ha] at hs; cases hs
        | ok amount =>
          rw [OrderBook.stopOf, hl, ha] at hs
          obtain rfl := Option.some.inj hs
          refine hplace p _ rfl ?_ rfl
          rw [run_get_bind, hl]
          dsimp only
          rw [run_lift_bind, ha]
  | cancelOrder key => cases hs
  | placeLimitOrder args => cases hs
  | placeMarketOrder args => cases hs

end

/-- A stop order that was accepted: its id, the last price before, and the prices of all trades since. -/
structure Placement where
  orderId : JsVal
  last : Option Int
  prices : List Int

/-- The prices of the trades of a call, whether it returns or throws. -/
def OrderBook.pricesOf (b : OrderBook) (c : Call) : List Int :=
  ((call b c).2.trades.drop b.trades.length).map (·.priceTicks)

/-- The placements after a call, the latest ones last. -/
def OrderBook.record (b : OrderBook) (c : Call) (ps : List Placement) : List Placement :=
  let ps := ps.map fun p => { p with prices := p.prices ++ b.pricesOf c }
  match b.stopOf c, (call b c).1 with
  | some s, .ok _ => ps.filter (fun p => p.orderId ≠ s.orderId) ++ [⟨s.orderId, b.lastTradePriceTicks, []⟩]
  | _, _ => ps

/-- The book of a run whose calls satisfy `ok`, and the placements of the run. -/
inductive History (ok : OrderBook → Call → Prop) : OrderBook → List Placement → Prop
  | new (symbol : String) (clock : Clock) (valid : isBlank symbol = false) :
    History ok (OrderBook.new symbol clock) []
  | call {b : OrderBook} {ps : List Placement} (c : Call) (h : History ok b ps) (hc : ok b c) :
    History ok (Node.call b c).2 (b.record c ps)
  | restore {b b' : OrderBook} {ps : List Placement} (h : History ok b ps) (id : Option String) (clock : Clock)
    (restored : fromRecoverySnapshot (b.toRecoverySnapshot id) clock = (.ok (), b')) : History ok b' ps

section

variable {ok : OrderBook → Call → Prop} {b : OrderBook} {ps : List Placement} {c : Call}

theorem History.ran (h : History ok b ps) : Ran b := by
  induction h with
  | new symbol clock valid => exact .new symbol clock valid
  | call c h hc ih => exact .call c ih
  | restore h id clock restored ih => exact .restore ih id clock restored

/-- Every run has its history. -/
theorem Ran.history (h : Ran b) : ∃ ps, History (fun _ _ => True) b ps := by
  induction h with
  | new symbol clock valid => exact ⟨[], .new symbol clock valid⟩
  | call c h ih =>
    obtain ⟨ps, hps⟩ := ih
    exact ⟨_, .call c hps trivial⟩
  | restore h id clock restored ih =>
    obtain ⟨ps, hps⟩ := ih
    exact ⟨ps, .restore hps id clock restored⟩

theorem record_same (h : b.stopOf c = none ∨ ∃ e, (call b c).1 = .error e) :
    b.record c ps = ps.map fun p => { p with prices := p.prices ++ b.pricesOf c } := by
  unfold OrderBook.record
  rcases h with h | ⟨e, h⟩
  · rw [h]
  · rw [h]
    cases b.stopOf c <;> rfl

theorem record_placed {s : StopOrder} {r : Result} (hs : b.stopOf c = some s) (hr : (call b c).1 = .ok r) :
    b.record c ps = (ps.map fun p => { p with prices := p.prices ++ b.pricesOf c }).filter
      (fun p => p.orderId ≠ s.orderId) ++ [⟨s.orderId, b.lastTradePriceTicks, []⟩] := by
  unfold OrderBook.record
  rw [hs, hr]

/-- The pending stop orders are in the order of their placement. -/
theorem History.sublist (h : History ok b ps) : b.stopOrdersById.keys.Sublist (ps.map (·.orderId)) := by
  have hdwindling : ∀ ids : List JsVal, Dwindling fun m : OMap JsVal StopOrder => m.keys.Sublist ids := by
    refine fun ids => ⟨fun m last h => ?_, fun m k h => ?_⟩
    · rw [OMap.keys_mapValues]
      exact h
    · rw [OMap.keys_delete]
      exact List.erase_sublist.trans h
  induction h with
  | new symbol clock valid => exact List.Sublist.slnil
  | @call b ps c h hc ih =>
    have hsame : (ps.map fun p => { p with prices := p.prices ++ b.pricesOf c }).map (·.orderId) =
        ps.map (·.orderId) := by
      rw [List.map_map]
      rfl
    cases hs : b.stopOf c with
    | none =>
      rw [record_same (.inl hs), hsame]
      exact (hdwindling _).call c ih fun s hs' _ => by rw [hs] at hs'; cases hs'
    | some s =>
      obtain ⟨hfree, ⟨r, hr⟩, hset⟩ | ⟨e, he⟩ := stopOf_call hs
      · rw [record_placed hs hr, hset, OMap.keys, OMap.entries_set_new s hfree, List.map_append, List.map_append]
        refine List.Sublist.append ?_ (List.Sublist.refl _)
        have hkeys : b.stopOrdersById.keys.filter (· ≠ s.orderId) = b.stopOrdersById.keys := by
          refine List.filter_eq_self.mpr fun k hk => decide_eq_true fun h => ?_
          exact OMap.get?_eq_none.mp hfree (h ▸ hk)
        have hids : ((ps.map fun p => { p with prices := p.prices ++ b.pricesOf c }).filter
            (fun p => p.orderId ≠ s.orderId)).map (·.orderId) =
            (ps.map (·.orderId)).filter (· ≠ s.orderId) := by
          rw [← hsame]
          rw [List.filter_map (f := fun p : Placement => p.orderId)]
          rfl
        rw [hids, ← OMap.keys, ← hkeys]
        exact ih.filter _
      · rw [record_same (.inr ⟨e, congrArg Prod.fst he⟩), hsame, he]
        exact ih
  | restore h id clock restored ih =>
    rw [(restored_stops h.ran.keyed restored).1]
    exact ih

end

end Lob.Node
