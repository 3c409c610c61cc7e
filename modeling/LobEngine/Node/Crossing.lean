import LobEngine.Node.OrderBook

/-!
# The book is never crossed

Every bid price is below every ask price, after any call with any arguments, returned or thrown.
Only the keys of the two sides matter: matching deletes keys, and an order comes to rest only when
matching stopped because no opposite price was acceptable (`Blocked`).

* `matchBySide_blocked`: where matching a limit order stops.
* `call_uncrossed`: one call.
* `never_crossed`: any calls on an empty book.
-/

namespace Lob.Node

open Exc OrderBook

/-- Every bid price is below every ask price. -/
def Uncrossed (b : OrderBook) : Prop := ∀ p ∈ b.bids.keys, ∀ q ∈ b.asks.keys, p < q

/-- The order of node `r` has nothing left, or no opposite price is acceptable to it. -/
def Blocked (r : NodeRef) (b : OrderBook) : Prop :=
  (b.order r).remainingQuantity ≤ 0 ∨
    ∀ q ∈ (b.side (b.order r).side.opposite).keys,
      (b.order r).side.accepts (b.order r).price q = false

/-- The side and the price of the order of node `r`. -/
def Priced (r : NodeRef) (s : Side) (p : Int) (h : Heap) : Prop :=
  (h.order r).side = s ∧ (h.order r).price = p

section Heap

variable {r x : NodeRef} {s : Side} {p : Int} {l : LevelRef} {q : Int}

theorem keeps_priced_fill : Keeps (Priced r s p) (fill x q) :=
  keeps_ofOrder_fill (P := fun o => o.side = s ∧ o.price = p) fun _ _ h => h

theorem keeps_priced_decrease : Keeps (Priced r s p) (decreaseTotalQuantity l q) :=
  keeps_ofOrder_decrease (P := fun o => o.side = s ∧ o.price = p)

theorem keeps_priced_remove : Keeps (Priced r s p) (remove l x) :=
  keeps_ofOrder_remove (P := fun o => o.side = s ∧ o.price = p)

end Heap

/-! ## Deleting and adding a price -/

theorem Uncrossed.delete {b : OrderBook} (h : Uncrossed b) (s : Side) (p : Int) :
    Uncrossed (b.setSide s ((b.side s).delete p)) := by
  cases s
  · exact fun p' hp' q hq => h p' (OMap.keys_delete_subset p' hp') q hq
  · exact fun p' hp' q hq => h p' hp' q (OMap.keys_delete_subset q hq)

/-- A price that no opposite price crosses may be added. -/
theorem Uncrossed.set {b : OrderBook} (h : Uncrossed b) {s : Side} {p : Int} {l : LevelRef}
    (hp : ∀ q ∈ (b.side s.opposite).keys, s.accepts p q = false) :
    Uncrossed (b.setSide s ((b.side s).set p l)) := by
  cases s
  · intro p' hp' q hq
    rcases OMap.mem_keys_set.mp hp' with rfl | hp'
    · simpa [Side.accepts] using hp q hq
    · exact h p' hp' q hq
  · intro p' hp' q hq
    rcases OMap.mem_keys_set.mp hq with rfl | hq
    · simpa [Side.accepts] using hp p' hp'
    · exact h p' hp' q hq

theorem keeps_onHeap {α : Type} {m : Exc JsError Heap α} : Keeps Uncrossed (onHeap m) :=
  fun _ h => h

/-! ## Matching -/

section Match

variable {r : NodeRef} {s : Side} {p : Int}

/-- The book is uncrossed, and node `r` has side `s` and price `p`. -/
def Incoming (r : NodeRef) (s : Side) (p : Int) (b : OrderBook) : Prop :=
  Uncrossed b ∧ Priced r s p b.toHeap

theorem keeps_incoming_onHeap {α : Type} {m : Exc JsError Heap α} (hm : Keeps (Priced r s p) m) :
    Keeps (Incoming r s p) (onHeap m) := fun b h => ⟨h.1, hm b.toHeap h.2⟩

theorem keeps_dropFilled {t : Side} {l : LevelRef} {x : NodeRef} (best : Int) :
    Keeps (Incoming r s p) (dropFilled t l x best) := by
  refine Keeps.get.bind fun b => Keeps.bind ?_ fun _ => Keeps.get.bind fun b => ?_
  · exact ((keeps_incoming_onHeap keeps_priced_remove).bind fun _ => Keeps.modify fun _ h => by exact h).ite
      (Keeps.pure ())
  · refine Keeps.ite (Keeps.modify fun b h => ⟨h.1.delete _ _, ?_⟩) (Keeps.pure ())
    cases t <;> exact h.2

theorem keeps_matchBest (best : Int) : Keeps (Incoming r s p) (matchBest s r best) := by
  refine Keeps.get.bind fun b => ?_
  split
  · exact Keeps.throw _
  split
  · exact Keeps.throw _
  exact (keeps_incoming_onHeap keeps_priced_fill).bind fun _ =>
    (keeps_incoming_onHeap keeps_priced_fill).bind fun _ =>
    (keeps_incoming_onHeap keeps_priced_decrease).bind fun _ =>
    (Keeps.modify fun _ h => by exact h).bind fun _ => (keeps_dropFilled best).bind fun _ => Keeps.pure _

/-- The best price of a side is at least as good as all others. -/
theorem bestPriceTicks_none {b : OrderBook} {s : Side} :
    b.bestPriceTicks s = none ↔ (b.side s).keys = [] := by
  cases s
  · exact List.max?_eq_none_iff
  · exact List.min?_eq_none_iff

theorem bestPriceTicks_some {b : OrderBook} {s : Side} {p : Int} :
    b.bestPriceTicks s = some p ↔ p ∈ (b.side s).keys ∧ ∀ q ∈ (b.side s).keys, s.rank p ≤ s.rank q := by
  cases s
  · refine List.max?_eq_some_iff.trans (and_congr_right fun _ => forall₂_congr fun q _ => ?_)
    simp [Side.rank]
  · exact List.min?_eq_some_iff

/-- If the best opposite price is not acceptable, none is. -/
theorem blocked_of_best {b : OrderBook} {s : Side} {limit best : Int}
    (hb : b.bestPriceTicks s.opposite = some best) (ha : s.accepts limit best = false) :
    ∀ q ∈ (b.side s.opposite).keys, s.accepts limit q = false := by
  intro q hq
  rw [Bool.eq_false_iff, Ne, Side.accepts_iff] at ha ⊢
  exact fun h => ha (((bestPriceTicks_some.mp hb).2 q hq).trans h)

/-- Where the loop stops: the order is blocked, unless its price is ignored. -/
theorem matchLoop_blocked (ignore : Bool) (fuel : Nat) (b : OrderBook) (hb : Incoming r s p b) :
    (matchLoop s r ignore fuel).Post b fun res b' =>
      Uncrossed b' ∧ ∀ ts, res = .ok ts → ignore = false → Blocked r b' := by
  induction fuel generalizing b with
  | zero => exact ⟨hb.1, fun ts h => (by cases h)⟩
  | succ fuel ih =>
    refine Post.get ?_
    split
    · next hrem => exact Post.pure ⟨hb.1, fun _ _ _ => .inl hrem⟩
    split
    · next hnone =>
      refine Post.pure ⟨hb.1, fun _ _ _ => .inr fun q hq => ?_⟩
      rw [show (b.order r).side = s from hb.2.1, bestPriceTicks_none.mp hnone] at hq
      cases hq
    · next best hbest =>
      split
      · next hacc =>
        refine Post.pure ⟨hb.1, fun _ _ hi => .inr ?_⟩
        rw [show (b.order r).side = s from hb.2.1]
        simp only [hi, Bool.not_false, Bool.true_and, Bool.not_eq_true'] at hacc
        exact blocked_of_best hbest hacc
      · refine (keeps_matchBest best).bind_post hb (fun t b₁ hb₁ => ?_)
          (fun e b₁ hb₁ => ⟨hb₁.1, fun _ h => (by cases h)⟩)
        refine (ih b₁ hb₁).bind (fun ts b₂ h₂ => ⟨h₂.1, fun _ _ hi => h₂.2 ts rfl hi⟩)
          (fun e b₂ h₂ => ⟨h₂.1, fun _ h => (by cases h)⟩)

theorem matchBySide_blocked (ignore : Bool) (b : OrderBook) (hb : Uncrossed b) :
    (matchBySide r ignore).Post b fun res b' =>
      Uncrossed b' ∧ ∀ ts, res = .ok ts → ignore = false → Blocked r b' := by
  refine Post.get ?_
  split
  · next hs => exact matchLoop_blocked ignore _ b ⟨hb, hs, rfl⟩
  · next hs => exact matchLoop_blocked ignore _ b ⟨hb, hs, rfl⟩

theorem keeps_matchBySide (ignore : Bool) : Keeps Uncrossed (matchBySide r ignore) :=
  fun b hb => (matchBySide_blocked ignore b hb).mono fun _ _ h => h.1

end Match

/-! ## Resting -/

/-- An order that is blocked may come to rest. -/
theorem restIfActive_uncrossed {r : NodeRef} {b : OrderBook} (hb : Uncrossed b) (hr : Blocked r b) :
    (restIfActive r).Post b fun _ b' => Uncrossed b' := by
  refine Post.get ?_
  unfold when
  split
  case isFalse => exact hb
  next hact =>
  obtain hr := hr.resolve_left (by omega)
  refine Post.bind (Q := fun _ b' => Uncrossed b') ?_ (fun _ _ h => h) (fun _ _ h => h)
  refine Post.get ?_
  dsimp only
  split
  · exact hb
  refine Post.bind (Q := fun _ b' => Uncrossed b') ?_
    (fun l b' hb' => (keeps_onHeap.bind fun _ => Keeps.modify fun _ h => by exact h) b' hb') (fun _ _ h => h)
  refine Post.get ?_
  split
  · exact hb
  · dsimp only
    split
    · exact hb
    · exact Uncrossed.set (b := { b with toHeap := b.newLevel (b.order r).price }) hb hr

/-- Matching a limit order, then resting what is left of it. -/
theorem keeps_match_rest {α : Type} {r : NodeRef} {f : List Trade → Program α}
    {g : List Trade → Program Unit}
    (hg : ∀ ts b, Uncrossed b → Blocked r b → (g ts).Post b fun _ b' => Uncrossed b')
    (hf : ∀ ts, Keeps Uncrossed (f ts)) :
    Keeps Uncrossed (matchBySide r false >>= fun ts => g ts >>= fun _ => f ts) := by
  intro b hb
  refine (matchBySide_blocked false b hb).bind (fun ts b' h => ?_) (fun _ _ h => h.1)
  exact (hg ts b' h.1 (h.2 ts rfl rfl)).bind (fun _ b'' h => hf ts b'' h) (fun _ _ h => h)

/-! ## The other programs -/

theorem keeps_now : Keeps Uncrossed now :=
  Keeps.get.bind fun _ => (Keeps.modify fun _ h => by exact h).bind fun _ => Keeps.pure _

theorem keeps_newOrderNode {i : OrderInput} : Keeps Uncrossed (newOrderNode i) :=
  (Keeps.lift _).bind fun _ => Keeps.get.bind fun _ => (Keeps.modify fun _ h => by exact h).bind fun _ =>
    Keeps.pure _

theorem keeps_cancelRemainder {r : NodeRef} : Keeps Uncrossed (cancelRemainder r) :=
  Keeps.get.bind fun _ => keeps_onHeap.ite (Keeps.pure ())

theorem keeps_createBookUpdatedEvent : Keeps Uncrossed createBookUpdatedEvent :=
  Keeps.get.bind fun _ => keeps_now.bind fun _ => Keeps.pure _

theorem keeps_stampEvents {es : List EventBody} : Keeps Uncrossed (stampEvents es) :=
  Keeps.get.bind fun _ => (Keeps.modify fun _ h => by exact h).bind fun _ => Keeps.pure _

theorem keeps_executeTriggeredStopOrder (s : StopOrder) :
    Keeps Uncrossed (executeTriggeredStopOrder s) := by
  refine Keeps.get.bind fun b => Keeps.ite ?_ (Keeps.ite ?_ (Keeps.throw _))
  · exact keeps_now.bind fun _ => keeps_newOrderNode.bind fun _ => (keeps_matchBySide _).bind fun _ =>
      keeps_cancelRemainder.bind fun _ => Keeps.get.bind fun _ => Keeps.pure _
  · exact keeps_now.bind fun _ => keeps_newOrderNode.bind fun _ =>
      keeps_match_rest (fun _ _ => restIfActive_uncrossed) fun _ => Keeps.get.bind fun _ => Keeps.pure _

theorem keeps_triggerAll (ss : List StopOrder) : Keeps Uncrossed (triggerAll ss) := by
  induction ss with
  | nil => exact Keeps.pure _
  | cons s ss ih =>
    exact (Keeps.modify fun _ h => by exact h).bind fun _ => (keeps_executeTriggeredStopOrder _).bind fun _ =>
      ih.bind fun _ => Keeps.pure _

theorem keeps_updateTrailingStopOrders : Keeps Uncrossed updateTrailingStopOrders := by
  refine Keeps.get.bind fun b => ?_
  split
  · exact Keeps.pure ()
  · exact Keeps.modify fun _ h => h

theorem keeps_getEligibleStopOrders : Keeps Uncrossed getEligibleStopOrders := by
  refine Keeps.get.bind fun b => ?_
  split
  · exact Keeps.pure _
  · exact Keeps.lift _

theorem keeps_cascade (cycles : Nat) (ts : List Trade) : Keeps Uncrossed (cascade cycles ts) := by
  induction cycles generalizing ts with
  | zero =>
    unfold cascade
    split
    · exact Keeps.pure _
    · exact Keeps.throw _
  | succ cycles ih =>
    unfold cascade
    split
    · exact Keeps.pure _
    · exact (Keeps.modify fun _ h => by exact h).bind fun _ => keeps_updateTrailingStopOrders.bind fun _ =>
        keeps_getEligibleStopOrders.bind fun _ => (Keeps.pure _).ite
          ((keeps_triggerAll _).bind fun _ => (ih _).bind fun _ => Keeps.pure _)

theorem keeps_acceptStop (s : StopOrder) : Keeps Uncrossed (acceptStop s) :=
  (Keeps.modify fun _ h => by exact h).bind fun _ => keeps_createBookUpdatedEvent.bind fun _ =>
    keeps_stampEvents.bind fun _ => Keeps.pure _

/-- The start of every place method. -/
theorem keeps_checked {α : Type} {args : Option Payload} {f : Payload → Program α}
    (hf : ∀ p, Keeps Uncrossed (f p)) :
    Keeps Uncrossed (destructure args >>= fun p => assertOrderIdAvailable p.orderId >>= fun _ => f p) := by
  refine Keeps.bind ?_ fun p => Keeps.bind ?_ fun _ => hf p
  · cases args
    · exact Keeps.throw _
    · exact Keeps.pure _
  · exact Keeps.get.bind fun _ => (Keeps.throw _).ite (Keeps.pure ())

theorem keeps_cancelOrder (orderId : JsVal) : Keeps Uncrossed (cancelOrder orderId) := by
  refine Keeps.get.bind fun b => ?_
  split
  · exact (Keeps.modify fun _ h => by exact h).bind fun _ => keeps_createBookUpdatedEvent.bind fun _ =>
      Keeps.pure _
  split
  · exact Keeps.throw _
  refine Keeps.get.bind fun b => Keeps.ite (Keeps.throw _) ?_
  split
  · exact Keeps.throw _
  refine Keeps.bind ?_ fun _ => Keeps.get.bind fun _ => keeps_createBookUpdatedEvent.bind fun _ =>
    keeps_stampEvents.bind fun _ => Keeps.pure _
  exact keeps_onHeap.bind fun _ => keeps_onHeap.bind fun _ => (Keeps.modify fun _ h => by exact h).bind fun _ =>
    Keeps.get.bind fun b => Keeps.ite (Keeps.modify fun b h => h.delete _ _) (Keeps.pure ())

/-! ## Calls -/

theorem call_uncrossed {b : OrderBook} (h : Uncrossed b) (c : Call) : Uncrossed (call b c).2 := by
  suffices hk : Keeps Uncrossed c.program from hk b h
  cases c with
  | placeLimitOrder args =>
    refine keeps_checked fun p => Keeps.get.bind fun b => keeps_newOrderNode.bind fun r => ?_
    intro b hb
    refine (matchBySide_blocked false b hb).bind (fun ts b' h => ?_) (fun _ _ h => h.1)
    refine Post.get ((restIfActive_uncrossed h.1 (h.2 ts rfl rfl)).bind (fun _ b'' hb'' => ?_)
      (fun _ _ h => h))
    exact ((keeps_cascade _ _).bind fun _ => keeps_createBookUpdatedEvent.bind fun _ =>
      keeps_stampEvents.bind fun _ => Keeps.get.bind fun _ => Keeps.pure _) b'' hb''
  | placeMarketOrder args =>
    exact keeps_checked fun p => Keeps.get.bind fun b => keeps_newOrderNode.bind fun r =>
      (keeps_matchBySide _).bind fun _ => keeps_cancelRemainder.bind fun _ => Keeps.get.bind fun _ =>
      (keeps_cascade _ _).bind fun _ => keeps_createBookUpdatedEvent.bind fun _ =>
      keeps_stampEvents.bind fun _ => Keeps.get.bind fun _ => Keeps.pure _
  | placeStopMarketOrder args =>
    exact keeps_checked fun p => Keeps.get.bind fun b => keeps_acceptStop _
  | placeStopLimitOrder args =>
    exact keeps_checked fun p => Keeps.get.bind fun b => keeps_acceptStop _
  | placeTrailingStopMarketOrder args =>
    refine keeps_checked fun p => Keeps.get.bind fun b => ?_
    split
    · exact Keeps.throw _
    · exact (Keeps.lift _).bind fun _ => keeps_acceptStop _
  | cancelOrder orderId => exact keeps_cancelOrder orderId

theorem calls_uncrossed {b : OrderBook} (h : Uncrossed b) (cs : List Call) :
    Uncrossed (calls b cs) := by
  unfold calls
  induction cs generalizing b with
  | nil => exact h
  | cons c cs ih => exact ih (call_uncrossed h c)

/-- After any calls with any arguments on an empty book, whether they return or throw, a side is
empty or the best bid is below the best ask. -/
theorem never_crossed (symbol : String) (clock : Clock) (cs : List Call) :
    let b := calls (.new symbol clock) cs
    b.bids.size = 0 ∨ b.asks.size = 0 ∨
      ∃ bid ask, b.getBestBidPriceTicks = some bid ∧ b.getBestAskPriceTicks = some ask ∧ bid < ask := by
  intro b
  have h : Uncrossed b := calls_uncrossed (fun p hp => by cases hp) cs
  cases hbid : b.bestPriceTicks .buy with
  | none =>
    left
    have := bestPriceTicks_none.mp hbid
    rw [OMap.size_eq_zero]
    exact fun k => OMap.get?_eq_none.mpr (by rw [show b.bids.keys = [] from this]; simp)
  | some bid =>
    cases hask : b.bestPriceTicks .sell with
    | none =>
      right; left
      have := bestPriceTicks_none.mp hask
      rw [OMap.size_eq_zero]
      exact fun k => OMap.get?_eq_none.mpr (by rw [show b.asks.keys = [] from this]; simp)
    | some ask =>
      exact .inr (.inr ⟨bid, ask, hbid, hask,
        h bid (bestPriceTicks_some.mp hbid).1 ask (bestPriceTicks_some.mp hask).1⟩)

end Lob.Node
