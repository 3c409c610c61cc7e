import LobEngine.Node.Reachable

/-!
# Conservation of quantity

Over a whole run, from the call that places it, an order has lost exactly what the trades since then
say: `quantity_conserved`. A stop order keeps its quantity until it triggers, and becomes the order
of one new node then.

* `Ledger`: the invariant for one id. `Tracked`: it holds of the book, kept by every step of a call
  (`Tracked.change`) and by every call, as long as the id is in use (`Tracked.call`).
* `Accounted`: what it says about the book.
-/

namespace Lob.Node

open Exc OrderBook Relation

/-- What the order `id` traded in `ts`. Trades name orders by strings. -/
def tradedBy : JsVal → List Trade → Int
  | .str i, ts => traded i ts
  | _, _ => 0

theorem tradedBy_append (id : JsVal) (ts us : List Trade) :
    tradedBy id (ts ++ us) = tradedBy id ts + tradedBy id us := by
  cases id with
  | str i => exact traded_append i ts us
  | _ => rfl

theorem tradedBy_eq_zero {id : JsVal} {ts : List Trade}
    (h : ∀ t ∈ ts, ∀ i, t.names i → id ≠ .str i) : tradedBy id ts = 0 := by
  cases id with
  | str i => exact traded_eq_zero fun t ht hn => h t ht i hn rfl
  | _ => rfl

/-- An order rests or is pending under `id`. -/
def OrderBook.live (b : OrderBook) (id : JsVal) : Bool := b.ordersById.has id || b.stopOrdersById.has id

/-- The trades since the book was `b₀`. -/
def OrderBook.since (b₀ b : OrderBook) : List Trade := b.trades.drop b₀.trades.length

/-- The order that a call placed on `b₀` under `id`, with the initial quantity `q`, is a pending stop
order, or the order of one node, or it has left before it executed: in each case its quantity is
what it has left and what it traded since then. -/
inductive Accounted (b₀ b : OrderBook) (id : JsVal) (q : Int) : Prop
  | pending (s : StopOrder) (stop : b.stopOrdersById.get? id = some s)
    (quantity : ∃ left, s.remainingQuantity = .num (.int left) ∧ q = left + tradedBy id (b₀.since b))
  | executed (r : NodeRef) (new : b₀.nodes ≤ r ∧ r < b.nodes) (orderId : .str (b.order r).orderId = id)
    (only : ∀ x, b₀.nodes ≤ x → x < b.nodes → .str (b.order x).orderId = id → x = r)
    (initial : (b.order r).initialQuantity = q)
    (quantity : q = (b.order r).remainingQuantity + tradedBy id (b₀.since b))
  | gone (stop : b.stopOrdersById.get? id = none)
    (never : ∀ x, b₀.nodes ≤ x → x < b.nodes → .str (b.order x).orderId ≠ id)
    (quantity : tradedBy id (b₀.since b) = 0)

/-- `Accounted`, with what makes it an invariant: the index leads to the node of the order only. -/
inductive Ledger (b₀ b : OrderBook) (id : JsVal) (q : Int) : Prop
  | pending (s : StopOrder) (stop : b.stopOrdersById.get? id = some s)
    (quantity : s.remainingQuantity = .num (.int q)) (untraded : tradedBy id (b₀.since b) = 0)
    (never : ∀ x, b₀.nodes ≤ x → x < b.nodes → .str (b.order x).orderId ≠ id)
    (index : b.ordersById.get? id = none)
  | executed (r : NodeRef) (stop : b.stopOrdersById.get? id = none) (new : b₀.nodes ≤ r ∧ r < b.nodes)
    (orderId : .str (b.order r).orderId = id)
    (only : ∀ x, b₀.nodes ≤ x → x < b.nodes → .str (b.order x).orderId = id → x = r)
    (initial : (b.order r).initialQuantity = q)
    (quantity : q = (b.order r).remainingQuantity + tradedBy id (b₀.since b))
    (index : ∀ x, b.ordersById.get? id = some x → x = r)
    (keyed : ∀ i, b.ordersById.get? i = some r → i = id)
  | gone (stop : b.stopOrdersById.get? id = none) (untraded : tradedBy id (b₀.since b) = 0)
    (never : ∀ x, b₀.nodes ≤ x → x < b.nodes → .str (b.order x).orderId ≠ id)
    (index : b.ordersById.get? id = none)

section

variable {b₀ b b' : OrderBook} {id : JsVal} {q : Int} {Y : String} {ts : List Trade}

theorem Ledger.accounted (h : Ledger b₀ b id q) : Accounted b₀ b id q := by
  cases h with
  | pending s stop quantity untraded => exact .pending s stop ⟨q, quantity, by rw [untraded]; omega⟩
  | executed r stop new orderId only initial quantity =>
    exact .executed r new orderId only initial quantity
  | gone stop untraded never => exact .gone stop never untraded

/-- The trades are a list that grows. -/
theorem since_append (hn : b₀.trades.length ≤ b.trades.length) (ht : b'.trades = b.trades ++ ts) :
    b₀.since b' = b₀.since b ++ ts := by
  unfold OrderBook.since
  rw [ht, List.drop_append_of_le_length hn]

theorem Executed.orderId_eq (he : Executed b b' Y ts) {x : NodeRef} (hx : x < b.nodes) :
    (b'.order x).orderId = (b.order x).orderId := by
  by_cases h : ∃ i : String, b.ordersById.get? (.str i) = some x
  · obtain ⟨i, hi⟩ := h
    rw [he.resting i x hi, Order.filledBy_orderId]
  · rw [he.other x hx fun i hi => h ⟨i, hi⟩]

/-- An execution under another id names the order only if it rests. -/
theorem Executed.untraded (he : Executed b b' Y ts) (hne : id ≠ .str Y)
    (hi : b.ordersById.get? id = none) : tradedBy id ts = 0 :=
  tradedBy_eq_zero fun t ht i hn e => by
    rcases (he.names t ht).2.2 i hn with rfl | ⟨x, hx⟩
    · exact hne e
    · rw [e, hx] at hi; cases hi

theorem Executed.never (he : Executed b b' Y ts) (hne : id ≠ .str Y)
    (h : ∀ x, b₀.nodes ≤ x → x < b.nodes → .str (b.order x).orderId ≠ id) :
    ∀ x, b₀.nodes ≤ x → x < b'.nodes → .str (b'.order x).orderId ≠ id := by
  intro x hx₀ hx
  rw [he.nodes] at hx
  rcases Nat.lt_succ_iff_lt_or_eq.mp hx with hx | rfl
  · rw [he.orderId_eq hx]; exact h x hx₀ hx
  · rw [he.id]; exact hne.symm

theorem Executed.index_none (he : Executed b b' Y ts) (hne : id ≠ .str Y)
    (hi : b.ordersById.get? id = none) : b'.ordersById.get? id = none := by
  cases hx : b'.ordersById.get? id with
  | none => rfl
  | some x =>
    rcases he.index id x hx with h | h
    · rw [h] at hi; cases hi
    · exact absurd h.2 hne

/-- The execution of another order. -/
theorem Ledger.other (h : Ledger b₀ b id q) (hn : b₀.trades.length ≤ b.trades.length)
    (he : Executed b b' Y ts) (hne : id ≠ .str Y) : Ledger b₀ b' id q := by
  have hsince := since_append hn he.trades
  cases h with
  | pending s stop quantity untraded never index =>
    refine .pending s (by rw [he.stops]; exact stop) quantity ?_ (he.never hne never)
      (he.index_none hne index)
    rw [hsince, tradedBy_append, untraded, he.untraded hne index, add_zero]
  | gone stop untraded never index =>
    refine .gone (by rw [he.stops]; exact stop) ?_ (he.never hne never) (he.index_none hne index)
    rw [hsince, tradedBy_append, untraded, he.untraded hne index, add_zero]
  | executed r stop new orderId only initial quantity index keyed =>
    have hid := he.orderId_eq new.2
    -- The order of `r` has lost what the new trades say, whether it rests or not.
    have hr : (b'.order r).initialQuantity = (b.order r).initialQuantity ∧
        (b'.order r).remainingQuantity = (b.order r).remainingQuantity - tradedBy id ts := by
      by_cases hx : b.ordersById.get? id = some r
      · obtain rfl := orderId
        rw [he.resting _ r hx]
        exact ⟨rfl, rfl⟩
      · have hnone : b.ordersById.get? id = none := by
          cases hy : b.ordersById.get? id with
          | none => rfl
          | some y => rw [index y hy] at hy; exact absurd hy hx
        rw [he.untraded hne hnone, he.other r new.2 fun i hi => hx (keyed _ hi ▸ hi)]
        exact ⟨rfl, (sub_zero _).symm⟩
    refine .executed r (by rw [he.stops]; exact stop) ⟨new.1, by rw [he.nodes]; exact Nat.lt_succ_of_lt new.2⟩
      (by rw [hid]; exact orderId) (fun x hx₀ hx hxid => ?_) (hr.1.trans initial) ?_
      (fun x hx => ?_) fun i hi => ?_
    · rw [he.nodes] at hx
      rcases Nat.lt_succ_iff_lt_or_eq.mp hx with hx | rfl
      · rw [he.orderId_eq hx] at hxid; exact only x hx₀ hx hxid
      · rw [he.id] at hxid; exact absurd hxid.symm hne
    · rw [hsince, tradedBy_append, hr.2]; omega
    · rcases he.index id x hx with h | h
      · exact index x h
      · exact absurd h.2 hne
    · rcases he.index i r hi with h | h
      · exact keyed i h
      · exact absurd h.1 new.2.ne

/-- The order itself executes: it is the order of the new node. -/
theorem Ledger.own (hs : b.stopOrdersById.get? id = none) (hn : b₀.trades.length ≤ b.trades.length)
    (hm : b₀.nodes ≤ b.nodes) (untraded : tradedBy id (b₀.since b) = 0)
    (never : ∀ x, b₀.nodes ≤ x → x < b.nodes → .str (b.order x).orderId ≠ id)
    (he : Executed b b' Y ts) (hid : id = .str Y) (hq : (b'.order b.nodes).initialQuantity = q) :
    Ledger b₀ b' id q := by
  subst hid
  refine .executed b.nodes (by rw [he.stops]; exact hs) ⟨hm, by rw [he.nodes]; exact Nat.lt_succ_self _⟩
    (by rw [he.id]) (fun x hx₀ hx hxid => ?_) hq ?_ (fun x hx => ?_) fun i hi => ?_
  · rw [he.nodes] at hx
    rcases Nat.lt_succ_iff_lt_or_eq.mp hx with hx | rfl
    · rw [he.orderId_eq hx] at hxid; exact absurd hxid (never x hx₀ hx)
    · rfl
  · rw [since_append hn he.trades, tradedBy_append, untraded, ← hq, zero_add]
    exact he.order
  · rcases he.index _ x hx with h | h
    · rw [he.unused] at h; cases h
    · exact h.1
  · rcases he.index i b.nodes hi with h | h
    · exact absurd (he.bounded i _ h) (lt_irrefl _)
    · exact h.2

/-- The ledger of a book that has developed from `b₀`. -/
structure Tracked (b₀ b : OrderBook) (id : JsVal) (q : Int) : Prop where
  ledger : Ledger b₀ b id q
  trades : b₀.trades.length ≤ b.trades.length
  nodes : b₀.nodes ≤ b.nodes

theorem Tracked.change (h : Tracked b₀ b id q) (hc : Change b b') : Tracked b₀ b' id q := by
  obtain ⟨h, hn, hm⟩ := h
  cases hc with
  | quiet nodes trades order index stops =>
    refine ⟨?_, by rw [trades]; exact hn, by rw [nodes]; exact hm⟩
    have hsince : b₀.since b' = b₀.since b := by unfold OrderBook.since; rw [trades]
    have hnone : ∀ i, b.ordersById.get? i = none → b'.ordersById.get? i = none := fun i hi => by
      cases hx : b'.ordersById.get? i with
      | none => rfl
      | some x => rw [index i x hx] at hi; cases hi
    have hstop : ∀ i, b.stopOrdersById.get? i = none → b'.stopOrdersById.get? i = none := fun i hi => by
      cases hx : b'.stopOrdersById.get? i with
      | none => rfl
      | some x =>
        obtain ⟨s, hs, -⟩ := stops i x hx
        rw [hs] at hi; cases hi
    have hnever : (∀ x, b₀.nodes ≤ x → x < b.nodes → .str (b.order x).orderId ≠ id) →
        ∀ x, b₀.nodes ≤ x → x < b'.nodes → .str (b'.order x).orderId ≠ id := fun hnv x hx₀ hx => by
      rw [(order x).1]; exact hnv x hx₀ (by rwa [nodes] at hx)
    cases h with
    | pending s stop quantity untraded never idx =>
      cases hs' : b'.stopOrdersById.get? id with
      | none => exact .gone hs' (by rw [hsince]; exact untraded) (hnever never) (hnone id idx)
      | some s' =>
        obtain ⟨s₀, hs₀, hrem⟩ := stops id s' hs'
        rw [stop, Option.some_inj] at hs₀
        exact .pending s' hs' (by rw [hrem, ← hs₀]; exact quantity) (by rw [hsince]; exact untraded)
          (hnever never) (hnone id idx)
    | executed r stop new orderId only initial quantity idx keyed =>
      refine .executed r (hstop id stop) (by rw [nodes]; exact new) (by rw [(order r).1]; exact orderId)
        (fun x hx₀ hx hxid => only x hx₀ (by rwa [nodes] at hx) (by rwa [(order x).1] at hxid))
        ((order r).2.1.trans initial) (by rw [(order r).2.2, hsince]; exact quantity)
        (fun x hx => idx x (index id x hx)) fun i hi => keyed i (index i r hi)
    | gone stop untraded never idx =>
      exact .gone (hstop id stop) (by rw [hsince]; exact untraded) (hnever never) (hnone id idx)
  | trigger Y s clock ts pending quantity he =>
    set b₁ : OrderBook := { b with stopOrdersById := b.stopOrdersById.delete (.str Y), clock } with hb₁
    refine ⟨?_, by rw [he.trades, List.length_append]; exact hn.trans (Nat.le_add_right _ _),
      by rw [he.nodes]; exact hm.trans (Nat.le_succ _)⟩
    by_cases hid : id = .str Y
    · -- The stop order of this id triggers, so the ledger says that it was pending.
      cases h with
      | pending s₀ stop hq untraded never idx =>
        rw [hid, pending, Option.some_inj] at stop
        rw [← stop, quantity, JsVal.num.injEq, Num.int.injEq] at hq
        refine Ledger.own (b := b₁) ?_ hn hm untraded never he hid hq
        rw [hid]; exact OMap.get?_delete_self _ _
      | executed r stop => rw [hid, pending] at stop; cases stop
      | gone stop => rw [hid, pending] at stop; cases stop
    · have hst : b₁.stopOrdersById.get? id = b.stopOrdersById.get? id := OMap.get?_delete_ne _ hid
      refine Ledger.other (b := b₁) ?_ hn he hid
      cases h with
      | pending s₀ stop hq untraded never idx => exact .pending s₀ (hst.trans stop) hq untraded never idx
      | executed r stop new orderId only initial quantity idx keyed =>
        exact .executed r (hst.trans stop) new orderId only initial quantity idx keyed
      | gone stop untraded never idx => exact .gone (hst.trans stop) untraded never idx

theorem Tracked.changes (h : Tracked b₀ b id q) (hc : Changes b b') : Tracked b₀ b' id q := by
  induction hc with
  | refl => exact h
  | tail _ hc ih => exact ih.change hc

theorem live_eq_false (h : b.live id = false) :
    b.ordersById.get? id = none ∧ b.stopOrdersById.get? id = none := by
  rw [OrderBook.live, Bool.or_eq_false_iff] at h
  exact ⟨OMap.has_eq_false.mp h.1, OMap.has_eq_false.mp h.2⟩

theorem Tracked.executed (h : Tracked b₀ b id q) (he : Executed b b' Y ts) (hne : id ≠ .str Y) :
    Tracked b₀ b' id q :=
  ⟨h.ledger.other h.trades he hne, by
    rw [he.trades, List.length_append]; exact h.trades.trans (Nat.le_add_right _ _),
    by rw [he.nodes]; exact h.nodes.trans (Nat.le_succ _)⟩

/-- A call keeps the ledger of an id that is in use. -/
theorem Tracked.call {c : Call} (h : Tracked b₀ b id q) (hlive : b.live id = true)
    (hc : Called c b b') : Tracked b₀ b' id q := by
  cases hc with
  | kept changes => exact h.changes changes
  | placed Y q' b₁ ts call unused quantity executed changes =>
    refine (h.executed executed ?_).changes changes
    rintro rfl
    rw [OrderBook.live, OMap.has, OMap.has, executed.unused, unused] at hlive
    cases hlive
  | accepted s b₁ call unused set changes =>
    have hne : id ≠ s.orderId := by
      rintro rfl
      rw [OrderBook.live, OMap.has, OMap.has, unused.1, unused.2] at hlive
      cases hlive
    have hst : b₁.stopOrdersById.get? id = b.stopOrdersById.get? id := by
      rw [set]; exact OMap.get?_set_ne _ _ hne
    have h₁ : Ledger b₀ b₁ id q := by
      subst set
      cases h.ledger with
      | pending s₀ stop hq untraded never idx => exact .pending s₀ (hst.trans stop) hq untraded never idx
      | executed r stop new orderId only initial quantity idx keyed =>
        exact .executed r (hst.trans stop) new orderId only initial quantity idx keyed
      | gone stop untraded never idx => exact .gone (hst.trans stop) untraded never idx
    exact Tracked.changes ⟨h₁, by rw [set]; exact h.trades, by rw [set]; exact h.nodes⟩ changes

/-- The call that places an order opens its ledger. -/
theorem Tracked.place {c : Call} (hplaced : c.placed = some (id, .num (.int q)))
    (hfree : b.live id = false) (hc : Called c b b') : Tracked b b' id q := by
  obtain ⟨hidx, hst⟩ := live_eq_false hfree
  have hnil : tradedBy id (b.since b) = 0 := by
    unfold OrderBook.since
    rw [List.drop_length]
    cases id <;> rfl
  have hnever : ∀ x, b.nodes ≤ x → x < b.nodes → .str (b.order x).orderId ≠ id := fun x h₀ h₁ =>
    absurd h₁ (not_lt.mpr h₀)
  cases hc with
  | kept changes => exact Tracked.changes ⟨.gone hst hnil hnever hidx, le_rfl, le_rfl⟩ changes
  | placed Y q' b₁ ts call unused quantity he changes =>
    rw [hplaced, Option.some_inj, Prod.mk.injEq, JsVal.num.injEq, Num.int.injEq] at call
    refine Tracked.changes ⟨Ledger.own hst le_rfl le_rfl hnil hnever he call.1 (quantity.trans call.2.symm),
      ?_, ?_⟩ changes
    · rw [he.trades, List.length_append]; exact Nat.le_add_right _ _
    · rw [he.nodes]; exact Nat.le_succ _
  | accepted s b₁ call unused set changes =>
    rw [hplaced, Option.some_inj, Prod.mk.injEq] at call
    have h₁ : Ledger b b₁ id q := by
      subst set
      exact .pending s (by rw [call.1]; exact OMap.get?_set_self _ _ _) call.2.symm hnil hnever hidx
    exact Tracked.changes ⟨h₁, by rw [set], by rw [set]⟩ changes

end

/-! ## The trades of a result -/

section Trades

variable {v v' : View}

theorem spec_execute_trades {i : OrderInput} {r : Order × List Trade}
    (h : (Spec.execute i).run v = (.ok r, v')) : v'.trades = v.trades ++ r.2 := by
  cases ho : newOrder i with
  | error e => rw [spec_execute_error ho] at h; cases h
  | ok o => rw [spec_execute_ok ho] at h; cases h; rfl

theorem spec_triggered_trades {s : StopOrder} {r : Order × List Trade}
    (h : (Spec.executeTriggeredStopOrder s).run v = (.ok r, v')) : v'.trades = v.trades ++ r.2 := by
  unfold Spec.executeTriggeredStopOrder at h
  obtain ⟨w, v₁, hw, h⟩ := bind_ok h
  cases hw
  split_ifs at h
  · obtain ⟨ms, v₂, hn, h⟩ := bind_ok h
    cases hn
    have ht := spec_execute_trades h
    exact ht
  · obtain ⟨ms, v₂, hn, h⟩ := bind_ok h
    cases hn
    have ht := spec_execute_trades h
    exact ht
  · cases h

theorem spec_triggerAll_trades {ss : List StopOrder} {t : Triggered}
    (h : (Spec.triggerAll ss).run v = (.ok t, v')) : v'.trades = v.trades ++ t.trades := by
  induction ss generalizing v t with
  | nil => cases h; exact (List.append_nil _).symm
  | cons s ss ih =>
    unfold Spec.triggerAll at h
    obtain ⟨_, v₁, hm, h⟩ := bind_ok h
    cases hm
    obtain ⟨⟨o, ts⟩, v₂, he, h⟩ := bind_ok h
    obtain ⟨rest, v₃, hr, h⟩ := bind_ok h
    cases h
    rw [ih hr, spec_triggered_trades he, List.append_assoc]
    rfl

theorem spec_updated_trades {a : EventBody} (h : Spec.createBookUpdatedEvent.run v = (.ok a, v')) :
    v'.trades = v.trades := by
  cases h; rfl

theorem spec_stampEvents_trades {es : List EventBody} {a : List Event}
    (h : (Spec.stampEvents es).run v = (.ok a, v')) : v'.trades = v.trades := by
  cases h; rfl

theorem spec_update_trades {a : Unit} (h : Spec.updateTrailingStopOrders.run v = (.ok a, v')) :
    v'.trades = v.trades := by
  unfold Spec.updateTrailingStopOrders at h
  rw [run_get_bind] at h
  cases hl : v.lastTradePriceTicks <;> rw [hl] at h <;> cases h <;> rfl

theorem spec_eligible_trades {a : List StopOrder}
    (h : Spec.getEligibleStopOrders.run v = (.ok a, v')) : v' = v := by
  unfold Spec.getEligibleStopOrders at h
  rw [run_get_bind] at h
  cases hl : v.lastTradePriceTicks <;> rw [hl] at h
  · cases h; rfl
  · exact (congrArg Prod.snd h).symm

theorem spec_cascade_trades {cycles : Nat} {ts : List Trade} {t : Triggered}
    (h : (Spec.cascade cycles ts).run v = (.ok t, v')) : v'.trades = v.trades ++ t.trades := by
  induction cycles generalizing v ts t with
  | zero =>
    unfold Spec.cascade at h
    cases hl : ts.getLast? <;> rw [hl] at h <;> cases h
    exact (List.append_nil _).symm
  | succ cycles ih =>
    unfold Spec.cascade at h
    cases hl : ts.getLast? with
    | none => rw [hl] at h; cases h; exact (List.append_nil _).symm
    | some last =>
      rw [hl] at h
      obtain ⟨_, v₁, hm, h₁⟩ := bind_ok h
      obtain ⟨_, v₂, hu, h₂⟩ := bind_ok h₁
      obtain ⟨es, v₃, he, h₃⟩ := bind_ok h₂
      have hv₂ : v₂.trades = v.trades := by
        rw [spec_update_trades hu]
        cases hm; rfl
      obtain rfl := spec_eligible_trades he
      by_cases hnil : es = []
      · rw [if_pos hnil] at h₃
        cases h₃
        exact hv₂.trans (List.append_nil _).symm
      · rw [if_neg hnil] at h₃
        obtain ⟨round, v₄, hr, h₄⟩ := bind_ok h₃
        obtain ⟨rest, v₅, hc, h₅⟩ := bind_ok h₄
        cases h₅
        rw [ih hc, spec_triggerAll_trades hr, hv₂, List.append_assoc]
        rfl

theorem spec_finish_trades {ts us : List Trade} {o : Outcome}
    {events : EventBody → Triggered → List EventBody}
    (h : (do
      let triggered ← Spec.cascade maxCycles ts
      let updated ← Spec.createBookUpdatedEvent
      let events ← Spec.stampEvents (events updated triggered)
      return ⟨some (ts ++ triggered.trades), some triggered.orders, events⟩ :
        SpecProgram Outcome).run v = (.ok o, v')) (hv : v.trades = us ++ ts) :
    v'.trades = us ++ o.trades.getD [] := by
  obtain ⟨t, v₂, ht, h⟩ := bind_ok h
  obtain ⟨u, v₃, hu, h⟩ := bind_ok h
  obtain ⟨es, v₄, he, h⟩ := bind_ok h
  cases h
  rw [spec_stampEvents_trades he, spec_updated_trades hu, spec_cascade_trades ht, hv, List.append_assoc]
  rfl

/-- The trades of an outcome are those that the call appended. -/
theorem spec_trades (c : Call) {o : Outcome} (h : (Spec.program c).run v = (.ok o, v')) :
    v'.trades = v.trades ++ o.trades.getD [] := by
  have hcheck : ∀ {args : Option Payload} {f : Payload → SpecProgram Outcome},
      (do let p ← Spec.destructure args; Spec.assertOrderIdAvailable p.orderId; f p).run v = (.ok o, v') →
      ∃ p, (f p).run v = (.ok o, v') := by
    intro args f h
    obtain ⟨p, v₁, hp, h⟩ := bind_ok h
    obtain ⟨_, v₂, ha, h⟩ := bind_ok h
    have hv₁ : v₁ = v := by
      cases args <;> cases hp; rfl
    have hv₂ : v₂ = v₁ := by
      unfold Spec.assertOrderIdAvailable at ha
      rw [run_get_bind] at ha
      split_ifs at ha
      · exact (congrArg Prod.snd ha).symm
      · exact (congrArg Prod.snd ha).symm
    rw [hv₂, hv₁] at h
    exact ⟨p, h⟩
  have hstop : ∀ {s : StopOrder}, (Spec.acceptStop s).run v = (.ok o, v') →
      v'.trades = v.trades ++ o.trades.getD [] := by
    intro s h
    obtain ⟨_, v₁, hm, h⟩ := bind_ok h
    cases hm
    obtain ⟨u, v₂, hu, h⟩ := bind_ok h
    obtain ⟨es, v₃, he, h⟩ := bind_ok h
    cases h
    rw [spec_stampEvents_trades he, spec_updated_trades hu]
    exact (List.append_nil _).symm
  cases c with
  | placeLimitOrder args =>
    obtain ⟨p, h⟩ := hcheck h
    obtain ⟨w, v₁, hw, h⟩ := bind_ok h
    cases hw
    obtain ⟨⟨x, ts⟩, v₂, hx, h⟩ := bind_ok h
    exact spec_finish_trades h (spec_execute_trades hx)
  | placeMarketOrder args =>
    obtain ⟨p, h⟩ := hcheck h
    obtain ⟨w, v₁, hw, h⟩ := bind_ok h
    cases hw
    obtain ⟨⟨x, ts⟩, v₂, hx, h⟩ := bind_ok h
    exact spec_finish_trades h (spec_execute_trades hx)
  | placeStopMarketOrder args =>
    obtain ⟨p, h⟩ := hcheck h
    obtain ⟨w, v₁, hw, h⟩ := bind_ok h
    cases hw
    exact hstop h
  | placeStopLimitOrder args =>
    obtain ⟨p, h⟩ := hcheck h
    obtain ⟨w, v₁, hw, h⟩ := bind_ok h
    cases hw
    exact hstop h
  | placeTrailingStopMarketOrder args =>
    obtain ⟨p, h⟩ := hcheck h
    obtain ⟨w, v₁, hw, h⟩ := bind_ok h
    cases hw
    cases hl : v.lastTradePriceTicks with
    | none => rw [hl] at h; cases h
    | some last =>
      rw [hl] at h
      obtain ⟨amount, v₂, ha, h⟩ := bind_ok h
      have hv₂ : v₂ = v := (congrArg Prod.snd ha).symm
      rw [hv₂] at h
      exact hstop h
  | cancelOrder id =>
    obtain ⟨w, v₁, hw, h⟩ := bind_ok h
    cases hw
    have hnil : v.trades = v.trades ++ (none : Option (List Trade)).getD [] := (List.append_nil _).symm
    cases hs : v.stops.get? id with
    | some s =>
      rw [hs] at h
      obtain ⟨_, v₁, hm, h⟩ := bind_ok h
      cases hm
      obtain ⟨u, v₂, hu, h⟩ := bind_ok h
      cases h
      rw [spec_updated_trades hu]
      exact hnil
    | none =>
      rw [hs] at h
      cases hf : v.orders.find? (fun o => decide (.str o.orderId = id)) with
      | none => dsimp only at h; rw [hf] at h; cases h
      | some x =>
        dsimp only at h
        rw [hf] at h
        obtain ⟨_, v₁, hm, h⟩ := bind_ok h
        cases hm
        obtain ⟨u, v₂, hu, h⟩ := bind_ok h
        obtain ⟨es, v₃, he, h⟩ := bind_ok h
        cases h
        rw [spec_stampEvents_trades he, spec_updated_trades hu]
        exact hnil

end Trades

/-- The trades of a result are those that the call appended, in that order. -/
theorem result_trades {b : OrderBook} (h : Reachable b) {c : Call} (hex : Exact b c) {r : Result}
    (hr : (call b c).1 = .ok r) : (call b c).2.trades = b.trades ++ r.trades.getD [] := by
  obtain ⟨F, v, hrep, hv⟩ := h.repr
  rw [Exact, hrep.openQuantity_eq] at hex
  obtain ⟨hout, ⟨F', hrep'⟩, -⟩ := call_refines c hrep hv hex
  rw [hr] at hout
  rw [← hrep'.trades, ← hrep.trades]
  exact spec_trades c (o := r.outcome) (Prod.ext hout.symm rfl)

/-! ## No order trades with itself -/

theorem Change.distinct {b b' : OrderBook} (h : ∀ t ∈ b.trades, t.buyOrderId ≠ t.sellOrderId)
    (hc : Change b b') : ∀ t ∈ b'.trades, t.buyOrderId ≠ t.sellOrderId := by
  cases hc with
  | quiet nodes trades => rw [trades]; exact h
  | trigger Y s clock ts pending quantity he =>
    rw [he.trades]
    intro t ht
    rcases List.mem_append.mp ht with ht | ht
    · exact h t ht
    · exact (he.names t ht).1

theorem Changes.distinct {b b' : OrderBook} (h : ∀ t ∈ b.trades, t.buyOrderId ≠ t.sellOrderId)
    (hc : Changes b b') : ∀ t ∈ b'.trades, t.buyOrderId ≠ t.sellOrderId := by
  induction hc with
  | refl => exact h
  | tail _ hc ih => exact hc.distinct ih

theorem Called.distinct {c : Call} {b b' : OrderBook}
    (h : ∀ t ∈ b.trades, t.buyOrderId ≠ t.sellOrderId) (hc : Called c b b') :
    ∀ t ∈ b'.trades, t.buyOrderId ≠ t.sellOrderId := by
  cases hc with
  | kept changes => exact Changes.distinct h changes
  | placed Y q b₁ ts call unused quantity he changes =>
    refine Changes.distinct (fun t ht => ?_) changes
    rw [he.trades] at ht
    rcases List.mem_append.mp ht with ht | ht
    · exact h t ht
    · exact (he.names t ht).1
  | accepted s b₁ call unused set changes =>
    exact Changes.distinct (by rw [set]; exact h) changes

/-! ## Runs -/

theorem exactRun_append {b : OrderBook} {cs ds : List Call} :
    ExactRun b (cs ++ ds) ↔ ExactRun b cs ∧ ExactRun (calls b cs) ds := by
  induction cs generalizing b with
  | nil => exact ⟨fun h => ⟨trivial, h⟩, fun h => h.2⟩
  | cons c cs ih =>
    rw [List.cons_append, ExactRun, ExactRun, ih, and_assoc]
    rfl

theorem calls_append (b : OrderBook) (cs ds : List Call) :
    calls b (cs ++ ds) = calls (calls b cs) ds := List.foldl_append

theorem Reachable.called {b : OrderBook} (h : Reachable b) {c : Call} (hex : Exact b c) :
    Called c b (Node.call b c).2 := by
  obtain ⟨F, v, hr, hv⟩ := h.repr
  rw [Exact, hr.openQuantity_eq] at hex
  exact (call_refines c hr hv hex).2.2.2

/-- The ledger over a run of an order that is in use before every call. -/
theorem Tracked.run {b₀ b : OrderBook} {id : JsVal} {q : Int} (h : Tracked b₀ b id q)
    (hb : Reachable b) {cs : List Call} (hex : ExactRun b cs)
    (hlive : ∀ pre, pre <+: cs → pre ≠ cs → (calls b pre).live id = true) :
    Tracked b₀ (Node.calls b cs) id q := by
  induction cs generalizing b with
  | nil => exact h
  | cons c cs ih =>
    have hl := hlive [] List.nil_prefix (List.cons_ne_nil _ _).symm
    refine ih (h.call hl (hb.called hex.1)) (.call c hb hex.1) hex.2 fun pre hpre hne => ?_
    exact hlive (c :: pre) ((List.prefix_cons_inj c).mpr hpre) fun e => hne (List.cons.inj e).2

theorem distinct_run {b : OrderBook} (hb : Reachable b)
    (h : ∀ t ∈ b.trades, t.buyOrderId ≠ t.sellOrderId) {cs : List Call} (hex : ExactRun b cs) :
    ∀ t ∈ (Node.calls b cs).trades, t.buyOrderId ≠ t.sellOrderId := by
  induction cs generalizing b with
  | nil => exact h
  | cons c cs ih => exact ih (.call c hb hex.1) ((hb.called hex.1).distinct h) hex.2

/-- Over every run from an empty book: every order that the call `c` places under an unused id is
accounted for until it leaves; no trade names one order on both sides; the trades of the result of
the last call are those that it appended. -/
theorem quantity_conserved {symbol : String} (hsym : isBlank symbol = false) (clock : Clock)
    {cs : List Call} (hex : ExactRun (OrderBook.new symbol clock) cs) :
    (∀ pre c post, cs = pre ++ c :: post → ∀ id q, c.placed = some (id, .num (.int q)) →
      (calls (.new symbol clock) pre).live id = false →
      (∀ mid, mid <+: post → mid ≠ post →
        (calls (.new symbol clock) (pre ++ c :: mid)).live id = true) →
      Accounted (calls (.new symbol clock) pre) (calls (.new symbol clock) cs) id q) ∧
    (∀ t ∈ (calls (.new symbol clock) cs).trades, t.buyOrderId ≠ t.sellOrderId) ∧
    ∀ pre c r, cs = pre ++ [c] → (call (calls (.new symbol clock) pre) c).1 = .ok r →
      (calls (.new symbol clock) cs).trades =
        (calls (.new symbol clock) pre).trades ++ r.trades.getD [] := by
  have hnew : Reachable (.new symbol clock) := .new symbol clock hsym
  refine ⟨?_, distinct_run hnew (by simp [OrderBook.new]) hex, ?_⟩
  · rintro pre c post rfl id q hplaced hfree hlive
    obtain ⟨hpre, hc, hpost⟩ := exactRun_append.mp hex
    have hb := hnew.calls hpre
    have hstart := Tracked.place hplaced hfree (hb.called hc)
    rw [calls_append]
    refine (hstart.run (.call c hb hc) hpost fun mid hmid hne => ?_).ledger.accounted
    have := hlive mid hmid hne
    rwa [calls_append] at this
  · rintro pre c r rfl hr
    obtain ⟨hpre, hc, -⟩ := exactRun_append.mp hex
    rw [calls_append]
    exact result_trades (hnew.calls hpre) hc hr

/-- A sell order of 2, and a buy order of 1 that trades with it. -/
def twoOrders : List Call :=
  [.placeLimitOrder (some (limitOrder "a" .sell 1 2)), .placeLimitOrder (some (limitOrder "b" .buy 1 1))]

theorem quantity_conserved_twoOrders :
    Accounted (OrderBook.new "BTC-USD" fun _ => 0) (calls (.new "BTC-USD" fun _ => 0) twoOrders)
      (.str "a") 2 :=
  (quantity_conserved (show isBlank "BTC-USD" = false by decide) (fun _ => 0)
    (show ExactRun _ twoOrders by decide)).1
    [] _ _ rfl (.str "a") 2 rfl (by decide) fun mid hmid hne => by
      obtain rfl | rfl : mid = [] ∨ mid = [.placeLimitOrder (some (limitOrder "b" .buy 1 1))] := by
        rcases List.prefix_cons_iff.mp hmid with h | ⟨t, h, ht⟩
        · exact .inl h
        · rw [List.prefix_nil] at ht
          exact .inr (by rw [h, ht])
      · decide
      · exact absurd rfl hne

end Lob.Node
