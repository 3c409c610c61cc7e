import LobEngine.Node.Atomic
import LobEngine.Node.Command

/-!
# Rejected commands of the reference engine

A command that throws before it begins to match leaves every book as it is. Once it began to match, it throws
only in the cascade, so it has traded: the resting order that it traded with first is not what it was
(`call_error_iff`).

* `Lost`: an order has less than it had, and no pending stop order can bring it back.
* `BookRegistry.rejected_iff`: the same about the command and all books of a registry.
-/

namespace Lob.Node

open Exc OrderBook

/-- What is left of the order `x` is less than `x` had, and no pending stop order has its id. -/
structure Lost (x : Order) (v : View) : Prop where
  worn : v.toDepth.Worn x
  stops : ∀ s ∈ v.stops.values, s.orderId ≠ .str x.orderId

section

variable {b : OrderBook} {F : Side → List NodeRef} {v w : View} {x : Order} {e : JsError}

theorem lost_execute {i : OrderInput} (hi : i.orderId ≠ .str x.orderId) : Keeps (Lost x) (Spec.execute i) := by
  intro v hv
  unfold Post
  cases ho : newOrder i with
  | error e =>
    rw [spec_execute_error ho]
    exact hv
  | ok o =>
    rw [spec_execute_ok ho]
    exact ⟨hv.worn.execute fun e => hi (e ▸ (newOrder_ok.mp ho).orderId.1), hv.stops⟩

theorem lost_executeTriggered {s : StopOrder} (hs : s.orderId ≠ .str x.orderId) :
    Keeps (Lost x) (Spec.executeTriggeredStopOrder s) := by
  have hnow : Keeps (Lost x) Spec.now := fun _ h => ⟨h.worn, h.stops⟩
  refine Keeps.get.bind fun v => Keeps.ite ?_ (Keeps.ite ?_ (Keeps.throw _))
  · exact hnow.bind fun _ => lost_execute hs
  · exact hnow.bind fun _ => lost_execute hs

theorem lost_delete (h : Lost x v) (key : JsVal) : Lost x { v with stops := v.stops.delete key } :=
  ⟨h.worn, fun s hs => h.stops s (OMap.mem_values_delete hs)⟩

theorem lost_trail (h : Lost x v) (last : Int) :
    Lost x { v with stops := v.stops.mapValues (trail last) } := by
  refine ⟨h.worn, fun s hs => ?_⟩
  rw [OMap.values_mapValues] at hs
  obtain ⟨t, ht, rfl⟩ := List.mem_map.mp hs
  rw [(trail_same last t).1]
  exact h.stops t ht

theorem lost_triggerAll (ss : List StopOrder) (hss : ∀ s ∈ ss, s.orderId ≠ .str x.orderId) :
    Keeps (Lost x) (Spec.triggerAll ss) := by
  induction ss with
  | nil => exact Keeps.pure _
  | cons s ss ih =>
    unfold Spec.triggerAll
    refine Keeps.bind (Keeps.modify fun v hv => lost_delete hv _) fun _ => ?_
    exact (lost_executeTriggered (hss s List.mem_cons_self)).bind fun _ =>
      (ih fun s hs => hss s (List.mem_cons_of_mem _ hs)).bind fun _ => Keeps.pure _

/-- The eligible stop orders are pending ones. -/
theorem eligible_post (hv : Lost x v) : Spec.getEligibleStopOrders.Post v fun r w => Lost x w ∧
    ∀ es, r = .ok es → ∀ s ∈ es, s.orderId ≠ .str x.orderId := by
  refine Post.get ?_
  split
  · refine ⟨hv, fun es hes s hs => ?_⟩
    cases hes
    cases hs
  · exact ⟨hv, fun es hes s hs => hv.stops s ((eligibleOf_sublist hes).subset hs)⟩

theorem lost_cascade (cycles : Nat) (ts : List Trade) : Keeps (Lost x) (Spec.cascade cycles ts) := by
  induction cycles generalizing ts with
  | zero =>
    unfold Spec.cascade
    split
    · exact Keeps.pure _
    · exact Keeps.throw _
  | succ cycles ih =>
    unfold Spec.cascade
    split
    · exact Keeps.pure _
    · refine Keeps.bind (Keeps.modify fun _ h => ⟨h.worn, h.stops⟩) fun _ => Keeps.bind ?_ fun _ => ?_
      · refine Keeps.get.bind fun v => ?_
        split
        · exact Keeps.pure _
        · exact Keeps.modify fun v hv => lost_trail hv _
      · intro v hv
        refine (eligible_post hv).bind (fun es w hw => ?_) fun _ _ h => h.1
        split
        · exact hw.1
        · exact ((lost_triggerAll es (hw.2 es rfl)).bind fun r => (ih r.trades).bind fun _ => Keeps.pure _) w hw.1

/-- A call that throws after it began to match has taken from an order that rested. -/
theorem program_lost (h : Repr b F v) (hv : v.Ok) {c : Call} (hc : v.begins c)
    (he : (Spec.program c).run v = (.error e, w)) : ∃ x ∈ v.orders, Lost x w := by
  obtain ⟨o, f, ⟨i, -, hi, hid⟩, hrun, hf⟩ := program_begun hc
  obtain ⟨hids, -⟩ := hasId_false hid
  rw [hrun] at he
  have hts : (v.execute o).1 ≠ [] := by
    intro hts
    obtain ⟨x, hx⟩ := hf .none (v.executed o)
    rw [show (v.fillFrom o (decide (o.type ≠ .limit))).1 = [] from hts,
      run_bind_ok (show (Spec.cascade maxCycles []).run (v.executed o) = (.ok .none, v.executed o) from rfl)] at he
    rw [he] at hx
    cases hx
  obtain ⟨x, hx, hworn⟩ := Depth.execute_worn h.ids (fun hmem => hids _ hmem hi.orderId.1) hts
  refine ⟨x, hx, ?_⟩
  have hlost : Lost x (v.executed o) := by
    refine ⟨hworn, fun s hs hsx => ?_⟩
    obtain ⟨k, hk⟩ := OMap.mem_values.mp (show s ∈ v.stops.values from hs)
    have hnone := hv.separate x.orderId (List.mem_map_of_mem hx)
    rw [← hsx, hv.keyed k s hk, hk] at hnone
    cases hnone
  exact (lost_cascade _ _).of_run hlost (bind_error he hf)

/-- Books with one recovery snapshot have the same resting orders. -/
theorem orders_eq {b' : OrderBook} {F' : Side → List NodeRef} (h : Repr b F v) (h' : Repr b' F' w)
    {id : Option String} (hs : b.toRecoverySnapshot id = b'.toRecoverySnapshot id) : v.orders = w.orders := by
  rw [h.toRecoverySnapshot_eq, h'.toRecoverySnapshot_eq] at hs
  have hbids := congrArg (fun r : RecoverySnapshot => r.bids.flatMap (·.orders)) hs
  have hasks := congrArg (fun r : RecoverySnapshot => r.asks.flatMap (·.orders)) hs
  unfold Depth.orders
  rw [show v.bids = w.bids from (flatMap_recoveryLevels (h.sorted .buy)).symm.trans
      (hbids.trans (flatMap_recoveryLevels (h'.sorted .buy))),
    show v.asks = w.asks from (flatMap_recoveryLevels (h.sorted .sell)).symm.trans
      (hasks.trans (flatMap_recoveryLevels (h'.sorted .sell)))]

/-- A call that throws leaves the book as it is, exactly if it does not begin to match. -/
theorem call_error_iff (h : Reachable b) {c : Call} (hex : Exact b c) (he : (call b c).1 = .error e)
    (id : Option String) :
    (call b c).2.toRecoverySnapshot id = b.toRecoverySnapshot id ↔ b.begins c = false := by
  obtain ⟨F, v, hr, hv⟩ := h.repr
  rw [Exact, hr.openQuantity_eq] at hex
  constructor
  · intro hs
    rw [Bool.eq_false_iff]
    intro hc
    obtain ⟨hout, ⟨F', hr'⟩, -⟩ := call_refines c hr hv hex
    rcases hrun : (Spec.program c).run v with ⟨r, w⟩
    rw [he, hrun] at hout
    obtain rfl : Except.error e = r := hout
    obtain ⟨x, hx, hlost⟩ := program_lost hr hv ((hr.begins c).mp hc) hrun
    rw [hrun] at hr'
    exact hlost.worn.not_mem (orders_eq hr' hr hs ▸ hx)
  · intro hc
    obtain ⟨F', hr'⟩ := hr.error hv hex he hc
    rw [hr.toRecoverySnapshot_eq, hr'.toRecoverySnapshot_eq]

end

/-! ## Registries -/

namespace BookRegistry

/-- What the books of the registry hold. -/
def content (r : BookRegistry) (clock : Clock) (symbol : String) : RecoverySnapshot :=
  (r.bookOf clock symbol).toRecoverySnapshot none

/-- The command begins to match in the book of its symbol. -/
def begins (r : BookRegistry) (clock : Clock) (c : Command) : Bool :=
  match r.getOrCreateBook c.symbol clock with
  | .error _ => false
  | .ok (_, b, _) => c.call.toOption.any b.begins

variable {r : BookRegistry} {clock : Clock} {c : Command} {e : JsError}

/-- The command throws in the book `b` of its symbol. -/
theorem content_iff {r' : BookRegistry} {b : OrderBook} {s : String} (hs : c.symbol = .str s)
    (hb : r.bookOf clock s = b) (hr' : ∀ symbol, symbol ≠ s → r' symbol = r symbol) (hreach : Reachable b)
    (hex : r.Exact clock c)
    (he : ((b.execute c).1.map fun result => ((b.execute c).2, result)) = .error e) :
    (∀ symbol, (r'.put s (b.execute c).2).content clock symbol = r.content clock symbol) ↔
      c.call.toOption.any b.begins = false := by
  have hbook : (b.execute c).2.toRecoverySnapshot none = b.toRecoverySnapshot none ↔
      c.call.toOption.any b.begins = false := by
    unfold OrderBook.execute at he ⊢
    cases hc : c.call with
    | error e => exact ⟨fun _ => rfl, fun _ => rfl⟩
    | ok call =>
      rw [hc] at he
      dsimp only at he ⊢
      cases hcall : (Node.call b call).1 with
      | error e => exact call_error_iff hreach (hb ▸ hex s call hs hc) hcall none
      | ok x =>
        rw [hcall] at he
        cases he
  subst hb
  exact (lookup_update_iff (OrderBook.toRecoverySnapshot · none) hr').trans hbook

/-- A rejected command leaves every book as it is, exactly if it does not begin to match. -/
theorem rejected_iff (h : r.Held) (hex : r.Exact clock c) (he : (r.executeOrderCommand clock c).1 = .error e) :
    (∀ symbol, (r.executeOrderCommand clock c).2.content clock symbol = r.content clock symbol) ↔
      r.begins clock c = false := by
  unfold BookRegistry.executeOrderCommand at he ⊢
  unfold begins
  rcases r.getOrCreateBook_cases c.symbol clock with ⟨e', hget⟩ | ⟨s, hs, ⟨b, hb, hget⟩ | ⟨hb, hblank, hget⟩⟩
  · rw [hget]
    exact ⟨fun _ => rfl, fun _ _ => rfl⟩
  · rw [hget] at he ⊢
    exact content_iff hs (lookup_of_some hb) (fun _ _ => rfl) (h _ b hb) hex he
  · rw [hget] at he ⊢
    exact content_iff hs (lookup_of_none hb) (fun _ hne => put_ne _ _ hne) (.new _ _ hblank) hex he

end BookRegistry

end Lob.Node
