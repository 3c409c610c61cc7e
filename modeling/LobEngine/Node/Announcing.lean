import LobEngine.Executions
import LobEngine.Node.Triggers

/-!
# What the reference engine announces of the orders it executes

* `OrderBook.executionsOf`: the orders that a call executes, with their trades.
* `Ordered`: what matching does to an order.
* `rests_announced_iff`: the orders that come to rest are announced, exactly if no triggered order trades
  before it rests.
-/

namespace Lob.Node

open Exc OrderBook

/-- The orders that a call executes: the one it places, and those that the triggered stop orders become. -/
def OrderBook.executionsOf (b : OrderBook) : Call → Except JsError (Option Execution × List Execution)
  | .placeLimitOrder (some p) => (Exc.run (do
      assertOrderIdAvailable p.orderId
      let r ← newOrderNode (limitInput b p)
      let trades ← matchBySide r false
      let b ← get
      restIfActive r
      let cs ← cycles maxCycles trades
      return (some ⟨b.order r, trades⟩, (firedIn cs).map fun f => ⟨f.order, f.trades⟩)) b).1
  | .placeMarketOrder (some p) => (Exc.run (do
      assertOrderIdAvailable p.orderId
      let r ← newOrderNode (marketInput b p)
      let trades ← matchBySide r true
      cancelRemainder r
      let b ← get
      let cs ← cycles maxCycles trades
      return (some ⟨b.order r, trades⟩, (firedIn cs).map fun f => ⟨f.order, f.trades⟩)) b).1
  | _ => .ok (none, [])

/-- What an event says of an order that took or rests. -/
def noteOf : EventBody → Option (Note String)
  | .trade t => some (.acted t.aggressorId)
  | .order e => if e.type = .orderRested then some (.settled e.orderId e.remainingQuantity) else none
  | _ => none

section

variable {P : Order → Prop} {x r : NodeRef} {b b' : OrderBook}

/-! ## One order while another is matched -/

/-- The order of node `x` has the property `P`. -/
def OnBook (P : Order → Prop) (x : NodeRef) (b : OrderBook) : Prop := OfOrder P x b.toHeap

theorem onBook_onHeap {α : Type} {m : Exc JsError Heap α} (hm : Keeps (OfOrder P x) m) :
    Keeps (OnBook P x) (onHeap m) := fun b h => hm b.toHeap h

theorem OnBook.setSide (h : OnBook P x b) (s : Side) (m : OMap Int LevelRef) : OnBook P x (b.setSide s m) := by
  cases s <;> exact h

theorem framed_onBook : Framed (OnBook P x) where
  decrease := fun _ _ => onBook_onHeap keeps_ofOrder_decrease
  remove := fun _ _ => onBook_onHeap keeps_ofOrder_remove
  append := fun _ _ => onBook_onHeap keeps_ofOrder_append
  newLevel := fun _ _ h => h
  setSide := fun _ s m h => h.setSide s m
  index := fun _ _ h => h

theorem onBook_fill (hP : Lasting P) (y : NodeRef) (q : Int) : Keeps (OnBook P x) (onHeap (fill y q)) :=
  onBook_onHeap (keeps_ofOrder_fill hP)

theorem onBook_restIfActive : Keeps (OnBook P x) (restIfActive r) := framed_onBook.restIfActive (fun _ _ h => h) r

theorem matchBySide_lasting (hP : Lasting P) {ignore : Bool} : Keeps (OnBook P x) (matchBySide r ignore) :=
  framed_onBook.matchBySide (onBook_fill hP) (fun _ _ h => h) r ignore

/-! ## The order that is matched -/

theorem fill_done {h h' : Heap} {q : Int} (hr : (fill r q).run h = (.ok (), h')) : (h'.order r).status ≠ .opened := by
  unfold fill at hr
  rw [run_get_bind] at hr
  dsimp only at hr
  by_cases h₁ : q ≤ 0
  · rw [if_pos h₁] at hr; cases hr
  rw [if_neg h₁] at hr
  by_cases h₂ : (h.order r).isActive = false
  · rw [if_pos h₂] at hr; cases hr
  rw [if_neg h₂] at hr
  by_cases h₃ : q > (h.order r).remainingQuantity
  · rw [if_pos h₃] at hr; cases hr
  rw [if_neg h₃] at hr
  cases hr
  unfold Heap.order
  rw [Heap.modifyNode_node_self]
  dsimp only
  split <;> decide

/-- A part of the order traded. -/
def Begun (o : Order) : Prop := o.status ≠ .opened

theorem begun_lasting : Lasting Begun := fun o left _ => by
  unfold Begun
  dsimp only
  split <;> decide

theorem matchBest_taker {s : Side} {best : Int} {t : Trade} (h : (matchBest s r best).run b = (.ok t, b')) :
    t.aggressorId = (b.order r).orderId ∧ OnBook Begun r b' := by
  unfold matchBest at h
  rw [run_get_bind] at h
  split at h
  · cases h
  split at h
  · cases h
  obtain ⟨_, b₁, h₁, h⟩ := bind_ok h
  have hbegun : OnBook Begun r b₁ := by
    have hout := congrArg Prod.fst h₁
    obtain rfl : _ = b₁ := congrArg Prod.snd h₁
    exact fill_done (Prod.ext hout rfl)
  obtain ⟨_, b₂, h₂, h⟩ := bind_ok h
  obtain ⟨_, b₃, h₃, h⟩ := bind_ok h
  rw [run_modify_bind] at h
  obtain ⟨_, b₄, h₄, h⟩ := bind_ok h
  cases h
  have hbegun₂ := (onBook_fill begun_lasting _ _).of_run hbegun h₂
  have hbegun₃ : OnBook Begun r b₃ := (onBook_onHeap keeps_ofOrder_decrease).of_run hbegun₂ h₃
  refine ⟨?_, (framed_onBook.dropFilled _ _ _ best).of_run (by exact hbegun₃) h₄⟩
  cases s <;> rfl

/-- The trades of a match are taken by the incoming order, and without a trade it stays as it is. -/
theorem matchLoop_taker {s : Side} {ignore : Bool} {fuel : Nat} {ts : List Trade}
    (h : (matchLoop s r ignore fuel).run b = (.ok ts, b')) :
    (∀ t ∈ ts, t.aggressorId = (b.order r).orderId) ∧ (ts = [] → b' = b) ∧ (ts ≠ [] → OnBook Begun r b') := by
  have hlasting : ∀ id : String, Lasting fun o => o.orderId = id := fun id o left h => h
  have hdone : ∀ {b b' : OrderBook} {ts : List Trade}, (pure [] : Program (List Trade)).run b = (.ok ts, b') →
      (∀ t ∈ ts, t.aggressorId = (b.order r).orderId) ∧ (ts = [] → b' = b) ∧ (ts ≠ [] → OnBook Begun r b') := by
    intro b b' ts h
    cases h
    exact ⟨by simp, fun _ => rfl, fun h => absurd rfl h⟩
  induction fuel generalizing b ts with
  | zero => cases h
  | succ fuel ih =>
    unfold matchLoop at h
    rw [run_get_bind] at h
    split at h
    · exact hdone h
    split at h
    · exact hdone h
    split at h
    · exact hdone h
    obtain ⟨t, b₁, h₁, h⟩ := bind_ok h
    obtain ⟨us, b₂, h₂, h⟩ := bind_ok h
    cases h
    obtain ⟨hid, hbegun⟩ := matchBest_taker h₁
    obtain ⟨hids, hnil, hcons⟩ := ih h₂
    have hsame : (b₁.order r).orderId = (b.order r).orderId :=
      (framed_onBook.matchBest (onBook_fill (x := r) (hlasting (b.order r).orderId))
        (fun _ _ h => h) _ _ _).of_run rfl h₁
    refine ⟨?_, by simp, fun _ => ?_⟩
    · rw [hsame] at hids
      simpa [hid] using hids
    · by_cases hus : us = []
      · rw [hnil hus]
        exact hbegun
      · exact hcons hus

theorem matchBySide_taker {ignore : Bool} {ts : List Trade} (h : (matchBySide r ignore).run b = (.ok ts, b')) :
    (∀ t ∈ ts, t.aggressorId = (b.order r).orderId) ∧ (ts = [] → b' = b) ∧ (ts ≠ [] → OnBook Begun r b') := by
  unfold matchBySide at h
  rw [run_get_bind] at h
  split at h
  · exact matchLoop_taker h
  · exact matchLoop_taker h

/-! ## An executed order -/

/-- What the execution of an order yields: the order once its remainder was settled, and its trades. -/
structure Ordered (i : OrderInput) (o : Order) (ts : List Trade) : Prop where
  sound : Execution.Sound ⟨o, ts⟩
  orderId : i.orderId = .str o.orderId
  type : o.type = i.type

theorem newOrderNode_order {i : OrderInput} (h : (newOrderNode i).run b = (.ok x, b')) :
    newOrder i = .ok (b'.order x) := by
  unfold newOrderNode at h
  rw [run_lift_bind] at h
  cases ho : newOrder i with
  | error e => rw [ho] at h; cases h
  | ok o =>
    rw [ho] at h
    cases h
    refine congrArg Except.ok (Eq.symm ?_)
    show (Function.update b.node b.nodes _ b.nodes).toOrder = o
    rw [Function.update_self]

/-- The order after it was matched. -/
theorem matched_order {i : OrderInput} {ignore : Bool} {ts : List Trade} {b₁ b₂ : OrderBook}
    (h₁ : (newOrderNode i).run b = (.ok x, b₁)) (h₂ : (matchBySide x ignore).run b₁ = (.ok ts, b₂)) :
    i.orderId = .str (b₂.order x).orderId ∧ (b₂.order x).type = i.type ∧
      (∀ t ∈ ts, t.aggressorId = (b₂.order x).orderId) ∧ ((b₂.order x).status = .opened ↔ ts = []) := by
  have ho := newOrder_ok.mp (newOrderNode_order h₁)
  obtain ⟨htaker, hnil, hbegun⟩ := matchBySide_taker h₂
  have hid : (b₂.order x).orderId = (b₁.order x).orderId :=
    (matchBySide_lasting (x := x) (P := fun o => o.orderId = (b₁.order x).orderId) fun _ _ h => h).of_run rfl h₂
  have htype : (b₂.order x).type = (b₁.order x).type :=
    (matchBySide_lasting (x := x) (P := fun o => o.type = (b₁.order x).type) fun _ _ h => h).of_run rfl h₂
  rw [hid, htype]
  refine ⟨ho.orderId.1, ho.type, htaker, fun hs => ?_, fun hts => ?_⟩
  · by_contra hne
    exact hbegun hne hs
  · rw [hnil hts]
    exact ho.status

theorem limit_ordered {i : OrderInput} (hi : i.type = .limit) {ts : List Trade} {b₁ b₂ b₃ : OrderBook}
    (h₁ : (newOrderNode i).run b = (.ok x, b₁)) (h₂ : (matchBySide x false).run b₁ = (.ok ts, b₂))
    (h₃ : (restIfActive x).run b₂ = (.ok (), b₃)) : Ordered i (b₂.order x) ts ∧ b₃.order x = b₂.order x := by
  obtain ⟨hid, htype, htaker, hopened⟩ := matched_order h₁ h₂
  refine ⟨⟨⟨htaker, fun _ => hopened, fun hne => absurd (htype.trans hi) hne⟩, hid, htype⟩, ?_⟩
  exact (onBook_restIfActive (P := fun o => o = b₂.order x)).of_run rfl h₃

theorem market_ordered {i : OrderInput} (hi : i.type = .market) {ts : List Trade} {b₁ b₂ b₃ : OrderBook}
    (h₁ : (newOrderNode i).run b = (.ok x, b₁)) (h₂ : (matchBySide x true).run b₁ = (.ok ts, b₂))
    (h₃ : (cancelRemainder x).run b₂ = (.ok (), b₃)) : Ordered i (b₃.order x) ts := by
  obtain ⟨hid, htype, htaker, hopened⟩ := matched_order h₁ h₂
  unfold cancelRemainder when at h₃
  rw [run_get_bind] at h₃
  split at h₃
  · next hc =>
    have hrun := cancel_ok (h := b₂.toHeap) (r := x) hc.2
    have hb₃ : b₃ = { b₂ with toHeap := b₂.toHeap.modifyNode x fun n => { n with status := .cancelled } } := by
      rw [run_onHeap hrun] at h₃
      exact (congrArg Prod.snd h₃).symm
    have horder : b₃.order x = { b₂.order x with status := .cancelled } := by
      rw [hb₃]
      unfold Heap.order
      rw [Heap.modifyNode_node_self]
    rw [horder]
    refine ⟨⟨htaker, fun hl => ?_, fun _ hs => by cases hs.1⟩, hid, htype⟩
    rw [show i.type = .limit from htype.symm.trans hl] at hi
    cases hi
  · next hc =>
    cases h₃
    refine ⟨⟨htaker, fun _ => hopened, fun _ hs => hc ⟨hs.2, ?_⟩⟩, hid, htype⟩
    unfold Order.isActive
    rw [hs.1]
    rfl

/-! ## The orders of the triggered stop orders -/

/-- The order that a stop order became, with what the engine made of it. -/
structure Firing.Sound (f : Firing) : Prop where
  sound : Execution.Sound ⟨f.order, f.trades⟩
  orderId : f.stop.orderId = .str f.order.orderId

theorem executeTriggered_sound {s : StopOrder} {o : Order} {ts : List Trade}
    (h : (executeTriggeredStopOrder s).run b = (.ok (o, ts), b')) : Firing.Sound ⟨s, o, ts⟩ := by
  unfold executeTriggeredStopOrder at h
  rw [run_get_bind] at h
  split_ifs at h
  · obtain ⟨ms, b₁, -, h⟩ := bind_ok h
    obtain ⟨r, b₂, h₂, h⟩ := bind_ok h
    obtain ⟨us, b₃, h₃, h⟩ := bind_ok h
    obtain ⟨_, b₄, h₄, h⟩ := bind_ok h
    cases h
    have ho := market_ordered rfl h₂ h₃ h₄
    exact ⟨ho.sound, ho.orderId⟩
  · obtain ⟨ms, b₁, -, h⟩ := bind_ok h
    obtain ⟨r, b₂, h₂, h⟩ := bind_ok h
    obtain ⟨us, b₃, h₃, h⟩ := bind_ok h
    obtain ⟨_, b₄, h₄, h⟩ := bind_ok h
    obtain ⟨ho, hsame⟩ := limit_ordered rfl h₂ h₃ h₄
    cases h
    rw [hsame]
    exact ⟨ho.sound, ho.orderId⟩
  · cases h

theorem fireAll_sound {ss : List StopOrder} {fs : List Firing} (h : (fireAll ss).run b = (.ok fs, b')) :
    ∀ f ∈ fs, f.Sound := by
  induction ss generalizing b fs with
  | nil =>
    cases h
    simp
  | cons s ss ih =>
    unfold fireAll at h
    rw [run_modify_bind] at h
    obtain ⟨⟨o, ts⟩, b₁, h₁, h⟩ := bind_ok h
    obtain ⟨fs', b₂, h₂, h⟩ := bind_ok h
    cases h
    intro f hf
    rcases List.mem_cons.mp hf with rfl | hf
    · exact executeTriggered_sound h₁
    · exact ih h₂ f hf

theorem cycles_sound {limit : Nat} {ts : List Trade} {cs : List Cycle}
    (h : (cycles limit ts).run b = (.ok cs, b')) : ∀ f ∈ firedIn cs, f.Sound := by
  induction limit generalizing b ts cs with
  | zero =>
    unfold cycles at h
    cases hl : ts.getLast? with
    | none => rw [hl] at h; cases h; simp [firedIn]
    | some x => rw [hl] at h; cases h
  | succ limit ih =>
    unfold cycles at h
    cases hl : ts.getLast? with
    | none => rw [hl] at h; cases h; simp [firedIn]
    | some x =>
      rw [hl] at h
      dsimp only at h
      rw [run_modify_bind] at h
      obtain ⟨_, b₁, h₁, h⟩ := bind_ok h
      obtain ⟨es, b₂, h₂, h⟩ := bind_ok h
      by_cases he : es = []
      · rw [if_pos he] at h
        cases h
        simp [firedIn]
      · rw [if_neg he] at h
        obtain ⟨fs, b₃, h₃, h⟩ := bind_ok h
        obtain ⟨rest, b₄, h₄, h⟩ := bind_ok h
        cases h
        intro f hf
        rcases List.mem_append.mp (show f ∈ fs ++ firedIn rest from hf) with hf | hf
        · exact fireAll_sound h₃ f hf
        · exact ih h₄ f hf

/-! ## Announcements -/

theorem stampFrom_notes (symbol : String) (n : Int) (es : List EventBody) :
    (stampFrom symbol n es).filterMap (fun e => noteOf e.body) = es.filterMap noteOf := by
  rw [stampFrom_eq]
  exact numbered_filterMap (fun k e => by cases e <;> rfl) n es

theorem tradeEvents_notes {ts : List Trade} {id : String} (h : ∀ t ∈ ts, t.aggressorId = id) :
    (createTradeCreatedEvents ts).filterMap noteOf = List.replicate ts.length (.acted id) := by
  rw [createTradeCreatedEvents, List.filterMap_map, ← trades_notes h]
  exact congrFun List.filterMap_eq_map ts

theorem fillEvent_note (o : Order) : noteOf (createOrderFillEvent o) = none := by
  unfold createOrderFillEvent orderEvent noteOf
  dsimp only
  split_ifs <;> simp_all

/-- The notes about a triggered order. -/
theorem firing_notes {f : Firing} (h : f.Sound) :
    f.events.filterMap noteOf = (Execution.triggeredEntry ⟨f.order, f.trades⟩).notes := by
  unfold Firing.events triggeredEvents
  rw [List.filterMap_append, List.filterMap_append, List.filterMap_append, tradeEvents_notes h.sound.taker,
    List.filterMap_cons_none rfl, List.filterMap_nil, List.nil_append, List.filterMap_cons_none (fillEvent_note _),
    List.filterMap_nil, List.append_nil]
  refine congrArg (_ ++ ·) ((Eq.trans ?_ h.sound.triggered_note))
  split <;> rfl

/-- The notes about the order that a call places. -/
theorem incoming_notes {i : OrderInput} {o : Order} {ts : List Trade} (h : Ordered i o ts) (hl : o.type = .limit) :
    (executedEvents o ts ++ restedEvents o).filterMap noteOf = (Execution.entry true ⟨o, ts⟩).notes := by
  unfold executedEvents restedEvents
  rw [List.filterMap_append, List.filterMap_append, List.filterMap_append, tradeEvents_notes h.sound.taker,
    List.filterMap_cons_none rfl, List.filterMap_nil, List.nil_append, List.filterMap_cons_none (fillEvent_note _),
    List.filterMap_nil, List.append_nil]
  refine congrArg (_ ++ ·) (Eq.trans ?_ (Execution.incoming_note hl))
  split <;> rfl

theorem market_notes {i : OrderInput} {o : Order} {ts : List Trade} (h : Ordered i o ts) (hm : o.type = .market) :
    (executedEvents o ts).filterMap noteOf = (Execution.entry true ⟨o, ts⟩).notes := by
  unfold executedEvents Entry.notes Execution.entry
  rw [List.filterMap_append, List.filterMap_append, tradeEvents_notes h.sound.taker, List.filterMap_cons_none rfl,
    List.filterMap_nil, List.nil_append, List.filterMap_cons_none (fillEvent_note _), List.filterMap_nil,
    List.append_nil, Order.rests, if_neg fun hl => by rw [hm] at hl; cases hl.1]
  simp

theorem firings_notes {fs : List Firing} (h : ∀ f ∈ fs, f.Sound) :
    (fs.flatMap Firing.events).filterMap noteOf =
      ((fs.map fun f => Execution.mk f.order f.trades).map Execution.triggeredEntry).flatMap Entry.notes := by
  rw [List.map_map]
  exact Entry.flatMap_notes fun f hf => firing_notes (h f hf)

variable {c : Call} {res : Result}

/-- The ids of the order that a call places and of the triggered ones are different. -/
theorem executed_ids {p : Payload} {o : Order} {cs : List Cycle} {ts : List Trade} {m' : OMap JsVal StopOrder}
    {last' : Option Int} (hk : Keyed b.stopOrdersById) (hfree : b.stopOrdersById.get? p.orderId = none)
    (hid : p.orderId = .str o.orderId) (hsound : ∀ f ∈ firedIn cs, f.Sound)
    (hcas : Cascaded b.stopOrdersById b.lastTradePriceTicks ts cs m' last') :
    (([Execution.mk o ts] ++ (firedIn cs).map fun f => Execution.mk f.order f.trades).map (·.order.orderId)).Nodup := by
  have hinj : Function.Injective JsVal.str := fun _ _ h => by cases h; rfl
  have hstops : ((firedIn cs).map fun f => f.order.orderId).map JsVal.str =
      (firedIn cs).map fun f => f.stop.orderId := by
    rw [List.map_map]
    exact List.map_congr_left fun f hf => (hsound f hf).orderId.symm
  rw [List.map_append, List.map_map]
  refine List.nodup_cons.mpr ⟨fun hmem => ?_, ?_⟩
  · -- The fired stop orders were pending under their ids.
    obtain ⟨f, hf, hfo⟩ := List.mem_map.mp hmem
    have hkey : f.stop.orderId ∈ b.stopOrdersById.keys := by
      obtain ⟨c, hc, hf⟩ := List.mem_flatMap.mp hf
      exact (hcas.sublist hk c hc).subset (List.mem_map_of_mem hf)
    refine OMap.get?_eq_none.mp hfree ?_
    rw [hid, show o.orderId = f.order.orderId from hfo.symm, ← (hsound f hf).orderId]
    exact hkey
  · refine List.Nodup.of_map JsVal.str ?_
    show (((firedIn cs).map fun f => f.order.orderId).map JsVal.str).Nodup
    rw [hstops]
    exact (List.nodup_append.mp (hcas.ids_nodup hk)).2.1

/-- The cycles after a placement: the triggered orders, and the pending stop orders before. -/
theorem Steps.cycles {i : OrderInput} {ignore : Bool} {settle : NodeRef → Program Unit}
    (s : Steps b b' i ignore settle res) (haside : ∀ x, Keeps (Aside b) (settle x)) :
    ∃ cs, (Node.cycles maxCycles s.ts).run s.settled = (.ok cs, s.cascaded) ∧ s.t = triggeredOf (firedIn cs) ∧
      (∀ f ∈ firedIn cs, f.Sound) ∧ ∃ m' last',
        Cascaded b.stopOrdersById b.lastTradePriceTicks s.ts cs m' last' := by
  obtain ⟨cs, hcs, ht⟩ := cascade_cycles s.cascading
  have ha : Aside b s.settled := (haside s.x).of_run ((aside_matchBySide ignore).of_run
    (aside_newOrderNode.of_run (.refl b) s.create) s.matching) s.settling
  have hcas := (cycles_cascaded hcs).1
  rw [ha.stops, ha.last] at hcas
  exact ⟨cs, hcs, ht, cycles_sound hcs, _, _, hcas⟩

theorem limit_executions {p : Payload} (hfree : (assertOrderIdAvailable p.orderId).run b = (.ok (), b))
    {b' : OrderBook} (s : Steps b b' (limitInput b p) false restIfActive res) {cs : List Cycle}
    (hcs : (Node.cycles maxCycles s.ts).run s.settled = (.ok cs, s.cascaded)) :
    b.executionsOf (.placeLimitOrder (some p)) = .ok (some ⟨s.matched.order s.x, s.ts⟩,
      (firedIn cs).map fun f => ⟨f.order, f.trades⟩) := by
  rw [OrderBook.executionsOf, run_bind_ok hfree, run_bind_ok s.create, run_bind_ok s.matching, run_get_bind,
    run_bind_ok s.settling, run_bind_ok hcs]
  rfl

theorem market_executions {p : Payload} (hfree : (assertOrderIdAvailable p.orderId).run b = (.ok (), b))
    {b' : OrderBook} (s : Steps b b' (marketInput b p) true cancelRemainder res) {cs : List Cycle}
    (hcs : (Node.cycles maxCycles s.ts).run s.settled = (.ok cs, s.cascaded)) :
    b.executionsOf (.placeMarketOrder (some p)) = .ok (some ⟨s.settled.order s.x, s.ts⟩,
      (firedIn cs).map fun f => ⟨f.order, f.trades⟩) := by
  rw [OrderBook.executionsOf, run_bind_ok hfree, run_bind_ok s.create, run_bind_ok s.matching,
    run_bind_ok s.settling, run_get_bind, run_bind_ok hcs]
  rfl

/-- A call that executes no order announces none. -/
theorem others_notes (hc : c.executes = false) (h : (call b c).1 = .ok res) :
    res.events.filterMap (fun e => noteOf e.body) = [] := by
  have hrun : c.program.run b = (.ok res, (call b c).2) := Prod.ext h rfl
  have haccept : ∀ {s : StopOrder} {b' : OrderBook}, (acceptStop s).run b = (.ok res, b') →
      res.events.filterMap (fun e => noteOf e.body) = [] := by
    intro s b' h
    cases h
    rfl
  cases c with
  | placeLimitOrder args => cases hc
  | placeMarketOrder args => cases hc
  | placeStopMarketOrder args =>
    obtain ⟨p, rfl, -, hrun⟩ := placed_ok hrun
    exact haccept hrun
  | placeStopLimitOrder args =>
    obtain ⟨p, rfl, -, hrun⟩ := placed_ok hrun
    exact haccept hrun
  | placeTrailingStopMarketOrder args =>
    obtain ⟨p, rfl, -, hrun⟩ := placed_ok hrun
    rw [run_get_bind] at hrun
    split at hrun
    · cases hrun
    · rw [run_lift_bind] at hrun
      split at hrun
      · exact haccept hrun
      · cases hrun
  | cancelOrder key =>
    have hrun : (Node.cancelOrder key).run b = (.ok res, (call b (.cancelOrder key)).2) := hrun
    unfold Node.cancelOrder at hrun
    rw [run_get_bind] at hrun
    split at hrun
    · rw [← Except.ok.inj (congrArg Prod.fst hrun)]
      rfl
    split at hrun
    · cases hrun
    unfold cancelResting at hrun
    rw [run_get_bind] at hrun
    dsimp only at hrun
    split at hrun
    · cases hrun
    split at hrun
    · cases hrun
    obtain ⟨_, b₁, -, hrun⟩ := bind_ok hrun
    rw [run_get_bind] at hrun
    rw [← Except.ok.inj (congrArg Prod.fst hrun)]
    rfl

/-- Every order that comes to rest is announced as it rests, exactly if no triggered order trades before it
rests. -/
theorem rests_announced_iff (hb : Ran b) (h : (call b c).1 = .ok res) :
    ∃ incoming triggered, b.executionsOf c = .ok (incoming, triggered) ∧
      (Announced (res.events.filterMap fun e => noteOf e.body) (Execution.rested (incoming.toList ++ triggered)) ↔
        ∀ x ∈ triggered, x.order.rests.isSome = true → x.trades = []) := by
  have hrun : c.program.run b = (.ok res, (call b c).2) := Prod.ext h rfl
  cases hc : c.executes with
  | false =>
    refine ⟨none, [], ?_, ?_⟩
    · cases c <;> first | rfl | cases hc
    · rw [others_notes hc h]
      exact iff_of_true ⟨by simp [Execution.rested], by simp⟩ (by simp)
  | true =>
    cases c with
    | placeLimitOrder args =>
      obtain ⟨p, rfl, hfree, s, symbol, n, snapshot, ms, hevents⟩ := limit_steps hrun
      obtain ⟨cs, hcs, ht, hsound, m', last', hcas⟩ := s.cycles fun _ => aside_restIfActive
      obtain ⟨ho, -⟩ := limit_ordered rfl s.create s.matching s.settling
      refine ⟨_, _, limit_executions hfree s hcs, ?_⟩
      rw [hevents, ht, stampFrom_notes, List.filterMap_append, List.filterMap_append, incoming_notes ho ho.type,
        List.filterMap_cons_none rfl, List.filterMap_nil, List.append_nil, triggeredOf, firings_notes hsound,
        ← Execution.entries_notes]
      refine Execution.announced_rests (fun x hx => ?_)
        (executed_ids hb.keyed (available_ok hfree).2.2 ho.orderId hsound hcas)
      obtain ⟨f, hf, rfl⟩ := List.mem_map.mp hx
      exact (hsound f hf).sound
    | placeMarketOrder args =>
      obtain ⟨p, rfl, hfree, s, symbol, n, snapshot, ms, hevents⟩ := market_steps hrun
      obtain ⟨cs, hcs, ht, hsound, m', last', hcas⟩ := s.cycles fun _ => aside_cancelRemainder
      have ho := market_ordered rfl s.create s.matching s.settling
      refine ⟨_, _, market_executions hfree s hcs, ?_⟩
      rw [hevents, ht, stampFrom_notes, List.filterMap_append, List.filterMap_append, market_notes ho ho.type,
        List.filterMap_cons_none rfl, List.filterMap_nil, List.append_nil, triggeredOf, firings_notes hsound,
        ← Execution.entries_notes]
      refine Execution.announced_rests (fun x hx => ?_)
        (executed_ids hb.keyed (available_ok hfree).2.2 ho.orderId hsound hcas)
      obtain ⟨f, hf, rfl⟩ := List.mem_map.mp hx
      exact (hsound f hf).sound
    | _ => cases hc

end

end Lob.Node
