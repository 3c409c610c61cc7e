import LobEngine.Node.Announcing

/-!
# The orders that a call adds to the sides

A book keeps the nodes in the order in which they came to rest. What a call adds there are the nodes of those of the
orders it executes that come to rest.

* `restIfActive_adds`: the remainder of one limit order.
* `cycles_adds`: what the triggered stop orders add.
* `executions_join`: a whole call.
-/

namespace Lob.Node

open Exc OrderBook

/-- The nodes of before are still there, and their orders keep their ids. -/
structure Heap.Extends (h₀ h : Heap) : Prop where
  nodes : h₀.nodes ≤ h.nodes
  ids : ∀ x < h₀.nodes, (h.order x).orderId = (h₀.order x).orderId

/-- Since `b₀` the nodes `new` came to rest, in turn. -/
structure Joined (b₀ : OrderBook) (new : List NodeRef) (b : OrderBook) : Prop extends
    Heap.Extends b₀.toHeap b.toHeap where
  arrivals : b.arrivals = b₀.arrivals ++ new

section

variable {h₀ : Heap} {b b' b₀ b₁ : OrderBook} {x r : NodeRef} {new : List NodeRef} {xs ys : List String} {c : Call}
  {res : Result}

theorem extends_of_keeps {p : Exc JsError Heap Unit} (hnodes : ∀ n, Keeps (fun h : Heap => n ≤ h.nodes) p)
    (hids : ∀ id x, Keeps (OfOrder (fun o => o.orderId = id) x) p) : Keeps (Heap.Extends h₀) p :=
  fun h hh => ⟨hnodes _ h hh.nodes, fun x hx => hids _ x h (hh.ids x hx)⟩

theorem extends_fill {x : NodeRef} {q : Int} : Keeps (Heap.Extends h₀) (fill x q) :=
  extends_of_keeps (fun _ => Keeps.get.bind fun _ => (Keeps.throw _).ite ((Keeps.throw _).ite ((Keeps.throw _).ite
    (Keeps.modify fun _ h => h)))) fun _ _ => keeps_ofOrder_fill fun _ _ h => h

theorem extends_decrease {l : LevelRef} {q : Int} : Keeps (Heap.Extends h₀) (decreaseTotalQuantity l q) :=
  extends_of_keeps (fun _ => Keeps.get.bind fun _ => (Keeps.throw _).ite ((Keeps.throw _).ite
    (Keeps.modify fun _ h => h))) fun _ _ => keeps_ofOrder_decrease

theorem extends_remove {l : LevelRef} {x : NodeRef} : Keeps (Heap.Extends h₀) (remove l x) := by
  refine extends_of_keeps (fun _ => Keeps.get.bind fun h => (Keeps.lift _).bind fun _ => Keeps.bind ?_ fun _ =>
    Keeps.bind ?_ fun _ => Keeps.bind (Keeps.modify fun _ h => h) fun _ => Keeps.modify fun _ h => h) fun _ _ =>
      keeps_ofOrder_remove
  · refine Keeps.modify fun h' hn => ?_
    unfold Heap.setNext
    split <;> exact hn
  · refine Keeps.modify fun h' hn => ?_
    unfold Heap.setPrev
    split <;> exact hn

theorem extends_append {l : LevelRef} {x : NodeRef} : Keeps (Heap.Extends h₀) (append l x) := by
  refine extends_of_keeps (fun _ => Keeps.get.bind fun h => (Keeps.lift _).bind fun _ =>
    (Keeps.modify fun _ h => by exact h).bind fun _ => Keeps.bind (Keeps.ite (Keeps.modify fun _ h => by exact h) ?_)
      fun _ => Keeps.modify fun _ h => by exact h) fun _ _ => keeps_ofOrder_append
  split
  · exact Keeps.throw _
  · exact (Keeps.modify fun _ h => by exact h).bind fun _ => (Keeps.modify fun _ h => by exact h).bind fun _ =>
      Keeps.modify fun _ h => by exact h

theorem extends_cancel {x : NodeRef} : Keeps (Heap.Extends h₀) (cancel x) :=
  extends_of_keeps (fun _ => Keeps.get.bind fun _ => (Keeps.throw _).ite (Keeps.modify fun _ h => h)) fun _ _ =>
    Keeps.get.bind fun _ => (Keeps.throw _).ite (Keeps.modify fun _ h => h.modifyNode fun hx => hx)

theorem joined_onHeap {p : Exc JsError Heap Unit} (hp : Keeps (Heap.Extends b₀.toHeap) p) :
    Keeps (Joined b₀ new) (onHeap p) := fun b h => ⟨hp b.toHeap h.toExtends, h.arrivals⟩

theorem framed_joined : Framed (Joined b₀ new) where
  decrease := fun _ _ => joined_onHeap extends_decrease
  remove := fun _ _ => joined_onHeap extends_remove
  append := fun _ _ => joined_onHeap extends_append
  newLevel := fun _ _ h => ⟨⟨h.nodes, h.ids⟩, h.arrivals⟩
  setSide := fun b s _ h => ⟨by cases s <;> exact h.toExtends, by rw [setSide_arrivals]; exact h.arrivals⟩
  index := fun _ _ h => ⟨h.toExtends, h.arrivals⟩

/-- Since `b` the orders with the ids `xs` came to rest, in turn. -/
def Adds (b : OrderBook) (xs : List String) (b' : OrderBook) : Prop :=
  ∃ new, Joined b new b' ∧ (∀ x ∈ new, x < b'.nodes) ∧ new.map (fun x => (b'.order x).orderId) = xs

theorem Adds.none (hh : Heap.Extends b.toHeap b'.toHeap) (ha : b'.arrivals = b.arrivals) : Adds b [] b' :=
  ⟨[], ⟨hh, by rw [ha, List.append_nil]⟩, by simp, rfl⟩

theorem Adds.refl (b : OrderBook) : Adds b [] b := .none ⟨le_rfl, fun _ _ => rfl⟩ rfl

theorem Adds.of_keeps {α : Type} {p : Program α} {r : Except JsError α} (hp : Keeps (Joined b []) p)
    (h : p.run b = (r, b')) : Adds b [] b' := by
  have hj : Joined b [] b' := hp.of_run ⟨⟨le_rfl, fun _ _ => rfl⟩, (List.append_nil _).symm⟩ h
  exact ⟨[], hj, by simp, rfl⟩

theorem Adds.trans (h : Adds b xs b₁) (h' : Adds b₁ ys b') : Adds b (xs ++ ys) b' := by
  obtain ⟨new, hj, hlt, rfl⟩ := h
  obtain ⟨new', hj', hlt', rfl⟩ := h'
  refine ⟨new ++ new', ⟨⟨hj.nodes.trans hj'.nodes, fun x hx => ?_⟩, ?_⟩, fun x hx => ?_, ?_⟩
  · exact (hj'.ids x (hx.trans_le hj.nodes)).trans (hj.ids x hx)
  · rw [hj'.arrivals, hj.arrivals, List.append_assoc]
  · rcases List.mem_append.mp hx with hx | hx
    · exact (hlt x hx).trans_le hj'.nodes
    · exact hlt' x hx
  · rw [List.map_append]
    exact congrArg (· ++ _) (List.map_congr_left fun x hx => hj'.ids x (hlt x hx))

theorem Adds.then (h : Adds b xs b₁) (h' : Adds b₁ [] b') : Adds b xs b' := by
  simpa using h.trans h'

theorem newOrderNode_adds {i : OrderInput} (h : (newOrderNode i).run b = (.ok x, b')) :
    Adds b [] b' ∧ x < b'.nodes := by
  unfold newOrderNode at h
  rw [run_lift_bind] at h
  cases ho : newOrder i with
  | error e => rw [ho] at h; cases h
  | ok o =>
    rw [ho] at h
    cases h
    refine ⟨.none ⟨Nat.le_succ _, fun y hy => ?_⟩ rfl, Nat.lt_succ_self _⟩
    show (Function.update b.node b.nodes _ y).orderId = _
    rw [Function.update_of_ne (Nat.ne_of_lt hy)]
    rfl

theorem matchBySide_adds {ignore : Bool} {ts : List Trade} (h : (matchBySide r ignore).run b = (.ok ts, b')) :
    Adds b [] b' :=
  .of_keeps (framed_joined.matchBySide (fun _ _ => joined_onHeap extends_fill)
    (fun _ _ h => ⟨h.toExtends, h.arrivals⟩) r ignore) h

theorem cancelRemainder_adds (h : (cancelRemainder r).run b = (.ok (), b')) : Adds b [] b' :=
  .of_keeps (Keeps.get.bind fun _ => (joined_onHeap extends_cancel).ite (Keeps.pure ())) h

theorem Adds.extends (h : Adds b [] b') : Heap.Extends b.toHeap b'.toHeap := by
  obtain ⟨new, hj, -, -⟩ := h
  exact hj.toExtends

/-- The id of an order that comes to rest. -/
def restedId (o : Order) : List String := o.rests.toList.map fun _ => o.orderId

theorem rested_ids (es : List Execution) :
    (Execution.rested es).map (·.1) = es.flatMap fun x => restedId x.order := by
  induction es with
  | nil => rfl
  | cons e es ih =>
    rw [List.flatMap_cons, ← ih, Execution.rested, restedId]
    cases h : e.order.rests with
    | none => rw [List.filterMap_cons_none (by rw [h]; rfl)]; rfl
    | some q => rw [List.filterMap_cons_some (by rw [h]; rfl)]; rfl

/-- A limit order joins its side exactly if it comes to rest. -/
theorem restIfActive_adds (hl : (b.order r).type = .limit) (hr : r < b.nodes)
    (h : (restIfActive r).run b = (.ok (), b')) : Adds b (restedId (b.order r)) b' := by
  unfold restIfActive when at h
  rw [run_get_bind] at h
  split at h
  · next hc =>
    obtain ⟨_, b₁, h₁, h⟩ := bind_ok h
    unfold addRestingOrder at h₁
    rw [run_get_bind, if_neg (not_not.mpr hl)] at h₁
    obtain ⟨l, b₂, h₂, h₁⟩ := bind_ok h₁
    obtain ⟨_, b₃, h₃, h₁⟩ := bind_ok h₁
    have hlevel : Adds b [] b₂ := by
      refine .of_keeps ?_ h₂
      refine Keeps.get.bind fun b => ?_
      split
      · exact Keeps.pure _
      · refine Keeps.ite (Keeps.throw _) (Keeps.bind (Keeps.modify fun b h => ?_) fun _ => Keeps.pure _)
        exact framed_joined.setSide _ _ _ (framed_joined.newLevel b _ h)
    have hheap := (hlevel.then (.of_keeps (framed_joined.append _ _) h₃)).extends
    cases h₁
    cases h
    have hjoins : Adds b₃ [(b₃.order r).orderId] { b₃ with
        arrivals := b₃.arrivals ++ [r], ordersById := b₃.ordersById.set (.str (b₃.order r).orderId) r } :=
      ⟨[r], ⟨⟨le_rfl, fun _ _ => rfl⟩, rfl⟩, by simpa using hr.trans_le hheap.nodes, rfl⟩
    have hid : restedId (b.order r) = [(b₃.order r).orderId] := by
      rw [restedId, Order.rests, if_pos ⟨hl, hc⟩, hheap.ids r hr]
      rfl
    rw [hid]
    exact (hlevel.then (.of_keeps (framed_joined.append _ _) h₃)).trans hjoins
  · next hc =>
    cases h
    have hnone : restedId (b.order r) = [] := by
      rw [restedId, Order.rests, if_neg fun h => hc h.2]
      rfl
    rw [hnone]
    exact .refl b

theorem limit_adds {i : OrderInput} (hi : i.type = .limit) {ts : List Trade} {b₁ b₂ b₃ : OrderBook}
    (h₁ : (newOrderNode i).run b = (.ok x, b₁)) (h₂ : (matchBySide x false).run b₁ = (.ok ts, b₂))
    (h₃ : (restIfActive x).run b₂ = (.ok (), b₃)) : Adds b (restedId (b₂.order x)) b₃ := by
  obtain ⟨-, htype, -⟩ := matched_order h₁ h₂
  obtain ⟨hnew, hlt⟩ := newOrderNode_adds h₁
  have hmatch := matchBySide_adds h₂
  exact (hnew.then hmatch).trans (restIfActive_adds (htype.trans hi) (hlt.trans_le hmatch.extends.nodes) h₃)

theorem market_restedId {i : OrderInput} (hi : i.type = .market) {ts : List Trade} {b₁ b₂ b₃ : OrderBook}
    (h₁ : (newOrderNode i).run b = (.ok x, b₁)) (h₂ : (matchBySide x true).run b₁ = (.ok ts, b₂))
    (h₃ : (cancelRemainder x).run b₂ = (.ok (), b₃)) : restedId (b₃.order x) = [] := by
  have htype := (market_ordered hi h₁ h₂ h₃).type.trans hi
  rw [restedId, Order.rests, if_neg fun h => by rw [htype] at h; cases h.1]
  rfl

theorem executeTriggered_adds {s : StopOrder} {o : Order} {ts : List Trade}
    (h : (executeTriggeredStopOrder s).run b = (.ok (o, ts), b')) : Adds b (restedId o) b' := by
  have hnow : ∀ {b b' : OrderBook} {ms : Int}, now.run b = (.ok ms, b') → Adds b [] b' := by
    intro b b' ms h
    cases h
    exact .none ⟨le_rfl, fun _ _ => rfl⟩ rfl
  unfold executeTriggeredStopOrder at h
  rw [run_get_bind] at h
  split_ifs at h
  · obtain ⟨ms, b₁, h₁, h⟩ := bind_ok h
    obtain ⟨r, b₂, h₂, h⟩ := bind_ok h
    obtain ⟨us, b₃, h₃, h⟩ := bind_ok h
    obtain ⟨_, b₄, h₄, h⟩ := bind_ok h
    cases h
    rw [market_restedId rfl h₂ h₃ h₄]
    exact (((hnow h₁).then (newOrderNode_adds h₂).1).then (matchBySide_adds h₃)).then (cancelRemainder_adds h₄)
  · obtain ⟨ms, b₁, h₁, h⟩ := bind_ok h
    obtain ⟨r, b₂, h₂, h⟩ := bind_ok h
    obtain ⟨us, b₃, h₃, h⟩ := bind_ok h
    obtain ⟨_, b₄, h₄, h⟩ := bind_ok h
    obtain ⟨-, hsame⟩ := limit_ordered rfl h₂ h₃ h₄
    cases h
    rw [hsame]
    exact (hnow h₁).trans (limit_adds rfl h₂ h₃ h₄)
  · cases h

theorem fireAll_adds {ss : List StopOrder} {fs : List Firing} (h : (fireAll ss).run b = (.ok fs, b')) :
    Adds b (fs.flatMap fun f => restedId f.order) b' := by
  induction ss generalizing b fs with
  | nil =>
    cases h
    exact .refl b'
  | cons s ss ih =>
    unfold fireAll at h
    rw [run_modify_bind] at h
    obtain ⟨⟨o, ts⟩, b₁, h₁, h⟩ := bind_ok h
    obtain ⟨fs', b₂, h₂, h⟩ := bind_ok h
    cases h
    have hdelete : Adds b [] { b with stopOrdersById := b.stopOrdersById.delete s.orderId } :=
      .none ⟨le_rfl, fun _ _ => rfl⟩ rfl
    exact (hdelete.trans (executeTriggered_adds h₁)).trans (ih h₂)

theorem cycles_adds {limit : Nat} {ts : List Trade} {cs : List Cycle} (h : (cycles limit ts).run b = (.ok cs, b')) :
    Adds b ((firedIn cs).flatMap fun f => restedId f.order) b' := by
  induction limit generalizing b ts cs with
  | zero =>
    unfold cycles at h
    cases hl : ts.getLast? with
    | none =>
      rw [hl] at h
      cases h
      exact .refl b'
    | some x => rw [hl] at h; cases h
  | succ limit ih =>
    unfold cycles at h
    cases hl : ts.getLast? with
    | none =>
      rw [hl] at h
      cases h
      exact .refl b'
    | some x =>
      rw [hl] at h
      dsimp only at h
      rw [run_modify_bind] at h
      obtain ⟨_, b₁, h₁, h⟩ := bind_ok h
      obtain ⟨es, b₂, h₂, h⟩ := bind_ok h
      -- The last price, the trailing stop orders and the eligible ones leave the nodes.
      have hround : Adds b [] b₂ := by
        cases h₁
        obtain rfl : _ = b₂ := congrArg Prod.snd h₂
        exact .none ⟨le_rfl, fun _ _ => rfl⟩ rfl
      by_cases he : es = []
      · rw [if_pos he] at h
        cases h
        exact hround
      · rw [if_neg he] at h
        obtain ⟨fs, b₃, h₃, h⟩ := bind_ok h
        obtain ⟨rest, b₄, h₄, h⟩ := bind_ok h
        cases h
        rw [firedIn, List.flatMap_cons, List.flatMap_append]
        exact (hround.trans (fireAll_adds h₃)).trans (ih h₄)

/-! ## Calls -/

/-- A call that executes no order adds none. -/
theorem others_adds (hc : c.executes = false) (h : (call b c).1 = .ok res) : Adds b [] (call b c).2 := by
  have hrun : c.program.run b = (.ok res, (call b c).2) := Prod.ext h rfl
  have haccept : ∀ {s : StopOrder} {b' : OrderBook}, (acceptStop s).run b = (.ok res, b') → Adds b [] b' := by
    intro s b' h
    cases h
    exact .none ⟨le_rfl, fun _ _ => rfl⟩ rfl
  cases c with
  | placeLimitOrder args => cases hc
  | placeMarketOrder args => cases hc
  | placeStopMarketOrder args =>
    obtain ⟨p, rfl, -, hrun⟩ := placed_ok hrun
    exact haccept hrun
  | placeStopLimitOrder args =>
    obtain ⟨p, rfl, -, hrun⟩ := placed_ok hrun
    exact haccept hrun
  | placeTrailingStopMarketOrder args =>
    obtain ⟨p, rfl, -, hrun⟩ := placed_ok hrun
    rw [run_get_bind] at hrun
    split at hrun
    · cases hrun
    · rw [run_lift_bind] at hrun
      split at hrun
      · exact haccept hrun
      · cases hrun
  | cancelOrder key =>
    have hrun : (Node.cancelOrder key).run b = (.ok res, (call b (.cancelOrder key)).2) := hrun
    unfold Node.cancelOrder at hrun
    rw [run_get_bind] at hrun
    split at hrun
    · rw [← congrArg Prod.snd hrun]
      exact .none ⟨le_rfl, fun _ _ => rfl⟩ rfl
    split at hrun
    · cases hrun
    unfold cancelResting at hrun
    rw [run_get_bind] at hrun
    dsimp only at hrun
    split at hrun
    · cases hrun
    split at hrun
    · cases hrun
    obtain ⟨_, b₁, h₁, hrun⟩ := bind_ok hrun
    have hunlink : Adds b [] b₁ := by
      refine .of_keeps ?_ h₁
      exact (framed_joined.remove _ _).bind fun _ => (joined_onHeap extends_cancel).bind fun _ =>
        (Keeps.modify fun _ h => by exact ⟨h.toExtends, h.arrivals⟩).bind fun _ => Keeps.get.bind fun _ => Keeps.ite
          (Keeps.modify fun _ h => framed_joined.setSide _ _ _ h) (Keeps.pure ())
    rw [run_get_bind] at hrun
    rw [← congrArg Prod.snd hrun]
    exact hunlink.then (.none ⟨le_rfl, fun _ _ => rfl⟩ rfl)

/-- The nodes that came to rest in a successful call, in turn, are those of the executed orders that come to rest. -/
theorem executions_join (h : (call b c).1 = .ok res) : ∃ incoming triggered new,
    b.executionsOf c = .ok (incoming, triggered) ∧ (call b c).2.arrivals = b.arrivals ++ new ∧
      new.map (fun x => ((call b c).2.order x).orderId) =
        (Execution.rested (incoming.toList ++ triggered)).map (·.1) := by
  have hadds : ∀ {incoming triggered}, b.executionsOf c = .ok (incoming, triggered) →
      Adds b ((incoming.toList ++ triggered).flatMap fun x => restedId x.order) (call b c).2 →
      ∃ incoming triggered new, b.executionsOf c = .ok (incoming, triggered) ∧
        (call b c).2.arrivals = b.arrivals ++ new ∧ new.map (fun x => ((call b c).2.order x).orderId) =
          (Execution.rested (incoming.toList ++ triggered)).map (·.1) := by
    rintro incoming triggered hex ⟨new, hj, -, hids⟩
    exact ⟨incoming, triggered, new, hex, hj.arrivals, hids.trans (rested_ids _).symm⟩
  have hrun : c.program.run b = (.ok res, (call b c).2) := Prod.ext h rfl
  cases hc : c.executes with
  | false =>
    refine hadds (?_ : b.executionsOf c = .ok (none, [])) (others_adds hc h)
    cases c <;> first | rfl | cases hc
  | true =>
    cases c with
    | placeLimitOrder args =>
      obtain ⟨p, rfl, hfree, s, -⟩ := limit_steps hrun
      obtain ⟨cs, hcs, -⟩ := s.cycles fun _ => aside_restIfActive
      refine hadds (limit_executions hfree s hcs) (Adds.then ?_ (.none (s.heap ▸ ⟨le_rfl, fun _ _ => rfl⟩) s.arrivals))
      have hall := (limit_adds rfl s.create s.matching s.settling).trans (cycles_adds hcs)
      rw [List.flatMap_append, List.flatMap_map]
      show Adds b ((restedId (s.matched.order s.x) ++ []) ++ _) _
      rwa [List.append_nil]
    | placeMarketOrder args =>
      obtain ⟨p, rfl, hfree, s, -⟩ := market_steps hrun
      obtain ⟨cs, hcs, -⟩ := s.cycles fun _ => aside_cancelRemainder
      refine hadds (market_executions hfree s hcs) (Adds.then ?_ (.none (s.heap ▸ ⟨le_rfl, fun _ _ => rfl⟩) s.arrivals))
      have hall := (((newOrderNode_adds s.create).1.then (matchBySide_adds s.matching)).then
        (cancelRemainder_adds s.settling)).trans (cycles_adds hcs)
      rw [List.flatMap_append, List.flatMap_map]
      show Adds b ((restedId (s.settled.order s.x) ++ []) ++ _) _
      rwa [market_restedId rfl s.create s.matching s.settling]
    | _ => cases hc

end

end Lob.Node
