import LobEngine.Node.Reachable

/-!
# Price-time priority

In a reachable book the resting orders of a side form one queue: best price first, and at one price
in the order in which they came to rest (`IsQueue`). Matching an incoming order is the greedy walk
over the orders of that queue (`price_time_priority`).

* `Repr.isQueue`, `IsQueue.unique`: there is exactly one such queue.
-/

namespace Lob.Node

open Exc OrderBook

/-- `Q` lists the nodes of side `s`, best price first, and at one price in the order in which they
were added to the book. -/
structure IsQueue (b : OrderBook) (s : Side) (Q : List NodeRef) : Prop where
  mem : ∀ r, r ∈ Q ↔ ∃ k l, (b.side s).get? k = some l ∧ r ∈ b.queue l
  sorted : Q.Pairwise fun x y => s.rank (b.price x) < s.rank (b.price y) ∨
    b.price x = b.price y ∧ b.arrivals.idxOf x < b.arrivals.idxOf y

section

variable {b : OrderBook} {F : Side → List NodeRef} {v : View}

/-- Two nodes of a list without duplicates that contains them in this order. -/
theorem idxOf_lt_of_sublist {x y : NodeRef} {L : List NodeRef} (hn : L.Nodup)
    (h : [x, y].Sublist L) : L.idxOf x < L.idxOf y := by
  induction L with
  | nil => cases h
  | cons a L ih =>
    rw [List.nodup_cons] at hn
    have hy : y ∈ L := by
      cases h with
      | cons _ h => exact h.subset (by simp)
      | cons_cons _ h => exact h.subset (by simp)
    have hya : y ≠ a := ne_of_mem_of_not_mem hy hn.1
    rw [List.idxOf_cons_ne _ hya.symm]
    by_cases hxa : x = a
    · rw [hxa, List.idxOf_cons_self]; exact Nat.succ_pos _
    · rw [List.idxOf_cons_ne _ (Ne.symm hxa)]
      cases h with
      | cons _ h => exact Nat.succ_lt_succ (ih hn.2 h)
      | cons_cons _ h => exact absurd rfl hxa

theorem Repr.isQueue (h : Repr b F v) (s : Side) : IsQueue b s (F s) where
  mem := fun r => h.mem_queue
  sorted := by
    have hs := (h.sides s).levels.sorted
    rw [List.pairwise_iff_forall_sublist] at hs ⊢
    intro x y hxy
    rcases (hs hxy).lt_or_eq with hlt | he
    · exact .inl hlt
    · have hp := s.rank_injective he
      refine .inr ⟨hp, idxOf_lt_of_sublist h.arrived.1 (List.Sublist.trans ?_ (h.history s (b.price y)))⟩
      have := hxy.filter (b.price · = b.price y)
      simpa [hp] using this

/-- A side has only one queue. -/
theorem IsQueue.unique {s : Side} {Q Q' : List NodeRef} (h : IsQueue b s Q) (h' : IsQueue b s Q') :
    Q = Q' := by
  have hirr : ∀ x, ¬ (s.rank (b.price x) < s.rank (b.price x) ∨
      b.price x = b.price x ∧ b.arrivals.idxOf x < b.arrivals.idxOf x) := fun x hx =>
    hx.elim (lt_irrefl _) fun hx => lt_irrefl _ hx.2
  have hnd : ∀ {P : List NodeRef}, IsQueue b s P → P.Nodup := fun hP =>
    hP.sorted.imp fun {x y} hxy => by rintro rfl; exact hirr x hxy
  have hperm := (List.perm_ext_iff_of_nodup (hnd h) (hnd h')).mpr fun r => (h.mem r).trans (h'.mem r).symm
  refine hperm.eq_of_pairwise (fun x y _ _ hxy hyx => ?_) h.sorted h'.sorted
  rcases hxy with hxy | ⟨hp, hi⟩
  · rcases hyx with hyx | ⟨hp, -⟩
    · exact absurd hxy (lt_asymm hyx)
    · rw [hp] at hxy; exact absurd hxy (lt_irrefl _)
  · rcases hyx with hyx | ⟨-, hi'⟩
    · rw [hp] at hyx; exact absurd hyx (lt_irrefl _)
    · exact absurd hi (lt_asymm hi')

end

/-- Of the orders that a walk leaves all but the first are as before. -/
theorem walk_tail {b b' : OrderBook} {o : Order} {ignore : Bool} {Q Q' : List NodeRef} (hQ : Q' <:+ Q)
    (hrest : Q'.map b'.order = (greedy o ignore (Q.map b.order)).rest) :
    ∀ x ∈ Q'.tail, b'.order x = b.order x := by
  obtain ⟨P, rfl⟩ := hQ
  have hsplit := @walk_split _ (takes o ignore) (·.remainingQuantity) Order.filledBy
    o.remainingQuantity ((P ++ Q').map b.order)
  obtain ⟨pre, suf, hL, hcase⟩ := hsplit
  have hlen : (greedy o ignore ((P ++ Q').map b.order)).rest.length = suf.length ∧
      (greedy o ignore ((P ++ Q').map b.order)).rest.tail = suf.tail := by
    rcases hcase with ⟨-, h⟩ | ⟨a, as, f, rfl, -, -, -, h, -⟩
    · rw [greedy, h]; exact ⟨rfl, rfl⟩
    · rw [greedy, h]; exact ⟨rfl, rfl⟩
  rw [List.map_append] at hL
  rw [← hrest, List.length_map, ← List.map_tail] at hlen
  have hsuf := (List.append_inj' hL (by rw [List.length_map]; exact hlen.1)).2
  rw [← hsuf, ← List.map_tail] at hlen
  exact List.map_inj_left.mp hlen.2

/-- Matching an incoming order is the greedy walk over the queue `Q` of the opposite side. Of `Q`
what follows a consumed prefix stays, and of that at most the first order is reduced. -/
theorem price_time_priority {b : OrderBook} (hb : Reachable b) {i : OrderInput} {o : Order}
    (ho : newOrder i = .ok o) (hsym : i.symbol = b.symbol)
    (hid : b.ordersById.has (.str o.orderId) = false) (hex : o.initialQuantity ≤ Num.maxExact)
    (ignore : Bool) {Q : List NodeRef} (hQ : IsQueue b o.side.opposite Q) :
    ∃ b₁ b' Q', (newOrderNode i).run b = (.ok b.nodes, b₁) ∧
      (matchBySide b.nodes ignore).run b₁ =
        (.ok (tradesOf o (greedy o ignore (Q.map b.order))), b') ∧
      IsQueue b' o.side.opposite Q' ∧ Q' <:+ Q ∧
      Q'.map b'.order = (greedy o ignore (Q.map b.order)).rest ∧
      (∀ x ∈ Q'.tail, b'.order x = b.order x) ∧
      b'.side o.side = b.side o.side ∧
      (b'.order b.nodes).remainingQuantity = o.remainingQuantity -
        ((tradesOf o (greedy o ignore (Q.map b.order))).map (·.quantity)).sum := by
  obtain ⟨F, v, h, hv⟩ := hb.repr
  obtain rfl := hQ.unique (h.isQueue _)
  have hfresh : o.orderId ∉ v.ids := fun hmem => by
    obtain ⟨r, hr⟩ := h.mem_ids.mp hmem
    rw [OMap.has, hr] at hid
    cases hid
  obtain ⟨b₁, hnew, hb₁, h₁, hord, -, hmatch⟩ := newOrderNode_run h ho (hsym.trans h.symbol.symm)
    hfresh hex (v.quantity_le_open.trans hv.exact)
  obtain ⟨b', G, hrun, hm, -, h'⟩ := h₁.matchOrder ignore hmatch
  have hq' := h'.isQueue o.side.opposite
  have hrest := h'.orders o.side.opposite
  rw [hord] at hrun hm hq' hrest
  rw [Function.update_self] at hq' hrest
  have hside : v.side o.side.opposite = (F o.side.opposite).map b.order := h.orders _
  rw [Depth.fillFrom, Depth.side_setSide, hside] at hrest
  rw [Depth.fillFrom, hside] at hrun hm
  refine ⟨b₁, b', G, hnew, hrun, hq', hm.suffix, hrest.symm, walk_tail hm.suffix hrest.symm, ?_, ?_⟩
  · rw [hm.own, hb₁]
    cases o.side <;> rfl
  · rw [hm.order_incoming, hord, Order.filledBy_remaining]

/-- A queue from the entries of the side. -/
theorem isQueue_of_entries {b : OrderBook} {s : Side} (es : List (Int × LevelRef)) (he : (b.side s).entries = es)
    (hsorted : (es.flatMap fun e => b.queue e.2).Pairwise fun x y => s.rank (b.price x) < s.rank (b.price y) ∨
      b.price x = b.price y ∧ b.arrivals.idxOf x < b.arrivals.idxOf y) :
    IsQueue b s (es.flatMap fun e => b.queue e.2) where
  mem := fun r => by
    rw [List.mem_flatMap]
    constructor
    · rintro ⟨e, hmem, hr⟩
      exact ⟨e.1, e.2, OMap.mem_entries.mp (he ▸ hmem), hr⟩
    · rintro ⟨k, l, hl, hr⟩
      exact ⟨(k, l), he ▸ OMap.mem_entries.mpr hl, hr⟩
  sorted := hsorted

theorem oneAsk_queue : IsQueue oneAsk .sell [0] :=
  isQueue_of_entries [(1, 0)] (by decide) (by decide)

theorem mixed_queue : IsQueue mixed .sell [0, 1, 2] :=
  isQueue_of_entries [(1, 0), (2, 1)] (by decide +kernel) (by decide +kernel)

/-- A limit buy order of user `u`. -/
def bid (priceTicks quantity : Int) : OrderInput where
  orderId := .str "bid"
  userId := .str "u"
  symbol := "BTC-USD"
  side := .str "BUY"
  type := .limit
  priceTicks := .num (.int priceTicks)
  quantity := .num (.int quantity)
  timestamp := .num (.int 0)
  clock := false

def bidOrder (priceTicks quantity : Int) : Order where
  orderId := "bid"
  userId := "u"
  symbol := "BTC-USD"
  side := .buy
  type := .limit
  priceTicks := some priceTicks
  initialQuantity := quantity
  remainingQuantity := quantity
  status := .opened
  timestamp := ⟨0, false⟩

/-- The order fills `a` and `b` at price 1, and 2 of the 3 of `c` at price 2. -/
theorem price_time_priority_mixed :
    (tradesOf (bidOrder 2 4) (greedy (bidOrder 2 4) false ([0, 1, 2].map mixed.order))).map
        (fun t => (t.sellOrderId, t.priceTicks, t.quantity)) = [("a", 1, 1), ("b", 1, 1), ("c", 2, 2)] ∧
      (greedy (bidOrder 2 4) false ([0, 1, 2].map mixed.order)).rest.map (·.remainingQuantity) = [1] ∧
      ∃ b₁ b' Q', (newOrderNode (bid 2 4)).run mixed = (.ok mixed.nodes, b₁) ∧
        (matchBySide mixed.nodes false).run b₁ =
          (.ok (tradesOf (bidOrder 2 4) (greedy (bidOrder 2 4) false ([0, 1, 2].map mixed.order))), b') ∧
        IsQueue b' .sell Q' ∧ Q' <:+ [0, 1, 2] ∧
        Q'.map b'.order = (greedy (bidOrder 2 4) false ([0, 1, 2].map mixed.order)).rest ∧
        (∀ x ∈ Q'.tail, b'.order x = mixed.order x) ∧ b'.side .buy = mixed.side .buy ∧
        (b'.order mixed.nodes).remainingQuantity = 4 -
          ((tradesOf (bidOrder 2 4) (greedy (bidOrder 2 4) false ([0, 1, 2].map mixed.order))).map
            (·.quantity)).sum :=
  ⟨by decide +kernel, by decide +kernel,
    price_time_priority mixed_reachable (i := bid 2 4) (o := bidOrder 2 4) (by decide) (by decide +kernel)
      (by decide +kernel) (by decide) false mixed_queue⟩

/-- A buy order of quantity `2^54` trades 1 with the sell order and still has `2^54` left: the
difference is no double. -/
theorem huge_bid_keeps_its_quantity :
    Reachable oneAsk ∧ IsQueue oneAsk .sell [0] ∧ newOrder (bid 1 (2 ^ 54)) = .ok (bidOrder 1 (2 ^ 54)) ∧
    ((matchBySide oneAsk.nodes false).run ((newOrderNode (bid 1 (2 ^ 54))).run oneAsk).2).1.toOption.map
      (fun ts => ts.map (·.quantity)) = some [1] ∧
    (((matchBySide oneAsk.nodes false).run ((newOrderNode (bid 1 (2 ^ 54))).run oneAsk).2).2.order
      oneAsk.nodes).remainingQuantity ≠ 2 ^ 54 - 1 :=
  ⟨oneAsk_reachable, oneAsk_queue, by decide, by decide, by decide⟩

end Lob.Node
