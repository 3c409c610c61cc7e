import LobEngine.Node.Crossing
import LobEngine.Node.Queues

/-!
# The matching loop is the greedy walk

`matchLoop` recomputes the best price from a map, trades with the head of its queue, unlinks filled
nodes and deletes empty levels. On a side that is the flat list `F` this is the greedy walk of the
incoming order over `F` (`matchLoop_ok`), as long as its numbers are exact.

* `Ready`: what the loop needs of the incoming node and the opposite side.
* `Matched`: what it does to the book; it composes (`Matched.trans`).
* `matchBest_part`, `matchBest_whole`: one iteration, which trades with the first node of `F`.
-/

namespace Lob.Node

open Exc OrderBook

/-- Node `r₀` of side `s` can be matched with the opposite side `F`. -/
structure Ready (s : Side) (r₀ : NodeRef) (b : OrderBook) (F : List NodeRef) : Prop where
  side : SideIs b.toHeap s.opposite (b.side s.opposite) F
  fresh : r₀ ∉ F
  orderSide : (b.order r₀).side = s
  symbol : (b.order r₀).symbol = b.symbol
  nonneg : 0 ≤ (b.order r₀).remainingQuantity
  exact₀ : (b.order r₀).remainingQuantity ≤ Num.maxExact
  active : 0 < (b.order r₀).remainingQuantity → (b.order r₀).isActive = true
  exact : b.remaining F ≤ Num.maxExact
  ids : ((b.order r₀).orderId :: F.map fun r => (b.order r).orderId).Nodup

/-- From `b` to `b'`, node `r₀` did the trades `ts` with the opposite side, which was `F` and is
`F'` now. -/
structure Matched (s : Side) (r₀ : NodeRef) (b b' : OrderBook) (F F' : List NodeRef)
    (ts : List Trade) : Prop where
  side : SideIs b'.toHeap s.opposite (b'.side s.opposite) F'
  suffix : F' <:+ F
  frame : b' = { b with
    toHeap := b'.toHeap, bids := b'.bids, asks := b'.asks, ordersById := b'.ordersById
    trades := b.trades ++ ts }
  own : b'.side s = b.side s
  nodes : b'.nodes = b.nodes
  levels : b'.levels = b.levels
  incoming : b'.node r₀ = { b.node r₀ with
    toOrder := (b.order r₀).filledBy (ts.map (·.quantity)).sum }
  node : ∀ x, x ≠ r₀ → x ∉ F → b'.node x = b.node x
  level : ∀ l, l ∉ (b.side s.opposite).values → b'.level l = b.level l
  values : ∀ l ∈ (b'.side s.opposite).values, l ∈ (b.side s.opposite).values
  filled : ∀ x ∈ F, b'.order x = (b.order x).filledBy (traded (b.order x).orderId ts)
  positive : ∀ t ∈ ts, 0 < t.quantity
  names : ∀ t ∈ ts, t.names (b.order r₀).orderId ∧
    ∀ id, t.names id → id = (b.order r₀).orderId ∨ ∃ x ∈ F, id = (b.order x).orderId
  gone : ∀ x ∈ F, x ∉ F' → b'.ordersById.get? (.str (b.order x).orderId) = none
  kept : ∀ id, (∀ x ∈ F, x ∉ F' → id ≠ .str (b.order x).orderId) →
    b'.ordersById.get? id = b.ordersById.get? id

section

variable {s : Side} {r₀ : NodeRef} {b b' b'' : OrderBook} {F F' F'' : List NodeRef}
  {ts us : List Trade}

/-- Nothing matched. -/
theorem Matched.refl (hr : Ready s r₀ b F) : Matched s r₀ b b F F [] where
  side := hr.side
  suffix := List.suffix_rfl
  frame := by simp
  own := rfl
  nodes := rfl
  levels := rfl
  incoming := by simp [Heap.order]
  node := fun _ _ _ => rfl
  level := fun _ _ => rfl
  values := fun _ h => h
  filled := by simp
  positive := by simp
  names := by simp
  gone := fun x hx hx' => absurd hx hx'
  kept := fun _ _ => rfl

theorem Matched.symbol_eq (h : Matched s r₀ b b' F F' ts) : b'.symbol = b.symbol := by rw [h.frame]

theorem Matched.order_incoming (h : Matched s r₀ b b' F F' ts) :
    b'.order r₀ = (b.order r₀).filledBy (ts.map (·.quantity)).sum := by
  rw [Heap.order, h.incoming]

theorem Matched.orderId_eq (h : Matched s r₀ b b' F F' ts) {x : NodeRef} (hx : x ∈ F) :
    (b'.order x).orderId = (b.order x).orderId := by
  rw [h.filled x hx, Order.filledBy_orderId]

theorem Matched.trans (h : Matched s r₀ b b' F F' ts) (h' : Matched s r₀ b' b'' F' F'' us)
    (hr : Ready s r₀ b F) : Matched s r₀ b b'' F F'' (ts ++ us) where
  side := h'.side
  suffix := h'.suffix.trans h.suffix
  frame := by
    have e := h'.frame
    rw [h.frame] at e
    rw [e, List.append_assoc]
  own := h'.own.trans h.own
  nodes := h'.nodes.trans h.nodes
  levels := h'.levels.trans h.levels
  incoming := by
    rw [h'.incoming, h.order_incoming, h.incoming, List.map_append, List.sum_append,
      Order.filledBy_filledBy _ (sum_quantity_nonneg h.positive) (sum_quantity_nonneg h'.positive)]
  node := fun x hx hxF => (h'.node x hx fun hx' => hxF (h.suffix.subset hx')).trans (h.node x hx hxF)
  level := fun l hl => (h'.level l fun hl' => hl (h.values l hl')).trans (h.level l hl)
  values := fun l hl => h.values l (h'.values l hl)
  filled := by
    intro x hx
    rw [traded_append]
    by_cases hx' : x ∈ F'
    · rw [h'.filled x hx', h.filled x hx, Order.filledBy_orderId,
        Order.filledBy_filledBy _ (traded_nonneg h.positive _) (traded_nonneg h'.positive _)]
    · -- A node that left takes part in no further trade.
      have hne : x ≠ r₀ := fun e => hr.fresh (e ▸ hx)
      have hzero : traded (b.order x).orderId us = 0 := by
        refine traded_eq_zero fun t ht hn => ?_
        have hnd := List.nodup_cons.mp hr.ids
        rcases (h'.names t ht).2 _ hn with e | ⟨y, hy, e⟩
        · rw [h.order_incoming, Order.filledBy_orderId] at e
          exact hnd.1 (e ▸ List.mem_map_of_mem hx)
        · rw [h.orderId_eq (h.suffix.subset hy)] at e
          have := List.inj_on_of_nodup_map hnd.2 hx (h.suffix.subset hy) e
          exact hx' (this ▸ hy)
      rw [hzero, add_zero, Heap.order, h'.node x hne hx']
      exact h.filled x hx
  positive := by
    intro t ht
    rcases List.mem_append.mp ht with ht | ht
    · exact h.positive t ht
    · exact h'.positive t ht
  names := by
    intro t ht
    rcases List.mem_append.mp ht with ht | ht
    · exact h.names t ht
    · have hn := h'.names t ht
      rw [h.order_incoming, Order.filledBy_orderId] at hn
      refine ⟨hn.1, fun id hid => (hn.2 id hid).imp_right ?_⟩
      rintro ⟨x, hx, rfl⟩
      exact ⟨x, h.suffix.subset hx, h.orderId_eq (h.suffix.subset hx)⟩
  gone := by
    intro x hx hx''
    by_cases hx' : x ∈ F'
    · rw [← h.orderId_eq hx]; exact h'.gone x hx' hx''
    · rw [h'.kept _ fun y hy hy'' => ?_]
      · exact h.gone x hx hx'
      · rw [h.orderId_eq (h.suffix.subset hy)]
        intro e
        have hnd := (List.nodup_cons.mp hr.ids).2
        exact hx' (List.inj_on_of_nodup_map hnd hx (h.suffix.subset hy) (JsVal.str.inj e) ▸ hy)
  kept := by
    intro id hid
    rw [h'.kept id fun x hx hx'' => ?_, h.kept id fun x hx hx' => hid x hx fun hx'' =>
      hx' (h'.suffix.subset hx'')]
    rw [h.orderId_eq (h.suffix.subset hx)]
    exact hid x (h.suffix.subset hx) hx''

/-- The loop can go on. -/
theorem Ready.next (hr : Ready s r₀ b F) (h : Matched s r₀ b b' F F' ts)
    (hsum : (ts.map (·.quantity)).sum ≤ (b.order r₀).remainingQuantity) : Ready s r₀ b' F' where
  side := h.side
  fresh := fun hx => hr.fresh (h.suffix.subset hx)
  orderSide := by rw [h.order_incoming]; exact hr.orderSide
  symbol := by rw [h.order_incoming, h.symbol_eq]; exact hr.symbol
  nonneg := by rw [h.order_incoming, Order.filledBy_remaining]; omega
  exact₀ := by
    have := sum_quantity_nonneg h.positive
    have := hr.exact₀
    rw [h.order_incoming, Order.filledBy_remaining]; omega
  active := by
    intro hpos
    rw [h.order_incoming, Order.filledBy_remaining] at hpos
    have := sum_quantity_nonneg h.positive
    rw [h.order_incoming]
    exact Order.filledBy_isActive (hr.active (by omega)) hpos
  exact := by
    have hle : b'.remaining F' ≤ b.remaining F' := by
      apply List.sum_le_sum
      intro x hx
      rw [h.filled x (h.suffix.subset hx), Order.filledBy_remaining]
      have := traded_nonneg h.positive (b.order x).orderId
      omega
    exact hle.trans ((hr.side.remaining_le h.suffix.sublist).2.trans hr.exact)
  ids := by
    have hsub : (F'.map fun r => (b.order r).orderId).Sublist (F.map fun r => (b.order r).orderId) :=
      h.suffix.sublist.map _
    have he : F'.map (fun r => (b'.order r).orderId) = F'.map fun r => (b.order r).orderId :=
      List.map_congr_left fun x hx => h.orderId_eq (h.suffix.subset hx)
    rw [he, h.order_incoming, Order.filledBy_orderId]
    exact hr.ids.sublist (hsub.cons_cons _)

end

/-! ## One iteration -/

section

variable {s : Side} {r₀ r : NodeRef} {b : OrderBook} {F : List NodeRef}

/-- The heap after both orders and the level have been told of the trade. -/
def filledHeap (h : Heap) (r₀ r : NodeRef) (l : LevelRef) (q total : Int) : Heap :=
  ((h.modifyNode r₀ fun n => { n with toOrder := n.toOrder.filledBy q }).modifyNode r
    fun n => { n with toOrder := n.toOrder.filledBy q }).modifyLevel l
    fun v => { v with totalQuantity := .int (total - q) }

section filledHeap

variable {h : Heap} {l : LevelRef} {q total : Int}

theorem filledHeap_incoming (hne : r₀ ≠ r) : (filledHeap h r₀ r l q total).node r₀ =
    { h.node r₀ with toOrder := (h.order r₀).filledBy q } := by
  simp [filledHeap, Heap.modifyNode_node, hne, Heap.order]

theorem filledHeap_resting (hne : r₀ ≠ r) : (filledHeap h r₀ r l q total).node r =
    { h.node r with toOrder := (h.order r).filledBy q } := by
  simp [filledHeap, Heap.modifyNode_node, hne.symm, Heap.order]

theorem filledHeap_node {x : NodeRef} (h₀ : x ≠ r₀) (h₁ : x ≠ r) :
    (filledHeap h r₀ r l q total).node x = h.node x := by
  simp [filledHeap, Heap.modifyNode_node, h₀, h₁]

theorem filledHeap_level_self : (filledHeap h r₀ r l q total).level l =
    { h.level l with totalQuantity := .int (total - q) } := by
  simp [filledHeap]

theorem filledHeap_level {k : LevelRef} (hk : k ≠ l) :
    (filledHeap h r₀ r l q total).level k = h.level k := by
  simp [filledHeap, Heap.modifyLevel_level_ne hk]

/-- The fills change no link. -/
theorem linked_filledHeap {Q : List NodeRef} (hl : Linked h l Q) :
    Linked (filledHeap h r₀ r l q total) l Q := by
  refine ⟨?_, ?_, hl.seg.congr fun x _ => ?_, hl.nodup, ?_, hl.bound⟩
  · rw [filledHeap_level_self]; exact hl.head
  · rw [filledHeap_level_self]; exact hl.tail
  · simp only [filledHeap, Heap.modifyLevel_node, Heap.modifyNode_node]
    split <;> split <;> simp_all
  · rw [filledHeap_level_self]; exact hl.count

end filledHeap

/-- The fills of an iteration, before the bookkeeping. -/
theorem matchBest_run {l : LevelRef} {q : Int} (hr : Ready s r₀ b (r :: F))
    (hpos : 0 < (b.order r₀).remainingQuantity)
    (hl : (b.side s.opposite).get? (b.price r) = some l)
    (hQ : LevelIs b.toHeap (b.price r) l (r :: F.filter (b.price · = b.price r)))
    (hq : q = min (b.order r₀).remainingQuantity (b.order r).remainingQuantity) :
    (matchBest s r₀ (b.price r)).run b =
      (do dropFilled s.opposite l r (b.price r); return tradeOf (b.order r₀) (b.order r) q : Program Trade).run
        { b with
          toHeap := filledHeap b.toHeap r₀ r l q
            (b.remaining (r :: F.filter (b.price · = b.price r)))
          trades := b.trades ++ [tradeOf (b.order r₀) (b.order r) q] } := by
  have hne : r₀ ≠ r := fun e => hr.fresh (e ▸ List.mem_cons_self)
  have hrest := hr.side.rests r List.mem_cons_self
  have hrpos := hrest.remaining
  have hqpos : 0 < q := by rw [hq]; exact lt_min hpos hrpos
  have hsub : (r :: F.filter (b.price · = b.price r)).Sublist (r :: F) :=
    List.filter_sublist.cons_cons r
  have htot := (hr.side.remaining_le hsub).2.trans hr.exact
  have hle : (b.order r).remainingQuantity ≤ b.remaining (r :: F.filter (b.price · = b.price r)) := by
    have := (hr.side.remaining_le ((List.sublist_cons_self r _).trans hsub)).1
    rw [remaining_cons]; omega
  have hhead : (b.level l).head = some r := hQ.linked.head
  have h₁ : (fill r₀ q).run b.toHeap = _ :=
    fill_ok hqpos (hr.active hpos) (by rw [hq]; exact min_le_left _ _) hr.exact₀
  set g : OrderNode → OrderNode := fun n => { n with toOrder := n.toOrder.filledBy q } with hg
  have ho : (b.toHeap.modifyNode r₀ g).order r = b.order r := by
    rw [Heap.order, Heap.modifyNode_node_ne hne.symm]; rfl
  have h₂ : (fill r q).run (b.toHeap.modifyNode r₀ g) = _ :=
    fill_ok hqpos (by rw [ho]; exact hrest.isActive) (by rw [ho, hq]; exact min_le_right _ _)
      (by rw [ho]; omega)
  have h₃ : (decreaseTotalQuantity l q).run ((b.toHeap.modifyNode r₀ g).modifyNode r g) = _ :=
    decreaseTotalQuantity_ok (t := b.remaining (r :: F.filter (b.price · = b.price r))) hQ.total
      hqpos (by have := min_le_right (b.order r₀).remainingQuantity (b.order r).remainingQuantity; omega)
      htot
  unfold matchBest
  simp only [run_get_bind, hl, hhead, ← hq]
  rw [run_onHeap_bind h₁, run_onHeap_bind h₂, run_onHeap_bind h₃, run_modify_bind]
  -- The trade names its orders by the side of the loop, which is the side of the incoming order.
  have ht : ({ tradeOf (b.order r₀) (b.order r) q with
      symbol := b.symbol, aggressorSide := s
      buyOrderId := if s = .buy then (b.order r₀).orderId else (b.order r).orderId
      sellOrderId := if s = .buy then (b.order r).orderId else (b.order r₀).orderId } : Trade) =
      tradeOf (b.order r₀) (b.order r) q := by
    simp only [tradeOf, hr.orderSide, hr.symbol]
  simp only [ht]
  rfl

/-- An iteration that ends in `b'`, with the heap of the fills but for the links of one level. -/
theorem Matched.of_fill {b' : OrderBook} {F' : List NodeRef} (total : Int)
    {l : LevelRef} {q : Int} (hr : Ready s r₀ b (r :: F)) (hq : 0 < q)
    (hl : (b.side s.opposite).get? (b.price r) = some l)
    (hside : SideIs b'.toHeap s.opposite (b'.side s.opposite) F') (hsuf : F' <:+ r :: F)
    (hframe : b' = { b with
      toHeap := b'.toHeap, bids := b'.bids, asks := b'.asks, ordersById := b'.ordersById
      trades := b.trades ++ [tradeOf (b.order r₀) (b.order r) q] })
    (hown : b'.side s = b.side s)
    (hheap : SameBut l (r :: F) (filledHeap b.toHeap r₀ r l q total) b'.toHeap)
    (hvalues : ∀ k ∈ (b'.side s.opposite).values, k ∈ (b.side s.opposite).values)
    (hgone : r ∉ F' → b'.ordersById.get? (.str (b.order r).orderId) = none)
    (hkeep : ∀ x ∈ F, x ∈ F')
    (hkept : ∀ id, (r ∉ F' → id ≠ .str (b.order r).orderId) →
      b'.ordersById.get? id = b.ordersById.get? id) :
    Matched s r₀ b b' (r :: F) F' [tradeOf (b.order r₀) (b.order r) q] := by
  have hne : r₀ ≠ r := fun e => hr.fresh (e ▸ List.mem_cons_self)
  have hids := hr.ids
  simp only [List.map_cons, List.nodup_cons, List.mem_cons, List.mem_map, not_or, not_exists,
    not_and] at hids
  obtain ⟨⟨hid₀, hid₀F⟩, hidF, -⟩ := hids
  refine ⟨hside, hsuf, hframe, hown, hheap.nodes, hheap.levels, ?_, ?_, ?_, hvalues, ?_, ?_, ?_, ?_, ?_⟩
  · rw [hheap.node r₀ hr.fresh, filledHeap_incoming hne]
    simp [tradeOf, Heap.order]
  · intro x hx hxF
    rw [hheap.node x hxF, filledHeap_node hx (fun e => hxF (e ▸ List.mem_cons_self))]
  · intro k hk
    have hkl : k ≠ l := fun e => hk (e ▸ OMap.mem_values.mpr ⟨_, hl⟩)
    rw [hheap.level k hkl, filledHeap_level hkl]
  · intro x hx
    rw [hheap.order x, traded_cons, traded_nil, add_zero]
    rcases List.mem_cons.mp hx with rfl | hxF
    · rw [if_pos (names_tradeOf.mpr (.inr rfl)), Heap.order, filledHeap_resting hne]; rfl
    · have h₀ : x ≠ r₀ := fun e => hr.fresh (e ▸ hx)
      have h₁ : x ≠ r := fun e => (List.nodup_cons.mp hr.side.nodup).1 (e ▸ hxF)
      rw [if_neg, Order.filledBy_zero, Heap.order, filledHeap_node h₀ h₁]
      · rfl
      · rw [names_tradeOf]
        rintro (e | e)
        · exact hid₀F x hxF e
        · exact hidF x hxF e
  · simpa [tradeOf] using hq
  · intro t ht
    rw [List.mem_singleton.mp ht]
    refine ⟨names_tradeOf.mpr (.inl rfl), fun id hid => (names_tradeOf.mp hid).imp_right fun e => ?_⟩
    exact ⟨r, List.mem_cons_self, e⟩
  · intro x hx hxF'
    rcases List.mem_cons.mp hx with rfl | hxF
    · exact hgone hxF'
    · exact absurd (hkeep x hxF) hxF'
  · intro id hid
    exact hkept id fun hrF' => hid r List.mem_cons_self hrF'

theorem SameBut.refl (h : Heap) (l : LevelRef) (S : List NodeRef) : SameBut l S h h :=
  ⟨fun _ => rfl, fun _ _ => rfl, fun _ _ => rfl, rfl, rfl, rfl⟩

/-- An iteration that ends inside the first resting order. -/
theorem matchBest_part (hr : Ready s r₀ b (r :: F)) (hpos : 0 < (b.order r₀).remainingQuantity)
    (hlt : (b.order r₀).remainingQuantity < (b.order r).remainingQuantity) :
    ∃ b', (matchBest s r₀ (b.price r)).run b =
        (.ok (tradeOf (b.order r₀) (b.order r) (b.order r₀).remainingQuantity), b') ∧
      Matched s r₀ b b' (r :: F) (r :: F)
        [tradeOf (b.order r₀) (b.order r) (b.order r₀).remainingQuantity] := by
  obtain ⟨l, hl, hQ⟩ := hr.side.levels.head
  have hne : r₀ ≠ r := fun e => hr.fresh (e ▸ List.mem_cons_self)
  have hrun := matchBest_run hr hpos hl hQ (min_eq_left hlt.le).symm
  set q := (b.order r₀).remainingQuantity
  set H := filledHeap b.toHeap r₀ r l q (b.remaining (r :: F.filter (b.price · = b.price r))) with hH
  set b₁ : OrderBook := { b with
    toHeap := H, trades := b.trades ++ [tradeOf (b.order r₀) (b.order r) q] } with hb₁
  have hdrop : (dropFilled s.opposite l r (b.price r)).run b₁ = (.ok (), b₁) := by
    have hf : (b₁.order r).isFilled = false := by
      have e : b₁.order r = (b.order r).filledBy q := by
        show (H.node r).toOrder = _
        rw [hH, filledHeap_resting hne]
      rw [e, Order.filledBy_isFilled _ hpos, decide_eq_false_iff_not]
      omega
    have he : (b₁.level l).isEmpty = false := by
      show (H.level l).isEmpty = false
      rw [hH, filledHeap_level_self]
      exact hQ.linked.isEmpty
    unfold dropFilled when
    simp only [run_get_bind, hf, Bool.false_eq_true, if_false, run_pure_bind, he, run_pure]
  refine ⟨b₁, ?_, Matched.of_fill _ hr hpos hl ?_ List.suffix_rfl rfl ?_ (SameBut.refl _ _ _)
    (fun k hk => ?_) (fun h => absurd List.mem_cons_self h) (fun x hx => List.mem_cons_of_mem _ hx)
    (fun id _ => rfl)⟩
  · rw [hrun, run_bind_ok hdrop]; rfl
  · have hs : b₁.side s.opposite = b.side s.opposite := by cases s <;> rfl
    rw [hs]
    refine hr.side.reduce hl hpos hlt rfl rfl (filledHeap_resting hne) (fun x hx => ?_)
      filledHeap_level_self fun k _ hk => filledHeap_level hk
    exact filledHeap_node (fun e => hr.fresh (e ▸ List.mem_cons_of_mem _ hx))
      (fun e => (List.nodup_cons.mp hr.side.nodup).1 (e ▸ hx))
  · cases s <;> rfl
  · cases s <;> exact hk

/-- The bookkeeping of a filled order: it leaves its level, and an empty level its side. -/
theorem dropFilled_whole (t : Side) (best : Int) {l : LevelRef} {Q : List NodeRef}
    (hf : (b.order r).isFilled = true) (hl : Linked b.toHeap l (r :: Q)) :
    ∃ h, (dropFilled t l r best).run b = (.ok (), { b with
        toHeap := h, ordersById := b.ordersById.delete (.str (b.order r).orderId) }.setSide t
          (if Q = [] then (b.side t).delete best else b.side t)) ∧
      Linked h l Q ∧ SameBut l (r :: Q) b.toHeap h ∧ (h.level l).totalQuantity =
        (b.level l).totalQuantity.addInt (-(b.order r).remainingQuantity) := by
  obtain ⟨h, hrun, hlink, hsame, -, htot⟩ := remove_ok (A := []) hl
  refine ⟨h, ?_, hlink, hsame, htot⟩
  unfold dropFilled when
  rw [run_get_bind, if_pos hf]
  have hfirst : (do
      onHeap (remove l r)
      modify fun b => { b with ordersById := b.ordersById.delete (.str (b.order r).orderId) } :
        Program Unit).run b = (.ok (), { b with
          toHeap := h, ordersById := b.ordersById.delete (.str (b.order r).orderId) }) := by
    rw [run_onHeap_bind hrun, run_modify]
    show (_, ({ b with toHeap := h, ordersById := b.ordersById.delete (.str (h.order r).orderId) } :
      OrderBook)) = _
    rw [hsame.order r]
  rw [run_bind_ok hfirst]
  · rw [run_get_bind]
    have he : (h.level l).isEmpty = Q.isEmpty := hlink.isEmpty
    by_cases hQ : Q = []
    · rw [if_pos hQ, if_pos (show (h.level l).isEmpty = true by rw [he, hQ]; rfl), run_modify]
      cases t <;> rfl
    · rw [if_neg hQ, if_neg (show ¬ (h.level l).isEmpty = true by rw [he]; simpa using hQ), run_pure]
      cases t <;> rfl

/-- An iteration that takes the first resting order whole. -/
theorem matchBest_whole (hr : Ready s r₀ b (r :: F)) (hpos : 0 < (b.order r₀).remainingQuantity)
    (hle : (b.order r).remainingQuantity ≤ (b.order r₀).remainingQuantity) :
    ∃ b', (matchBest s r₀ (b.price r)).run b =
        (.ok (tradeOf (b.order r₀) (b.order r) (b.order r).remainingQuantity), b') ∧
      Matched s r₀ b b' (r :: F) F
        [tradeOf (b.order r₀) (b.order r) (b.order r).remainingQuantity] := by
  obtain ⟨l, hl, hQ⟩ := hr.side.levels.head
  have hne : r₀ ≠ r := fun e => hr.fresh (e ▸ List.mem_cons_self)
  have hrF := (List.nodup_cons.mp hr.side.nodup).1
  have hqpos := (hr.side.rests r List.mem_cons_self).remaining
  have hrun := matchBest_run hr hpos hl hQ (min_eq_right hle).symm
  set q := (b.order r).remainingQuantity with hq
  set Fk := F.filter (b.price · = b.price r) with hFk
  set H := filledHeap b.toHeap r₀ r l q (b.remaining (r :: Fk)) with hH
  set b₁ : OrderBook := { b with toHeap := H, trades := b.trades ++ [tradeOf (b.order r₀) (b.order r) q] }
    with hb₁
  have hord : b₁.order r = (b.order r).filledBy q := by
    show (H.node r).toOrder = _
    rw [hH, filledHeap_resting hne]
  have hlinkH : Linked b₁.toHeap l (r :: Fk) := linked_filledHeap hQ.linked
  obtain ⟨h, hdrop, hlink, hsame, htot⟩ := dropFilled_whole s.opposite (b.price r)
    (by rw [hord, Order.filledBy_isFilled _ hqpos]; simp [hq]) hlinkH
  have hside₁ : b₁.side s.opposite = b.side s.opposite := by cases s <;> rfl
  have hid : (b₁.order r).orderId = (b.order r).orderId := by rw [hord, Order.filledBy_orderId]
  rw [hside₁, hid] at hdrop
  -- What the level counts after the fill and the removal is what the others have left.
  have hsub : Fk.Sublist (r :: F) := List.filter_sublist.trans (List.sublist_cons_self r F)
  have htot' : (h.level l).totalQuantity = .int (b.remaining Fk) := by
    rw [htot, hord, Order.filledBy_remaining]
    show ((H.level l).totalQuantity).addInt _ = _
    rw [hH, filledHeap_level_self, remaining_cons]
    have hb := hr.side.remaining_le hsub
    have hx := hr.exact
    have e : q + b.remaining Fk - q + -((b.order r).remainingQuantity - q) = b.remaining Fk := by
      rw [← hq]; omega
    have := Num.addInt_exact (a := q + b.remaining Fk - q)
      (b := -((b.order r).remainingQuantity - q)) (by omega) (by omega)
    rw [e] at this
    exact this
  have hsame' : SameBut l (r :: F) H h :=
    { hsame with
      node := fun x hx => hsame.node x
        (fun hx' => hx ((List.filter_sublist.cons_cons r).subset hx')) }
  have hnodeF : ∀ x ∈ F, H.node x = b.node x := fun x hx =>
    filledHeap_node (ne_of_mem_of_not_mem (List.mem_cons_of_mem r hx) hr.fresh)
      (ne_of_mem_of_not_mem hx hrF)
  refine ⟨_, by rw [hrun, run_bind_ok hdrop]; rfl, Matched.of_fill (b.remaining (r :: Fk)) hr hqpos hl ?_
    (List.suffix_cons r F) ?_ ?_ ?_ ?_ ?_ (fun x hx => hx) ?_⟩
  · rw [setSide_side_self, setSide_toHeap]
    refine SideIs.erase (A := []) hr.side hl hsame'.nodes hsame'.levels hlink ?_ htot' ?_ ?_ ?_
    · rw [hsame.price]
      show (H.level l).priceTicks = _
      rw [hH, filledHeap_level_self]
    · intro x hx
      rw [hsame.order x]
      show (H.node x).toOrder = _
      rw [hnodeF x hx]
      rfl
    · intro x hx hp
      rw [hsame.node x (fun hx' => ?_)]
      · exact hnodeF x hx
      · rcases List.mem_cons.mp hx' with rfl | hx'
        · exact hp rfl
        · exact hp (by simpa using (List.mem_filter.mp hx').2)
    · intro k _ hk
      rw [hsame.level k hk]
      show H.level k = _
      rw [hH, filledHeap_level hk]
  · cases s <;> rfl
  · rw [← setSide_side_opposite b s (b.side s.opposite)]
    cases s <;> rfl
  · rw [setSide_toHeap]; exact hsame'
  · intro k hk
    rw [setSide_side_self] at hk
    split at hk
    · obtain ⟨p, hp⟩ := OMap.mem_values.mp hk
      rw [OMap.get?_delete] at hp
      split at hp
      · cases hp
      · exact OMap.mem_values.mpr ⟨p, hp⟩
    · exact hk
  · intro _
    rw [setSide_ordersById]
    exact OMap.get?_delete_self _ _
  · intro id hid
    rw [setSide_ordersById]
    exact OMap.get?_delete_ne _ (hid hrF)

/-! ## The loop -/

/-- The loop looks at the first node of the opposite side. -/
theorem bestPriceTicks_cons {t : Side} (hs : SideIs b.toHeap t (b.side t) (r :: F)) :
    b.bestPriceTicks t = some (b.price r) := bestPriceTicks_some.mpr hs.levels.best

/-- The orders behind the first one do not notice its trade. -/
theorem map_order_tail {b' : OrderBook} {F' : List NodeRef} {q : Int} (hr : Ready s r₀ b (r :: F))
    (h : Matched s r₀ b b' (r :: F) F' [tradeOf (b.order r₀) (b.order r) q]) :
    F.map b'.order = F.map b.order := by
  refine List.map_congr_left fun x hx => ?_
  have hids := hr.ids
  simp only [List.map_cons, List.nodup_cons, List.mem_cons, List.mem_map, not_or, not_exists,
    not_and] at hids
  rw [h.filled x (List.mem_cons_of_mem _ hx), traded_cons, traded_nil, if_neg, add_zero,
    Order.filledBy_zero]
  rw [names_tradeOf]
  rintro (e | e)
  · exact hids.1.2 x hx e
  · exact hids.2.1 x hx e

/-- The loop is the greedy walk of the incoming order over the opposite side. -/
theorem matchLoop_ok (ignore : Bool) {fuel : Nat} (hf : F.length < fuel) (hr : Ready s r₀ b F) :
    ∃ b' F' ts, (matchLoop s r₀ ignore fuel).run b = (.ok ts, b') ∧ Matched s r₀ b b' F F' ts ∧
      ts = tradesOf (b.order r₀) (greedy (b.order r₀) ignore (F.map b.order)) ∧
      F'.map b'.order = (greedy (b.order r₀) ignore (F.map b.order)).rest := by
  induction fuel generalizing b F with
  | zero => omega
  | succ fuel ih =>
    unfold matchLoop
    rw [run_get_bind]
    -- The loop ends before it starts.
    by_cases hpos : (b.order r₀).remainingQuantity ≤ 0
    · rw [if_pos hpos]
      refine ⟨b, F, [], rfl, Matched.refl hr, ?_⟩
      cases F with
      | nil => exact ⟨rfl, rfl⟩
      | cons r F => rw [List.map_cons, greedy, walk_stopped (.inl hpos)]; exact ⟨rfl, rfl⟩
    rw [if_neg hpos]
    cases F with
    | nil =>
      rw [bestPriceTicks_none.mpr (hr.side.levels.nil_iff.mp rfl)]
      exact ⟨b, [], [], rfl, Matched.refl hr, rfl, rfl⟩
    | cons r F =>
      rw [bestPriceTicks_cons hr.side]
      dsimp only
      have hacc : takes (b.order r₀) ignore (b.order r) =
          (ignore || s.accepts (b.order r₀).price (b.price r)) := by
        rw [takes, hr.orderSide]; rfl
      by_cases htake : takes (b.order r₀) ignore (b.order r) = false
      · rw [if_pos (by rw [hacc] at htake; simpa using htake)]
        refine ⟨b, r :: F, [], rfl, Matched.refl hr, ?_⟩
        rw [List.map_cons, greedy, walk_stopped (.inr htake)]
        exact ⟨rfl, rfl⟩
      rw [if_neg (by rw [hacc] at htake; simpa using htake)]
      rw [Bool.not_eq_false] at htake
      rcases le_or_gt (b.order r).remainingQuantity (b.order r₀).remainingQuantity with hle | hlt
      · -- The first order is taken whole: the induction hypothesis walks on from the next.
        obtain ⟨b₁, hrun₁, h₁⟩ := matchBest_whole hr (not_le.mp hpos) hle
        obtain ⟨b₂, F₂, ts, hrun₂, h₂, hts, hrest⟩ :=
          ih (by simpa using hf) (hr.next h₁ (by simpa [tradeOf] using hle))
        refine ⟨b₂, F₂, _, ?_, h₁.trans h₂ hr, ?_⟩
        · rw [run_bind_ok hrun₁, run_bind_ok hrun₂]; rfl
        · rw [map_order_tail hr h₁, h₁.order_incoming] at hts hrest
          rw [List.map_cons, greedy, walk_whole (not_le.mp hpos) htake hle]
          simp only [greedy, takes_filledBy, Order.filledBy_remaining, List.map_cons, List.map_nil,
            List.sum_cons, List.sum_nil, add_zero, tradesOf, tradeOf_filledBy] at hts hrest ⊢
          exact ⟨by rw [hts]; rfl, hrest⟩
      · -- The walk ends inside the first order: the next iteration stops.
        obtain ⟨b₁, hrun₁, h₁⟩ := matchBest_part hr (not_le.mp hpos) hlt
        have hdone : (b₁.order r₀).remainingQuantity ≤ 0 := by
          rw [h₁.order_incoming, Order.filledBy_remaining]; simp [tradeOf]
        refine ⟨b₁, r :: F, _, ?_, h₁, ?_⟩
        · rw [run_bind_ok hrun₁]
          cases fuel with
          | zero => simp at hf
          | succ fuel =>
            have hstop : (matchLoop s r₀ ignore (fuel + 1)).run b₁ = (.ok [], b₁) := by
              rw [matchLoop, run_get_bind, if_pos hdone]; rfl
            rw [run_bind_ok hstop]
            rfl
        · rw [List.map_cons, List.map_cons, greedy, walk_part (not_le.mp hpos) htake hlt,
            map_order_tail hr h₁, h₁.filled r List.mem_cons_self, traded_cons, traded_nil,
            if_pos (names_tradeOf.mpr (.inr rfl))]
          simp [tradesOf, tradeOf]

end

end Lob.Node
