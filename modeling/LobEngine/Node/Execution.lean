import LobEngine.Depth
import LobEngine.Node.Repr

/-!
# The execution of one order

A new order is matched, and its remainder rests or is cancelled. `execute_run` shows that the book
does to its nodes what `View.executed` does to the view, and what that means for each order
(`Executed`): it has lost what it traded.

* `View.Ok`: what holds of the views of the books that calls reach.
* `View.Ok.executed`: an execution keeps it.
-/

namespace Lob.Node

open Exc OrderBook

/-- The quantity of a placed order, if it is one that an order can have. -/
def quantityOf : JsVal → Int
  | .num (.int n) => max n 0
  | _ => 0

theorem quantityOf_nonneg (v : JsVal) : 0 ≤ quantityOf v := by
  unfold quantityOf
  split
  · exact le_max_right _ _
  · exact le_rfl

namespace View

/-- What the resting orders and the pending stop orders have left. -/
def openQuantity (v : View) : Int :=
  v.quantity + (v.stops.values.map fun s => quantityOf s.remainingQuantity).sum

/-- What the engine guarantees of its book, as long as the open quantity is exact. -/
structure Ok (v : View) : Prop where
  symbol : isBlank v.symbol = false
  separate : ∀ id ∈ v.ids, v.stops.get? (.str id) = none
  keyed : ∀ k s, v.stops.get? k = some s → s.orderId = k
  valid : ∀ o ∈ v.orders, o.symbol = v.symbol ∧ isBlank o.orderId = false ∧
    isBlank o.userId = false ∧ 0 ≤ o.timestamp.ms
  exact : v.openQuantity ≤ Num.maxExact

/-- The view after the new order `o` executed. -/
def executed (v : View) (o : Order) : View :=
  let (ts, o', d) := v.fillFrom o (o.type ≠ .limit)
  { v with toDepth := (settle d o').2, trades := v.trades ++ ts }

/-- The order `o` once it is executed. -/
def executedOrder (v : View) (o : Order) : Order :=
  let (_, o', d) := v.fillFrom o (o.type ≠ .limit)
  (settle d o').1

theorem stops_nonneg (v : View) :
    0 ≤ (v.stops.values.map fun s => quantityOf s.remainingQuantity).sum := by
  apply List.sum_nonneg
  intro n hn
  obtain ⟨s, -, rfl⟩ := List.mem_map.mp hn
  exact quantityOf_nonneg _

theorem quantity_le_open (v : View) : v.quantity ≤ v.openQuantity := by
  have := v.stops_nonneg
  unfold openQuantity
  omega

end View

/-- What the execution of the order of the new node does to every order (`Y` is its id). -/
structure Executed (b b' : OrderBook) (Y : String) (ts : List Trade) : Prop where
  nodes : b'.nodes = b.nodes + 1
  trades : b'.trades = b.trades ++ ts
  stops : b'.stopOrdersById = b.stopOrdersById
  id : (b'.order b.nodes).orderId = Y
  unused : b.ordersById.get? (.str Y) = none
  order : (b'.order b.nodes).initialQuantity = (b'.order b.nodes).remainingQuantity + traded Y ts
  resting : ∀ id x, b.ordersById.get? (.str id) = some x →
    b'.order x = (b.order x).filledBy (traded id ts)
  other : ∀ x < b.nodes, (∀ id : String, b.ordersById.get? (.str id) ≠ some x) →
    b'.order x = b.order x
  bounded : ∀ id x, b.ordersById.get? id = some x → x < b.nodes
  index : ∀ id x, b'.ordersById.get? id = some x →
    b.ordersById.get? id = some x ∨ x = b.nodes ∧ id = .str Y
  names : ∀ t ∈ ts, t.buyOrderId ≠ t.sellOrderId ∧ 0 < t.quantity ∧
    ∀ id, t.names id → id = Y ∨ ∃ x, b.ordersById.get? (.str id) = some x

section

variable {b b' : OrderBook} {F : Side → List NodeRef} {v : View} {o : Order}

theorem Repr.rests (h : Repr b F v) : v.toDepth.Rests := by
  intro s x hx
  rw [h.orders] at hx
  obtain ⟨r, hr, rfl⟩ := List.mem_map.mp hx
  exact (h.sides s).rests r hr

theorem Repr.remaining_eq (h : Repr b F v) (s : Side) :
    b.remaining (F s) = ((v.side s).map (·.remainingQuantity)).sum := by
  rw [h.orders, List.map_map]
  rfl

theorem Repr.remaining_le (h : Repr b F v) (s : Side) :
    0 ≤ b.remaining (F s) ∧ b.remaining (F s) ≤ v.quantity := by
  have hs := ((h.sides s).remaining_le (List.Sublist.refl _)).1
  have ho := ((h.sides s.opposite).remaining_le (List.Sublist.refl _)).1
  refine ⟨hs, ?_⟩
  rw [h.remaining_eq] at ho ⊢
  rw [Depth.quantity_eq _ s]
  omega

/-! ## The view after an execution -/

theorem settle_limit {d : Depth} (ht : o.type = .limit) (hr : 0 < o.remainingQuantity) :
    View.settle d o = (o, d.rest o) := by
  rw [View.settle, if_pos hr, if_pos ht]

theorem settle_market {d : Depth} (ht : o.type ≠ .limit) (hr : 0 < o.remainingQuantity) :
    View.settle d o = ({ o with status := .cancelled }, d) := by
  rw [View.settle, if_pos hr, if_neg ht]

theorem settle_done {d : Depth} (hr : ¬ 0 < o.remainingQuantity) : View.settle d o = (o, d) := by
  rw [View.settle, if_neg hr]

theorem mem_settle {d : Depth} {x : Order} (hx : x ∈ (View.settle d o).2.orders) :
    x ∈ d.orders ∨ x = o := by
  unfold View.settle at hx
  split_ifs at hx
  · rcases List.mem_cons.mp (Depth.rest_perm.mem_iff.mp hx) with rfl | hx
    · exact .inr rfl
    · exact .inl hx
  · exact .inl hx
  · exact .inl hx

theorem settle_quantity {d : Depth} (h : 0 ≤ o.remainingQuantity) :
    (View.settle d o).2.quantity ≤ d.quantity + o.remainingQuantity := by
  unfold View.settle
  split_ifs
  · rw [Depth.rest_quantity]; omega
  · simp only; omega
  · simp only; omega

/-- An execution opens at most the quantity of the new order. -/
theorem executed_quantity (hr : v.toDepth.Rests) (ho : 0 ≤ o.remainingQuantity) :
    (v.executed o).openQuantity ≤ v.openQuantity + o.remainingQuantity := by
  have htake := Depth.taken_le v.toDepth (decide (o.type ≠ .limit)) ho
  have hfill := Depth.fillFrom_quantity v.toDepth o (decide (o.type ≠ .limit))
  have hnn := Depth.taken_nonneg hr o (decide (o.type ≠ .limit))
  have hset := settle_quantity (d := (v.fillFrom o (decide (o.type ≠ .limit))).2.2)
    (o := (v.fillFrom o (decide (o.type ≠ .limit))).2.1)
    (by rw [Depth.fillFrom_order, Order.filledBy_remaining]; omega)
  rw [Depth.fillFrom_order, Order.filledBy_remaining] at hset
  have e : (v.executed o).openQuantity = (View.settle (v.fillFrom o (decide (o.type ≠ .limit))).2.2
      (o.filledBy (v.taken o (decide (o.type ≠ .limit))))).2.quantity +
      (v.stops.values.map fun s => quantityOf s.remainingQuantity).sum := rfl
  rw [e]
  unfold View.openQuantity
  omega

theorem mem_executed {x : Order} (hx : x ∈ (v.executed o).orders) :
    ∃ y, (y ∈ v.orders ∨ y = o) ∧ ∃ n, x = y.filledBy n := by
  rcases mem_settle hx with hx | rfl
  · obtain ⟨s, hx⟩ := Depth.mem_orders.mp hx
    obtain ⟨y, hy, rfl | ⟨n, -, -, rfl⟩⟩ := Depth.fillFrom_orders hx
    · exact ⟨x, .inl (Depth.mem_orders.mpr ⟨s, hy⟩), 0, by simp⟩
    · exact ⟨y, .inl (Depth.mem_orders.mpr ⟨s, hy⟩), n, rfl⟩
  · exact ⟨o, .inr rfl, _, rfl⟩

/-- An execution of a valid order under an unused id keeps the guarantees. -/
theorem View.Ok.executed {i : OrderInput} (hv : v.Ok) (hr : v.toDepth.Rests) (ho : NewOrder i o)
    (hsym : i.symbol = v.symbol) (hid : v.stops.get? (.str o.orderId) = none)
    (hex : v.openQuantity + o.initialQuantity ≤ Num.maxExact) : (v.executed o).Ok where
  symbol := hv.symbol
  separate := fun id hid' => by
    obtain ⟨x, hx, rfl⟩ := List.mem_map.mp hid'
    obtain ⟨y, hy | rfl, n, rfl⟩ := mem_executed hx
    · exact hv.separate y.orderId (List.mem_map_of_mem hy)
    · exact hid
  keyed := hv.keyed
  valid := fun x hx => by
    obtain ⟨y, hy | rfl, n, rfl⟩ := mem_executed hx
    · exact hv.valid y hy
    · exact ⟨ho.symbol.1.trans hsym, ho.orderId.2, ho.userId.2, ho.timestamp.2⟩
  exact := by
    have hpos := ho.quantity.2
    have := executed_quantity (o := o) hr (by rw [ho.remaining]; omega)
    rw [ho.remaining] at this
    omega

/-! ## The book after an execution -/

/-- What becomes of the remainder of a matched order: it rests, or is cancelled. -/
def settleNode (type : OrderType) (r : NodeRef) : Program Unit :=
  if type = .limit then restIfActive r else cancelRemainder r

theorem filledBy_rests {i : OrderInput} {n : Int} (ho : NewOrder i o) (ht : i.type = .limit)
    (hn : 0 ≤ n) (hlt : n < o.remainingQuantity) : (o.filledBy n).RestsOn o.side := by
  obtain ⟨p, hp, hpos, -⟩ := ho.limit ht
  refine ⟨rfl, ho.type.trans ht, ⟨p, hp, hpos⟩, by rw [Order.filledBy_remaining]; omega, ?_⟩
  rcases hn.eq_or_lt with rfl | hn
  · rw [Order.filledBy_zero]
    exact .inl ⟨ho.status, ho.remaining⟩
  · have := ho.remaining
    refine .inr ⟨?_, by rw [Order.filledBy_remaining, Order.filledBy_initial]; omega⟩
    simp [Order.filledBy, show ¬ n = 0 by omega, show ¬ o.remainingQuantity - n = 0 by omega]

theorem traded_eq_sum {id : String} {ts : List Trade} (h : ∀ t ∈ ts, t.names id) :
    traded id ts = (ts.map (·.quantity)).sum := by
  rw [traded, List.filter_eq_self.mpr (by simpa using h)]

/-- What the settling of the node `r` leaves as it was: the other orders, and the index but for `r`. -/
structure Settles (r : NodeRef) (b b' : OrderBook) : Prop where
  other : ∀ x, x ≠ r → b'.order x = b.order x
  nodes : b'.nodes = b.nodes
  trades : b'.trades = b.trades
  stops : b'.stopOrdersById = b.stopOrdersById
  index : ∀ id x, b'.ordersById.get? id = some x →
    b.ordersById.get? id = some x ∨ x = r ∧ id = .str (b.order r).orderId

/-- The remainder of a matched node `r` settles. -/
theorem Repr.settle (h : Repr b F v) (r : NodeRef) (type : OrderType) (hfresh : ∀ s, r ∉ F s)
    (htype : (b.order r).type = type)
    (hactive : 0 < (b.order r).remainingQuantity → (b.order r).isActive = true)
    (hlimit : type = .limit → 0 < (b.order r).remainingQuantity →
      Restable b F v r (b.order r).side) :
    ∃ b' F', (settleNode type r).run b = (.ok (), b') ∧
      b'.order r = (View.settle v.toDepth (b.order r)).1 ∧
      Repr b' F' { v with toDepth := (View.settle v.toDepth (b.order r)).2 } ∧ Settles r b b' := by
  unfold settleNode
  by_cases hrem : 0 < (b.order r).remainingQuantity
  · have hact := hactive hrem
    by_cases ht : type = .limit
    · obtain ⟨b', hrun, hrepr, hord, hnodes, hidx⟩ := h.rest (hlimit ht hrem)
      rw [settle_limit (htype.trans ht) hrem, if_pos ht]
      refine ⟨b', _, ?_, hord r, hrepr, fun x _ => hord x, hnodes, ?_, ?_, fun id x hx => ?_⟩
      · rw [restIfActive, run_get_bind, when, if_pos ⟨hact, hrem⟩, hrun]
      · rw [← hrepr.trades]; exact h.trades
      · rw [← hrepr.stops]; exact h.stops
      · rw [hidx, OMap.get?_set] at hx
        split at hx
        · next he => exact .inr ⟨(Option.some.inj hx).symm, he⟩
        · exact .inl hx
    · rw [settle_market (htype.trans_ne ht) hrem, if_neg ht]
      refine ⟨{ b with toHeap := b.toHeap.modifyNode r fun n => { n with status := .cancelled } }, F,
        ?_, ?_, ?_, fun x hx => ?_, rfl, rfl, rfl, fun _ _ hx => .inl hx⟩
      · rw [cancelRemainder, run_get_bind, when, if_pos ⟨hrem, hact⟩]
        exact run_onHeap (cancel_ok hact)
      · simp [Heap.order]
      · refine h.frame le_rfl le_rfl (fun _ _ _ => rfl) (fun s x hx => ?_) rfl
        exact Heap.modifyNode_node_ne (h := b.toHeap) (f := fun n => { n with status := .cancelled })
          (ne_of_mem_of_not_mem hx (hfresh s))
      · simp only [Heap.order, Heap.modifyNode_node_ne hx]
  · rw [settle_done hrem]
    refine ⟨b, F, ?_, rfl, h, fun _ _ => rfl, rfl, rfl, rfl, fun _ _ hx => .inl hx⟩
    split_ifs
    · rw [restIfActive, run_get_bind, when, if_neg fun hc => hrem hc.2]; rfl
    · rw [cancelRemainder, run_get_bind, when, if_neg fun hc => hrem hc.1]; rfl

/-- Every trade of a matched node is between it and a node of another id. -/
theorem fillFrom_names (h : Repr b F v) (hid : o.orderId ∉ v.ids) (ignore : Bool) :
    ∀ t ∈ (v.fillFrom o ignore).1, t.names o.orderId ∧ t.buyOrderId ≠ t.sellOrderId ∧
      0 < t.quantity ∧ ∀ id, t.names id → id = o.orderId ∨
        ∃ x ∈ F o.side.opposite, id = (b.order x).orderId := by
  intro t ht
  obtain ⟨y, hy, q, hq, rfl⟩ := Depth.fillFrom_trades h.rests ht
  rw [h.orders] at hy
  obtain ⟨x, hx, rfl⟩ := List.mem_map.mp hy
  have hne : o.orderId ≠ (b.order x).orderId := fun e =>
    hid (e ▸ h.mem_ids.mpr ⟨x, (h.index _ _).mpr ⟨⟨_, hx⟩, rfl⟩⟩)
  refine ⟨names_tradeOf.mpr (.inl rfl), ?_, hq, fun id hid => ?_⟩
  · unfold tradeOf
    by_cases hs : o.side = .buy
    · simpa [hs] using hne
    · simpa [hs] using hne.symm
  · rcases names_tradeOf.mp hid with rfl | rfl
    · exact .inl rfl
    · exact .inr ⟨x, hx, rfl⟩

/-- The node of a new order under an unused id can be matched. -/
theorem newOrderNode_run {i : OrderInput} (h : Repr b F v) (ho : newOrder i = .ok o)
    (hsym : i.symbol = v.symbol) (hid : o.orderId ∉ v.ids) (hex : o.initialQuantity ≤ Num.maxExact)
    (hexs : v.quantity ≤ Num.maxExact) :
    ∃ b₁, (newOrderNode i).run b = (.ok b.nodes, b₁) ∧
      b₁ = { b with toHeap := b.toHeap.newNode o } ∧ Repr b₁ F v ∧ b₁.order b.nodes = o ∧
      (∀ x < b.nodes, b₁.node x = b.node x) ∧ Matchable b₁ F v b.nodes := by
  have hN := newOrder_ok.mp ho
  have hpos := hN.quantity.2
  have hrem := hN.remaining
  set b₁ : OrderBook := { b with toHeap := b.toHeap.newNode o } with hb₁
  have hord : b₁.order b.nodes = o := by
    show ((Function.update b.node b.nodes _) b.nodes).toOrder = o
    rw [Function.update_self]
  have h₁ : Repr b₁ F v := h.newNode o
  refine ⟨b₁, ?_, rfl, h₁, hord, fun x hx => Function.update_of_ne hx.ne _ _,
    fun s hs => (h.node_bound hs).ne rfl, ?_, ?_, ?_, ?_, ?_, fun s => (h₁.remaining_le s).2.trans hexs⟩
  · unfold newOrderNode
    rw [run_lift_bind, ho]
    rfl
  · rw [hord, hN.symbol.1, hsym, h₁.symbol]
  · rw [hord]; omega
  · rw [hord]; simp [Order.isActive, hN.status]
  · rw [hord]; omega
  · rw [hord]; exact hid

/-- What an execution does, from what its matching and its settling do. -/
theorem Matched.executed {ig : Bool} {G : List NodeRef} {w : View} {d : Depth} {b₂ b₃ : OrderBook} (h : Repr b F v)
    (hid : o.orderId ∉ v.ids) (hrem : o.remainingQuantity = o.initialQuantity)
    (hm : Matched o.side b.nodes { b with toHeap := b.toHeap.newNode o } b₂ (F o.side.opposite) G (v.fillFrom o ig).1)
    (hord : b₂.order b.nodes = (v.fillFrom o ig).2.1) (hw : Repr b₂ (Function.update F o.side.opposite G) w)
    (hsettled : b₃.order b.nodes = (View.settle d (b₂.order b.nodes)).1) (hs : Settles b.nodes b₂ b₃) :
    Executed b b₃ o.orderId (v.fillFrom o ig).1 := by
  have hnames := fillFrom_names h hid ig
  have hsum := traded_eq_sum fun t ht => (hnames t ht).1
  have hfresh : ∀ s, b.nodes ∉ F s := fun s hmem => (h.node_bound hmem).ne rfl
  have hsub : ∀ s, (Function.update F o.side.opposite G s).Sublist (F s) := fun s => by
    rcases Side.eq_or_opposite o.side s with rfl | rfl
    · rw [Function.update_of_ne (Side.opposite_ne _).symm]
    · rw [Function.update_self]; exact hm.suffix.sublist
  have hold : ∀ x < b.nodes, (b.toHeap.newNode o).order x = b.order x := fun x hx =>
    congrArg OrderNode.toOrder (Function.update_of_ne hx.ne _ _)
  -- The nodes that are neither the new one nor on the opposite side are as before.
  have hkeep : ∀ x < b.nodes, x ∉ F o.side.opposite → b₃.order x = b.order x := fun x hx hxF => by
    rw [hs.other x hx.ne, Heap.order, hm.node x hx.ne hxF]
    exact hold x hx
  have hnot : ∀ id, (∀ x ∈ F o.side.opposite, id ≠ (b.order x).orderId) → id ≠ o.orderId →
      traded id (v.fillFrom o ig).1 = 0 := fun id hF hne => traded_eq_zero fun t ht hn => by
    rcases (hnames t ht).2.2.2 id hn with e | ⟨x, hx, e⟩
    · exact hne e
    · exact hF x hx e
  refine ⟨hs.nodes.trans hm.nodes, ?_, ?_, ?_, ?_, ?_, fun id x hx => ?_, fun x hx hxi => ?_,
    fun id x hx => ?_, fun id x hx => ?_, fun t ht => ?_⟩
  · rw [hs.trades, hm.frame]
  · rw [hs.stops, hm.frame]
  · rw [hsettled, hord]
    unfold View.settle
    split_ifs <;> rfl
  · cases hg : b.ordersById.get? (.str o.orderId) with
    | none => rfl
    | some x => exact absurd (h.mem_ids.mpr ⟨x, hg⟩) hid
  · rw [hsettled, hord, hsum, Depth.fillFrom_sum]
    have e : ∀ x, (View.settle d x).1.initialQuantity = x.initialQuantity ∧
        (View.settle d x).1.remainingQuantity = x.remainingQuantity := fun x => by
      unfold View.settle
      split_ifs <;> exact ⟨rfl, rfl⟩
    rw [(e _).1, (e _).2, Depth.fillFrom_order, Order.filledBy_initial, Order.filledBy_remaining]
    omega
  · obtain ⟨⟨s, hmem⟩, hx'⟩ := (h.index _ _).mp hx
    obtain rfl := JsVal.str.inj hx'
    rcases Side.eq_or_opposite o.side s with rfl | rfl
    · have hne : (b.order x).orderId ≠ o.orderId := fun e => hid (e ▸ h.mem_ids.mpr ⟨x, hx⟩)
      rw [hkeep x (h.node_bound hmem) (((h.sides _).disjoint (h.sides _)).1 x hmem),
        hnot _ (fun y hy => (h.side_ids _).2 x hmem y hy) hne, Order.filledBy_zero]
    · have hx₁ := hold x (h.node_bound hmem)
      rw [hs.other x (h.node_bound hmem).ne, hm.filled x hmem, hx₁]
  · exact hkeep x hx fun hxF => hxi _ ((h.index _ x).mpr ⟨⟨_, hxF⟩, rfl⟩)
  · obtain ⟨⟨s, hmem⟩, -⟩ := (h.index id x).mp hx
    exact h.node_bound hmem
  · rcases hs.index id x hx with hx | ⟨hx, hid'⟩
    · obtain ⟨⟨s, hmem⟩, hid'⟩ := (hw.index _ _).mp hx
      have hsF := (hsub s).subset hmem
      refine .inl ((h.index _ _).mpr ⟨⟨s, hsF⟩, ?_⟩)
      have hx₁ := hold x (h.node_bound hsF)
      rw [hid']
      rcases Side.eq_or_opposite o.side s with rfl | rfl
      · rw [Heap.order, hm.node x (ne_of_mem_of_not_mem hsF (hfresh _)) (((h.sides _).disjoint (h.sides _)).1 x hsF)]
        exact congrArg (fun y : Order => JsVal.str y.orderId) hx₁
      · rw [hm.orderId_eq hsF, hx₁]
    · rw [hid', hord]
      exact .inr ⟨hx, rfl⟩
  · obtain ⟨-, hne, hq, hids⟩ := hnames t ht
    refine ⟨hne, hq, fun id hn => (hids id hn).imp_right ?_⟩
    rintro ⟨x, hx, rfl⟩
    exact ⟨x, (h.index _ _).mpr ⟨⟨_, hx⟩, rfl⟩⟩

/-- A new order executes: the run of the code, and the view after it. -/
theorem execute_run {i : OrderInput} (h : Repr b F v) (ho : newOrder i = .ok o)
    (hsym : i.symbol = v.symbol) (hid : o.orderId ∉ v.ids)
    (hex : v.openQuantity + o.initialQuantity ≤ Num.maxExact) :
    ∃ b₁ b₂ b₃ F', (newOrderNode i).run b = (.ok b.nodes, b₁) ∧
      (matchBySide b.nodes (decide (i.type ≠ .limit))).run b₁ =
        (.ok (v.fillFrom o (decide (o.type ≠ .limit))).1, b₂) ∧
      b₂.order b.nodes = (v.fillFrom o (decide (o.type ≠ .limit))).2.1 ∧
      (settleNode i.type b.nodes).run b₂ = (.ok (), b₃) ∧
      b₃.order b.nodes = v.executedOrder o ∧ Repr b₃ F' (v.executed o) ∧
      Executed b b₃ o.orderId (v.fillFrom o (decide (o.type ≠ .limit))).1 := by
  have hN := newOrder_ok.mp ho
  have hpos := hN.quantity.2
  have hrem := hN.remaining
  have hopen := v.quantity_le_open
  have hqnn := Depth.Rests.quantity_nonneg h.rests
  obtain ⟨b₁, hnew, hb₁, h₁, hord, hold, hmatchable⟩ :=
    newOrderNode_run h ho hsym hid (by omega) (by omega)
  subst hb₁
  set r := b.nodes with hr
  have hact : o.isActive = true := by simp [Order.isActive, hN.status]
  have hfresh := hmatchable.fresh
  obtain ⟨b₂, G, hrun, hm, hord₂, h₂⟩ := h₁.matchOrder (decide (i.type ≠ .limit)) hmatchable
  rw [hord] at hrun hm hord₂ h₂
  rw [← hN.type] at hrun hm hord₂ h₂ ⊢
  set ig := decide (o.type ≠ .limit) with hig
  have hnew₂ : ∀ s, r ∉ Function.update F o.side.opposite G s := fun s hs => hfresh s (by
    rcases Side.eq_or_opposite o.side s with rfl | rfl
    · rwa [Function.update_of_ne (Side.opposite_ne _).symm] at hs
    · rw [Function.update_self] at hs
      exact hm.suffix.subset hs)
  have hnn := Depth.taken_nonneg h.rests o ig
  have hrem₂ : (b₂.order r).remainingQuantity = o.remainingQuantity - v.taken o ig := by
    rw [hord₂]; rfl
  have hq₂ := Depth.fillFrom_quantity v.toDepth o ig
  obtain ⟨b₃, F', hrun₃, hord₃, h₃, hsettles⟩ := h₂.settle r o.type hnew₂ (by rw [hord₂]; rfl)
      (fun hlt => by
        rw [hrem₂] at hlt
        rw [hord₂, Depth.fillFrom_order]
        exact Order.filledBy_isActive hact hlt)
      fun ht hlt => by
        refine ⟨by rw [hm.nodes]; exact Nat.lt_succ_self _, hnew₂, ?_, ?_, ?_, ?_, ?_⟩
        · rw [hm.frame]
          exact fun hmem => (h.arrived.2 r hmem).ne rfl
        · rw [hm.incoming]
          have hnode : (b.toHeap.newNode o).node r = ⟨o, none, none, none⟩ := Function.update_self _ _ _
          exact hnode ▸ ⟨rfl, rfl, rfl⟩
        · rw [hrem₂] at hlt
          rw [hord₂, Depth.fillFrom_order]
          exact filledBy_rests hN (hN.type.symm.trans ht) hnn (by omega)
        · rw [hord₂]
          exact fun hmem => hid (Depth.fillFrom_ids.subset hmem)
        · have hle : b₂.remaining (Function.update F o.side.opposite G (b₂.order r).side) ≤
              (v.fillFrom o ig).2.2.quantity := (h₂.remaining_le (b₂.order r).side).2
          rw [hrem₂]
          omega
  refine ⟨_, b₂, b₃, F', hnew, hrun, hord₂, hrun₃, by rw [hord₃, hord₂]; rfl, ?_, ?_⟩
  · rw [hord₂] at h₃
    exact h₃
  · exact hm.executed h hid hrem hord₂ h₂ hord₃ hsettles

end

end Lob.Node
