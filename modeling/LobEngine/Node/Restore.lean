import LobEngine.Node.Calls

/-!
# A book restored from its own recovery snapshot

`fromRecoverySnapshot (b.toRecoverySnapshot id)` rebuilds the levels order by order, in the order of
the snapshot. The restored book represents the view of `b`, without its trades
(`restored`). Its levels are fresh objects, so the proof goes level by level:

* `Building`: a level that is being filled, and is on no side yet.
* `restoreLevel_run`: the filled level joins its side.
-/

namespace Lob.Node

open Exc OrderBook

/-- What `restoreOrder` needs of an order to build it again. -/
structure Restorable (s : Side) (k : Int) (o : Order) : Prop where
  rests : o.RestsOn s
  price : o.price = k
  symbol : isBlank o.symbol = false
  orderId : isBlank o.orderId = false
  userId : isBlank o.userId = false
  timestamp : 0 ≤ o.timestamp.ms

/-- The level `l` is being filled with the nodes `R`, since the book was `b₀`. -/
structure Building (b₀ b : OrderBook) (l : LevelRef) (k : Int) (R : List NodeRef) : Prop where
  frame : b = { b₀ with
    toHeap := b.toHeap, ordersById := b.ordersById, arrivals := b₀.arrivals ++ R }
  level : LevelIs b.toHeap k l R
  new : ∀ r ∈ R, b₀.nodes ≤ r
  old : ∀ x < b₀.nodes, b.node x = b₀.node x
  nodes : b₀.nodes ≤ b.nodes
  levels : b.levels = b₀.levels
  level_ne : ∀ k', k' ≠ l → b.level k' = b₀.level k'
  index : ∀ id r, b.ordersById.get? id = some r ↔
    r ∈ R ∧ id = .str (b.order r).orderId ∨
      b₀.ordersById.get? id = some r ∧ ∀ x ∈ R, id ≠ .str (b.order x).orderId

section

variable {b₀ b : OrderBook} {s : Side} {k : Int} {l : LevelRef} {R : List NodeRef} {o : Order}

theorem newOrder_restore (h : Restorable s k o) : newOrder (restoreInput o) =
    .ok { o with remainingQuantity := o.initialQuantity, status := .opened } := by
  obtain ⟨p, hp, hpos⟩ := h.rests.price
  have hrem := h.rests.remaining
  have hini : 0 < o.initialQuantity := by
    rcases h.rests.status with ⟨-, e⟩ | ⟨-, e⟩ <;> omega
  refine newOrder_ok.mpr ⟨⟨rfl, h.orderId⟩, ⟨rfl, h.userId⟩, ⟨rfl, h.symbol⟩, rfl, rfl, ?_,
    ⟨rfl, hini⟩, rfl, rfl, ⟨rfl, h.timestamp⟩, rfl⟩
  show assertPrice o.type _ = .ok o.priceTicks
  rw [h.rests.type, hp, assertPrice]
  have ha : assertPositiveInteger "priceTicks" (.num (.int p)) = .ok p :=
    assertPositiveInteger_ok.mpr ⟨rfl, hpos⟩
  simp [restoreInput, hp, ha, Except.map]

/-- The index, once one more order joined the level. -/
theorem Building.index_append (hb : Building b₀ b l k R) {h : Heap} {r : NodeRef} (hord : h.order r = o)
    (hold : ∀ x ∈ R, h.order x = b.order x) (hnew : ∀ x ∈ R, (b.order x).orderId ≠ o.orderId) (id : JsVal)
    (x : NodeRef) : (b.ordersById.set (.str o.orderId) r).get? id = some x ↔
      x ∈ R ++ [r] ∧ id = .str (h.order x).orderId ∨
        b₀.ordersById.get? id = some x ∧ ∀ y ∈ R ++ [r], id ≠ .str (h.order y).orderId := by
  rw [OMap.get?_set]
  simp only [List.mem_append, List.mem_singleton]
  by_cases he : id = .str o.orderId
  · rw [if_pos he, Option.some_inj]
    constructor
    · rintro rfl
      exact .inl ⟨.inr rfl, by rw [hord]; exact he⟩
    · rintro (⟨hx | rfl, hidx⟩ | ⟨-, hne⟩)
      · rw [hold x hx, he] at hidx
        exact absurd (JsVal.str.inj hidx).symm (hnew x hx)
      · rfl
      · refine absurd he ?_
        have := hne r (.inr rfl)
        rwa [hord] at this
  · rw [if_neg he, hb.index]
    constructor
    · rintro (⟨hx, hidx⟩ | ⟨hx, hne⟩)
      · exact .inl ⟨.inl hx, by rw [hold x hx]; exact hidx⟩
      · refine .inr ⟨hx, fun y hy => ?_⟩
        rcases hy with hy | rfl
        · rw [hold y hy]; exact hne y hy
        · rw [hord]; exact he
    · rintro (⟨hx | rfl, hidx⟩ | ⟨hx, hne⟩)
      · rw [hold x hx] at hidx
        exact .inl ⟨hx, hidx⟩
      · rw [hord] at hidx
        exact absurd hidx he
      · refine .inr ⟨hx, fun y hy => ?_⟩
        have := hne y (.inl hy)
        rwa [hold y hy] at this

/-- One order of the snapshot joins the level. -/
theorem restoreOrder_run (hb : Building b₀ b l k R) (ho : Restorable s k o)
    (hid : ∀ r ∈ R, (b.order r).orderId ≠ o.orderId)
    (hnn : 0 ≤ b.remaining R) (hex : b.remaining R + o.remainingQuantity ≤ Num.maxExact) :
    ∃ b', (restoreOrder l o).run b = (.ok (), b') ∧ Building b₀ b' l k (R ++ [b.nodes]) ∧
      b'.order b.nodes = o ∧ ∀ r ∈ R, b'.order r = b.order r := by
  set r := b.nodes with hr
  have hrem := ho.rests.remaining
  -- The heap with the new node, once its quantity and status are set.
  set o₀ : Order := { o with remainingQuantity := o.initialQuantity, status := .opened } with ho₀
  set h₂ := (b.toHeap.newNode o₀).modifyNode r fun n =>
    { n with remainingQuantity := o.remainingQuantity, status := o.status } with hh₂
  have hnode : h₂.node r = ⟨o, none, none, none⟩ := by
    rw [hh₂, Heap.modifyNode_node_self]
    simp [Heap.newNode, hr, ho₀]
  have hold : ∀ x < b.nodes, h₂.node x = b.node x := fun x hx => by
    rw [hh₂, Heap.modifyNode_node_ne hx.ne]
    exact Function.update_of_ne hx.ne _ _
  have hfresh : r ∉ R := fun hmem => (hb.level.linked.bound r hmem).ne rfl
  have hlink : Linked h₂ l R := hb.level.linked.frame (Nat.le_succ _) rfl fun x hx => by
    rw [hold x (hb.level.linked.bound x hx)]; exact ⟨rfl, rfl, rfl⟩
  obtain ⟨p, hp, hpos⟩ := ho.rests.price
  have hpk : o.priceTicks = some k := by rw [hp, ← ho.price, Order.price, hp]; rfl
  obtain ⟨h₃, happ, hlink₃, hsame, htot⟩ := append_ok hlink hfresh (Nat.lt_succ_self _)
    (by rw [hnode]; exact hpk.trans (congrArg some hb.level.price.symm)) (by rw [hnode]; exact ⟨rfl, rfl, rfl⟩)
    (by rw [hnode]; exact hrem)
  have hord : h₃.order r = o := by rw [hsame.order, Heap.order, hnode]
  have hordR : ∀ x ∈ R, h₃.order x = b.order x := fun x hx => by
    rw [hsame.order, Heap.order, hold x (hb.level.linked.bound x hx)]; rfl
  refine ⟨{ b with
    toHeap := h₃, arrivals := b.arrivals ++ [r], ordersById := b.ordersById.set (.str o.orderId) r },
    ?_, ?_, hord, hordR⟩
  · unfold restoreOrder
    rw [if_neg (by omega)]
    have hnew : (newOrderNode (restoreInput o)).run b =
        (.ok r, { b with toHeap := b.toHeap.newNode o₀ }) := by
      unfold newOrderNode
      rw [run_lift_bind, newOrder_restore ho]
      rfl
    rw [run_bind_ok hnew,
      run_modify_bind, run_onHeap_bind (h := h₃) happ, run_modify_bind, run_modify]
  · refine ⟨?_, ⟨hlink₃, ?_, ?_, ?_⟩, ?_, fun x hx => ?_, ?_, ?_, fun k' hk' => ?_, fun id x => ?_⟩
    · rw [hb.frame]; simp
    · exact hsame.price.trans hb.level.price
    · show (h₃.level l).totalQuantity = _
      have hR : h₃.remaining R = b.remaining R := remaining_congr hordR
      rw [htot, hnode, remaining_append, hR, remaining_cons, remaining_nil, hord, add_zero]
      have ht : (h₂.level l).totalQuantity = .int (b.remaining R) := hb.level.total
      rw [ht]
      exact Num.addInt_exact (a := b.remaining R) (b := o.remainingQuantity) (by omega) (by omega)
    · show l < h₃.levels
      rw [hsame.levels]; exact hb.level.bound
    · intro x hx
      rcases List.mem_append.mp hx with hx | hx
      · exact hb.new x hx
      · rw [List.mem_singleton.mp hx]; exact hb.nodes
    · have hxb : x < b.nodes := hx.trans_le hb.nodes
      have hxR : x ∉ R ++ [r] := fun hmem => by
        rcases List.mem_append.mp hmem with hmem | hmem
        · exact absurd (hb.new x hmem) (by omega)
        · rw [List.mem_singleton] at hmem; omega
      exact (hsame.node x hxR).trans ((hold x hxb).trans (hb.old x hx))
    · show b₀.nodes ≤ h₃.nodes
      rw [hsame.nodes]; exact hb.nodes.trans (Nat.le_succ _)
    · exact hsame.levels.trans hb.levels
    · exact (hsame.level k' hk').trans (hb.level_ne k' hk')
    · exact hb.index_append hord hordR hid id x

/-- All orders of a level of the snapshot. -/
theorem restoreOrders_run (os ps : List Order) (hb : Building b₀ b l k R) (hps : R.map b.order = ps)
    (hos : ∀ o ∈ ps ++ os, Restorable s k o) (hids : ((ps ++ os).map (·.orderId)).Nodup)
    (hex : ((ps ++ os).map (·.remainingQuantity)).sum ≤ Num.maxExact) :
    ∃ b' R', (restoreOrders l os).run b = (.ok (), b') ∧ Building b₀ b' l k R' ∧
      R'.map b'.order = ps ++ os := by
  induction os generalizing b R ps with
  | nil => exact ⟨b, R, rfl, hb, by rw [hps, List.append_nil]⟩
  | cons o os ih =>
    have hrem : b.remaining R = (ps.map (·.remainingQuantity)).sum := by
      rw [← hps, List.map_map]; rfl
    have hpos : ∀ n ∈ (ps ++ o :: os).map (·.remainingQuantity), 0 ≤ n := fun n hn => by
      obtain ⟨x, hx, rfl⟩ := List.mem_map.mp hn
      exact (hos x hx).rests.remaining.le
    have hsub : (ps ++ [o]).Sublist (ps ++ o :: os) :=
      List.Sublist.append_left (by simp) _
    have hle := (hsub.map (·.remainingQuantity)).sum_le_sum hpos
    rw [List.map_append, List.sum_append, List.map_singleton, List.sum_singleton] at hle
    obtain ⟨b₁, hrun, hb₁, hord, hordR⟩ := restoreOrder_run hb (hos o (by simp))
      (fun r hr => by
        rw [List.map_append, List.map_cons, List.nodup_append] at hids
        refine hids.2.2 _ ?_ _ List.mem_cons_self
        rw [← hps, List.map_map]
        exact List.mem_map_of_mem (f := fun r => (b.order r).orderId) hr)
      (by rw [hrem]; exact List.sum_nonneg fun n hn => hpos n (by
        rw [List.map_append]; exact List.mem_append_left _ hn))
      (by rw [hrem]; exact hle.trans hex)
    have hmap : (R ++ [b.nodes]).map b₁.order = ps ++ [o] := by
      rw [List.map_append, List.map_congr_left hordR, hps, List.map_singleton, hord]
    rw [List.append_cons] at hos hids hex ⊢
    obtain ⟨b₂, R₂, hrun₂, hb₂, hmap₂⟩ := ih _ hb₁ hmap hos hids hex
    exact ⟨b₂, R₂, by rw [restoreOrders, run_bind_ok hrun, hrun₂], hb₂, hmap₂⟩

variable {F : Side → List NodeRef} {v : View}

/-! ## A level joins its side -/

/-- `b₁` has the nodes `R` on the level `l`, beyond all that `b` had. -/
def Added (b b₁ : OrderBook) (k : Int) (R : List NodeRef) : Prop :=
  Building { b with toHeap := b.toHeap.newLevel k } b₁ b.levels k R

theorem added_nil (b : OrderBook) (k : Int) : Added b { b with toHeap := b.toHeap.newLevel k } k [] := by
  refine ⟨by simp, ⟨linked_newLevel _ _, ?_, ?_, Nat.lt_succ_self _⟩, by simp, fun _ _ => rfl, le_rfl, rfl,
    fun _ _ => rfl, by simp⟩
  · simp [Heap.newLevel]
  · simp [Heap.newLevel]

section

variable {b₁ : OrderBook} (h : Repr b F v) (hb : Added b b₁ k R)
include h hb

theorem Added.node_old {t : Side} {x : NodeRef} (hx : x ∈ F t) : b₁.node x = b.node x := hb.old x (h.node_bound hx)

theorem Added.order_old {t : Side} {x : NodeRef} (hx : x ∈ F t) : b₁.order x = b.order x := by
  rw [Heap.order, hb.node_old h hx]
  rfl

theorem Added.fresh {t : Side} {r : NodeRef} (hr : r ∈ R) : r ∉ F t := fun hmem =>
  absurd (hb.new r hr) (not_le.mpr (h.node_bound hmem))

theorem Added.side_old (t : Side) : SideIs b₁.toHeap t (b.side t) (F t) := by
  refine (h.sides t).frame hb.nodes ?_ (fun l' hl' => ?_) fun x hx => hb.node_old h hx
  · show b.levels ≤ b₁.levels
    rw [hb.levels]
    exact Nat.le_succ _
  · obtain ⟨p, hp⟩ := OMap.mem_values.mp hl'
    have hlt := ((h.sides t).levels.of_get? hp).1.bound
    exact (hb.level_ne l' hlt.ne).trans (Function.update_of_ne hlt.ne _ _)

/-- The orders of one price, with the new level. -/
theorem Added.filter_price (hprice : ∀ r ∈ R, b₁.price r = k) (t : Side) (k' : Int) :
    (Function.update F s (F s ++ R) t).filter (b₁.price · = k') =
      (F t).filter (b.price · = k') ++ if t = s ∧ k' = k then R else [] := by
  have hold : (F t).filter (b₁.price · = k') = (F t).filter (b.price · = k') :=
    List.filter_congr fun x hx => by rw [Heap.price, hb.order_old h hx]; rfl
  by_cases ht : t = s
  · subst ht
    rw [Function.update_self, List.filter_append, hold]
    refine congrArg _ ?_
    by_cases hk : k' = k
    · rw [if_pos ⟨rfl, hk⟩]
      exact List.filter_eq_self.mpr fun r hr => by simp [hprice r hr, hk]
    · rw [if_neg fun h => hk h.2]
      exact List.filter_eq_nil_iff.mpr fun r hr => by simpa [hprice r hr] using Ne.symm hk
  · rw [Function.update_of_ne ht, hold, if_neg fun h => ht h.1, List.append_nil]

/-- The index has the old orders and the new ones. -/
theorem Added.index_iff (hnew : ∀ r ∈ R, (b₁.order r).orderId ∉ v.ids) (id : JsVal) (x : NodeRef) :
    b₁.ordersById.get? id = some x ↔
      (∃ t, x ∈ Function.update F s (F s ++ R) t) ∧ id = .str (b₁.order x).orderId := by
  have hmem : ∀ t, x ∈ Function.update F s (F s ++ R) t ↔ x ∈ F t ∨ t = s ∧ x ∈ R := by
    intro t
    by_cases ht : t = s
    · subst ht
      rw [Function.update_self, List.mem_append]
      simp
    · rw [Function.update_of_ne ht]
      simp [ht]
  rw [hb.index]
  simp only [hmem]
  constructor
  · rintro (⟨hx, hid⟩ | ⟨hx, -⟩)
    · exact ⟨⟨s, .inr ⟨rfl, hx⟩⟩, hid⟩
    · obtain ⟨⟨t, ht⟩, hid⟩ := (h.index id x).mp hx
      exact ⟨⟨t, .inl ht⟩, by rw [hb.order_old h ht]; exact hid⟩
  · rintro ⟨⟨t, ht | ⟨-, hx⟩⟩, hid⟩
    · rw [hb.order_old h ht] at hid
      have hx := (h.index id x).mpr ⟨⟨t, ht⟩, hid⟩
      refine .inr ⟨hx, fun y hy e => ?_⟩
      rw [e] at hx
      exact hnew y hy (h.mem_ids.mpr ⟨x, hx⟩)
    · exact .inl ⟨hx, hid⟩

/-- The book with the new level, beyond the other levels of its side. -/
theorem Added.repr {os : List Order} (hmap : R.map b₁.order = os) (hne : os ≠ []) (hos : ∀ o ∈ os, Restorable s k o)
    (hids : (os.map (·.orderId)).Nodup) (hnew : ∀ o ∈ os, o.orderId ∉ v.ids)
    (hlast : ∀ x ∈ v.side s, s.rank x.price < s.rank k) :
    Repr (b₁.setSide s ((b₁.side s).set k b.levels)) (Function.update F s (F s ++ R))
      { v with toDepth := v.setSide s (v.side s ++ os) } := by
  have hR : ∀ r ∈ R, b₁.order r ∈ os := fun r hr => hmap ▸ List.mem_map_of_mem hr
  have hprice : ∀ r ∈ R, b₁.price r = k := fun r hr => (hos _ (hR r hr)).price
  have hside₁ : ∀ t, b₁.side t = b.side t := fun t => by rw [hb.frame]; cases t <;> rfl
  have hside : SideIs b₁.toHeap s ((b.side s).set k b.levels) (F s ++ R) := by
    refine (hb.side_old h s).addLevel hb.level (fun e => hne (by rw [← hmap, e]; rfl)) hprice (fun x hx => ?_)
      (fun r hr => hb.fresh h hr) fun r hr => (hos _ (hR r hr)).rests
    rw [Heap.price, hb.order_old h hx]
    exact hlast _ (by rw [h.orders]; exact List.mem_map_of_mem hx)
  set b' := b₁.setSide s ((b₁.side s).set k b.levels) with hb'
  have hheap : b'.toHeap = b₁.toHeap := setSide_toHeap _ _ _
  have harr : b'.arrivals = b.arrivals ++ R := by rw [hb', setSide_arrivals, hb.frame]
  refine ⟨fun t => ?_, fun t => ?_, fun id x => ?_, ?_, fun t k' => ?_, ?_, ?_, ?_, ?_, ?_, ?_, ?_⟩
  · rw [hheap]
    rcases Side.eq_or_opposite s t with rfl | rfl
    · rw [Function.update_self, hb', setSide_side_self, hside₁]; exact hside
    · rw [Function.update_of_ne (Side.opposite_ne s), hb', setSide_opposite_side, hside₁]; exact hb.side_old h _
  · rw [hheap]
    have hF : ∀ t, (F t).map b₁.order = v.side t := fun t => by
      rw [h.orders]; exact List.map_congr_left fun x hx => hb.order_old h hx
    rcases Side.eq_or_opposite s t with rfl | rfl
    · rw [Function.update_self, List.map_append, hF, hmap, Depth.side_setSide]
    · rw [Function.update_of_ne (Side.opposite_ne s), hF, Depth.side_opposite_setSide]
  · rw [hb', setSide_ordersById, setSide_toHeap]
    exact hb.index_iff h (fun r hr => hnew _ (hR r hr)) id x
  · refine (Depth.setSide_append_ids v.toDepth s os).nodup_iff.mpr (List.nodup_append.mpr ⟨h.ids, hids, ?_⟩)
    rintro i hi j hj rfl
    obtain ⟨o, ho, rfl⟩ := List.mem_map.mp hj
    exact hnew o ho hi
  · rw [harr, hheap, hb.filter_price h hprice]
    refine (h.history t k').append ?_
    split_ifs
    · exact List.Sublist.refl _
    · exact List.nil_sublist _
  · rw [harr, hheap]
    refine ⟨List.nodup_append.mpr ⟨h.arrived.1, hb.level.linked.nodup, fun x hx y hy e => ?_⟩,
      fun x hx => ?_⟩
    · have hge : b.nodes ≤ y := hb.new y hy
      exact absurd (h.arrived.2 x hx) (not_lt.mpr (e ▸ hge))
    · rcases List.mem_append.mp hx with hx | hx
      · exact (h.arrived.2 x hx).trans_le hb.nodes
      · exact hb.level.linked.bound x hx
  · rw [hb', setSide_symbol, hb.frame]; exact h.symbol
  · rw [hb', setSide_stopOrdersById, hb.frame]; exact h.stops
  · rw [hb', setSide_trades, hb.frame]; exact h.trades
  · rw [hb', setSide_last, hb.frame]; exact h.last
  · rw [hb', setSide_sequence, hb.frame]; exact h.sequence
  · rw [hb', setSide_clock, hb.frame]; exact h.clock

end

/-- One level of the snapshot joins its side. -/
theorem restoreLevel_run {lv : RecoveryLevel} (h : Repr b F v) (hne : lv.orders ≠ [])
    (hos : ∀ o ∈ lv.orders, Restorable s lv.priceTicks o)
    (hids : (lv.orders.map (·.orderId)).Nodup) (hnew : ∀ o ∈ lv.orders, o.orderId ∉ v.ids)
    (hlast : ∀ x ∈ v.side s, s.rank x.price < s.rank lv.priceTicks)
    (hex : (lv.orders.map (·.remainingQuantity)).sum ≤ Num.maxExact) :
    ∃ b' R, (restoreLevel s lv).run b = (.ok (), b') ∧
      Repr b' (Function.update F s (F s ++ R))
        { v with toDepth := v.setSide s (v.side s ++ lv.orders) } := by
  have hkpos : 0 < lv.priceTicks := by
    obtain ⟨o, ho⟩ := List.exists_mem_of_ne_nil _ hne
    have h := RestsOn.priceTicks (hos o ho).rests
    rw [(hos o ho).price] at h
    exact h.2
  obtain ⟨b₁, R, hrun, hb₁, hmap⟩ := restoreOrders_run lv.orders [] (added_nil b lv.priceTicks) rfl
    (by simpa using hos) (by simpa using hids) (by simpa using hex)
  rw [List.nil_append] at hmap
  refine ⟨_, R, ?_, Added.repr h hb₁ hmap hne hos hids hnew hlast⟩
  unfold restoreLevel
  rw [run_get_bind, if_neg (not_le.mpr hkpos), run_modify_bind, run_bind_ok hrun, run_get_bind, when, if_pos,
    run_modify]
  show 0 < (b₁.level b.levels).orderCount
  rw [hb₁.level.linked.count]
  have := List.length_pos_of_ne_nil (fun e => hne (by rw [← hmap, e]; rfl) : R ≠ [])
  omega

/-- The orders of the levels of a sorted side, one level after the other, are the side. -/
theorem flatMap_recoveryLevels {L : List Order}
    (hL : L.Pairwise fun x y => s.rank x.price ≤ s.rank y.price) :
    (View.recoveryLevels L).flatMap (·.orders) = L := by
  unfold View.recoveryLevels
  rw [List.flatMap_map]
  exact flatMap_filter_dedup s.rank_injective hL

/-- The levels of one side of the snapshot. -/
theorem restoreSide_run (s : Side) (lvs : List RecoveryLevel) (h : Repr b F v)
    (hne : ∀ lv ∈ lvs, lv.orders ≠ [])
    (hos : ∀ lv ∈ lvs, ∀ o ∈ lv.orders, Restorable s lv.priceTicks o)
    (hids : (v.ids ++ (lvs.flatMap (·.orders)).map (·.orderId)).Nodup)
    (hsort : lvs.Pairwise fun x y => s.rank x.priceTicks < s.rank y.priceTicks)
    (hlast : ∀ lv ∈ lvs, ∀ x ∈ v.side s, s.rank x.price < s.rank lv.priceTicks)
    (hex : ∀ lv ∈ lvs, (lv.orders.map (·.remainingQuantity)).sum ≤ Num.maxExact) :
    ∃ b' F', (restoreBookSideFromRecoverySnapshot s lvs).run b = (.ok (), b') ∧
      Repr b' F' { v with toDepth := v.setSide s (v.side s ++ lvs.flatMap (·.orders)) } := by
  induction lvs generalizing b F v with
  | nil =>
    refine ⟨b, F, rfl, ?_⟩
    rw [List.flatMap_nil, List.append_nil, Depth.setSide_side]
    exact h
  | cons lv lvs ih =>
    rw [List.pairwise_cons] at hsort
    rw [List.flatMap_cons, List.map_append, ← List.append_assoc] at hids
    have hids₁ := (List.nodup_append.mp hids).1
    rw [List.nodup_append] at hids₁
    obtain ⟨b₁, R, hrun, h₁⟩ := restoreLevel_run h (hne lv List.mem_cons_self) (hos lv List.mem_cons_self)
      hids₁.2.1 (fun o ho hmem => hids₁.2.2 _ hmem _ (List.mem_map_of_mem ho) rfl)
      (hlast lv List.mem_cons_self) (hex lv List.mem_cons_self)
    set v₁ : View := { v with toDepth := v.setSide s (v.side s ++ lv.orders) } with hv₁
    have hs₁ : v₁.side s = v.side s ++ lv.orders := Depth.side_setSide _ _ _
    have hperm : List.Perm v₁.ids (v.ids ++ lv.orders.map (·.orderId)) :=
      Depth.setSide_append_ids v.toDepth s lv.orders
    obtain ⟨b₂, F₂, hrun₂, h₂⟩ := ih h₁ (fun x hx => hne x (List.mem_cons_of_mem _ hx))
      (fun x hx => hos x (List.mem_cons_of_mem _ hx))
      ((hperm.append_right _).nodup_iff.mpr hids) hsort.2
      (fun x hx o ho => by
        rw [hs₁] at ho
        rcases List.mem_append.mp ho with ho | ho
        · exact hlast x (List.mem_cons_of_mem _ hx) o ho
        · rw [(hos lv List.mem_cons_self o ho).price]
          exact hsort.1 x hx)
      fun x hx => hex x (List.mem_cons_of_mem _ hx)
    refine ⟨b₂, F₂, by rw [restoreBookSideFromRecoverySnapshot, run_bind_ok hrun, hrun₂], ?_⟩
    rw [hs₁, List.append_assoc] at h₂
    rw [List.flatMap_cons]
    have e : v₁.toDepth.setSide s (v.side s ++ (lv.orders ++ lvs.flatMap (·.orders))) =
        v.setSide s (v.side s ++ (lv.orders ++ lvs.flatMap (·.orders))) := by
      rw [hv₁]; cases s <;> rfl
    rw [e] at h₂
    exact h₂

theorem Repr.sorted (h : Repr b F v) (s : Side) :
    (v.side s).Pairwise fun x y => s.rank x.price ≤ s.rank y.price := by
  rw [h.orders]
  exact List.pairwise_map.mpr (h.sides s).levels.sorted

/-- One side of the snapshot of a book, restored to an empty side. -/
theorem restoreSide_self (s : Side) {b' : OrderBook} {F' : Side → List NodeRef} {w : View} (h : Repr b F v)
    (hv : v.Ok) (h' : Repr b' F' w) (hempty : w.side s = [])
    (hids : (w.ids ++ (v.side s).map (·.orderId)).Nodup) :
    ∃ b₂ F₂, (restoreBookSideFromRecoverySnapshot s (b.getBookSideRecoverySnapshot s)).run b' =
        (.ok (), b₂) ∧ Repr b₂ F₂ { w with toDepth := w.setSide s (v.side s) } := by
  have hsorted := h.sorted s
  have hflat := flatMap_recoveryLevels hsorted
  have hmem : ∀ lv ∈ View.recoveryLevels (v.side s), ∃ k ∈ (v.side s).map Order.price,
      lv.priceTicks = k ∧ lv.orders = (v.side s).filter (·.price = k) := fun lv hlv => by
    obtain ⟨k, hk, rfl⟩ := List.mem_map.mp hlv
    exact ⟨k, List.mem_dedup.mp hk, rfl, rfl⟩
  have hne : ∀ lv ∈ View.recoveryLevels (v.side s), lv.orders ≠ [] := fun lv hlv => by
    obtain ⟨k, hk, -, ho⟩ := hmem lv hlv
    obtain ⟨x, hx, rfl⟩ := List.mem_map.mp hk
    rw [ho]
    exact List.ne_nil_of_mem (List.mem_filter.mpr ⟨hx, by simp⟩)
  have hos : ∀ lv ∈ View.recoveryLevels (v.side s), ∀ o ∈ lv.orders, Restorable s lv.priceTicks o := by
    intro lv hlv o ho
    obtain ⟨k, -, hp, hos⟩ := hmem lv hlv
    rw [hos, List.mem_filter, decide_eq_true_eq] at ho
    obtain ⟨hsym, hid, huser, hts⟩ := hv.valid o (Depth.mem_orders.mpr ⟨s, ho.1⟩)
    exact ⟨h.rests s o ho.1, ho.2.trans hp.symm, hsym ▸ hv.symbol, hid, huser, hts⟩
  have hsort : (View.recoveryLevels (v.side s)).Pairwise fun x y =>
      s.rank x.priceTicks < s.rank y.priceTicks := by
    have hmap : ((v.side s).map Order.price).Pairwise fun k k' => s.rank k ≤ s.rank k' :=
      List.pairwise_map.mpr hsorted
    exact List.pairwise_map.mpr (((hmap.sublist (List.dedup_sublist _)).and (List.nodup_dedup _)).imp
      fun {k k'} hk => lt_of_le_of_ne hk.1 fun e => hk.2 (s.rank_injective e))
  have hex : ∀ lv ∈ View.recoveryLevels (v.side s),
      (lv.orders.map (·.remainingQuantity)).sum ≤ Num.maxExact := fun lv hlv => by
    obtain ⟨k, -, -, hos⟩ := hmem lv hlv
    have hle := (List.filter_sublist (p := (·.price = k)) (l := v.side s)).map (·.remainingQuantity)
      |>.sum_le_sum fun n hn => by
        obtain ⟨x, hx, rfl⟩ := List.mem_map.mp hn
        exact (h.rests.remaining hx).le
    rw [hos]
    have := (h.remaining_le s).2
    rw [h.remaining_eq] at this
    exact ((hle.trans this).trans v.quantity_le_open).trans hv.exact
  obtain ⟨b₂, F₂, hrun, h₂⟩ := restoreSide_run s (View.recoveryLevels (v.side s)) h' hne hos
    (by rw [hflat]; exact hids) hsort (by rw [hempty]; simp) hex
  rw [hempty, List.nil_append, hflat] at h₂
  exact ⟨b₂, F₂, by rw [h.getBookSideRecoverySnapshot_eq, hrun], h₂⟩

theorem repr_new (symbol : String) (clock : Clock) : Repr (OrderBook.new symbol clock) (fun _ => [])
    ⟨Depth.empty, symbol, .empty, [], none, 0, clock⟩ := by
  refine ⟨fun s => ⟨?_, List.nodup_nil, by simp⟩, fun s => (by cases s <;> rfl), fun id r => ?_,
    List.nodup_nil, fun _ _ => List.Sublist.refl _, ⟨List.nodup_nil, by simp [OrderBook.new]⟩,
    rfl, rfl, rfl, rfl, rfl, rfl⟩
  · cases s <;> exact Levels.empty _ _ _
  · simp [OrderBook.new]

/-- The book restored from the recovery snapshot of `b` is the view of `b`, without its trades. -/
theorem restored (h : Repr b F v) (hv : v.Ok) (id : Option String) (clock : Clock) :
    ∃ b' F', fromRecoverySnapshot (b.toRecoverySnapshot id) clock = (.ok (), b') ∧
      Repr b' F' { v with trades := [], clock } := by
  unfold fromRecoverySnapshot
  have hsym : (b.toRecoverySnapshot id).symbol = v.symbol := h.symbol.symm
  rw [hsym, if_neg (by simp [hv.symbol])]
  have h₀ : Repr { OrderBook.new v.symbol clock with
        sequence := b.sequence, lastTradePriceTicks := b.lastTradePriceTicks } (fun _ => [])
      ⟨Depth.empty, v.symbol, .empty, [], b.lastTradePriceTicks, b.sequence, clock⟩ :=
    (repr_new v.symbol clock).scalars rfl rfl
  have hn := h.ids
  unfold Depth.ids Depth.orders at hn
  rw [List.map_append] at hn
  obtain ⟨b₁, F₁, hrun₁, h₁⟩ := restoreSide_self .buy h hv h₀ rfl (List.nodup_append.mp hn).1
  obtain ⟨b₂, F₂, hrun₂, h₂⟩ := restoreSide_self .sell h hv h₁ rfl (by
    show ((v.bids ++ []).map Order.orderId ++ v.asks.map Order.orderId).Nodup
    rw [List.append_nil]
    exact hn)
  have hstops : b.stopOrdersById.values.foldl (fun m s => m.set s.orderId s) b₂.stopOrdersById =
      b.stopOrdersById := by
    rw [← h₂.stops, ← h.stops]
    exact OMap.foldl_set_values hv.keyed
  refine ⟨{ b₂ with stopOrdersById := b.stopOrdersById }, F₂, ?_, h₂.scalars rfl ?_⟩
  · have hsnap : b.toRecoverySnapshot id = ⟨b.symbol, b.sequence, b.lastTradePriceTicks, id,
      b.getBookSideRecoverySnapshot .buy, b.getBookSideRecoverySnapshot .sell,
      b.stopOrdersById.values⟩ := rfl
    rw [hsnap]
    dsimp only
    rw [run_bind_ok hrun₁, run_bind_ok hrun₂, run_modify, hstops]
  · have hl : v.lastTradePriceTicks = b₂.lastTradePriceTicks := h.last.trans h₂.last
    have hq : v.sequence = b₂.sequence := h.sequence.trans h₂.sequence
    have hc : clock = b₂.clock := h₂.clock
    simp only [← hl, ← hq, ← hc, ← h.stops]
    rfl

end

end Lob.Node
