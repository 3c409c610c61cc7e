import LobEngine.Types

/-!
# What matching and resting do to the two sides

The facts about `Depth.fillFrom`, `Depth.rest` and `Depth.remove` that the invariants of both
engines rest on: which ids are there, what the orders have left, and what is open altogether.

* `fillFrom_ids`, `rest_ids`, `remove_ids`: no id appears twice.
* `fillFrom_orders`: an order that stays has lost less than it had.
* `fillFrom_quantity`, `rest_quantity`, `remove_quantity`: the open quantity.
* `execute`: a new order is matched, and its remainder rests or is cancelled.
* `execute_remove`: an order that nobody trades with may as well be missing.
* `execute_worn`: an execution with trades takes from an order that rests.
-/

namespace Lob

namespace Depth

variable {d : Depth} {o : Order} {ignore : Bool}

/-- What all resting orders have left. -/
def quantity (d : Depth) : Int := (d.orders.map (·.remainingQuantity)).sum

/-- The resting orders of each side may rest there. -/
def Rests (d : Depth) : Prop := ∀ s, ∀ x ∈ d.side s, x.RestsOn s

theorem Rests.remaining (h : d.Rests) {s : Side} {x : Order} (hx : x ∈ d.side s) :
    0 < x.remainingQuantity := (h s x hx).remaining

/-- What the incoming order traded. -/
def taken (d : Depth) (o : Order) (ignore : Bool) : Int :=
  (greedy o ignore (d.side o.side.opposite)).taken

theorem setSide_ids (d : Depth) (s : Side) (L : List Order) :
    (d.setSide s L).ids.Perm (L.map (·.orderId) ++ (d.side s.opposite).map (·.orderId)) := by
  unfold ids orders
  rw [List.map_append]
  cases s with
  | buy => exact .refl _
  | sell => exact List.perm_append_comm

/-- Orders at the end of a side. -/
theorem setSide_append_ids (d : Depth) (s : Side) (os : List Order) :
    List.Perm (d.setSide s (d.side s ++ os)).ids (d.ids ++ os.map (·.orderId)) := by
  unfold ids
  rw [← List.map_append]
  refine List.Perm.map _ ?_
  unfold orders
  cases s with
  | buy =>
    show List.Perm ((d.bids ++ os) ++ d.asks) ((d.bids ++ d.asks) ++ os)
    rw [List.append_assoc, List.append_assoc]
    exact List.perm_append_comm.append_left _
  | sell => exact List.Perm.of_eq (List.append_assoc _ _ _).symm

theorem fillFrom_order : (d.fillFrom o ignore).2.1 = o.filledBy (d.taken o ignore) := rfl

/-- The trades are of the quantity that the incoming order traded. -/
theorem fillFrom_sum (d : Depth) (o : Order) (ignore : Bool) :
    ((d.fillFrom o ignore).1.map (·.quantity)).sum = d.taken o ignore :=
  sum_tradesOf _ _

theorem taken_nonneg (h : d.Rests) (o : Order) (ignore : Bool) : 0 ≤ d.taken o ignore :=
  walk_taken_nonneg fun _ hx => h.remaining hx

theorem taken_le (d : Depth) (ignore : Bool) (ho : 0 ≤ o.remainingQuantity) :
    d.taken o ignore ≤ o.remainingQuantity := by
  have h := @walk_left_nonneg _ (takes o ignore) (·.remainingQuantity) Order.filledBy _
    (d.side o.side.opposite) ho
  rw [walk_left] at h
  unfold taken greedy
  omega

/-- An order that stays is as before, or has lost less than it had. -/
theorem fillFrom_orders {s : Side} {x : Order} (hx : x ∈ (d.fillFrom o ignore).2.2.side s) :
    ∃ y ∈ d.side s, x = y ∨ ∃ n, 0 < n ∧ n < y.remainingQuantity ∧ x = y.filledBy n := by
  unfold fillFrom at hx
  rcases Side.eq_or_opposite o.side s with rfl | rfl
  · rw [side_setSide_opposite] at hx
    exact ⟨x, hx, .inl rfl⟩
  · rw [side_setSide] at hx
    exact walk_rest _ _ x hx

theorem fillFrom_rests (h : d.Rests) : (d.fillFrom o ignore).2.2.Rests := by
  intro s x hx
  obtain ⟨y, hy, rfl | ⟨n, hn, hlt, rfl⟩⟩ := fillFrom_orders hx
  · exact h s x hy
  · exact (h s y hy).filledBy hn hlt

/-- What a partial fill does not change. -/
theorem fillFrom_map {β : Type} (f : Order → β) (hf : ∀ n x, f (Order.filledBy n x) = f x) :
    ((d.fillFrom o ignore).2.2.orders.map f).Sublist (d.orders.map f) := by
  have hside : ∀ s, (((d.fillFrom o ignore).2.2.side s).map f).Sublist ((d.side s).map f) := by
    intro s
    unfold fillFrom
    rcases Side.eq_or_opposite o.side s with rfl | rfl
    · rw [side_setSide_opposite]
    · rw [side_setSide]
      exact (walk_rest_suffix f hf _ _).sublist
  unfold orders
  rw [List.map_append, List.map_append]
  exact (hside .buy).append (hside .sell)

theorem fillFrom_ids : (d.fillFrom o ignore).2.2.ids.Sublist d.ids :=
  fillFrom_map (·.orderId) fun _ _ => rfl

theorem quantity_eq (d : Depth) (s : Side) :
    d.quantity = ((d.side s).map (·.remainingQuantity)).sum +
      ((d.side s.opposite).map (·.remainingQuantity)).sum := by
  unfold quantity orders
  rw [List.map_append, List.sum_append]
  cases s with
  | buy => rfl
  | sell => exact add_comm _ _

theorem fillFrom_quantity (d : Depth) (o : Order) (ignore : Bool) :
    (d.fillFrom o ignore).2.2.quantity = d.quantity - d.taken o ignore := by
  have hrest := @walk_rest_qty _ (takes o ignore) (·.remainingQuantity) Order.filledBy
    (fun _ _ => rfl) o.remainingQuantity (d.side o.side.opposite)
  rw [quantity_eq _ o.side, quantity_eq d o.side, fillFrom, side_setSide_opposite, side_setSide]
  unfold taken greedy at *
  omega

/-- Each trade is between the incoming order and one that rests on the opposite side. -/
theorem fillFrom_trades (h : d.Rests) {t : Trade} (ht : t ∈ (d.fillFrom o ignore).1) :
    ∃ x ∈ d.side o.side.opposite, ∃ q, 0 < q ∧ t = tradeOf o x q := by
  obtain ⟨f, hf, rfl⟩ := List.mem_map.mp ht
  obtain ⟨hx, -, hq, -⟩ := walk_fills (fun _ hx => h.remaining hx) f hf
  exact ⟨f.1, hx, f.2, hq, rfl⟩

theorem fillFrom_pos (h : d.Rests) (o : Order) (ignore : Bool) :
    ∀ t ∈ (d.fillFrom o ignore).1, 0 < t.quantity := by
  intro t ht
  obtain ⟨x, -, q, hq, rfl⟩ := fillFrom_trades h ht
  exact hq

/-! The walk, one order at a time. -/

/-- The incoming order trades with nobody. -/
theorem fillFrom_stop (h : o.remainingQuantity ≤ 0 ∨
    ∀ x ∈ (d.side o.side.opposite).head?, takes o ignore x = false) :
    d.fillFrom o ignore = ([], o, d) := by
  have hw : greedy o ignore (d.side o.side.opposite) =
      ⟨[], o.remainingQuantity, d.side o.side.opposite⟩ := by
    unfold greedy
    cases hL : d.side o.side.opposite with
    | nil => rfl
    | cons x L => exact walk_stopped (h.imp_right fun hx => hx x (by rw [hL]; rfl))
  rw [fillFrom, hw]
  simp [tradesOf, WalkResult.taken, setSide_side]

section

variable {x : Order} {L : List Order}

theorem greedy_whole (hq : 0 < o.remainingQuantity) (ha : takes o ignore x = true)
    (hle : x.remainingQuantity ≤ o.remainingQuantity) : greedy o ignore (x :: L) =
      ⟨(x, x.remainingQuantity) :: (greedy (o.filledBy x.remainingQuantity) ignore L).fills,
        (greedy (o.filledBy x.remainingQuantity) ignore L).left,
        (greedy (o.filledBy x.remainingQuantity) ignore L).rest⟩ :=
  walk_whole hq ha hle

theorem greedy_part (hq : 0 < o.remainingQuantity) (ha : takes o ignore x = true)
    (hlt : o.remainingQuantity < x.remainingQuantity) : greedy o ignore (x :: L) =
      ⟨[(x, o.remainingQuantity)], 0, x.filledBy o.remainingQuantity :: L⟩ :=
  walk_part hq ha hlt

/-- The first order trades all it has, and the walk goes on. -/
theorem fillFrom_whole (hL : d.side o.side.opposite = x :: L) (hq : 0 < o.remainingQuantity)
    (ha : takes o ignore x = true) (hle : x.remainingQuantity ≤ o.remainingQuantity)
    (hx : 0 ≤ x.remainingQuantity)
    (ht : 0 ≤ (d.setSide o.side.opposite L).taken (o.filledBy x.remainingQuantity) ignore) :
    d.fillFrom o ignore =
      (tradeOf o x x.remainingQuantity ::
        ((d.setSide o.side.opposite L).fillFrom (o.filledBy x.remainingQuantity) ignore).1,
      ((d.setSide o.side.opposite L).fillFrom (o.filledBy x.remainingQuantity) ignore).2) := by
  unfold taken at ht
  unfold fillFrom
  rw [Order.filledBy_side, side_setSide] at ht ⊢
  rw [hL, greedy_whole hq ha hle]
  dsimp only
  rw [Order.filledBy_filledBy o hx ht, setSide_setSide]
  rfl

/-- The walk ends inside the first order. -/
theorem fillFrom_part (hL : d.side o.side.opposite = x :: L) (hq : 0 < o.remainingQuantity)
    (ha : takes o ignore x = true) (hlt : o.remainingQuantity < x.remainingQuantity) :
    d.fillFrom o ignore = ([tradeOf o x o.remainingQuantity], o.filledBy o.remainingQuantity,
      d.setSide o.side.opposite (x.filledBy o.remainingQuantity :: L)) := by
  rw [fillFrom, hL, greedy_part hq ha hlt]
  simp [tradesOf, WalkResult.taken]

end

/-! ## Resting -/

theorem rest_perm : (d.rest o).orders.Perm (o :: d.orders) := by
  unfold rest orders
  cases o.side with
  | buy => exact enqueue_perm.append_right _
  | sell => exact (enqueue_perm.append_left _).trans List.perm_middle

theorem rest_ids : (d.rest o).ids.Perm (o.orderId :: d.ids) := rest_perm.map _

theorem rest_quantity : (d.rest o).quantity = o.remainingQuantity + d.quantity := by
  unfold quantity
  rw [(rest_perm.map _).sum_eq, List.map_cons, List.sum_cons]

theorem rest_rests (h : d.Rests) (ho : o.RestsOn o.side) : (d.rest o).Rests := by
  intro s x hx
  unfold rest at hx
  rcases Side.eq_or_opposite o.side s with rfl | rfl
  · rw [side_setSide, mem_enqueue] at hx
    rcases hx with rfl | hx
    · exact ho
    · exact h _ x hx
  · rw [side_opposite_setSide] at hx
    exact h _ x hx

/-! ## Removal -/

theorem remove_orders (id : String) : (d.remove id).orders = d.orders.filter (·.orderId ≠ id) := by
  unfold remove orders
  rw [List.filter_append]

theorem remove_ids (id : String) : (d.remove id).ids.Sublist d.ids := by
  unfold ids
  rw [remove_orders]
  exact List.filter_sublist.map _

theorem remove_rests (h : d.Rests) (id : String) : (d.remove id).Rests := by
  intro s x hx
  rw [side_remove] at hx
  exact h s x (List.mem_of_mem_filter hx)

/-- No other order of the book has the id of an order. -/
theorem others_ne {s : Side} {A B : List Order} {x : Order} (hn : d.ids.Nodup) (hL : d.side s = A ++ o :: B)
    (hx : x ∈ A ++ B ∨ x ∈ d.side s.opposite) : x.orderId ≠ o.orderId := by
  have hperm := setSide_ids d s (d.side s)
  rw [setSide_side, hL, List.map_append, List.map_cons] at hperm
  have hnd := hperm.nodup_iff.mp hn
  rw [List.append_assoc, List.cons_append, List.nodup_middle, List.nodup_cons] at hnd
  refine fun e => hnd.1 (e ▸ ?_)
  rw [← List.append_assoc, ← List.map_append, List.mem_append]
  exact hx.imp List.mem_map_of_mem List.mem_map_of_mem

/-- Where the order stood on its side. -/
theorem remove_eq {s : Side} {A B : List Order} (hn : d.ids.Nodup)
    (hL : d.side s = A ++ o :: B) : d.remove o.orderId = d.setSide s (A ++ B) := by
  refine ext_side fun t => ?_
  rw [side_remove]
  rcases Side.eq_or_opposite s t with rfl | rfl
  · rw [side_setSide, hL, List.filter_append, List.filter_cons_of_neg (by simp), ← List.filter_append]
    exact List.filter_eq_self.mpr fun x hx => by simpa using others_ne hn hL (.inl hx)
  · rw [side_opposite_setSide]
    exact List.filter_eq_self.mpr fun x hx => by simpa using others_ne hn hL (.inr hx)

theorem Rests.quantity_nonneg (h : d.Rests) : 0 ≤ d.quantity := by
  apply List.sum_nonneg
  intro n hn
  obtain ⟨x, hx, rfl⟩ := List.mem_map.mp hn
  obtain ⟨s, hx⟩ := mem_orders.mp hx
  exact (h.remaining hx).le

theorem remove_quantity (h : d.Rests) (id : String) : (d.remove id).quantity ≤ d.quantity := by
  unfold quantity
  rw [remove_orders]
  refine (List.filter_sublist.map _).sum_le_sum fun n hn => ?_
  obtain ⟨x, hx, rfl⟩ := List.mem_map.mp hn
  obtain ⟨s, hx⟩ := mem_orders.mp hx
  exact (h.remaining hx).le

/-! ## Executing an order -/

/-- The remainder of an executed order: a limit order rests, a market order is cancelled. -/
def settle (d : Depth) (o : Order) : Order × Depth :=
  if 0 < o.remainingQuantity then
    if o.type = .limit then (o, d.rest o) else ({ o with status := .cancelled }, d)
  else (o, d)

/-- A new order executes: its trades, the order then, and the book. -/
def execute (d : Depth) (o : Order) : List Trade × Order × Depth :=
  let (ts, o', d') := d.fillFrom o (o.type ≠ .limit)
  (ts, d'.settle o')

theorem settle_limit (ht : o.type = .limit) (hr : 0 < o.remainingQuantity) :
    d.settle o = (o, d.rest o) := by
  rw [settle, if_pos hr, if_pos ht]

theorem settle_market (ht : o.type ≠ .limit) (hr : 0 < o.remainingQuantity) :
    d.settle o = ({ o with status := .cancelled }, d) := by
  rw [settle, if_pos hr, if_neg ht]

theorem settle_done (hr : ¬ 0 < o.remainingQuantity) : d.settle o = (o, d) := by
  rw [settle, if_neg hr]

/-- A limit order once it executed is the order once it was matched. -/
theorem execute_limit (ht : o.type = .limit) :
    (d.execute o).2.1 = o.filledBy (d.taken o (decide (o.type ≠ .limit))) := by
  show ((d.fillFrom o (o.type ≠ .limit)).2.2.settle (o.filledBy (d.taken o (o.type ≠ .limit)))).1 = _
  unfold settle
  split_ifs with h₁ h₂
  · rfl
  · exact absurd ht h₂
  · rfl

theorem mem_settle {x : Order} (hx : x ∈ (d.settle o).2.orders) :
    x ∈ d.orders ∨ x = o ∧ o.type = .limit := by
  unfold settle at hx
  split_ifs at hx with h₁ h₂
  · exact (List.mem_cons.mp (rest_perm.mem_iff.mp hx)).symm.imp_right fun h => ⟨h, h₂⟩
  · exact .inl hx
  · exact .inl hx

/-- Each order after an execution was there, or is the new one; it may have traded. -/
theorem mem_execute {x : Order} (hx : x ∈ (d.execute o).2.2.orders) :
    ∃ y, (y ∈ d.orders ∨ y = o ∧ o.type = .limit) ∧ ∃ n, x = y.filledBy n := by
  rcases mem_settle hx with hx | ⟨rfl, ht⟩
  · obtain ⟨s, hx⟩ := mem_orders.mp hx
    obtain ⟨y, hy, rfl | ⟨n, -, -, rfl⟩⟩ := fillFrom_orders hx
    · exact ⟨x, .inl (mem_orders.mpr ⟨s, hy⟩), 0, by simp⟩
    · exact ⟨y, .inl (mem_orders.mpr ⟨s, hy⟩), n, rfl⟩
  · exact ⟨o, .inr ⟨rfl, ht⟩, _, rfl⟩

/-- Each trade is at the price of an order that rested. -/
theorem execute_price {t : Trade} (ht : t ∈ (d.execute o).1) : ∃ x ∈ d.orders, t.priceTicks = x.price := by
  obtain ⟨f, hf, rfl⟩ := List.mem_map.mp ht
  exact ⟨f.1, mem_orders.mpr ⟨_, walk_mem _ _ f hf⟩, rfl⟩

/-! ## Without an order -/

/-- Each side is in the order of its prices. -/
def Sorted (d : Depth) : Prop :=
  ∀ s, (d.side s).Pairwise fun x y => s.rank x.price ≤ s.rank y.price

theorem fillFrom_sorted (h : d.Sorted) : (d.fillFrom o ignore).2.2.Sorted := by
  intro s
  unfold fillFrom
  rcases Side.eq_or_opposite o.side s with rfl | rfl
  · rw [side_setSide_opposite]
    exact h _
  · rw [side_setSide]
    have hmap : ((d.side o.side.opposite).map Order.price).Pairwise fun p q =>
        o.side.opposite.rank p ≤ o.side.opposite.rank q := List.pairwise_map.mpr (h _)
    have hrest := @walk_rest_suffix _ _ (takes o ignore) (·.remainingQuantity) Order.filledBy Order.price
      (fun _ _ => rfl) o.remainingQuantity (d.side o.side.opposite)
    exact (List.pairwise_map (f := Order.price)
      (R := fun p q => o.side.opposite.rank p ≤ o.side.opposite.rank q)).mp (hmap.sublist hrest.sublist)

theorem rest_sorted (h : d.Sorted) : (d.rest o).Sorted := by
  intro s
  unfold rest
  rcases Side.eq_or_opposite o.side s with rfl | rfl
  · rw [side_setSide]
    exact enqueue_sorted (h _)
  · rw [side_opposite_setSide]
    exact h _

theorem remove_sorted (h : d.Sorted) (id : String) : (d.remove id).Sorted := by
  intro s
  rw [side_remove]
  exact (h s).sublist List.filter_sublist

theorem settle_sorted (h : d.Sorted) : (d.settle o).2.Sorted := by
  unfold settle
  split_ifs
  · exact rest_sorted h
  · exact h
  · exact h

theorem execute_sorted (h : d.Sorted) : (d.execute o).2.2.Sorted := settle_sorted (fillFrom_sorted h)

/-- Behind an order that is not good enough none is. -/
theorem Sorted.refused (h : d.Sorted) (o : Order) (ignore : Bool) :
    (d.side o.side.opposite).Pairwise fun x y => takes o ignore x = false → takes o ignore y = false := by
  refine (h o.side.opposite).imp fun {x y} hxy hx => ?_
  unfold takes at hx ⊢
  rw [Bool.or_eq_false_iff] at hx ⊢
  refine ⟨hx.1, Bool.not_eq_true _ ▸ fun hy => ?_⟩
  have hx := hx.2
  rw [Side.accepts_iff.mpr (hxy.trans (Side.accepts_iff.mp hy))] at hx
  cases hx

/-- An order that trades with nobody may as well be missing. -/
theorem fillFrom_remove {key : String} (h : d.Sorted)
    (hno : ∀ t ∈ (d.fillFrom o ignore).1, ¬ t.names key) :
    (d.remove key).fillFrom o ignore =
      ((d.fillFrom o ignore).1, (d.fillFrom o ignore).2.1, (d.fillFrom o ignore).2.2.remove key) := by
  have hw := @walk_filter _ (takes o ignore) (fun x : Order => x.remainingQuantity) Order.filledBy
    (fun x => decide (x.orderId ≠ key)) (fun _ _ => rfl) o.remainingQuantity _ (h.refused o ignore)
    fun f hf => by
      have := hno _ (List.mem_map_of_mem hf)
      rw [names_tradeOf, not_or] at this
      exact decide_eq_true (Ne.symm this.2)
  unfold fillFrom greedy
  rw [side_remove, hw]
  refine Prod.ext rfl (Prod.ext rfl (ext_side fun s => ?_))
  dsimp only
  rw [side_remove]
  rcases Side.eq_or_opposite o.side s with rfl | rfl
  · rw [side_setSide_opposite, side_setSide_opposite, side_remove]
  · rw [side_setSide, side_setSide]

theorem rest_remove {key : String} (h : d.Sorted) (hne : o.orderId ≠ key) :
    (d.remove key).rest o = (d.rest o).remove key := by
  refine ext_side fun s => ?_
  unfold rest
  rw [side_remove (d.setSide _ _)]
  rcases Side.eq_or_opposite o.side s with rfl | rfl
  · rw [side_setSide, side_setSide, side_remove]
    exact (enqueue_filter_of (fun x : Order => decide (x.orderId ≠ key)) (decide_eq_true hne) (h _)).symm
  · rw [side_opposite_setSide, side_opposite_setSide, side_remove]

theorem settle_remove {key : String} (h : d.Sorted) (hne : o.orderId ≠ key) :
    (d.remove key).settle o = ((d.settle o).1, (d.settle o).2.remove key) := by
  unfold settle
  split_ifs
  · rw [rest_remove h hne]
  · rfl
  · rfl

theorem execute_remove {key : String} (h : d.Sorted) (hne : o.orderId ≠ key)
    (hno : ∀ t ∈ (d.execute o).1, ¬ t.names key) :
    (d.remove key).execute o =
      ((d.execute o).1, (d.execute o).2.1, (d.execute o).2.2.remove key) := by
  unfold execute at hno ⊢
  rw [fillFrom_remove h hno]
  dsimp only
  rw [settle_remove (o := (d.fillFrom o (o.type ≠ .limit)).2.1) (fillFrom_sorted h) hne]

/-- No trades: the order and the book stay as they are. -/
theorem fillFrom_none (h : (d.fillFrom o ignore).1 = []) : d.fillFrom o ignore = ([], o, d) := by
  have hfills : (greedy o ignore (d.side o.side.opposite)).fills = [] := List.map_eq_nil_iff.mp h
  have hrest : (greedy o ignore (d.side o.side.opposite)).rest = d.side o.side.opposite := by
    obtain ⟨pre, suf, hL, ⟨hf, hr⟩ | ⟨a, as, n, -, -, -, hf, -⟩⟩ :=
      @walk_split Order (takes o ignore) (·.remainingQuantity) Order.filledBy o.remainingQuantity
        (d.side o.side.opposite)
    · rw [greedy, hf, List.map_eq_nil_iff] at hfills
      rw [greedy, hr, hL, hfills, List.nil_append]
    · rw [greedy, hf] at hfills
      simp at hfills
  unfold fillFrom
  dsimp only
  rw [hrest, setSide_side, tradesOf, WalkResult.taken, hfills]
  simp

/-- A limit order that trades with nobody rests. -/
theorem execute_none (ht : o.type = .limit) (hr : 0 < o.remainingQuantity) (h : (d.execute o).1 = []) :
    d.execute o = ([], o, d.rest o) := by
  unfold execute at h ⊢
  rw [fillFrom_none h]
  dsimp only
  rw [settle_limit ht hr]

theorem remove_rest : (d.rest o).remove o.orderId = d.remove o.orderId := by
  refine ext_side fun s => ?_
  rw [side_remove, side_remove]
  unfold rest
  rcases Side.eq_or_opposite o.side s with rfl | rfl
  · rw [side_setSide, enqueue, List.filter_append, List.filter_cons_of_neg (by simp), ← List.filter_append,
      List.takeWhile_append_dropWhile]
  · rw [side_opposite_setSide]

theorem mem_ids {key : String} : key ∈ d.ids ↔ ∃ s, ∃ x ∈ d.side s, x.orderId = key := by
  unfold ids
  rw [List.mem_map]
  constructor
  · rintro ⟨x, hx, rfl⟩
    obtain ⟨s, hx⟩ := mem_orders.mp hx
    exact ⟨s, x, hx, rfl⟩
  · rintro ⟨s, x, hx, rfl⟩
    exact ⟨x, mem_orders.mpr ⟨s, hx⟩, rfl⟩

theorem remove_absent {key : String} (h : key ∉ d.ids) : d.remove key = d := by
  refine ext_side fun s => ?_
  rw [side_remove, List.filter_eq_self]
  intro x hx
  exact decide_eq_true fun e => h (mem_ids.mpr ⟨s, x, hx, e⟩)

theorem remove_remove (key key' : String) : (d.remove key).remove key' = (d.remove key').remove key := by
  refine ext_side fun s => ?_
  simp only [side_remove, List.filter_filter]
  exact List.filter_congr fun x _ => Bool.and_comm _ _

/-! ## Orders that traded -/

section

variable {x : Order}

/-- What is left of the order `x` is less than `x` had. -/
def Worn (x : Order) (d : Depth) : Prop :=
  ∀ y ∈ d.orders, y.orderId = x.orderId → y.remainingQuantity < x.remainingQuantity

theorem Worn.not_mem (h : d.Worn x) : x ∉ d.orders := fun hx => lt_irrefl _ (h x hx rfl)

/-- Another order executes. -/
theorem Worn.execute (h : d.Worn x) (hne : o.orderId ≠ x.orderId) : (d.execute o).2.2.Worn x := by
  intro y hy hid
  rcases mem_settle hy with hy | ⟨rfl, -⟩
  · obtain ⟨s, hy⟩ := mem_orders.mp hy
    obtain ⟨z, hz, rfl | ⟨n, hn, -, rfl⟩⟩ := fillFrom_orders hy
    · exact h y (mem_orders.mpr ⟨s, hz⟩) hid
    · have := h z (mem_orders.mpr ⟨s, hz⟩) hid
      rw [Order.filledBy_remaining]
      omega
  · exact absurd hid hne

/-- The first order of the opposite side has traded. -/
theorem fillFrom_worn {L : List Order} (hL : d.side o.side.opposite = x :: L)
    (hn : d.ids.Nodup) (hts : (d.fillFrom o ignore).1 ≠ []) : (d.fillFrom o ignore).2.2.Worn x := by
  have hne : ∀ y, y ∈ L ∨ y ∈ d.side o.side → y.orderId ≠ x.orderId := fun y hy =>
    others_ne (A := []) hn hL (by rwa [Side.opposite_opposite])
  by_cases hstop : o.remainingQuantity ≤ 0 ∨ takes o ignore x = false
  · refine absurd (congrArg Prod.fst (fillFrom_stop (hstop.imp_right fun hx y hy => ?_))) hts
    rw [hL] at hy
    cases hy
    exact hx
  · rw [not_or, not_le, Bool.not_eq_false] at hstop
    intro y hy hid
    obtain ⟨s, hy⟩ := mem_orders.mp hy
    unfold fillFrom at hy
    rw [hL] at hy
    rcases Side.eq_or_opposite o.side s with rfl | rfl
    · rw [side_setSide_opposite] at hy
      exact absurd hid (hne y (.inr hy))
    · rw [side_setSide] at hy
      rcases le_or_gt x.remainingQuantity o.remainingQuantity with hle | hlt
      -- It is gone, or it is first.
      · rw [greedy_whole hstop.1 hstop.2 hle] at hy
        obtain ⟨z, hz, rfl | ⟨n, -, -, rfl⟩⟩ := walk_rest _ _ y hy
        · exact absurd hid (hne y (.inl hz))
        · exact absurd hid (hne z (.inl hz))
      · rw [greedy_part hstop.1 hstop.2 hlt] at hy
        rcases List.mem_cons.mp hy with rfl | hy
        · rw [Order.filledBy_remaining]
          omega
        · exact absurd hid (hne y (.inl hy))

/-- An execution with trades takes from an order that rests. -/
theorem execute_worn (hn : d.ids.Nodup) (hid : o.orderId ∉ d.ids) (hts : (d.execute o).1 ≠ []) :
    ∃ x ∈ d.orders, (d.execute o).2.2.Worn x := by
  cases hL : d.side o.side.opposite with
  | nil =>
    refine absurd (congrArg Prod.fst (fillFrom_stop (.inr fun x hx => ?_))) hts
    rw [hL] at hx
    cases hx
  | cons x L =>
    have hx : x ∈ d.orders := mem_orders.mpr ⟨_, hL ▸ List.mem_cons_self⟩
    refine ⟨x, hx, fun y hy hy' => ?_⟩
    rcases mem_settle hy with hy | ⟨rfl, -⟩
    · exact fillFrom_worn hL hn hts y hy hy'
    · exact absurd (hy' ▸ List.mem_map_of_mem hx) hid

end

end Depth

end Lob
