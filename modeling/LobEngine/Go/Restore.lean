import LobEngine.Go.Calls

/-!
# A Go book restored from its own recovery snapshot

`FromRecoverySnapshot` allocates every order again, level by level in the order of the snapshot. The
restored book represents the view of the book, without its trades (`restored`).

* `Built`: a level that is being filled, and is on no side yet.
* `restoreLevel_repr`: the filled level joins its side.
-/

namespace Lob.Go

open Exc Book

/-- The orders `Q` of a snapshot joined the level `l`, which is on no side: the book and the level
then, with the pointers `R` of the orders. -/
structure Built (b : Book) (l : PriceLevel) (Q : List Order) (b' : Book) (l' : PriceLevel)
    (R : List Ref) : Prop where
  frame : b' = { b with order := b'.order, next := b'.next, orders := b'.orders }
  price : l'.priceTicks = l.priceTicks
  orders : l'.orders = l.orders ++ R
  total : ∀ n, l.totalQuantity = wrap64 n →
    l'.totalQuantity = wrap64 (n + (Q.map (·.remainingQuantity)).sum)
  refs : R.map b'.order = Q
  new : ∀ r ∈ R, b.next ≤ r ∧ r < b'.next
  old : ∀ r < b.next, b'.order r = b.order r
  next : b.next ≤ b'.next
  index : ∀ id r, b'.orders.get? id = some r ↔
    r ∈ R ∧ (b'.order r).orderId = id ∨ b.orders.get? id = some r ∧ id ∉ Q.map (·.orderId)

section

variable {b : Book} {F : Side → List Ref} {v : View} {s : Side}

theorem restoreOrders_built (Q : List Order) (l : PriceLevel) (hpos : ∀ o ∈ Q, 0 < o.remainingQuantity)
    (hids : (Q.map (·.orderId)).Nodup) :
    ∃ b' l' R, Q.foldl restoreOrder (b, l) = (b', l') ∧ Built b l Q b' l' R := by
  induction Q generalizing b l with
  | nil =>
    exact ⟨b, l, [], rfl, rfl, rfl, (List.append_nil _).symm, fun n hn => by simpa using hn, rfl,
      by simp, fun _ _ => rfl, le_rfl, fun id r => by simp⟩
  | cons o Q ih =>
    rw [List.map_cons, List.nodup_cons] at hids
    set b₁ : Book := { b with
      order := Function.update b.order b.next o, next := b.next + 1
      orders := b.orders.set o.orderId b.next } with hb₁
    have hstep : restoreOrder (b, l) o = (b₁, l.append b₁.order b.next) := by
      have hp := hpos o List.mem_cons_self
      rw [restoreOrder, if_neg (by omega)]
    have hself : b₁.order b.next = o := Function.update_self _ _ _
    obtain ⟨b', l', R, hrun, hB⟩ := ih (b := b₁) (l.append b₁.order b.next)
      (fun x hx => hpos x (List.mem_cons_of_mem _ hx)) hids.2
    have hord : b'.order b.next = o := (hB.old b.next (Nat.lt_succ_self _)).trans hself
    refine ⟨b', l', b.next :: R, by rw [List.foldl_cons, hstep, hrun], ?_, hB.price, ?_, fun n hn => ?_,
      ?_, fun r hr => ?_, fun r hr => ?_, ?_, fun id r => ?_⟩
    · rw [hB.frame]
    · rw [hB.orders, PriceLevel.append, List.append_assoc]; rfl
    · rw [hB.total (n + o.remainingQuantity) (by rw [PriceLevel.append, hself, hn, wrap64_add]),
        List.map_cons, List.sum_cons, add_assoc]
    · rw [List.map_cons, hord, hB.refs]
    · have hn : b.next + 1 ≤ b'.next := hB.next
      rcases List.mem_cons.mp hr with rfl | hr
      · exact ⟨le_rfl, hn⟩
      · exact ⟨(Nat.le_succ _).trans (hB.new r hr).1, (hB.new r hr).2⟩
    · rw [hB.old r (Nat.lt_succ_of_lt hr)]
      exact Function.update_of_ne hr.ne _ _
    · exact (Nat.le_succ _).trans hB.next
    · rw [hB.index]
      show _ ∨ (b.orders.set o.orderId b.next).get? id = some r ∧ _ ↔ _
      rw [OMap.get?_set, List.map_cons, List.mem_cons, List.mem_cons]
      by_cases hid : id = o.orderId
      · rw [if_pos hid, Option.some_inj, hid]
        constructor
        · rintro (⟨hr, hrid⟩ | ⟨hr, -⟩)
          · exact .inl ⟨.inr hr, hrid⟩
          · exact .inl ⟨.inl hr.symm, by rw [← hr, hord]⟩
        · rintro (⟨rfl | hr, hrid⟩ | ⟨-, hn⟩)
          · exact .inr ⟨rfl, hids.1⟩
          · exact .inl ⟨hr, hrid⟩
          · exact absurd (.inl rfl) hn
      · rw [if_neg hid]
        have hne : (b'.order b.next).orderId ≠ id := by rw [hord]; exact Ne.symm hid
        constructor
        · rintro (⟨hr, hrid⟩ | ⟨hr, hn⟩)
          · exact .inl ⟨.inr hr, hrid⟩
          · exact .inr ⟨hr, fun hc => hc.elim hid hn⟩
        · rintro (⟨rfl | hr, hrid⟩ | ⟨hr, hn⟩)
          · exact absurd hrid hne
          · exact .inl ⟨hr, hrid⟩
          · exact .inr ⟨hr, fun hc => hn (.inr hc)⟩

/-- One level of the snapshot joins its side. -/
theorem restoreLevel_repr {lv : RecoveryPriceLevel} (h : Repr b F v) (hne : lv.orders ≠ [])
    (hos : ∀ o ∈ lv.orders, o.RestsOn s ∧ o.price = lv.priceTicks)
    (hids : (v.ids ++ lv.orders.map (·.orderId)).Nodup)
    (hlast : ∀ x ∈ v.side s, s.rank x.price < s.rank lv.priceTicks) :
    ∃ F', Repr (restoreLevel s b lv) F' { v with toDepth := v.setSide s (v.side s ++ lv.orders) } := by
  rw [List.nodup_append] at hids
  obtain ⟨b', l', R, hrun, hB⟩ := restoreOrders_built (b := b) lv.orders ⟨lv.priceTicks, 0, []⟩
    (fun o ho => (hos o ho).1.remaining) hids.2.1
  have hl' : l'.orders = R := hB.orders
  have hRne : R ≠ [] := fun e => hne (by rw [← hB.refs, e]; rfl)
  have hF : ∀ t, ∀ x ∈ F t, b'.order x = b.order x := fun t x hx => hB.old x (h.rests t x hx).1
  have hfresh : ∀ t, ∀ x ∈ F t, x ∉ R := fun t x hx hR =>
    absurd (hB.new x hR).1 (not_le.mpr (h.rests t x hx).1)
  have hR : ∀ r ∈ R, b'.order r ∈ lv.orders := fun r hr => by
    rw [← hB.refs]; exact List.mem_map_of_mem hr
  have hRprice : ∀ r ∈ R, priceOf b'.order r = lv.priceTicks := fun r hr => (hos _ (hR r hr)).2
  -- The level joins a book that already has the orders in its heap.
  set b₁ : Book := { b with order := b'.order, next := b'.next } with hb₁
  have h₁ : Repr b₁ F v := h.frame hF hB.next
  have hlt : ∀ x ∈ F s, s.rank (priceOf b'.order x) < s.rank lv.priceTicks := fun x hx => by
    have := hlast (b.order x) (by rw [h.orders]; exact List.mem_map_of_mem hx)
    rwa [priceOf, hF s x hx]
  have hnone : ∀ x ∈ F s, priceOf b'.order x ≠ lv.priceTicks := fun x hx e =>
    absurd (hlt x hx) (by rw [e]; exact lt_irrefl _)
  have hfil : ∀ k, (F s ++ R).filter (priceOf b'.order · = k) =
      (F s).filter (priceOf b'.order · = k) ++ if k = lv.priceTicks then R else [] := fun k => by
    rw [List.filter_append]
    congr 1
    split_ifs with hk
    · exact List.filter_eq_self.mpr fun r hr => by simpa [hk] using hRprice r hr
    · exact List.filter_eq_nil_iff.mpr fun r hr => by simpa [hRprice r hr] using Ne.symm hk
  have hmap : (F s ++ R).map b'.order = v.side s ++ lv.orders := by
    rw [List.map_append, hB.refs, h.orders, List.map_congr_left (hF s)]
  have hupd := h₁.update s (F s ++ R) lv.priceTicks l' b'.order b'.orders b.trades ?_ ?_ ?_ ?_ ?_ ?_ ?_ ?_
  · refine ⟨Function.update F s (F s ++ R), ?_⟩
    have he : restoreLevel s b lv = ({ b₁ with
        order := b'.order, orders := b'.orders, trades := b.trades } : Book).setSide s
        (putLevel (b₁.side s) lv.priceTicks l') := by
      have hside : b'.side s = b₁.side s := by rw [hB.frame]; cases s <;> rfl
      have hb' : b' = { b₁ with order := b'.order, orders := b'.orders, trades := b.trades } := hB.frame
      rw [restoreLevel, hrun]
      dsimp only
      rw [if_neg (by rw [hl']; exact hRne), putLevel, if_neg (by rw [hl']; exact hRne), hside,
        show l'.priceTicks = lv.priceTicks from hB.price, ← hb']
    rw [he, ← hmap, h.trades]
    exact hupd
  · rw [hfil, if_pos rfl, List.filter_eq_nil_iff.mpr fun x hx => by simpa using hnone x hx]
    refine ⟨hB.price, hl', ?_⟩
    rw [hB.total 0 rfl, List.nil_append, hB.refs, zero_add]
    rfl
  · refine List.pairwise_append.mpr ⟨(h₁.levels s).sorted, ?_, fun x hx y hy => ?_⟩
    · exact List.pairwise_of_forall_mem_list fun x hx y hy => by rw [hRprice x hx, hRprice y hy]
    · rw [hRprice y hy]; exact (hlt x hx).le
  · intro k hk
    rw [hfil, if_neg hk, List.append_nil]
  · exact fun _ _ _ => rfl
  · exact fun _ _ => rfl
  · intro x hx
    rcases List.mem_append.mp hx with hx | hx
    · exact h₁.rests s x hx
    · exact ⟨(hB.new x hx).2, (hos _ (hR x hx)).1⟩
  · rw [hmap, (Depth.setSide_append_ids v.toDepth s lv.orders).nodup_iff]
    exact List.nodup_append.mpr hids
  · intro id r
    rw [hB.index]
    show _ ∨ b₁.orders.get? id = some r ∧ _ ↔ _
    rw [h₁.index_iff s, ← hB.refs, List.map_map, List.mem_append]
    constructor
    · rintro (⟨hr, hid⟩ | ⟨⟨hr, hid⟩, -⟩)
      · exact ⟨.inl (.inr hr), hid⟩
      · exact ⟨hr.imp_left .inl, hid⟩
    · rintro ⟨(hr | hr) | hr, hid⟩
      case inl.inr => exact .inl ⟨hr, hid⟩
      all_goals
        refine .inr ⟨⟨by tauto, hid⟩, fun hmem => ?_⟩
        have hidv : id ∈ v.ids := h₁.mem_ids.mpr ⟨r, (h₁.index_iff s id r).mpr ⟨by tauto, hid⟩⟩
        rw [← List.map_map, hB.refs] at hmem
        exact hids.2.2 id hidv id hmem rfl

/-- The levels of one side of the snapshot. -/
theorem restoreSide_repr (s : Side) (lvs : List RecoveryPriceLevel) (h : Repr b F v)
    (hne : ∀ lv ∈ lvs, lv.orders ≠ [])
    (hos : ∀ lv ∈ lvs, ∀ o ∈ lv.orders, o.RestsOn s ∧ o.price = lv.priceTicks)
    (hids : (v.ids ++ (lvs.flatMap (·.orders)).map (·.orderId)).Nodup)
    (hsort : lvs.Pairwise fun x y => s.rank x.priceTicks < s.rank y.priceTicks)
    (hlast : ∀ lv ∈ lvs, ∀ x ∈ v.side s, s.rank x.price < s.rank lv.priceTicks) :
    ∃ F', Repr (lvs.foldl (restoreLevel s) b) F'
      { v with toDepth := v.setSide s (v.side s ++ lvs.flatMap (·.orders)) } := by
  induction lvs generalizing b F v with
  | nil =>
    refine ⟨F, ?_⟩
    rw [List.flatMap_nil, List.append_nil, Depth.setSide_side]
    exact h
  | cons lv lvs ih =>
    rw [List.pairwise_cons] at hsort
    rw [List.flatMap_cons, List.map_append, ← List.append_assoc] at hids
    obtain ⟨F₁, h₁⟩ := restoreLevel_repr h (hne lv List.mem_cons_self) (hos lv List.mem_cons_self)
      (List.nodup_append.mp hids).1 (hlast lv List.mem_cons_self)
    set v₁ : View := { v with toDepth := v.setSide s (v.side s ++ lv.orders) } with hv₁
    have hs₁ : v₁.side s = v.side s ++ lv.orders := Depth.side_setSide _ _ _
    have hperm : List.Perm v₁.ids (v.ids ++ lv.orders.map (·.orderId)) :=
      Depth.setSide_append_ids v.toDepth s lv.orders
    obtain ⟨F₂, h₂⟩ := ih h₁ (fun x hx => hne x (List.mem_cons_of_mem _ hx))
      (fun x hx => hos x (List.mem_cons_of_mem _ hx))
      ((hperm.append_right _).nodup_iff.mpr hids) hsort.2 fun x hx o ho => by
        rw [hs₁] at ho
        rcases List.mem_append.mp ho with ho | ho
        · exact hlast x (List.mem_cons_of_mem _ hx) o ho
        · rw [(hos lv List.mem_cons_self o ho).2]
          exact hsort.1 x hx
    refine ⟨F₂, ?_⟩
    rw [hs₁, List.append_assoc] at h₂
    rw [List.foldl_cons, List.flatMap_cons]
    have e : v₁.toDepth.setSide s (v.side s ++ (lv.orders ++ lvs.flatMap (·.orders))) =
        v.setSide s (v.side s ++ (lv.orders ++ lvs.flatMap (·.orders))) := Depth.setSide_setSide _ _ _ _
    rw [e] at h₂
    exact h₂

/-- One side of the snapshot of a book, restored to an empty side. -/
theorem restoreSide_self (s : Side) {b' : Book} {F' : Side → List Ref} {w : View} (h : Repr b F v)
    (h' : Repr b' F' w) (hempty : w.side s = []) (hids : (w.ids ++ (v.side s).map (·.orderId)).Nodup) :
    ∃ F₂, Repr ((b.recoverySide s).foldl (restoreLevel s) b') F₂
      { w with toDepth := w.setSide s (v.side s) } := by
  have hsorted : (v.side s).Pairwise fun x y => s.rank x.price ≤ s.rank y.price := by
    rw [h.orders]
    exact List.pairwise_map.mpr (h.levels s).sorted
  have hflat : (View.levels View.recoveryLevel (v.side s)).flatMap (·.orders) = v.side s := by
    unfold View.levels
    rw [List.flatMap_map]
    exact flatMap_filter_dedup s.rank_injective hsorted
  have hmem : ∀ lv ∈ View.levels View.recoveryLevel (v.side s), ∃ k ∈ (v.side s).map Order.price,
      lv = View.recoveryLevel k ((v.side s).filter (·.price = k)) := fun lv hlv => by
    obtain ⟨k, hk, rfl⟩ := List.mem_map.mp hlv
    exact ⟨k, List.mem_dedup.mp hk, rfl⟩
  have hsort : (View.levels View.recoveryLevel (v.side s)).Pairwise fun x y =>
      s.rank x.priceTicks < s.rank y.priceTicks := by
    have hmap : ((v.side s).map Order.price).Pairwise fun k k' => s.rank k ≤ s.rank k' :=
      List.pairwise_map.mpr hsorted
    exact List.pairwise_map.mpr (((hmap.sublist (List.dedup_sublist _)).and (List.nodup_dedup _)).imp
      fun {k k'} hk => lt_of_le_of_ne hk.1 fun e => hk.2 (s.rank_injective e))
  obtain ⟨F₂, h₂⟩ := restoreSide_repr s (View.levels View.recoveryLevel (v.side s)) h'
    (fun lv hlv => by
      obtain ⟨k, hk, rfl⟩ := hmem lv hlv
      obtain ⟨x, hx, rfl⟩ := List.mem_map.mp hk
      exact List.ne_nil_of_mem (List.mem_filter.mpr ⟨hx, by simp⟩))
    (fun lv hlv o ho => by
      obtain ⟨k, -, rfl⟩ := hmem lv hlv
      obtain ⟨ho, hk⟩ := List.mem_filter.mp ho
      exact ⟨h.rests_depth s o ho, of_decide_eq_true hk⟩)
    (by rw [hflat]; exact hids) hsort (by rw [hempty]; simp)
  rw [hempty, List.nil_append, hflat] at h₂
  rw [h.recoverySide_eq]
  exact ⟨F₂, h₂⟩

theorem repr_empty (symbol : String) (now : Clock) :
    Repr (Book.empty symbol now) (fun _ => []) (View.empty symbol now) := by
  refine ⟨fun s => ?_, by simp, fun s => (by cases s <;> rfl), List.nodup_nil, fun id r => ?_,
    rfl, rfl, rfl, rfl, rfl, rfl, rfl⟩
  · cases s <;> exact Levels.empty _ _ _
  · simp [Book.empty]

theorem restoreStops_eq (stops : List StopOrder) (b : Book) :
    stops.foldl restoreStop b = { b with
      stopOrders := stops.foldl (fun m s => m.set s.orderId s) b.stopOrders
      stopOrderIDs := b.stopOrderIDs ++ stops.map (·.orderId) } := by
  induction stops generalizing b with
  | nil => simp
  | cons s stops ih => rw [List.foldl_cons, ih]; simp [restoreStop]

/-- The book restored from the recovery snapshot of `b` is the view of `b`, without its trades. -/
theorem restored (h : Good b v) (id : Option String) (now : Clock) :
    ∃ b', fromRecoverySnapshot (b.recoverySnapshot id) now = .ok b' ∧
      Good b' { v with trades := [], clock := now } := by
  obtain ⟨⟨F, hr⟩, hok⟩ := h
  have hsym : (b.recoverySnapshot id).symbol = v.symbol := hr.symbol.symm
  unfold fromRecoverySnapshot
  rw [hsym, if_neg (by simp [hok.symbol])]
  refine ⟨_, rfl, ?_⟩
  have h₀ : Repr { Book.empty v.symbol now with
        sequence := b.sequence, lastTradePriceTicks := b.lastTradePriceTicks } (fun _ => [])
      { View.empty v.symbol now with
        sequence := b.sequence, lastTradePriceTicks := b.lastTradePriceTicks } :=
    (repr_empty v.symbol now).scalars rfl rfl rfl
  have hn := hr.ids
  unfold Depth.ids Depth.orders at hn
  rw [List.map_append] at hn
  obtain ⟨F₁, h₁⟩ := restoreSide_self .buy hr h₀ rfl (List.nodup_append.mp hn).1
  obtain ⟨F₂, h₂⟩ := restoreSide_self .sell hr h₁ rfl (by
    show ((v.bids ++ []).map Order.orderId ++ v.asks.map Order.orderId).Nodup
    rw [List.append_nil]
    exact hn)
  set b₂ := (b.recoverySide .sell).foldl (restoreLevel .sell)
    ((b.recoverySide .buy).foldl (restoreLevel .buy) { Book.empty v.symbol now with
      sequence := b.sequence, lastTradePriceTicks := b.lastTradePriceTicks }) with hb₂
  have hstops : v.stops.values.foldl (fun m s => m.set s.orderId s) b₂.stopOrders = v.stops := by
    rw [← h₂.stops]
    exact OMap.foldl_set_values hok.keyed
  have hkeys : v.stops.values.map (·.orderId) = v.stops.keys := by
    unfold OMap.values OMap.keys
    rw [List.map_map]
    exact List.map_congr_left fun e he => hok.keyed e.1 e.2 (OMap.mem_entries.mp he)
  have hids₂ : b₂.stopOrderIDs = [] := by rw [h₂.stopIDs, ← h₂.stops]; rfl
  have hfinal : (b.recoverySnapshot id).stopOrders.foldl restoreStop b₂ =
      { b₂ with stopOrders := v.stops, stopOrderIDs := v.stops.keys } := by
    rw [show (b.recoverySnapshot id).stopOrders = v.stops.values from hr.filterMap_stops,
      restoreStops_eq, hstops, hkeys, hids₂, List.nil_append]
  refine ⟨⟨F₂, ?_⟩, hok.symbol, hok.separate, hok.keyed, hok.trailing⟩
  show Repr ((b.recoverySnapshot id).stopOrders.foldl restoreStop b₂) F₂ _
  rw [hfinal]
  refine h₂.scalars rfl ?_ rfl
  have hl : v.lastTradePriceTicks = b₂.lastTradePriceTicks := hr.last.trans h₂.last
  have hq : v.sequence = b₂.sequence := hr.sequence.trans h₂.sequence
  have hc : now = b₂.now := h₂.clock
  have ht : [] = b₂.trades := h₂.trades
  simp only [← hl, ← hq, ← hc, ← ht]
  rfl

theorem good_empty {symbol : String} (now : Clock) (hs : isBlank symbol = false) :
    Good (Book.empty symbol now) (View.empty symbol now) :=
  ⟨⟨_, repr_empty symbol now⟩, hs, by simp [View.empty, Depth.ids, Depth.orders, Depth.empty],
    by simp [View.empty], by simp [View.empty]⟩

end

end Lob.Go
