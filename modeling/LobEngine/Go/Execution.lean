import LobEngine.Executions
import LobEngine.Go.Repr

/-!
# The execution of one order

A new order is allocated and matched, and its remainder rests or is cancelled. `execute_run` shows that
the functions do to the book what `View.executed` does to the view.

* `matchBest_whole`, `matchBest_part`: one iteration of the matching loop.
* `matchLoop_run`: the loop is the greedy walk.
* `Holds`: an order, followed through what happens to the book.
-/

namespace Lob.Go

open Exc Book

theorem discard_fill {o : Order} {q : Int} (ha : o.isActive = true) (hq : 0 < q)
    (hle : q ≤ o.remainingQuantity) : discard (fill q) o = o.filledBy q := by
  unfold discard fill
  rw [if_neg (by omega), if_neg (by simp [ha]), if_neg (by omega)]
  simp only [Order.filledBy, if_neg (show ¬ q = 0 by omega)]

/-- The order behind the pointer `r` is `o`, and nothing else has its id. -/
structure Holds (b : Book) (r : Ref) (o : Order) : Prop where
  order : b.order r = o
  bound : r < b.next
  index : ∀ x, b.orders.get? o.orderId = some x → x = r
  pending : b.stopOrders.get? o.orderId = none

section

variable {b b' : Book} {F : Side → List Ref} {v : View} {o : Order} {r : Ref}

/-- An order that may be matched. -/
structure Matchable (b : Book) (v : View) (r : Ref) (ignorePrice : Bool) : Prop where
  bound : r < b.next
  id : (b.order r).orderId ∉ v.ids
  symbol : (b.order r).symbol = b.symbol
  nonneg : 0 ≤ (b.order r).remainingQuantity
  active : 0 < (b.order r).remainingQuantity → (b.order r).isActive = true
  price : ignorePrice = false → ∃ p, (b.order r).priceTicks = some p

theorem Repr.fresh (h : Repr b F v) (hid : (b.order r).orderId ∉ v.ids) (s : Side) : r ∉ F s :=
  fun hr => hid (h.mem_ids.mpr ⟨r, (h.index _ r).mpr ⟨⟨s, hr⟩, rfl⟩⟩)

/-! ## One iteration -/

/-- What an iteration does with the first order `x` of the opposite side. -/
theorem matchBest_run {x : Ref} {G : List Ref} {ignore : Bool} (h : Repr b F v)
    (hm : Matchable b v r ignore) (hpos : 0 < (b.order r).remainingQuantity)
    (hF : F (b.order r).side.opposite = x :: G) (q : Int)
    (hq : q = min (b.order r).remainingQuantity (b.order x).remainingQuantity) :
    ∃ l, (b.side (b.order r).side.opposite).get? (priceOf b.order x) = some l ∧
      (matchBest r (priceOf b.order x)).run b = (.ok (tradeOf (b.order r) (b.order x) q),
        let order := Function.update (Function.update b.order r ((b.order r).filledBy q)) x
          ((b.order x).filledBy q)
        let l' := { l with totalQuantity := wrap64 (l.totalQuantity - q) }
        ({ b with
          order, trades := b.trades ++ [tradeOf (b.order r) (b.order x) q]
          orders := if q = (b.order x).remainingQuantity then b.orders.delete (b.order x).orderId
            else b.orders } : Book).setSide (b.order r).side.opposite
          (putLevel (b.side (b.order r).side.opposite) (priceOf b.order x)
            (if q = (b.order x).remainingQuantity then l'.remove order x else l'))) := by
  have hx : x ∈ F (b.order r).side.opposite := by rw [hF]; exact List.mem_cons_self
  have hrx : r ≠ x := (ne_of_mem_of_not_mem hx (h.fresh hm.id _)).symm
  have hrest := (h.rests _ x hx).2
  have hxpos := hrest.remaining
  obtain ⟨p, hp, -⟩ := hrest.price
  have hlev := h.levels (b.order r).side.opposite
  rw [hF] at hlev
  obtain ⟨l, hl, hQ⟩ := hlev.head
  refine ⟨l, hl, ?_⟩
  have hfr := discard_fill (hm.active hpos) (show 0 < q by omega) (by omega)
  have hfx := discard_fill hrest.isActive (show 0 < q by omega) (by omega)
  have hfilled : (Order.filledBy q (b.order x)).isFilled = decide (q = (b.order x).remainingQuantity) :=
    Order.filledBy_isFilled _ (by omega)
  have hord : ((b.modifyOrder r (discard (fill q))).modifyOrder x (discard (fill q))).order =
      Function.update (Function.update b.order r ((b.order r).filledBy q)) x
        ((b.order x).filledBy q) := by
    simp only [modifyOrder, hfr, Function.update_of_ne hrx.symm, hfx]
  have hself : Function.update (Function.update b.order r ((b.order r).filledBy q)) x
      ((b.order x).filledBy q) x = (b.order x).filledBy q := Function.update_self _ _ _
  have hother : Function.update (Function.update b.order r ((b.order r).filledBy q)) x
      ((b.order x).filledBy q) r = (b.order r).filledBy q := by
    rw [Function.update_of_ne hrx, Function.update_self]
  unfold matchBest
  rw [run_get_bind]
  dsimp only
  rw [hl]
  dsimp only
  rw [hQ.orders]
  dsimp only
  rw [← hq, run_modify_bind, run_modify_bind, run_get_bind, hord, hself, hother,
    Order.filledBy_priceTicks, hp, run_lift_bind]
  dsimp only [deref]
  rw [run_modify_bind, run_modify_bind, run_modify_bind, run_pure]
  have htrade : ({ symbol := ((b.modifyOrder r (discard (fill q))).modifyOrder x (discard (fill q))).symbol
                   priceTicks := p, quantity := q, aggressorSide := (b.order r).side
                   timestamp := ((b.order r).filledBy q).timestamp
                   buyOrderId := if (b.order r).side = .buy then ((b.order r).filledBy q).orderId
                     else ((b.order x).filledBy q).orderId
                   sellOrderId := if (b.order r).side = .buy then ((b.order x).filledBy q).orderId
                     else ((b.order r).filledBy q).orderId } : Trade) =
      tradeOf (b.order r) (b.order x) q := by
    unfold tradeOf
    rw [Order.price, hp, hm.symbol]
    rfl
  rw [htrade, hfilled]
  by_cases hw : q = (b.order x).remainingQuantity
  · have hid : (((b.modifyOrder r (discard (fill q))).modifyOrder x (discard (fill q))).order x).orderId =
        (b.order x).orderId := by rw [hord, hself, Order.filledBy_orderId]
    simp only [hw, decide_true, if_true]
    rw [← hw, ← hord]
    simp only [hid]
    cases hs : (b.order r).side <;> rfl
  · simp only [hw, decide_false, Bool.false_eq_true, if_false]
    rw [← hord]
    cases hs : (b.order r).side <;> rfl

/-- What matching the order `r` does to the book, apart from the view: the order has traded `ts`, and
so has every other order that is followed. -/
structure Moved (r : Ref) (b b' : Book) (ts : List Trade) : Prop where
  next : b'.next = b.next
  symbol : b'.symbol = b.symbol
  incoming : b'.order r = (b.order r).filledBy (ts.map (·.quantity)).sum
  holds : ∀ y o, y ≠ r → o.orderId ≠ (b.order r).orderId → Holds b y o →
    Holds b' y (o.filledBy (traded o.orderId ts))
  index : ∀ id x, b'.orders.get? id = some x → b.orders.get? id = some x
  stops : b'.stopOrders = b.stopOrders

/-- One trade with the order `x`. -/
theorem moved_trade {x : Ref} {q : Int} (h : Repr b F v) {s : Side} (hx : x ∈ F s) (hrx : r ≠ x)
    (ho : b'.order = Function.update (Function.update b.order r ((b.order r).filledBy q)) x
      ((b.order x).filledBy q)) (hn : b'.next = b.next) (hsym : b'.symbol = b.symbol)
    (hi : ∀ id y, b'.orders.get? id = some y → b.orders.get? id = some y)
    (hs : b'.stopOrders = b.stopOrders) :
    Moved r b b' [tradeOf (b.order r) (b.order x) q] where
  next := hn
  symbol := hsym
  incoming := by
    rw [ho, Function.update_of_ne hrx, Function.update_self]
    simp [tradeOf]
  holds := fun y o hy hid hold => by
    have hxo : x ≠ y → ¬ (tradeOf (b.order r) (b.order x) q).names o.orderId := fun hne hname => by
      rcases names_tradeOf.mp hname with e | e
      · exact hid e
      · exact hne (hold.index x ((h.index _ x).mpr ⟨⟨s, hx⟩, e.symm⟩))
    refine ⟨?_, hn ▸ hold.bound, fun z hz => hold.index z (hi _ z hz), hs ▸ hold.pending⟩
    rw [ho, ← hold.order]
    by_cases hxy : y = x
    · rw [hxy, Function.update_self, traded_cons, if_pos (names_tradeOf.mpr (.inr rfl))]
      simp [tradeOf]
    · rw [Function.update_of_ne hxy, Function.update_of_ne hy, traded_eq_zero, Order.filledBy_zero]
      rw [hold.order]
      simpa using hxo (Ne.symm hxy)
  index := hi
  stops := hs

theorem Moved.refl (r : Ref) (b : Book) : Moved r b b [] where
  next := rfl
  symbol := rfl
  incoming := by simp
  holds := fun y o _ _ hold => by simpa using hold
  index := fun _ _ h => h
  stops := rfl

theorem Moved.trans {b₁ b₂ : Book} {ts us : List Trade} (h : Moved r b b₁ ts) (h' : Moved r b₁ b₂ us)
    (hts : ∀ t ∈ ts, 0 < t.quantity) (hus : ∀ t ∈ us, 0 < t.quantity) :
    Moved r b b₂ (ts ++ us) := by
  refine ⟨h'.next.trans h.next, h'.symbol.trans h.symbol, ?_, fun y o hy hid hold => ?_,
    fun id x hx => h.index id x (h'.index id x hx), h'.stops.trans h.stops⟩
  · rw [h'.incoming, h.incoming, Order.filledBy_filledBy _ (sum_quantity_nonneg hts) (sum_quantity_nonneg hus),
      List.map_append, List.sum_append]
  · have h₂ := h'.holds y _ hy (by rw [h.incoming]; exact hid) (h.holds y o hy hid hold)
    rw [Order.filledBy_orderId, Order.filledBy_filledBy _ (traded_nonneg hts _) (traded_nonneg hus _),
      ← traded_append] at h₂
    exact h₂

/-- The first order of the opposite side trades all it has. -/
theorem matchBest_whole {x : Ref} {G : List Ref} {ignore : Bool} (h : Repr b F v)
    (hm : Matchable b v r ignore) (hpos : 0 < (b.order r).remainingQuantity)
    (hF : F (b.order r).side.opposite = x :: G)
    (hle : (b.order x).remainingQuantity ≤ (b.order r).remainingQuantity) :
    ∃ b', (matchBest r (priceOf b.order x)).run b =
        (.ok (tradeOf (b.order r) (b.order x) (b.order x).remainingQuantity), b') ∧
      Moved r b b' [tradeOf (b.order r) (b.order x) (b.order x).remainingQuantity] ∧
      Repr b' (Function.update F (b.order r).side.opposite G) { v with
        toDepth := v.setSide (b.order r).side.opposite (G.map b.order)
        trades := v.trades ++ [tradeOf (b.order r) (b.order x) (b.order x).remainingQuantity] } := by
  have hx : x ∈ F (b.order r).side.opposite := by rw [hF]; exact List.mem_cons_self
  have hrx : r ≠ x := (ne_of_mem_of_not_mem hx (h.fresh hm.id _)).symm
  obtain ⟨l, hl, hrun⟩ := matchBest_run h hm hpos hF _ (min_eq_right hle).symm
  set q := (b.order x).remainingQuantity with hq
  simp only [if_true] at hrun
  set order := Function.update (Function.update b.order r ((b.order r).filledBy q)) x
    ((b.order x).filledBy q) with ho
  -- The order leaves a book in which the incoming order has already traded.
  set b₁ : Book := { b with order := Function.update b.order r ((b.order r).filledBy q) } with hb₁
  have hne : ∀ t, ∀ y ∈ F t, b₁.order y = b.order y := fun t y hy =>
    Function.update_of_ne (ne_of_mem_of_not_mem hy (h.fresh hm.id t)) _ _
  have h₁ : Repr b₁ F v := h.frame hne le_rfl
  have hxb : b₁.order x = b.order x := hne _ x hx
  have hp : priceOf b₁.order x = priceOf b.order x := congrArg Order.price hxb
  have hlevel : ({ l with totalQuantity := wrap64 (l.totalQuantity - q) } : PriceLevel).remove order x =
      l.remove b₁.order x := by
    have hzero : (order x).remainingQuantity = 0 := by
      rw [ho, Function.update_self, Order.filledBy_remaining, hq]; omega
    unfold PriceLevel.remove
    simp only [hzero, hxb, ← hq, sub_zero]
    split
    · simp [wrap64]
    · next hn =>
      obtain ⟨hQ, -⟩ := (h.levels _).of_get? hl
      exact absurd (by rw [hQ.orders, hF]; simp) hn
  have herase := h₁.erase (s := (b.order r).side.opposite) (A := []) (B := G) (r := x) (l := l)
    order hF (by rw [hp]; exact hl) (fun y hy => Function.update_of_ne hy _ _)
    (b.trades ++ [tradeOf (b.order r) (b.order x) q])
  rw [hlevel] at hrun
  refine ⟨_, hrun, moved_trade h hx hrx ?_ ?_ ?_ ?_ ?_, ?_⟩
  · rw [setSide_order]
  · rw [setSide_next]
  · rw [setSide_symbol]
  · intro id y hy
    rw [setSide_orders, OMap.get?_delete] at hy
    split at hy
    · cases hy
    · exact hy
  · rw [setSide_stopOrders]
  · rw [hp, hxb, List.nil_append, List.map_congr_left fun y hy =>
      hne _ y (by rw [hF]; exact List.mem_cons_of_mem _ hy)] at herase
    rw [h.trades]
    exact herase

/-- The first order of the opposite side trades a part of what it has. -/
theorem matchBest_part {x : Ref} {G : List Ref} {ignore : Bool} (h : Repr b F v)
    (hm : Matchable b v r ignore) (hpos : 0 < (b.order r).remainingQuantity)
    (hF : F (b.order r).side.opposite = x :: G)
    (hlt : (b.order r).remainingQuantity < (b.order x).remainingQuantity) :
    ∃ b', (matchBest r (priceOf b.order x)).run b =
        (.ok (tradeOf (b.order r) (b.order x) (b.order r).remainingQuantity), b') ∧
      Moved r b b' [tradeOf (b.order r) (b.order x) (b.order r).remainingQuantity] ∧
      Repr b' F { v with
        toDepth := v.setSide (b.order r).side.opposite
          ((b.order x).filledBy (b.order r).remainingQuantity :: G.map b.order)
        trades := v.trades ++ [tradeOf (b.order r) (b.order x) (b.order r).remainingQuantity] } := by
  have hx : x ∈ F (b.order r).side.opposite := by rw [hF]; exact List.mem_cons_self
  have hrx : r ≠ x := (ne_of_mem_of_not_mem hx (h.fresh hm.id _)).symm
  obtain ⟨l, hl, hrun⟩ := matchBest_run h hm hpos hF _ (min_eq_left hlt.le).symm
  set q := (b.order r).remainingQuantity with hq
  simp only [hlt.ne, if_false] at hrun
  set order := Function.update (Function.update b.order r ((b.order r).filledBy q)) x
    ((b.order x).filledBy q) with ho
  set b₁ : Book := { b with order := Function.update b.order r ((b.order r).filledBy q) } with hb₁
  have hne : ∀ t, ∀ y ∈ F t, b₁.order y = b.order y := fun t y hy =>
    Function.update_of_ne (ne_of_mem_of_not_mem hy (h.fresh hm.id t)) _ _
  have h₁ : Repr b₁ F v := h.frame hne le_rfl
  have hxb : b₁.order x = b.order x := hne _ x hx
  have hp : priceOf b₁.order x = priceOf b.order x := congrArg Order.price hxb
  have hreduce := h₁.reduce (l := l) hF (by rw [hp]; exact hl) hpos (by rw [hxb]; exact hlt)
    (b.trades ++ [tradeOf (b.order r) (b.order x) q])
  refine ⟨_, hrun, moved_trade h hx hrx ?_ ?_ ?_ ?_ ?_, ?_⟩
  · rw [setSide_order]
  · rw [setSide_next]
  · rw [setSide_symbol]
  · intro id y hy
    rwa [setSide_orders] at hy
  · rw [setSide_stopOrders]
  · rw [hp, hxb, List.map_congr_left fun y hy =>
      hne _ y (by rw [hF]; exact List.mem_cons_of_mem _ hy)] at hreduce
    rw [h.trades]
    exact hreduce

/-! ## The loop -/

theorem beyondLimit_eq {ignore : Bool} (hp : ignore = false → ∃ p, o.priceTicks = some p)
    (x : Order) : beyondLimit o ignore x.price = .ok (!takes o ignore x) := by
  unfold beyondLimit takes
  cases ignore with
  | true => rfl
  | false =>
    obtain ⟨p, hp⟩ := hp rfl
    have hprice : o.price = p := by rw [Order.price, hp]; rfl
    rw [hp, hprice]
    rfl

/-- The incoming order may go on after a trade with the first order `x`. -/
theorem Matchable.whole {ignore : Bool} {x : Order} {L : List Order} (hm : Matchable b v r ignore)
    (hv : v.side (b.order r).side.opposite = x :: L) (hrem : 0 < (b.order r).remainingQuantity)
    (hle : x.remainingQuantity ≤ (b.order r).remainingQuantity)
    (hin : b'.order r = (b.order r).filledBy x.remainingQuantity) (hn : b'.next = b.next)
    (hsym : b'.symbol = b.symbol) (trades : List Trade) :
    Matchable b' { v with toDepth := v.setSide (b.order r).side.opposite L, trades } r ignore := by
  refine ⟨hn ▸ hm.bound, fun hid => hm.id ?_, ?_, ?_, fun hp => ?_, fun hi => ?_⟩
  · rw [hin, Order.filledBy_orderId] at hid
    have hperm := Depth.setSide_ids v.toDepth (b.order r).side.opposite (v.side (b.order r).side.opposite)
    rw [Depth.setSide_side] at hperm
    refine hperm.symm.subset ?_
    rw [hv, List.map_cons]
    exact List.mem_cons_of_mem _ ((Depth.setSide_ids v.toDepth _ L).subset hid)
  · rw [hin, Order.filledBy_symbol, hsym]; exact hm.symbol
  · rw [hin, Order.filledBy_remaining]; omega
  · rw [hin, Order.filledBy_remaining] at hp
    rw [hin]
    exact Order.filledBy_isActive (hm.active hrem) hp
  · rw [hin, Order.filledBy_priceTicks]; exact hm.price hi

/-- The loop of `match` is the greedy walk. -/
theorem matchLoop_run {ignore : Bool} (fuel : Nat) (h : Repr b F v) (hm : Matchable b v r ignore)
    (hfuel : (F (b.order r).side.opposite).length < fuel) :
    ∃ b' F', (matchLoop r ignore fuel).run b = (.ok (v.fillFrom (b.order r) ignore).1, b') ∧
      Moved r b b' (v.fillFrom (b.order r) ignore).1 ∧
      Repr b' F' { v with
        toDepth := (v.fillFrom (b.order r) ignore).2.2
        trades := v.trades ++ (v.fillFrom (b.order r) ignore).1 } := by
  induction fuel generalizing b F v with
  | zero => exact absurd hfuel (Nat.not_lt_zero _)
  | succ fuel ih =>
    have hpos := Depth.fillFrom_pos h.rests_depth (b.order r) ignore
    unfold matchLoop
    rw [run_get_bind]
    -- The loop stops: there is nothing left to trade, or nobody to trade with.
    have hstop : (b.order r).remainingQuantity ≤ 0 ∨
        (∀ x ∈ (v.side (b.order r).side.opposite).head?, takes (b.order r) ignore x = false) →
        ∃ b' F', (Pure.pure [] : Program (List Trade)).run b =
            (.ok (v.fillFrom (b.order r) ignore).1, b') ∧
          Moved r b b' (v.fillFrom (b.order r) ignore).1 ∧
          Repr b' F' { v with
            toDepth := (v.fillFrom (b.order r) ignore).2.2
            trades := v.trades ++ (v.fillFrom (b.order r) ignore).1 } := fun hs => by
      rw [Depth.fillFrom_stop hs, List.append_nil]
      exact ⟨b, F, rfl, .refl r b, h⟩
    by_cases hrem : (b.order r).remainingQuantity ≤ 0
    · rw [if_pos hrem]
      exact hstop (.inl hrem)
    rw [if_neg hrem, bestOpposite, h.bestPrice_eq]
    cases hF : F (b.order r).side.opposite with
    | nil =>
      have hv : v.side (b.order r).side.opposite = [] := by rw [h.orders, hF]; rfl
      rw [hv] at hstop ⊢
      exact hstop (.inr (by simp))
    | cons x G =>
      have hv : v.side (b.order r).side.opposite = b.order x :: G.map b.order := by
        rw [h.orders, hF]; rfl
      rw [hv] at hstop ⊢
      simp only [List.head?_cons, Option.map_some]
      rw [run_lift_bind, beyondLimit_eq hm.price]
      dsimp only
      by_cases ha : takes (b.order r) ignore (b.order x) = true
      · rw [ha, Bool.not_true, if_neg Bool.false_ne_true]
        have hx : x ∈ F (b.order r).side.opposite := by rw [hF]; exact List.mem_cons_self
        have hxpos := (h.rests _ x hx).2.remaining
        have hrem : 0 < (b.order r).remainingQuantity := by omega
        by_cases hle : (b.order x).remainingQuantity ≤ (b.order r).remainingQuantity
        · obtain ⟨b₁, hrun, hmv, h₁⟩ := matchBest_whole h hm hrem hF hle
          have hin : b₁.order r = (b.order r).filledBy (b.order x).remainingQuantity := by
            rw [hmv.incoming]; simp [tradeOf]
          have hm₁ := hm.whole hv hrem hle hin hmv.next hmv.symbol
            (v.trades ++ [tradeOf (b.order r) (b.order x) (b.order x).remainingQuantity])
          have hfuel₁ : (Function.update F (b.order r).side.opposite G
              (b₁.order r).side.opposite).length < fuel := by
            rw [hin, Order.filledBy_side, Function.update_self]
            rw [hF, List.length_cons] at hfuel
            omega
          obtain ⟨b₂, F₂, hrun₂, hmv₂, h₂⟩ := ih h₁ hm₁ hfuel₁
          have hpos₂ := Depth.fillFrom_pos h₁.rests_depth (b₁.order r) ignore
          have hfill := Depth.fillFrom_whole (d := v.toDepth) hv hrem ha hle hxpos.le
            (hin ▸ Depth.taken_nonneg h₁.rests_depth (b₁.order r) ignore)
          rw [hin] at hrun₂ hmv₂ h₂ hpos₂
          rw [hfill]
          refine ⟨b₂, F₂, ?_, hmv.trans hmv₂ ?_ hpos₂, ?_⟩
          · rw [run_bind_ok (show (matchBest r (b.order x).price).run b = _ from hrun),
              run_bind_ok hrun₂]
            rfl
          · intro t ht
            rw [List.mem_singleton.mp ht]
            exact hxpos
          · rw [List.append_assoc] at h₂
            exact h₂
        · obtain ⟨b₁, hrun, hmv, h₁⟩ := matchBest_part h hm hrem hF (by omega)
          have hin : b₁.order r = (b.order r).filledBy (b.order r).remainingQuantity := by
            rw [hmv.incoming]; simp [tradeOf]
          rw [Depth.fillFrom_part hv hrem ha (by omega)]
          refine ⟨b₁, F, ?_, hmv, h₁⟩
          rw [run_bind_ok (show (matchBest r (b.order x).price).run b = _ from hrun)]
          -- The incoming order has nothing left, so the next iteration stops.
          cases fuel with
          | zero => rw [hF, List.length_cons] at hfuel; omega
          | succ fuel =>
            have hdone : (b₁.order r).remainingQuantity ≤ 0 := by
              rw [hin, Order.filledBy_remaining]; omega
            unfold matchLoop
            rw [run_bind, run_get_bind, if_pos hdone]
            rfl
      · rw [Bool.not_eq_true] at ha
        rw [ha]
        exact hstop (.inr (by simpa using ha))

/-! ## New orders -/

/-- What `newOrder` checks, and the order it builds. -/
structure NewOrder (symbol : String) (typ : OrderType) (i : OrderInput) (clock : Bool) (o : Order) :
    Prop where
  orderId : o.orderId = i.orderId ∧ i.orderId ≠ ""
  userId : o.userId = i.userId ∧ i.userId ≠ ""
  symbol : o.symbol = symbol ∧ symbol ≠ ""
  side : sideOf i.side = some o.side
  type : o.type = typ
  priceTicks : o.priceTicks = i.priceTicks
  quantity : o.initialQuantity = i.quantity ∧ o.remainingQuantity = i.quantity ∧ 0 < i.quantity
  timestamp : o.timestamp = ⟨i.timestamp, clock⟩ ∧ 0 ≤ i.timestamp
  limit : typ = .limit → ∃ p, i.priceTicks = some p ∧ 0 < p
  market : typ = .market → i.priceTicks = none
  status : o.status = .opened

/-- The order did not trade yet. -/
theorem NewOrder.new {symbol : String} {typ : OrderType} {i : OrderInput} {clock : Bool}
    {o : Order} (h : NewOrder symbol typ i clock o) :
    o.New where
  remaining := by rw [h.quantity.1, h.quantity.2.1]
  positive := by rw [h.quantity.1]; exact h.quantity.2.2
  status := h.status
  price := fun ht => by
    obtain ⟨p, hp, hp'⟩ := h.limit (h.type ▸ ht)
    exact ⟨p, h.priceTicks.trans hp, hp'⟩

theorem all_nonpos {p : Option Int} : p.all (· ≤ 0) = true ↔ ¬ ∃ n, p = some n ∧ 0 < n := by
  cases p <;> simp

theorem newOrder_ok {symbol : String} {typ : OrderType} {i : OrderInput} {clock : Bool} :
    newOrder symbol typ i clock = .ok o ↔ NewOrder symbol typ i clock o := by
  unfold newOrder
  constructor
  · intro h
    cases hside : sideOf i.side with
    | none => rw [hside] at h; split_ifs at h
    | some side =>
      rw [hside] at h
      dsimp only at h
      split_ifs at h with h₁ h₂ h₃ h₄ h₅ h₆ h₇
      cases h
      refine ⟨⟨rfl, h₁⟩, ⟨rfl, h₂⟩, ⟨rfl, h₃⟩, hside, rfl, rfl, ⟨rfl, rfl, by omega⟩, ⟨rfl, by omega⟩,
        fun ht => ?_, fun ht => ?_, rfl⟩
      · exact by_contra fun hp => h₆ ⟨ht, all_nonpos.mpr hp⟩
      · exact by_contra fun hp => h₇ ⟨ht, Option.isSome_iff_ne_none.mpr hp⟩
  · intro h
    rw [if_neg h.orderId.2, if_neg h.userId.2, if_neg h.symbol.2, h.side]
    have hq := h.quantity.2.2
    have ht := h.timestamp.2
    dsimp only
    rw [if_neg (by omega), if_neg (by omega), if_neg fun hc => all_nonpos.mp hc.2 (h.limit hc.1),
      if_neg fun hc => by simp [h.market hc.1] at hc]
    congr 1
    rw [← h.orderId.1, ← h.userId.1, ← h.priceTicks, ← h.timestamp.1, ← h.type]
    cases o
    simp only [Order.mk.injEq, true_and, and_true]
    exact ⟨h.symbol.1.symm, h.quantity.1.symm, h.quantity.2.1.symm, h.status.symm⟩

/-! ## The remainder -/

theorem restIfActive_run (h : Repr b F v) (hr : r < b.next) (hid : (b.order r).orderId ∉ v.ids)
    (hrest : (b.order r).RestsOn (b.order r).side) :
    ∃ b' F', (restIfActive r).run b = (.ok (), b') ∧ b'.order = b.order ∧ b'.next = b.next ∧
      b'.stopOrders = b.stopOrders ∧ b'.orders = b.orders.set (b.order r).orderId r ∧
      Repr b' F' { v with toDepth := v.rest (b.order r) } := by
  obtain ⟨p, hp, -⟩ := hrest.price
  have hprice : priceOf b.order r = p := by rw [priceOf, Order.price, hp]; rfl
  have hpush := h.push hr hrest hid
  refine ⟨_, _, ?_, ?_, ?_, ?_, ?_, hpush⟩
  · unfold restIfActive addResting
    rw [run_get_bind, if_pos ⟨hrest.isActive, hrest.remaining⟩, run_bind_assoc, run_get_bind, run_bind_assoc,
      hp, run_lift_bind]
    dsimp only [deref]
    rw [run_modify_bind, run_modify, hprice]
    have hne : putLevel (b.side (b.order r).side) p
        ((((b.side (b.order r).side).get? p).getD ⟨p, 0, []⟩).append b.order r) =
        (b.side (b.order r).side).set p
          ((((b.side (b.order r).side).get? p).getD ⟨p, 0, []⟩).append b.order r) :=
      if_neg (by simp [PriceLevel.append])
    rw [hne]
    cases hs : (b.order r).side <;> rfl
  · rw [setSide_order]
  · rw [setSide_next]
  · rw [setSide_stopOrders]
  · rw [setSide_orders]

/-- The remainder of a matched order `r` settles. -/
theorem settle_run (typ : OrderType) (h : Repr b F v) (hr : r < b.next)
    (hid : (b.order r).orderId ∉ v.ids) (htype : (b.order r).type = typ)
    (hactive : 0 < (b.order r).remainingQuantity → (b.order r).isActive = true)
    (hlimit : typ = .limit → 0 < (b.order r).remainingQuantity →
      (b.order r).RestsOn (b.order r).side) :
    ∃ b' F', (settle typ r).run b = (.ok (), b') ∧ b'.order r = (v.settle (b.order r)).1 ∧
      (∀ x, x ≠ r → b'.order x = b.order x) ∧ b'.next = b.next ∧ b'.stopOrders = b.stopOrders ∧
      (∀ id x, b'.orders.get? id = some x →
        b.orders.get? id = some x ∨ x = r ∧ id = (b.order r).orderId) ∧
      Repr b' F' { v with toDepth := (v.settle (b.order r)).2 } := by
  unfold settle
  by_cases hrem : 0 < (b.order r).remainingQuantity
  · by_cases ht : typ = .limit
    · obtain ⟨b', F', hrun, hord, hn, hst, hidx, hrepr⟩ := restIfActive_run h hr hid (hlimit ht hrem)
      rw [Depth.settle_limit (htype.trans ht) hrem, if_pos ht]
      refine ⟨b', F', hrun, by rw [hord], fun x _ => by rw [hord], hn, hst, fun id x hx => ?_, hrepr⟩
      rw [hidx, OMap.get?_set] at hx
      split at hx
      · next he => exact .inr ⟨(Option.some.inj hx).symm, he⟩
      · exact .inl hx
    · rw [Depth.settle_market (htype.trans_ne ht) hrem, if_neg ht]
      have hc : discard cancel (b.order r) = { b.order r with status := .cancelled } := by
        unfold discard cancel
        rw [if_neg (by simp [hactive hrem])]
      refine ⟨b.modifyOrder r (discard cancel), F, ?_, ?_, fun x hx => ?_, rfl, rfl,
        fun _ _ hx => .inl hx, h.frame (fun s x hx => ?_) le_rfl⟩
      · rw [cancelRemainder, run_get_bind, if_pos ⟨hrem, hactive hrem⟩, run_modify]
      · exact (Function.update_self _ _ _).trans hc
      · exact Function.update_of_ne hx _ _
      · exact Function.update_of_ne (ne_of_mem_of_not_mem hx (h.fresh hid s)) _ _
  · rw [Depth.settle_done hrem]
    refine ⟨b, F, ?_, rfl, fun _ _ => rfl, rfl, rfl, fun _ _ hx => .inl hx, h⟩
    split_ifs
    · rw [restIfActive, run_get_bind, if_neg fun hc => hrem hc.2, run_pure]
    · rw [cancelRemainder, run_get_bind, if_neg fun hc => hrem hc.1, run_pure]

/-! ## Together -/

/-- What the execution of the new order `o` did: it became `o'`, and every other order that is
followed has traded its part of `ts`. -/
structure Executed (b b' : Book) (o o' : Order) (ts : List Trade) : Prop where
  new : Holds b' b.next o'
  holds : ∀ y x, x.orderId ≠ o.orderId → Holds b y x → Holds b' y (x.filledBy (traded x.orderId ts))
  stops : b'.stopOrders = b.stopOrders
  positive : ∀ t ∈ ts, 0 < t.quantity

theorem execute_id (d : Depth) (o : Order) : (d.execute o).2.1.orderId = o.orderId := by
  unfold Depth.execute Depth.settle
  dsimp only
  split_ifs <;> rfl

/-- A new order executes: the run of the functions, and the view after it. -/
theorem execute_run {typ : OrderType} {i : OrderInput} {clock : Bool} (h : Repr b F v)
    (ho : newOrder b.symbol typ i clock = .ok o)
    (hid : o.orderId ∉ v.ids) (hpending : v.stops.get? o.orderId = none) :
    ∃ b₁ b₂ b₃ F', (allocate b.symbol typ i clock).run b = (.ok b.next, b₁) ∧
      (matchOrder b.next (decide (typ ≠ .limit))).run b₁ = (.ok (v.execute o).1, b₂) ∧
      b₂.order b.next = o.filledBy (v.taken o (decide (o.type ≠ .limit))) ∧
      (settle typ b.next).run b₂ = (.ok (), b₃) ∧ Repr b₃ F' (v.executed o) ∧
      Executed b b₃ o (v.execute o).2.1 (v.execute o).1 := by
  have hN := newOrder_ok.mp ho
  obtain rfl := hN.type
  have hpos := hN.quantity.2.2
  have hrem := hN.quantity.2.1
  have hactive : o.isActive = true := by simp [Order.isActive, hN.status]
  set r := b.next with hr
  set b₁ : Book := { b with order := Function.update b.order r o, next := r + 1 } with hb₁
  have hord₁ : b₁.order r = o := Function.update_self _ _ _
  have hlt : ∀ s, ∀ x ∈ F s, x ≠ r := fun s x hx => (h.rests s x hx).1.ne
  have h₁ : Repr b₁ F v :=
    h.frame (fun s x hx => Function.update_of_ne (hlt s x hx) _ _) (Nat.le_succ _)
  have halloc : (allocate b.symbol o.type i clock).run b = (.ok r, b₁) := by
    unfold allocate
    rw [run_lift_bind, ho]
    rfl
  have hm : Matchable b₁ v r (decide (o.type ≠ .limit)) := by
    refine ⟨Nat.lt_succ_self _, by rw [hord₁]; exact hid, by rw [hord₁]; exact hN.symbol.1,
      by rw [hord₁]; omega, fun _ => by rw [hord₁]; exact hactive, fun hi => ?_⟩
    have hl : o.type = .limit := by simpa using hi
    obtain ⟨p, hp, -⟩ := hN.limit hl
    exact ⟨p, by rw [hord₁, hN.priceTicks, hp]⟩
  have hfuel : (F (b₁.order r).side.opposite).length < b₁.next + 1 :=
    Nat.lt_succ_of_le (h₁.length_le _)
  obtain ⟨b₂, F₂, hrun, hmv, h₂⟩ := matchLoop_run (b₁.next + 1) h₁ hm hfuel
  have hpos₂ := Depth.fillFrom_pos h₁.rests_depth (b₁.order r) (decide (o.type ≠ .limit))
  rw [hord₁] at hrun hmv h₂ hpos₂
  set ig := decide (o.type ≠ .limit) with hig
  have htake := Depth.taken_le (o := o) v.toDepth ig (by omega)
  have hnn := Depth.taken_nonneg h.rests_depth o ig
  have hord₂ : b₂.order r = o.filledBy (v.taken o ig) := by
    rw [hmv.incoming, hord₁, Depth.fillFrom_sum]
  have hid₂ : (b₂.order r).orderId ∉ Depth.ids (v.fillFrom o ig).2.2 := by
    rw [hord₂, Order.filledBy_orderId]
    exact fun hc => hid (Depth.fillFrom_ids.subset hc)
  have hrests : o.type = .limit → 0 < (b₂.order r).remainingQuantity →
      (b₂.order r).RestsOn (b₂.order r).side := fun ht hq => by
    obtain ⟨p, hp, hp'⟩ := hN.limit ht
    have hro : o.RestsOn o.side := ⟨rfl, ht, ⟨p, hN.priceTicks.trans hp, hp'⟩, by omega,
      .inl ⟨hN.status, by rw [hrem, hN.quantity.1]⟩⟩
    rw [hord₂, Order.filledBy_remaining] at hq
    rw [hord₂, Order.filledBy_side]
    rcases hnn.eq_or_lt with hz | hz
    · rwa [← hz, Order.filledBy_zero]
    · exact hro.filledBy hz (by omega)
  obtain ⟨b₃, F₃, hsettle, hord₃, hother, hn₃, hst₃, hidx₃, h₃⟩ := settle_run o.type h₂
    (by rw [hmv.next]; exact Nat.lt_succ_self _) hid₂ (by rw [hord₂, Order.filledBy_type])
    (fun hq => by
      rw [hord₂, Order.filledBy_remaining] at hq
      rw [hord₂]
      exact Order.filledBy_isActive hactive hq) hrests
  have hexec : v.execute o = ((v.fillFrom o ig).1, (v.fillFrom o ig).2.2.settle (o.filledBy (v.taken o ig))) :=
    rfl
  rw [hord₂] at hord₃ h₃ hidx₃
  have hrepr : Repr b₃ F₃ (v.executed o) := by
    unfold View.executed
    rw [hexec]
    exact h₃
  have hbound : ∀ y x, Holds b y x → Holds b₁ y x := fun y x hx =>
    ⟨(Function.update_of_ne hx.bound.ne _ _).trans hx.order, Nat.lt_succ_of_lt hx.bound, hx.index,
      hx.pending⟩
  refine ⟨b₁, b₂, b₃, F₃, halloc, hrun, hord₂, hsettle, hrepr, ⟨hord₃, ?_, fun x hx => ?_, ?_⟩,
    fun y x hne hx => ?_, hst₃.trans hmv.stops, hpos₂⟩
  · rw [hn₃, hmv.next]; exact Nat.lt_succ_self _
  · rw [execute_id] at hx
    rcases hidx₃ _ x hx with hx | ⟨hx, -⟩
    · exact absurd (h.mem_ids.mpr ⟨x, hmv.index _ x hx⟩) hid
    · exact hx
  · rw [hst₃, hmv.stops, execute_id]
    show b.stopOrders.get? _ = none
    rw [← h.stops]
    exact hpending
  · have hyr : y ≠ r := hx.bound.ne
    have hmoved := hmv.holds y x hyr (by rw [hord₁]; exact hne) (hbound y x hx)
    refine ⟨(hother y hyr).trans hmoved.order, hn₃ ▸ hmoved.bound, fun z hz => ?_,
      hst₃ ▸ hmoved.pending⟩
    rcases hidx₃ _ z hz with hz | ⟨-, hz⟩
    · exact hmoved.index z hz
    · exact absurd hz hne

end

end Lob.Go
