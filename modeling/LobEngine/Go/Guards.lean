import LobEngine.Go.Publishing
import LobEngine.Go.Reachable

/-!
# The unguarded spots of the Go engine

`match` indexes and drops errors without a check, and so does `Cancel`.

* `iterations`: the books in which the body of the loop of `match` starts.
* `Guarded`: the level of the best price exists and has a first order, both fills return nil, and the incoming
  order is filled or a resting one removed.
* `matching_guarded`: so it is in every iteration, and the resting orders bound the iterations.
-/

namespace Lob.Go

open Exc Book

/-- The books in which the body of the loop of `match` starts, whether it returns or errs. -/
def iterations (incoming : Ref) (ignorePrice : Bool) : Nat → Book → List Book
  | 0, _ => []
  | fuel + 1, b =>
    if (b.order incoming).remainingQuantity ≤ 0 then []
    else
      b :: match b.bestOpposite (b.order incoming).side with
        | none => []
        | some price =>
          match beyondLimit (b.order incoming) ignorePrice price with
          | .ok false =>
            match (matchBest incoming price).run b with
            | (.ok _, b') => iterations incoming ignorePrice fuel b'
            | (.error _, _) => []
          | _ => []

/-- An iteration at the best opposite price, from the book `b`: the level and its first order exist, the fills
return nil, and the trade fills the incoming order or removes the first resting order. -/
structure Guarded (incoming : Ref) (b : Book) (price : Int) (level : PriceLevel) (resting : Ref) (b' : Book) :
    Prop where
  found : (b.side (b.order incoming).side.opposite).get? price = some level
  first : level.orders.head? = some resting
  taker : (fill (min (b.order incoming).remainingQuantity (b.order resting).remainingQuantity)
    (b.order incoming)).isOk = true
  maker : (fill (min (b.order incoming).remainingQuantity (b.order resting).remainingQuantity)
    ((b.modifyOrder incoming (discard (fill (min (b.order incoming).remainingQuantity
      (b.order resting).remainingQuantity)))).order resting)).isOk = true
  run : ∃ trade, (matchBest incoming price).run b = (.ok trade, b')
  progress : (b'.order incoming).isFilled = true ∨
    b.resting (b.order incoming).side.opposite = b.order resting :: b'.resting (b.order incoming).side.opposite ∧
      b'.orders.get? (b.order resting).orderId = none

section

variable {b b' : Book} {F : Side → List Ref} {v : View} {r : Ref}

theorem fill_isOk {o : Order} {q : Int} (ha : o.isActive = true) (hq : 0 < q) (hle : q ≤ o.remainingQuantity) :
    (fill q o).isOk = true := by
  unfold fill
  rw [if_neg (by omega), if_neg (by simp [ha]), if_neg (by omega)]
  rfl

theorem isFilled_filledBy {o : Order} (h : 0 < o.remainingQuantity) :
    (o.filledBy o.remainingQuantity).isFilled = true := by
  rw [Order.filledBy_isFilled _ h]
  exact decide_eq_true rfl

theorem Repr.bestOpposite_eq (h : Repr b F v) (s : Side) :
    b.bestOpposite s = (F s.opposite).head?.map (priceOf b.order) := by
  rw [bestOpposite, h.bestPrice_eq, h.orders, List.head?_map, Option.map_map]
  rfl

/-- An iteration with the first order `x` of the opposite side. -/
theorem guarded {x : Ref} {G : List Ref} {ignore : Bool} (h : Repr b F v) (hm : Matchable b v r ignore)
    (hpos : 0 < (b.order r).remainingQuantity) (hF : F (b.order r).side.opposite = x :: G) :
    ∃ level b' v', Guarded r b (priceOf b.order x) level x b' ∧
      (((b'.order r).remainingQuantity ≤ 0) ∨
        ∃ F', Repr b' F' v' ∧ Matchable b' v' r ignore ∧ (b'.order r).side = (b.order r).side ∧
          F' (b.order r).side.opposite = G ∧
          v.side (b.order r).side.opposite = b.order x :: v'.side (b.order r).side.opposite) := by
  have hx : x ∈ F (b.order r).side.opposite := by rw [hF]; exact List.mem_cons_self
  have hrx : r ≠ x := (ne_of_mem_of_not_mem hx (h.fresh hm.id _)).symm
  have hrest := (h.rests _ x hx).2
  have hxpos := hrest.remaining
  have hv : v.side (b.order r).side.opposite = b.order x :: G.map b.order := by
    rw [h.orders, hF]
    rfl
  have hlev := h.levels (b.order r).side.opposite
  rw [hF] at hlev
  obtain ⟨l, hl, hQ⟩ := hlev.head
  have hfirst : l.orders.head? = some x := by rw [hQ.orders]; rfl
  set q := min (b.order r).remainingQuantity (b.order x).remainingQuantity with hq
  have hfr : (fill q (b.order r)).isOk = true := fill_isOk (hm.active hpos) (by omega) (by omega)
  have hfx : (fill q ((b.modifyOrder r (discard (fill q))).order x)).isOk = true := by
    rw [show (b.modifyOrder r (discard (fill q))).order x = b.order x from Function.update_of_ne hrx.symm _ _]
    exact fill_isOk hrest.isActive (by omega) (by omega)
  by_cases hle : (b.order x).remainingQuantity ≤ (b.order r).remainingQuantity
  · -- The first resting order is filled, and leaves.
    obtain ⟨b', hrun, hmv, h'⟩ := matchBest_whole h hm hpos hF hle
    have hin : b'.order r = (b.order r).filledBy (b.order x).remainingQuantity := by
      rw [hmv.incoming]
      simp [tradeOf]
    have hm' := hm.whole hv hpos hle hin hmv.next hmv.symbol
      (v.trades ++ [tradeOf (b.order r) (b.order x) (b.order x).remainingQuantity])
    refine ⟨l, b', { v with
        toDepth := v.setSide (b.order r).side.opposite (G.map b.order)
        trades := v.trades ++ [tradeOf (b.order r) (b.order x) (b.order x).remainingQuantity] },
      ⟨hl, hfirst, hfr, hfx, ⟨_, hrun⟩, .inr ⟨?_, ?_⟩⟩, .inr ⟨_, h', hm', ?_, ?_, ?_⟩⟩
    · rw [h.resting, h'.resting, hv]
      exact congrArg (b.order x :: ·) (Depth.side_setSide _ _ _).symm
    · cases hget : b'.orders.get? (b.order x).orderId with
      | none => rfl
      | some y =>
        -- It would still be in the view, under its id.
        have hid := h'.mem_ids.mpr ⟨y, hget⟩
        have hperm := Depth.setSide_ids v.toDepth (b.order r).side.opposite (v.side (b.order r).side.opposite)
        rw [Depth.setSide_side, hv, List.map_cons] at hperm
        have hnodup := hperm.nodup_iff.mp h.ids
        rw [List.cons_append, List.nodup_cons] at hnodup
        exact absurd ((Depth.setSide_ids v.toDepth _ _).subset hid) hnodup.1
    · rw [hin, Order.filledBy_side]
    · exact Function.update_self _ _ _
    · rw [hv]
      exact congrArg (b.order x :: ·) (Depth.side_setSide _ _ _).symm
  · obtain ⟨b', hrun, hmv, h'⟩ := matchBest_part h hm hpos hF (by omega)
    have hin : b'.order r = (b.order r).filledBy (b.order r).remainingQuantity := by
      rw [hmv.incoming]
      simp [tradeOf]
    refine ⟨l, b', v, ⟨hl, hfirst, hfr, hfx, ⟨_, hrun⟩, .inl ?_⟩, .inl ?_⟩
    · rw [hin]
      exact isFilled_filledBy hpos
    · rw [hin, Order.filledBy_remaining]
      omega

/-- A book in which an iteration of the matching of `r` starts, which began with the orders `L` on the opposite side:
some of them have left. -/
structure Iterates (r : Ref) (ignore : Bool) (s : Side) (L : List Order) (b : Book) : Prop where
  remaining : 0 < (b.order r).remainingQuantity
  side : (b.order r).side = s
  view : ∃ F v, Repr b F v ∧ Matchable b v r ignore ∧ v.side s.opposite <:+ L

/-- The books in which an iteration starts; the resting orders bound their number. -/
theorem iterations_iterates {ignore : Bool} (fuel : Nat) (h : Repr b F v) (hm : Matchable b v r ignore) :
    (∀ b₁ ∈ iterations r ignore fuel b,
      Iterates r ignore (b.order r).side (v.side (b.order r).side.opposite) b₁) ∧
      (iterations r ignore fuel b).length ≤ (F (b.order r).side.opposite).length + 1 := by
  induction fuel generalizing b F v with
  | zero => exact ⟨by simp [iterations], by simp [iterations]⟩
  | succ fuel ih =>
    unfold iterations
    by_cases hrem : (b.order r).remainingQuantity ≤ 0
    · rw [if_pos hrem]
      exact ⟨by simp, by simp⟩
    rw [if_neg hrem]
    have hfirst : Iterates r ignore (b.order r).side (v.side (b.order r).side.opposite) b :=
      ⟨by omega, rfl, F, v, h, hm, List.suffix_rfl⟩
    rw [h.bestOpposite_eq]
    cases hF : F (b.order r).side.opposite with
    | nil => exact ⟨List.forall_mem_singleton.mpr hfirst, by simp⟩
    | cons x G =>
      rw [List.head?_cons, Option.map_some]
      obtain ⟨level, b', v', hguard, hnext⟩ := guarded h hm (by omega) hF
      have hone : (∀ b₁ ∈ [b], Iterates r ignore (b.order r).side (v.side (b.order r).side.opposite) b₁) ∧
          [b].length ≤ (x :: G).length + 1 := ⟨List.forall_mem_singleton.mpr hfirst, by simp⟩
      dsimp only
      cases hbeyond : beyondLimit (b.order r) ignore (priceOf b.order x) with
      | error e => exact hone
      | ok beyond =>
        cases beyond with
        | true => exact hone
        | false =>
          obtain ⟨t, hrun⟩ := hguard.run
          dsimp only
          rw [hrun]
          dsimp only
          obtain hdone | ⟨F', h', hm', hside, hG, hL⟩ := hnext
          · have hnil : iterations r ignore fuel b' = [] := by
              cases fuel with
              | zero => rfl
              | succ fuel => rw [iterations, if_pos hdone]
            rw [hnil]
            exact hone
          · obtain ⟨hall, hlen⟩ := ih h' hm'
            rw [hside, hG] at hlen
            refine ⟨List.forall_mem_cons.mpr ⟨hfirst, fun b₁ hb₁ => ?_⟩, ?_⟩
            · obtain ⟨hpos, hs, F₁, v₁, h₁, hm₁, hsuffix⟩ := hall b₁ hb₁
              rw [hside] at hs hsuffix
              exact ⟨hpos, hs, F₁, v₁, h₁, hm₁, hsuffix.trans (hL ▸ List.suffix_cons _ _)⟩
            · rw [List.length_cons, List.length_cons]
              omega

/-- Every iteration is guarded. -/
theorem Iterates.guarded {ignore : Bool} {s : Side} {L : List Order} (h : Iterates r ignore s L b) :
    ∀ price ∈ b.bestOpposite (b.order r).side, ∃ level x b', Guarded r b price level x b' := by
  obtain ⟨hpos, -, F, v, hr, hm, -⟩ := h
  intro price hprice
  rw [hr.bestOpposite_eq] at hprice
  cases hF : F (b.order r).side.opposite with
  | nil =>
    rw [hF] at hprice
    cases hprice
  | cons x G =>
    obtain ⟨level, b', v', hguard, -⟩ := Go.guarded hr hm hpos hF
    rw [hF] at hprice
    obtain rfl := Option.some.inj hprice
    exact ⟨level, x, b', hguard⟩

/-! ## Cancels -/

/-- The orders of the level at a price, if there is one. -/
def Book.ordersAt (b : Book) (s : Side) (price : Int) : List Ref := ((b.side s).get? price).elim [] (·.orders)

/-- `Cancel` of the resting order `r`: its level is found, and it is the only order that leaves a level. -/
structure CancelGuarded (b : Book) (r : Ref) (price : Int) (b' : Book) : Prop where
  priced : (b.order r).priceTicks = some price
  found : ∃ level, (b.side (b.order r).side).get? price = some level
  listed : (b.ordersAt (b.order r).side price).count r = 1
  cancelled : cancel (b.order r) = .ok (b'.order r)
  removed : b'.ordersAt (b.order r).side price = (b.ordersAt (b.order r).side price).erase r
  others : ∀ s p, s ≠ (b.order r).side ∨ p ≠ price → b'.ordersAt s p = b.ordersAt s p

theorem ordersAt_putLevel {s : Side} {price p : Int} {l : PriceLevel} (hb : b'.side s = putLevel (b.side s) price l) :
    b'.ordersAt s p = if p = price then l.orders else b.ordersAt s p := by
  unfold ordersAt
  rw [hb, get?_putLevel]
  split_ifs with hp hnil
  · rw [hnil]
    rfl
  · rfl
  · rfl

theorem cancelResting_guarded {id : String} (h : Repr b F v) (hid : b.orders.get? id = some r) :
    ∃ price res b', (cancelResting id r).run b = (.ok res, b') ∧ CancelGuarded b r price b' := by
  obtain ⟨⟨s, hs⟩, -⟩ := (h.index id r).mp hid
  have hrest := (h.rests s r hs).2
  obtain rfl := hrest.side
  obtain ⟨p, hp, -⟩ := hrest.price
  have hprice : priceOf b.order r = p := by rw [priceOf, Order.price, hp]; rfl
  obtain ⟨l, hl, hQ⟩ := (h.levels _).level hs
  rw [hprice] at hl
  have hat : b.ordersAt (b.order r).side p = l.orders := by unfold ordersAt; rw [hl]; rfl
  have hmem : r ∈ l.orders := by
    rw [hQ.orders]
    exact List.mem_filter.mpr ⟨hs, by simp⟩
  have hnodup : l.orders.Nodup := by
    rw [hQ.orders]
    exact (h.nodup _).filter _
  have hcancel : cancel (b.order r) = .ok { b.order r with status := .cancelled } := by
    unfold cancel
    rw [if_neg (by simp [hrest.isActive])]
  have hremove : (l.remove b.order r).orders = l.orders.erase r := by
    unfold PriceLevel.remove
    rw [if_pos hmem]
  unfold cancelResting
  rw [run_get_bind]
  dsimp only
  rw [if_neg (by simp [hrest.isActive]), hp]
  dsimp only [deref]
  rw [run_lift_bind]
  dsimp only
  rw [hl]
  dsimp only
  set order := Function.update b.order r (discard cancel (b.order r)) with ho
  set b₁ : Book := ({ b with order, orders := b.orders.delete id } : Book).setSide (b.order r).side
    (putLevel (b.side (b.order r).side) p (l.remove b.order r)) with hb₁
  have hself : b₁.order r = { b.order r with status := .cancelled } := by
    rw [hb₁, setSide_order]
    refine (Function.update_self _ _ _).trans ?_
    unfold discard
    rw [hcancel]
  have hside : b₁.side (b.order r).side = putLevel (b.side (b.order r).side) p (l.remove b.order r) := by
    rw [hb₁, setSide_side]
  have hother : b₁.side (b.order r).side.opposite = b.side (b.order r).side.opposite := by
    rw [hb₁, setSide_side_opposite]
    rfl
  have hkept : ∀ (x : Int) (n : Clock) s p,
      ({ b₁ with sequence := x, now := n } : Book).ordersAt s p = b₁.ordersAt s p :=
    fun _ _ s _ => by cases s <;> rfl
  refine ⟨p, ⟨.order (b₁.order r), [], [], stampFrom b₁.symbol b₁.sequence [orderCancelledEvent (b₁.order r),
      .bookUpdated none b₁.snapshot (b₁.now 0)]⟩, { b₁ with sequence := b₁.sequence + 2, now := b₁.now.tail },
    ?_, ⟨hp, ⟨l, hl⟩, ?_, ?_, ?_, ?_⟩⟩
  · rw [run_modify_bind, run_modify_bind, run_bind_ok (show (Exc.modify _).run _ = (.ok (), b₁) from by
      rw [hb₁]
      cases (b.order r).side <;> rfl)]
    rfl
  · rw [hat]
    exact List.count_eq_one_of_mem hnodup hmem
  · rw [hcancel]
    exact congrArg Except.ok hself.symm
  · rw [hkept, ordersAt_putLevel hside, if_pos rfl, hremove, hat]
  · intro s p' hne
    rw [hkept]
    rcases Side.eq_or_opposite (b.order r).side s with rfl | rfl
    · rw [ordersAt_putLevel hside, if_neg (hne.resolve_left fun h => h rfl)]
    · unfold ordersAt
      rw [hother]

/-! ## Errors of calls -/

/-- The error has a text: it is neither a panic nor a loop that goes on. -/
def HasText (e : GoError) : Prop := ∃ text, e = .error text

theorem newOrder_text {symbol : String} {typ : OrderType} {i : OrderInput} {clock : Bool} {e : GoError}
    (h : newOrder symbol typ i clock = .error e) : HasText e := by
  unfold newOrder at h
  cases hs : sideOf i.side with
  | none =>
    rw [hs] at h
    dsimp only at h
    split_ifs at h <;> cases h <;> exact ⟨_, rfl⟩
  | some side =>
    rw [hs] at h
    dsimp only at h
    split_ifs at h <;> cases h <;> exact ⟨_, rfl⟩

theorem newStop_text {symbol : String} {typ : OrderType} {i : OrderInput} {peak valley : Option Int} {e : GoError}
    (h : newStop symbol typ i peak valley = .error e) : HasText e := by
  unfold newStop at h
  cases hs : sideOf i.side with
  | none =>
    rw [hs] at h
    dsimp only at h
    split_ifs at h <;> cases h <;> exact ⟨_, rfl⟩
  | some side =>
    cases ht : i.triggerPriceTicks with
    | none =>
      rw [hs, ht] at h
      dsimp only at h
      split_ifs at h <;> cases h <;> exact ⟨_, rfl⟩
    | some t =>
      rw [hs, ht] at h
      dsimp only at h
      split_ifs at h <;> cases h <;> exact ⟨_, rfl⟩

theorem newTrailing_text {last : Option Int} {i : OrderInput} {e : GoError} (h : newTrailing last i = .error e) :
    HasText e := by
  unfold newTrailing at h
  split at h
  · cases h; exact ⟨_, rfl⟩
  split at h
  · cases h; exact ⟨_, rfl⟩
  split at h
  · cases h; exact ⟨_, rfl⟩
  split at h <;> cases h
  exact ⟨_, rfl⟩

theorem spec_cascade_text (limit : Nat) (ts : List Trade) : Throws HasText (Spec.cascade limit ts) := by
  have hexecute : ∀ s, Throws HasText (Spec.executeStop s) := fun s =>
    Throws.get.bind fun _ => (Throws.get.bind fun _ => (Throws.modify _).bind fun _ => Throws.pure _).bind fun _ =>
      (Throws.lift fun _ h => newOrder_text h).bind fun _ => Throws.get.bind fun _ => (Throws.modify _).bind
      fun _ => Throws.pure _
  have hall : ∀ ss, Throws HasText (Spec.triggerAll ss) := by
    intro ss
    induction ss with
    | nil => exact Throws.pure _
    | cons s ss ih => exact (Throws.modify _).bind fun _ => (hexecute _).bind fun _ => ih.bind fun _ => Throws.pure _
  induction limit generalizing ts with
  | zero =>
    unfold Spec.cascade
    split
    · exact Throws.pure _
    · exact Throws.throw ⟨_, rfl⟩
  | succ limit ih =>
    unfold Spec.cascade
    split
    · exact Throws.pure _
    · refine (Throws.modify _).bind fun _ => Throws.bind ?_ fun _ => Throws.get.bind fun v => (Throws.pure _).ite
        ((hall _).bind fun _ => (ih _).bind fun _ => Throws.pure _)
      refine Throws.get.bind fun v => ?_
      split
      · exact Throws.pure _
      · exact Throws.modify _

theorem spec_program_text (c : Call) : Throws HasText (Spec.program c) := by
  have hfree : ∀ key, Throws HasText (Spec.assertAvailable key) := fun key =>
    Throws.get.bind fun _ => (Throws.throw ⟨_, rfl⟩).ite (Throws.pure _)
  have hupdated : Throws HasText Spec.bookUpdatedEvent :=
    Throws.get.bind fun _ => (Throws.get.bind fun _ => (Throws.modify _).bind fun _ => Throws.pure _).bind
      fun _ => Throws.pure _
  have hstamp : ∀ es, Throws HasText (Spec.stamp es) := fun es =>
    Throws.get.bind fun _ => (Throws.modify _).bind fun _ => Throws.pure _
  have hexecute : ∀ o, Throws HasText (Spec.execute o) := fun o =>
    Throws.get.bind fun _ => (Throws.modify _).bind fun _ => Throws.pure _
  have hplace : ∀ (i : OrderInput) (typ : OrderType) (peak valley : Option Int),
      Throws HasText (Spec.placeStopWithExtrema i typ peak valley) := fun i typ peak valley =>
    (hfree _).bind fun _ => Throws.get.bind fun _ => (Throws.lift fun _ h => newStop_text h).bind fun _ =>
      (Throws.modify _).bind fun _ => hupdated.bind fun _ => (hstamp _).bind fun _ => Throws.pure _
  cases c with
  | placeLimit i =>
    exact (hfree _).bind fun _ => Throws.get.bind fun _ => (Throws.lift fun _ h => newOrder_text h).bind fun _ =>
      (hexecute _).bind fun _ => (spec_cascade_text _ _).bind fun _ => hupdated.bind fun _ => (hstamp _).bind
      fun _ => Throws.pure _
  | placeMarket i =>
    exact (hfree _).bind fun _ => Throws.get.bind fun _ => (Throws.lift fun _ h => newOrder_text h).bind fun _ =>
      (hexecute _).bind fun _ => (spec_cascade_text _ _).bind fun _ => hupdated.bind fun _ => (hstamp _).bind
      fun _ => Throws.pure _
  | placeStopMarket i => exact hplace i _ _ _
  | placeStopLimit i => exact hplace i _ _ _
  | placeTrailingStopMarket i =>
    exact Throws.get.bind fun _ => (Throws.lift fun _ h => newTrailing_text h).bind fun _ => hplace _ _ _ _
  | cancel key =>
    refine Throws.get.bind fun v => ?_
    split
    · exact (Throws.modify _).bind fun _ => hupdated.bind fun _ => Throws.pure _
    split
    · exact Throws.throw ⟨_, rfl⟩
    · exact (Throws.modify _).bind fun _ => hupdated.bind fun _ => (hstamp _).bind fun _ => Throws.pure _

/-! ## Reachable books -/

/-- From every reachable book and for every validated order, each iteration of `match` is guarded and there is
at most one more than there are opposite resting orders, so the loop returns. `Cancel` of a resting order is
guarded too, and no call panics or goes on for ever. -/
theorem matching_guarded (hb : Reachable b) :
    (∀ (typ : OrderType) (i : OrderInput) (clock : Bool) (o : Order), b.orders.has i.orderId = false →
      newOrder b.symbol typ i clock = .ok o → ∃ b₁, (allocate b.symbol typ i clock).run b = (.ok b.next, b₁) ∧
        b₁.order b.next = o ∧
        (∀ fuel, (∀ b₂ ∈ iterations b.next (typ ≠ .limit) fuel b₁, ∀ price ∈ b₂.bestOpposite (b₂.order b.next).side,
            ∃ level x b₃, Guarded b.next b₂ price level x b₃) ∧
          (iterations b.next (typ ≠ .limit) fuel b₁).length ≤ (b.resting o.side.opposite).length + 1) ∧
        ∃ ts b', (matchOrder b.next (typ ≠ .limit)).run b₁ = (.ok ts, b')) ∧
      (∀ id r, b.stopOrders.get? id = none → b.orders.get? id = some r → ∃ price res b',
        Go.call b (.cancel id) = (.ok res, b') ∧ CancelGuarded b r price b') ∧
      ∀ c e, (call b c).1 = .error e → HasText e := by
  obtain ⟨v, hv⟩ := hb.good
  obtain ⟨⟨F, hr⟩, hok⟩ := id hv
  refine ⟨fun typ i clock o hfree ho => ?_, fun id r hstop hid => ?_, fun c e he => ?_⟩
  · have hN := newOrder_ok.mp ho
    set b₁ : Book := { b with order := Function.update b.order b.next o, next := b.next + 1 } with hb₁
    have hord : b₁.order b.next = o := Function.update_self _ _ _
    have hlt : ∀ s, ∀ x ∈ F s, x ≠ b.next := fun s x hx => (hr.rests s x hx).1.ne
    have h₁ : Repr b₁ F v := hr.frame (fun s x hx => Function.update_of_ne (hlt s x hx) _ _) (Nat.le_succ _)
    have hrun : (allocate b.symbol typ i clock).run b = (.ok b.next, b₁) := by
      unfold allocate
      rw [run_lift_bind, ho]
      rfl
    have hm : Matchable b₁ v b.next (decide (typ ≠ .limit)) := by
      refine ⟨Nat.lt_succ_self _, ?_, ?_, ?_, fun _ => ?_, fun hi => ?_⟩
      · rw [hord, hN.orderId.1, hr.mem_ids]
        rintro ⟨x, hx⟩
        rw [OMap.has, hx] at hfree
        cases hfree
      · rw [hord]; exact hN.symbol.1
      · rw [hord, hN.quantity.2.1]; exact hN.quantity.2.2.le
      · rw [hord, Order.isActive, hN.status]; rfl
      · obtain ⟨p, hp, -⟩ := hN.limit (by simpa using hi)
        exact ⟨p, by rw [hord, hN.priceTicks, hp]⟩
    refine ⟨b₁, hrun, hord, fun fuel => ?_, ?_⟩
    · obtain ⟨hall, hlen⟩ := iterations_iterates fuel h₁ hm
      rw [hord] at hlen
      rw [hr.resting, hr.orders, List.length_map]
      exact ⟨fun b₂ hb₂ => (hall b₂ hb₂).guarded, hlen⟩
    · obtain ⟨b', F', hmatch, -⟩ := matchLoop_run (b₁.next + 1) h₁ hm (Nat.lt_succ_of_le (h₁.length_le _))
      exact ⟨_, b', hmatch⟩
  · obtain ⟨price, res, b', hrun, hguard⟩ := cancelResting_guarded hr hid
    refine ⟨price, res, b', ?_, hguard⟩
    show (cancelOrder id).run b = _
    unfold cancelOrder
    rw [run_get_bind, hstop]
    dsimp only
    rw [hid]
    exact hrun
  · obtain ⟨hout, -⟩ := call_refines c hv
    rw [he] at hout
    exact spec_program_text c v e _ (Prod.ext hout.symm rfl)

end

/-- A purchase matched with the resting sell order, and the cancellation of that order. -/
theorem matching_guarded_oneAsk :
    (∃ b₁ ts b', (allocate "BTC-USD" .limit (limitInput "b" .buy 1 1) false).run oneAsk = (.ok oneAsk.next, b₁) ∧
      (iterations oneAsk.next false 10 b₁).length ≤ (oneAsk.resting .sell).length + 1 ∧
      (matchOrder oneAsk.next false).run b₁ = (.ok ts, b')) ∧
    ∃ price res b', call oneAsk (.cancel "a") = (.ok res, b') ∧ CancelGuarded oneAsk 0 price b' := by
  obtain ⟨hmatch, hcancel, -⟩ := matching_guarded oneAsk_reachable
  obtain ⟨b₁, hrun, -, hguard, ts, b', hloop⟩ := hmatch .limit (limitInput "b" .buy 1 1) false
    ⟨"b", "u", "BTC-USD", .buy, .limit, some 1, 1, 1, .opened, ⟨0, false⟩⟩ (by decide +kernel) (by decide +kernel)
  exact ⟨⟨b₁, ts, b', hrun, (hguard 10).2, hloop⟩, hcancel "a" 0 (by decide +kernel) (by decide +kernel)⟩

end Lob.Go
