import LobEngine.Go.Command
import LobEngine.Go.Steps

/-!
# The numbers of a run

A run whose inputs are `int64` has positive `int64` prices only, in its orders, its trades and its stop orders. The
trigger price of a trailing stop order is what the engine's arithmetic makes of its extremum and its amount.

* `Int64Run`: the runs. `Command.call_isInt64`: a command decodes to `int64` inputs.
* `Int64Run.sized`: what holds of their views.
-/

namespace Lob.Go

open Exc

/-- An `int64` holds the number. -/
def IsInt64 (n : Int) : Prop := -2 ^ 63 ≤ n ∧ n < 2 ^ 63

/-- A positive `int64`. -/
def Ticks (n : Int) : Prop := 0 < n ∧ n < 2 ^ 63

structure OrderInput.IsInt64 (i : OrderInput) : Prop where
  priceTicks : ∀ p, i.priceTicks = some p → Go.IsInt64 p
  triggerPriceTicks : ∀ p, i.triggerPriceTicks = some p → Go.IsInt64 p
  trailingAmountTicks : ∀ p, i.trailingAmountTicks = some p → Go.IsInt64 p
  quantity : Go.IsInt64 i.quantity
  timestamp : Go.IsInt64 i.timestamp

/-- The numbers of the call are `int64`, as their types say. -/
def Call.IsInt64 : Call → Prop
  | .placeLimit i | .placeMarket i | .placeStopMarket i | .placeStopLimit i | .placeTrailingStopMarket i => i.IsInt64
  | .cancel _ => True

inductive Int64Run : Book → Prop
  | empty (symbol : String) (now : Clock) (valid : isBlank symbol = false) : Int64Run (Book.empty symbol now)
  | call {b : Book} (h : Int64Run b) (c : Call) (int64 : c.IsInt64) : Int64Run (Go.call b c).2
  | restore {b b' : Book} (h : Int64Run b) (id : Option String) (now : Clock)
    (restored : fromRecoverySnapshot (b.recoverySnapshot id) now = .ok b') : Int64Run b'

/-- The price that a trailing stop order of the side follows. -/
def StopOrder.extremum (s : StopOrder) : Option Int :=
  match s.side with
  | .buy => s.valleyPriceTicks
  | .sell => s.peakPriceTicks

/-- The exact trigger price of a trailing stop order: `amount` above its valley, or below its peak. -/
def Side.trigger : Side → Int → Int → Int
  | .buy, extremum, amount => extremum + amount
  | .sell, extremum, amount => extremum - amount

/-- What a run guarantees of its stop orders. -/
structure StopOrder.Sized (s : StopOrder) : Prop where
  limit : s.type = .stopLimit → ∃ p, s.priceTicks = some p ∧ Ticks p
  trailing : s.type = .trailingStopMarket → ∃ a x, s.trailingAmountTicks = some a ∧ Ticks a ∧
    s.extremum = some x ∧ Ticks x ∧ s.triggerPriceTicks = wrap64 (Side.trigger s.side x a)

/-- What a run guarantees of its views. -/
structure Sized (v : View) : Prop where
  keyed : ∀ k s, v.stops.get? k = some s → s.orderId = k
  orders : ∀ o ∈ v.orders, Ticks o.price
  last : ∀ p, v.lastTradePriceTicks = some p → Ticks p
  stops : ∀ k s, v.stops.get? k = some s → s.Sized

section

variable {b : Book} {v : View} {s : StopOrder} {o : Order} {c : Call}

/-- A trailing stop order after a trade at `last`. -/
theorem trail_cases {a : Int} (last : Int) (ht : s.type = .trailingStopMarket) (ha : s.trailingAmountTicks = some a) :
    View.trail last s = s ∨
    s.side = .sell ∧ View.trail last s =
      { s with peakPriceTicks := some last, triggerPriceTicks := wrap64 (last - a) } ∨
    s.side = .buy ∧ s.valleyPriceTicks.all (last < ·) = true ∧ View.trail last s =
      { s with valleyPriceTicks := some last, triggerPriceTicks := wrap64 (last + a) } := by
  obtain ⟨_, _, _, side, type, _, _, amount, peak, valley, _, _, _, _⟩ := s
  obtain rfl : type = _ := ht
  obtain rfl : amount = _ := ha
  rw [View.trail]
  unfold trailStop
  rw [if_neg (not_not.mpr rfl)]
  split_ifs with hsell hbuy
  · exact .inr (.inl ⟨hsell.1, rfl⟩)
  · exact .inr (.inr ⟨hbuy.1, hbuy.2, rfl⟩)
  · exact .inl rfl

theorem trail_other (last : Int) (ht : s.type ≠ .trailingStopMarket) : View.trail last s = s := by
  rw [View.trail]
  unfold trailStop
  rw [if_pos ht]
  rfl

theorem StopOrder.Sized.trail (h : s.Sized) {last : Int} (hlast : Ticks last) : (View.trail last s).Sized := by
  by_cases ht : s.type = .trailingStopMarket
  · obtain ⟨a, x, ha, hpos, hx, hxt, htrigger⟩ := h.trailing ht
    rcases trail_cases last ht ha with he | ⟨hside, he⟩ | ⟨hside, -, he⟩
    · rw [he]
      exact h
    · rw [he]
      refine ⟨fun h' => absurd (ht.symm.trans h') (by simp), fun _ => ⟨a, last, ha, hpos, ?_, hlast, ?_⟩⟩
      · simp [extremum, hside]
      · simp [hside, Side.trigger]
    · rw [he]
      refine ⟨fun h' => absurd (ht.symm.trans h') (by simp), fun _ => ⟨a, last, ha, hpos, ?_, hlast, ?_⟩⟩
      · simp [extremum, hside]
      · simp [hside, Side.trigger]
  · rw [trail_other last ht]
    exact h

theorem sized_execute (h : Sized v) (hp : o.type = .limit → Ticks o.price) :
    (∀ x ∈ (v.executed o).orders, Ticks x.price) ∧ ∀ t ∈ (v.execute o).1, Ticks t.priceTicks := by
  refine ⟨fun x hx => ?_, fun t ht => ?_⟩
  · obtain ⟨y, hy | ⟨rfl, ht⟩, n, rfl⟩ := Depth.mem_execute hx
    · exact h.orders y hy
    · exact hp ht
  · obtain ⟨x, hx, he⟩ := Depth.execute_price ht
    rw [he]
    exact h.orders x hx

theorem sized_fires : Fires Sized fun t => Ticks t.priceTicks where
  keyed h := h.keyed
  clock h := ⟨h.keyed, h.orders, h.last, h.stops⟩
  last h ht := by
    refine ⟨fun k s hs => ?_, h.orders, fun p hp => Option.some.inj hp ▸ ht, fun k s hs => ?_⟩ <;>
      rw [OMap.get?_mapValues, Option.map_eq_some_iff] at hs <;> obtain ⟨t, hst, rfl⟩ := hs
    · obtain ⟨_, _, _, he⟩ := trail_eq _ t
      rw [he]
      exact h.keyed k t hst
    · exact (h.stops k t hst).trail ht
  delete h _ := ⟨fun _ _ hs => h.keyed _ _ (OMap.get?_of_delete hs).2, h.orders, h.last,
    fun _ _ hs => h.stops _ _ (OMap.get?_of_delete hs).2⟩
  fire {v s o ms} h hs ho := by
    have hn := newOrder_ok.mp ho
    obtain ⟨horders, htrades⟩ := sized_execute (o := o) h fun ht => by
      have htype : s.type = .stopLimit := by
        have := hn.type.symm.trans ht
        unfold executedType at this
        split at this
        · assumption
        · cases this
      obtain ⟨p, hp, hpt⟩ := (h.stops _ s hs).limit htype
      rw [Order.price, hn.priceTicks, show (executedInput s ms).priceTicks = some p from hp]
      exact hpt
    exact ⟨⟨fun _ _ hs => h.keyed _ _ (OMap.get?_of_delete hs).2, horders, h.last,
      fun _ _ hs => h.stops _ _ (OMap.get?_of_delete hs).2⟩, htrades⟩

/-! ## Calls -/

/-- What `orderOf` says of the order. -/
theorem orderOf_cases (h : v.orderOf c = some o) :
    (∃ i, c = .placeLimit i ∧ NewOrder v.symbol .limit i false o) ∨
      ∃ i, c = .placeMarket i ∧ NewOrder v.symbol .market i false o := by
  cases c with
  | placeLimit i => exact .inl ⟨i, rfl, newOrder_ok.mp (toOption_some h)⟩
  | placeMarket i => exact .inr ⟨i, rfl, newOrder_ok.mp (toOption_some h)⟩
  | _ => cases h

/-- A new trailing stop order starts from the last price. -/
structure TrailingStop (last : Option Int) (i : OrderInput) (s : StopOrder) : Prop where
  type : s.type = .trailingStopMarket
  side : sideOf i.side = some s.side
  orderId : s.orderId = i.orderId
  remaining : 0 < s.remainingQuantity
  start : ∃ x a, last = some x ∧ i.trailingAmountTicks = some a ∧ 0 < a ∧ s.trailingAmountTicks = some a ∧
    s.extremum = some x ∧ s.triggerPriceTicks = wrap64 (Side.trigger s.side x a)

theorem trailingStop_new {symbol : String} {last : Option Int} {i j : OrderInput} {peak valley : Option Int}
    (hn : newTrailing last i = .ok (j, peak, valley))
    (hs : NewStop symbol .trailingStopMarket j peak valley s) : TrailingStop last i s := by
  unfold newTrailing at hn
  cases last with
  | none => cases hn
  | some x =>
    dsimp only at hn
    cases ha : i.trailingAmountTicks with
    | none =>
      rw [ha] at hn
      cases hn
    | some a =>
      rw [ha] at hn
      dsimp only at hn
      split at hn
      · cases hn
      · next hpos =>
        cases hside : sideOf i.side with
        | none =>
          rw [hside] at hn
          cases hn
        | some side =>
          rw [hside] at hn
          cases side with
          | buy =>
            cases hn
            have hb : s.side = .buy := Option.some.inj (hs.side.symm.trans hside)
            refine ⟨hs.type, hs.side, hs.orderId.1, hs.quantity.2.1 ▸ hs.quantity.2.2, x, a, rfl, ha, by omega,
              hs.trailing, ?_, ?_⟩
            · rw [StopOrder.extremum, hb]
              exact hs.extrema.2
            · rw [hb]
              exact (Option.some.inj hs.trigger).symm
          | sell =>
            cases hn
            have hb : s.side = .sell := Option.some.inj (hs.side.symm.trans hside)
            refine ⟨hs.type, hs.side, hs.orderId.1, hs.quantity.2.1 ▸ hs.quantity.2.2, x, a, rfl, ha, by omega,
              hs.trailing, ?_, ?_⟩
            · rw [StopOrder.extremum, hb]
              exact hs.extrema.1
            · rw [hb]
              exact (Option.some.inj hs.trigger).symm

/-- What `stopOf` says of the stop order. -/
theorem stopOf_cases (h : v.stopOf c = some s) :
    (∃ i, c = .placeStopMarket i ∧ NewStop v.symbol .stopMarket i none none s) ∨
      (∃ i, c = .placeStopLimit i ∧ NewStop v.symbol .stopLimit i none none s) ∨
      ∃ i, c = .placeTrailingStopMarket i ∧ TrailingStop v.lastTradePriceTicks i s := by
  cases c with
  | placeStopMarket i => exact .inl ⟨i, rfl, newStop_ok.mp (toOption_some h)⟩
  | placeStopLimit i => exact .inr (.inl ⟨i, rfl, newStop_ok.mp (toOption_some h)⟩)
  | placeTrailingStopMarket i =>
    obtain ⟨⟨j, peak, valley⟩, hn, hs⟩ := Option.bind_eq_some_iff.mp h
    exact .inr (.inr ⟨i, rfl, trailingStop_new (toOption_some hn) (newStop_ok.mp (toOption_some hs))⟩)
  | _ => cases h

theorem orderOf_ticks (hc : c.IsInt64) (ho : v.orderOf c = some o) (ht : o.type = .limit) : Ticks o.price := by
  rcases orderOf_cases ho with ⟨i, rfl, hn⟩ | ⟨i, rfl, hn⟩
  · obtain ⟨p, hp, hpos⟩ := hn.limit rfl
    rw [Order.price, hn.priceTicks, hp]
    exact ⟨hpos, (OrderInput.IsInt64.priceTicks hc p hp).2⟩
  · exact absurd (hn.type.symm.trans ht) (by simp)

theorem stopOf_remaining (hs : v.stopOf c = some s) : 0 < s.remainingQuantity := by
  rcases stopOf_cases hs with ⟨i, -, hn⟩ | ⟨i, -, hn⟩ | ⟨i, -, hn⟩
  · exact hn.quantity.2.1 ▸ hn.quantity.2.2
  · exact hn.quantity.2.1 ▸ hn.quantity.2.2
  · exact hn.remaining

theorem orderOf_new (ho : v.orderOf c = some o) : o.New := by
  rcases orderOf_cases ho with ⟨i, -, hn⟩ | ⟨i, -, hn⟩
  · exact hn.new
  · exact hn.new

theorem stopOf_sized (h : Sized v) (hc : c.IsInt64) (hs : v.stopOf c = some s) : s.Sized := by
  rcases stopOf_cases hs with ⟨i, rfl, hn⟩ | ⟨i, rfl, hn⟩ | ⟨i, rfl, hn⟩
  · exact ⟨fun ht => absurd (hn.type.symm.trans ht) (by simp), fun ht => absurd (hn.type.symm.trans ht) (by simp)⟩
  · refine ⟨fun _ => ?_, fun ht => absurd (hn.type.symm.trans ht) (by simp)⟩
    obtain ⟨p, hp, hpos⟩ := hn.limit rfl
    exact ⟨p, hn.priceTicks.trans hp, hpos, (OrderInput.IsInt64.priceTicks hc p hp).2⟩
  · obtain ⟨x, a, hx, ha, hpos, hsa, hsx, htrigger⟩ := hn.start
    exact ⟨fun ht => absurd (hn.type.symm.trans ht) (by simp), fun _ => ⟨a, x, hsa,
      ⟨hpos, (OrderInput.IsInt64.trailingAmountTicks hc a ha).2⟩, hsx, h.last x hx, htrigger⟩⟩

/-- A property of the pending stop orders, once a new one is pending. -/
theorem forall_set {m : OMap String StopOrder} {P : String → StopOrder → Prop}
    (h : ∀ k t, m.get? k = some t → P k t) (hs : P s.orderId s) :
    ∀ k t, (m.set s.orderId s).get? k = some t → P k t := by
  intro k t ht
  rw [OMap.get?_set] at ht
  split at ht
  · next hk =>
    cases ht
    exact hk ▸ hs
  · exact h k t ht

theorem sized_order (h : Sized v) (hc : c.IsInt64) (ho : v.orderOf c = some o) :
    Sized (v.executed o) ∧ ∀ t ∈ (v.execute o).1, Ticks t.priceTicks := by
  obtain ⟨horders, htrades⟩ := sized_execute h (orderOf_ticks hc ho)
  exact ⟨⟨h.keyed, horders, h.last, h.stops⟩, htrades⟩

theorem sized_stop (h : Sized v) (hc : c.IsInt64) (hs : v.stopOf c = some s) :
    Sized { v with stops := v.stops.set s.orderId s } :=
  ⟨forall_set h.keyed rfl, h.orders, h.last, forall_set h.stops (stopOf_sized h hc hs)⟩

theorem sized_remove (h : Sized v) (key : String) : Sized { v with toDepth := v.remove key } := by
  refine ⟨h.keyed, fun o ho => h.orders o ?_, h.last, h.stops⟩
  rw [show Depth.orders (v.remove key) = v.orders.filter (·.orderId ≠ key) from Depth.remove_orders key] at ho
  exact List.mem_of_mem_filter ho

theorem sized_program (h : Sized v) (hc : c.IsInt64) : (Spec.program c).Post v fun _ w => Sized w :=
  sized_fires.program (fun _ h => ⟨h.keyed, h.orders, h.last, h.stops⟩) h c (fun _ ho _ => sized_order h hc ho)
    (fun _ hs _ => sized_stop h hc hs) fun key => sized_remove h key

theorem Int64Run.sized (h : Int64Run b) : ∃ v, Good b v ∧ Sized v := by
  induction h with
  | empty symbol now valid =>
    exact ⟨_, good_empty now valid, fun k s hs => (by cases hs), fun o ho => (by cases ho),
      fun p hp => (by cases hp), fun k s hs => (by cases hs)⟩
  | call h c int64 ih =>
    obtain ⟨v, hv, hsized⟩ := ih
    exact ⟨_, (call_refines c hv).2, sized_program hsized int64⟩
  | restore h id now hb ih =>
    obtain ⟨v, hv, hsized⟩ := ih
    obtain ⟨b₁, hb₁, hgood⟩ := restored hv id now
    rw [hb] at hb₁
    cases hb₁
    exact ⟨_, hgood, hsized.keyed, hsized.orders, hsized.last, hsized.stops⟩

end

/-! ## Decoded inputs -/

section

open Unmarshal

theorem map_ok {ε α β : Type} {x : Except ε α} {f : α → β} {b : β} (h : x.map f = .ok b) :
    ∃ a, x = .ok a ∧ b = f a := by
  cases x with
  | error e => cases h
  | ok a => exact ⟨a, rfl, (Except.ok.inj h).symm⟩

theorem int64_isInt64 {old n : Int} {j : Json} (ho : IsInt64 old) (h : int64 old j = .ok n) : IsInt64 n := by
  unfold int64 at h
  split at h
  · split at h
    · next hw =>
      cases h
      exact wrap64_eq_iff.mp hw
    · cases h
  · cases h
    exact ho
  · cases h

theorem int64Pointer_isInt64 {p : Option Int} {j : Json} (h : int64Pointer j = .ok p) :
    ∀ n, p = some n → IsInt64 n := by
  unfold int64Pointer at h
  split at h
  · split at h
    · next hw =>
      cases h
      rintro _ ⟨⟩
      exact wrap64_eq_iff.mp hw
    · cases h
  · cases h
    exact fun n hn => by cases hn
  · cases h

theorem setField_isInt64 {i i' : OrderInput} {field : String × Json} (hi : i.IsInt64)
    (h : setField i field = .ok i') : i'.IsInt64 := by
  unfold setField at h
  dsimp only at h
  split_ifs at h
  · obtain ⟨_, -, rfl⟩ := map_ok h
    exact ⟨hi.priceTicks, hi.triggerPriceTicks, hi.trailingAmountTicks, hi.quantity, hi.timestamp⟩
  · obtain ⟨_, -, rfl⟩ := map_ok h
    exact ⟨hi.priceTicks, hi.triggerPriceTicks, hi.trailingAmountTicks, hi.quantity, hi.timestamp⟩
  · obtain ⟨_, -, rfl⟩ := map_ok h
    exact ⟨hi.priceTicks, hi.triggerPriceTicks, hi.trailingAmountTicks, hi.quantity, hi.timestamp⟩
  · obtain ⟨p, hp, rfl⟩ := map_ok h
    exact ⟨int64Pointer_isInt64 hp, hi.triggerPriceTicks, hi.trailingAmountTicks, hi.quantity, hi.timestamp⟩
  · obtain ⟨p, hp, rfl⟩ := map_ok h
    exact ⟨hi.priceTicks, int64Pointer_isInt64 hp, hi.trailingAmountTicks, hi.quantity, hi.timestamp⟩
  · obtain ⟨p, hp, rfl⟩ := map_ok h
    exact ⟨hi.priceTicks, hi.triggerPriceTicks, int64Pointer_isInt64 hp, hi.quantity, hi.timestamp⟩
  · obtain ⟨n, hn, rfl⟩ := map_ok h
    exact ⟨hi.priceTicks, hi.triggerPriceTicks, hi.trailingAmountTicks, int64_isInt64 hi.quantity hn, hi.timestamp⟩
  · obtain ⟨n, hn, rfl⟩ := map_ok h
    exact ⟨hi.priceTicks, hi.triggerPriceTicks, hi.trailingAmountTicks, hi.quantity, int64_isInt64 hi.timestamp hn⟩
  · cases h
    exact hi

theorem setFields_isInt64 {fields : List (String × Json)} {i i' : OrderInput} (hi : i.IsInt64)
    (h : fields.foldlM setField i = .ok i') : i'.IsInt64 := by
  induction fields generalizing i with
  | nil =>
    cases h
    exact hi
  | cons field fields ih =>
    rw [List.foldlM_cons] at h
    cases hf : setField i field with
    | error e =>
      rw [hf] at h
      cases h
    | ok j =>
      rw [hf] at h
      exact ih (setField_isInt64 hi hf) h

theorem zeroInput_isInt64 : zeroInput.IsInt64 :=
  ⟨fun p hp => (by cases hp), fun p hp => (by cases hp), fun p hp => (by cases hp),
    ⟨by decide, by decide⟩, ⟨by decide, by decide⟩⟩

/-- The numbers of a command are `int64`. -/
theorem Command.call_isInt64 {c : Command} {call : Call} (h : c.call = .ok call) : call.IsInt64 := by
  have hinput : ∀ {i}, orderInput c.payload = .ok i → i.IsInt64 := by
    intro i hi
    unfold orderInput at hi
    split at hi
    · exact setFields_isInt64 zeroInput_isInt64 hi
    · cases hi
      exact zeroInput_isInt64
    · cases hi
  unfold Command.call at h
  split at h
  · obtain ⟨_, -, rfl⟩ := map_ok h
    trivial
  · cases hi : orderInput c.payload with
    | error e =>
      rw [hi] at h
      cases h
    | ok i =>
      rw [hi] at h
      dsimp only at h
      split_ifs at h <;> cases h <;> exact hinput hi

end

end Lob.Go
