import LobEngine.Node.Pending

/-!
# Calls that throw

A call that throws before it begins to match leaves the book as it is (`program_error`). Once the order of
the call is accepted and matched, an error can only come from the stop orders that its trades triggered.

* `View.begins`, `OrderBook.begins`: the call begins to match.
* `program_begun`: a call that begins to match executes its order, and what follows is the cascade.
* `Repr.error`: an error before the call begins to match, seen from the book.
-/

namespace Lob.Node

open Exc OrderBook

/-- The order that the call executes at once, as the constructor gets it. -/
def Call.orderInput (symbol : String) : Call → Option OrderInput
  | .placeLimitOrder (some p) => some { p with symbol, type := .limit, clock := false }
  | .placeMarketOrder (some p) =>
    some { p with symbol, type := .market, priceTicks := .null, clock := false }
  | _ => none

/-- The order of the call is accepted, so it is matched. -/
def View.begins (v : View) (c : Call) : Prop :=
  ∃ i o, c.orderInput v.symbol = some i ∧ v.hasId i.orderId = false ∧ newOrder i = .ok o

/-- The order of the call is accepted, so it is matched. -/
def OrderBook.begins (b : OrderBook) (c : Call) : Bool :=
  (c.orderInput b.symbol).any fun i => !b.ordersById.has i.orderId && !b.stopOrdersById.has i.orderId &&
    (newOrder i).toOption.isSome

section

variable {b : OrderBook} {F : Side → List NodeRef} {v w : View} {c : Call} {e : JsError}

theorem Repr.begins (h : Repr b F v) (c : Call) : b.begins c = true ↔ v.begins c := by
  unfold OrderBook.begins View.begins
  rw [h.symbol]
  cases hi : c.orderInput b.symbol with
  | none => simp
  | some i =>
    simp only [Option.any_some, Option.some.injEq, exists_and_left, exists_eq_left', h.hasId_eq]
    cases newOrder i <;> simp [Except.toOption]

/-! ## Calls that begin -/

theorem available_run {id : JsVal} (h : v.hasId id = false) :
    (Spec.assertOrderIdAvailable id).run v = (.ok (), v) := by
  rw [Spec.assertOrderIdAvailable, run_get_bind, if_neg (by simp [h])]
  rfl

theorem taken_run {id : JsVal} (h : v.hasId id = true) :
    (Spec.assertOrderIdAvailable id).run v = (.error (.errorFor "order already exists: " id), v) := by
  rw [Spec.assertOrderIdAvailable, run_get_bind, if_pos h]
  rfl

/-- The checks of a placement pass, and its order executes. -/
theorem executeNew_then {p : Payload} {i : String → Payload → OrderInput} {o : Order}
    {f : Order × List Trade → SpecProgram Outcome} (hid : v.hasId p.orderId = false)
    (ho : newOrder (i v.symbol p) = .ok o) :
    (Spec.destructure (some p) >>= fun p => Spec.assertOrderIdAvailable p.orderId >>= fun _ =>
      get >>= fun v' => Spec.execute (i v'.symbol p) >>= f).run v =
      (f (v.executedOrder o, (v.fillFrom o (decide (o.type ≠ .limit))).1)).run (v.executed o) := by
  rw [run_bind_ok (show (Spec.destructure (some p)).run v = (.ok p, v) from rfl), run_bind_ok (available_run hid),
    run_get_bind, run_bind_ok (spec_execute_ok ho)]

/-- A call that begins to match: its order executes, then the cascade runs, and the rest returns. -/
theorem program_begun (h : v.begins c) :
    ∃ o, ∃ f : Triggered → SpecProgram Outcome,
      (∃ i, c.orderInput v.symbol = some i ∧ NewOrder i o ∧ v.hasId i.orderId = false) ∧
      (Spec.program c).run v =
        (Spec.cascade maxCycles (v.fillFrom o (decide (o.type ≠ .limit))).1 >>= f).run (v.executed o) ∧
      ∀ t u, ∃ x, ((f t).run u).1 = .ok x := by
  obtain ⟨i, o, hi, hid, ho⟩ := h
  cases c with
  | placeLimitOrder args =>
    cases args with
    | none => cases hi
    | some p =>
      cases hi
      exact ⟨o, _, ⟨_, rfl, newOrder_ok.mp ho, hid⟩, executeNew_then (i := fun symbol p =>
        { p with symbol, type := .limit, clock := false }) hid ho, fun t u => ⟨_, rfl⟩⟩
  | placeMarketOrder args =>
    cases args with
    | none => cases hi
    | some p =>
      cases hi
      exact ⟨o, _, ⟨_, rfl, newOrder_ok.mp ho, hid⟩, executeNew_then (i := fun symbol p =>
        { p with symbol, type := .market, priceTicks := .null, clock := false }) hid ho, fun t u => ⟨_, rfl⟩⟩
  | _ => cases hi

/-! ## Calls that do not begin -/

theorem acceptStop_returns (s : StopOrder) : (Spec.acceptStop s).run v ≠ (.error e, w) := by
  intro h
  cases h

/-- A placement throws before its order executes. -/
theorem checked_error {args : Option Payload} {f : Payload → SpecProgram Outcome}
    (h : (Spec.destructure args >>= fun p => Spec.assertOrderIdAvailable p.orderId >>= fun _ => f p).run v =
      (.error e, w)) :
    w = v ∨ ∃ p, args = some p ∧ v.hasId p.orderId = false ∧ (f p).run v = (.error e, w) := by
  cases args with
  | none =>
    cases h
    exact .inl rfl
  | some p =>
    rw [run_bind_ok (show (Spec.destructure (some p)).run v = (.ok p, v) from rfl)] at h
    cases hid : v.hasId p.orderId with
    | true =>
      rw [run_bind_error (taken_run hid)] at h
      cases h
      exact .inl rfl
    | false =>
      rw [run_bind_ok (available_run hid)] at h
      exact .inr ⟨p, rfl, hid, h⟩

theorem executeNew_error {i : OrderInput} {f : Order × List Trade → SpecProgram Outcome}
    (h : (Spec.execute i >>= f).run v = (.error e, w)) : w = v ∨ ∃ o, newOrder i = .ok o := by
  cases ho : newOrder i with
  | error e' =>
    rw [run_bind_error (spec_execute_error ho)] at h
    cases h
    exact .inl rfl
  | ok o => exact .inr ⟨o, rfl⟩

/-- An error before the call begins to match leaves the view as it is. -/
theorem program_error (h : (Spec.program c).run v = (.error e, w)) : w = v ∨ v.begins c := by
  cases c with
  | placeLimitOrder args =>
    rcases checked_error h with rfl | ⟨p, rfl, hid, h⟩
    · exact .inl rfl
    · exact (executeNew_error h).imp_right fun ⟨o, ho⟩ => ⟨_, o, rfl, hid, ho⟩
  | placeMarketOrder args =>
    rcases checked_error h with rfl | ⟨p, rfl, hid, h⟩
    · exact .inl rfl
    · exact (executeNew_error h).imp_right fun ⟨o, ho⟩ => ⟨_, o, rfl, hid, ho⟩
  | placeStopMarketOrder args =>
    rcases checked_error h with rfl | ⟨p, rfl, hid, h⟩
    · exact .inl rfl
    · exact absurd h (acceptStop_returns _)
  | placeStopLimitOrder args =>
    rcases checked_error h with rfl | ⟨p, rfl, hid, h⟩
    · exact .inl rfl
    · exact absurd h (acceptStop_returns _)
  | placeTrailingStopMarketOrder args =>
    rcases checked_error h with rfl | ⟨p, rfl, hid, h⟩
    · exact .inl rfl
    · rw [run_get_bind] at h
      cases hl : v.lastTradePriceTicks with
      | none =>
        rw [hl] at h
        cases h
        exact .inl rfl
      | some last =>
        rw [hl] at h
        dsimp only at h
        rw [run_lift_bind] at h
        cases ha : assertPositiveInteger "trailingAmountTicks" p.trailingAmountTicks with
        | error e' =>
          rw [ha] at h
          cases h
          exact .inl rfl
        | ok amount =>
          rw [ha] at h
          exact absurd h (acceptStop_returns _)
  | cancelOrder key =>
    unfold Spec.program Spec.cancelOrder at h
    rw [run_get_bind] at h
    cases hs : v.stops.get? key with
    | some s =>
      rw [hs] at h
      cases h
    | none =>
      rw [hs] at h
      dsimp only at h
      cases ho : v.orders.find? (fun o => decide (.str o.orderId = key)) with
      | some o =>
        rw [ho] at h
        cases h
      | none =>
        rw [ho] at h
        cases h
        exact .inl rfl

/-- An error before the call begins to match: the book represents the same view. -/
theorem Repr.error (h : Repr b F v) (hv : v.Ok) (hex : v.openQuantity + c.quantity ≤ Num.maxExact)
    (he : (call b c).1 = .error e) (hc : b.begins c = false) : ∃ F', Repr (call b c).2 F' v := by
  obtain ⟨hout, ⟨F', hr'⟩, -⟩ := call_refines c h hv hex
  rw [he] at hout
  rcases hrun : (Spec.program c).run v with ⟨r, w⟩
  rw [hrun] at hout hr'
  obtain rfl : Except.error e = r := hout
  rcases program_error hrun with rfl | hb
  · exact ⟨F', hr'⟩
  · rw [(h.begins c).mpr hb] at hc
    cases hc

end

end Lob.Node
