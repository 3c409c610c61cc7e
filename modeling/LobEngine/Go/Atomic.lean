import LobEngine.Go.Determinism

/-!
# Calls that err

A call that errs before it begins to match leaves the book as it is (`program_error`). Once the order of
the call is accepted and matched, an error can only come from the stop orders that its trades triggered.

* `View.begins`, `Book.begins`: the call begins to match.
* `program_begun`: a call that begins to match executes its order, and what follows is the cascade.
* `Good.error`: an error before the call begins to match, seen from the book.
-/

namespace Lob.Go

open Exc

/-- The order of the call is accepted, so it is matched. -/
def View.begins (v : View) : Call → Prop
  | .placeLimit i => ¬ v.hasId i.orderId ∧ ∃ o, newOrder v.symbol .limit i false = .ok o
  | .placeMarket i => ¬ v.hasId i.orderId ∧ ∃ o, newOrder v.symbol .market i false = .ok o
  | _ => False

/-- The order of the call is accepted, so it is matched. -/
def Book.begins (b : Book) : Call → Bool
  | .placeLimit i => !b.orders.has i.orderId && !b.stopOrders.has i.orderId &&
      (newOrder b.symbol .limit i false).toOption.isSome
  | .placeMarket i => !b.orders.has i.orderId && !b.stopOrders.has i.orderId &&
      (newOrder b.symbol .market i false).toOption.isSome
  | _ => false

section

variable {b : Book} {v w : View} {e : GoError}

/-! ## Calls that do not begin -/

theorem executeNew_error {typ : OrderType} {i : OrderInput} {f : Order → SpecProgram Result}
    (h : (Spec.assertAvailable i.orderId >>= fun _ => get >>= fun v' =>
      Exc.lift (newOrder v'.symbol typ i false) >>= f).run v = (.error e, w)) :
    w = v ∨ ¬ v.hasId i.orderId ∧ ∃ o, newOrder v.symbol typ i false = .ok o := by
  by_cases hid : v.hasId i.orderId
  · rw [run_bind_error (Spec.assertAvailable_taken hid)] at h
    cases h
    exact .inl rfl
  · rw [run_bind_ok (Spec.assertAvailable_free hid), run_get_bind, run_lift_bind] at h
    cases ho : newOrder v.symbol typ i false with
    | error e' =>
      rw [ho] at h
      cases h
      exact .inl rfl
    | ok o => exact .inr ⟨hid, o, rfl⟩

theorem placeStop_error {i : OrderInput} {typ : OrderType} {peak valley : Option Int}
    (h : (Spec.placeStopWithExtrema i typ peak valley).run v = (.error e, w)) : w = v := by
  unfold Spec.placeStopWithExtrema at h
  by_cases hid : v.hasId i.orderId
  · rw [run_bind_error (Spec.assertAvailable_taken hid)] at h
    cases h
    rfl
  · rw [run_bind_ok (Spec.assertAvailable_free hid), run_get_bind, run_lift_bind] at h
    cases hs : newStop v.symbol typ i peak valley with
    | error e' =>
      rw [hs] at h
      cases h
      rfl
    | ok s =>
      rw [hs] at h
      cases h

/-- An error before the call begins to match leaves the view as it is. -/
theorem program_error {c : Call} (h : (Spec.program c).run v = (.error e, w)) : w = v ∨ v.begins c := by
  cases c with
  | placeLimit i => exact executeNew_error h
  | placeMarket i => exact executeNew_error h
  | placeStopMarket i => exact .inl (placeStop_error h)
  | placeStopLimit i => exact .inl (placeStop_error h)
  | placeTrailingStopMarket i =>
    unfold Spec.program Spec.placeTrailingStopMarket at h
    rw [run_get_bind, run_lift_bind] at h
    cases hn : newTrailing v.lastTradePriceTicks i with
    | error e' =>
      rw [hn] at h
      cases h
      exact .inl rfl
    | ok x =>
      rw [hn] at h
      exact .inl (placeStop_error h)
  | cancel key =>
    unfold Spec.program Spec.cancelOrder at h
    rw [run_get_bind] at h
    cases hs : v.stops.get? key with
    | some s =>
      rw [hs] at h
      cases h
    | none =>
      rw [hs] at h
      dsimp only at h
      cases ho : v.orders.find? (fun o => decide (o.orderId = key)) with
      | some o =>
        rw [ho] at h
        cases h
      | none =>
        rw [ho] at h
        cases h
        exact .inl rfl

/-! ## Calls that begin -/

/-- The order of a placement is accepted, and executes. -/
theorem executeNew_then {typ : OrderType} {i : OrderInput} {o : Order} {α : Type}
    {f : Order × List Trade → SpecProgram α} (hid : ¬ v.hasId i.orderId)
    (ho : newOrder v.symbol typ i false = .ok o) :
    (Spec.assertAvailable i.orderId >>= fun _ => get >>= fun v' =>
      Exc.lift (newOrder v'.symbol typ i false) >>= fun o => Spec.execute o >>= f).run v =
      (f ((v.execute o).2.1, (v.execute o).1)).run (v.executed o) := by
  rw [run_bind_ok (Spec.assertAvailable_free hid), run_get_bind, run_lift_bind, ho]
  rfl

/-- A call that begins to match: its order executes, then the cascade runs, and the rest returns. -/
theorem program_begun {c : Call} (h : v.begins c) :
    ∃ o, ∃ f : StopResult → SpecProgram Result, ¬ v.hasId o.orderId ∧ o.symbol = v.symbol ∧
      (Spec.program c).run v = (Spec.cascade maxCycles (v.execute o).1 >>= f).run (v.executed o) ∧
      ∀ t u, ∃ x, ((f t).run u).1 = .ok x := by
  cases c with
  | placeLimit i =>
    obtain ⟨hid, o, ho⟩ := h
    have hn := newOrder_ok.mp ho
    exact ⟨o, _, hn.orderId.1 ▸ hid, hn.symbol.1, executeNew_then hid ho, fun t u => ⟨_, rfl⟩⟩
  | placeMarket i =>
    obtain ⟨hid, o, ho⟩ := h
    have hn := newOrder_ok.mp ho
    exact ⟨o, _, hn.orderId.1 ▸ hid, hn.symbol.1, executeNew_then hid ho, fun t u => ⟨_, rfl⟩⟩
  | _ => exact h.elim

theorem Good.begins (h : Good b v) (c : Call) : b.begins c = true ↔ v.begins c := by
  obtain ⟨⟨F, hr⟩, -⟩ := h
  have hplace : ∀ typ i, (!b.orders.has i.orderId && !b.stopOrders.has i.orderId &&
      (newOrder b.symbol typ i false).toOption.isSome) = true ↔
        ¬ v.hasId i.orderId ∧ ∃ o, newOrder v.symbol typ i false = .ok o := by
    intro typ i
    rw [← hr.has_iff, hr.symbol, not_or]
    cases newOrder b.symbol typ i false <;> simp [Except.toOption]
  cases c with
  | placeLimit i => exact hplace .limit i
  | placeMarket i => exact hplace .market i
  | _ => exact ⟨fun h => (Bool.false_ne_true h).elim, fun h => h.elim⟩

/-- An error before the call begins to match: the book represents the same view. -/
theorem Good.error (h : Good b v) {c : Call} (he : (call b c).1 = .error e) (hc : b.begins c = false) :
    Good (call b c).2 v := by
  obtain ⟨hout, hgood⟩ := call_refines c h
  rw [he] at hout
  rcases hrun : (Spec.program c).run v with ⟨r, w⟩
  rw [hrun] at hout hgood
  obtain rfl : Except.error e = r := hout
  rcases program_error hrun with rfl | hb
  · exact hgood
  · rw [(h.begins c).mpr hb] at hc
    cases hc

end

end Lob.Go
