import LobEngine.Go.Determinism

/-!
# A cancelled order that nobody traded with

`cancelled_order_leaves_no_trace`: a limit order that rests, trades with nobody and is cancelled has had
no influence on the calls in between, and leaves the book as it would be without it.
-/

namespace Lob.Go

open Exc

/-- The second book is the first one without the order `key`. -/
def untouched (key : String) : Pairing where
  seen := id
  ids := fun k => k ≠ key
  bad := fun t => t.names key
  events := False
  sides := fun d e => d.Sorted ∧ e = d.remove key
  has := by
    rintro d _ ⟨-, rfl⟩ k hk
    unfold Depth.ids
    rw [Depth.remove_orders, List.mem_map, List.mem_map]
    refine exists_congr fun o => and_congr_left fun ho => ?_
    rw [List.mem_filter, ho]
    exact (and_iff_left (decide_eq_true hk)).symm
  find := by
    rintro d _ ⟨-, rfl⟩ k hk
    rw [Depth.remove_orders, List.find?_filter]
    refine congrArg _ (congrArg (List.find? · d.orders) (funext fun o => ?_))
    by_cases ho : o.orderId = k
    · simp [ho, hk]
    · simp [ho]
  remove := by
    rintro d _ ⟨hs, rfl⟩ k -
    exact ⟨Depth.remove_sorted hs k, Depth.remove_remove _ _⟩
  execute := by
    rintro d _ ⟨hs, rfl⟩ o p hop hid hno
    obtain rfl : o = p := hop
    rw [Depth.execute_remove hs hid hno]
    exact ⟨rfl, rfl, Depth.execute_sorted hs, rfl⟩
  levels := fun h => h.elim

/-- What a result says but for its events. -/
def Result.withoutEvents (r : Result) : Result := { r with events := [] }

/-- What a recovery snapshot says but for the sequence number. -/
def RecoverySnapshot.unnumbered (r : RecoverySnapshot) : RecoverySnapshot := { r with sequence := 0 }

section

variable {b b' : Book} {v : View} {n : Nat} {key : String}

theorem Good.sorted (h : Good b v) : v.toDepth.Sorted := by
  obtain ⟨⟨F, hr⟩, -⟩ := h
  exact hr.sorted

theorem untouched_outcome {r r' : Except GoError Result} (h : (untouched key).SameOutcome r r') :
    r.map (·.withoutEvents) = r'.map (·.withoutEvents) := by
  have hrestamp : ∀ r : Result, r.withoutEvents = (r.restamp id).withoutEvents := fun r => by
    rw [r.restamp_id]
  cases r with
  | error e =>
    cases r' with
    | error e' => exact congrArg Except.error h
    | ok r' => exact h.elim
  | ok r =>
    cases r' with
    | error e' => exact h.elim
    | ok r' =>
      obtain ⟨horder, htrades, htriggered, -⟩ := h
      refine congrArg Except.ok ?_
      show r.withoutEvents = r'.withoutEvents
      rw [hrestamp r, hrestamp r']
      show Result.mk _ _ _ [] = Result.mk _ _ _ []
      exact congrArg (· []) (congr (congr (congrArg Result.mk horder) htrades) htriggered)

/-- The cancelled order is gone: the books agree but for the sequence number. -/
theorem untouched_cancel (h : (untouched key).Together n b b') (id : Option String) :
    ((call b (.cancel key)).2.recoverySnapshot id).unnumbered = (b'.recoverySnapshot id).unnumbered := by
  obtain ⟨v, w, hv, ⟨⟨F', hr'⟩, -⟩, h⟩ := h
  obtain ⟨-, hside⟩ := h.sides
  obtain ⟨⟨F, hr⟩, -⟩ := (call_refines (.cancel key) hv).2
  have hpend : v.stops.get? key = none := by
    cases hs : v.stops.get? key with
    | none => rfl
    | some s => exact absurd (hv.2.keyed key s hs) (h.ids s (OMap.mem_values.mpr ⟨key, hs⟩))
  rw [hr.recoverySnapshot_eq, hr'.recoverySnapshot_eq]
  have hfinal : ((Spec.program (.cancel key)).run v).2.toDepth = w.toDepth ∧
      ((Spec.program (.cancel key)).run v).2.symbol = v.symbol ∧
      ((Spec.program (.cancel key)).run v).2.stops = v.stops ∧
      ((Spec.program (.cancel key)).run v).2.lastTradePriceTicks = v.lastTradePriceTicks := by
    unfold Spec.program Spec.cancelOrder
    rw [run_get_bind, hpend]
    dsimp only
    cases ho : v.orders.find? (fun o => decide (o.orderId = key)) with
    | none =>
      refine ⟨?_, rfl, rfl, rfl⟩
      rw [hside]
      refine (Depth.remove_absent fun hmem => ?_).symm
      obtain ⟨o, ho', hkey⟩ := List.mem_map.mp hmem
      exact (List.find?_eq_none.mp ho) o ho' (decide_eq_true hkey)
    | some o =>
      have hkey : o.orderId = key := by simpa using List.find?_some ho
      refine ⟨?_, rfl, rfl, rfl⟩
      rw [hside, ← hkey]
      rfl
  obtain ⟨h₁, h₂, h₃, h₄⟩ := hfinal
  unfold View.recoverySnapshot RecoverySnapshot.unnumbered
  rw [h₁, h₂, h₃, h₄, h.symbol, h.stops, h.last]

/-- A limit order that was placed without a trade rests. -/
theorem placeLimit_none {input : OrderInput} {r : Result} {w : View}
    (h : (Spec.placeLimit input).run v = (.ok r, w)) (hr : r.trades = []) :
    ¬ v.hasId input.orderId ∧ ∃ o n, o.orderId = input.orderId ∧
      w = { v with toDepth := v.rest o, sequence := n, clock := v.clock.tail } := by
  unfold Spec.placeLimit at h
  by_cases hid : v.hasId input.orderId
  · rw [run_bind_error (Spec.assertAvailable_taken hid)] at h
    cases h
  · refine ⟨hid, ?_⟩
    rw [run_bind_ok (Spec.assertAvailable_free hid), run_get_bind, run_lift_bind] at h
    cases ho : newOrder v.symbol .limit input false with
    | error e => rw [ho] at h; cases h
    | ok o =>
      rw [ho] at h
      have hN := newOrder_ok.mp ho
      dsimp only at h
      rw [run_bind_ok (show (Spec.execute o).run v =
        (.ok ((v.execute o).2.1, (v.execute o).1), v.executed o) from rfl)] at h
      obtain ⟨t, v₁, ht, h⟩ := bind_ok h
      have htrades : r.trades = (v.execute o).1 ++ t.trades := by cases h; rfl
      rw [hr, eq_comm, List.append_eq_nil_iff] at htrades
      have hexec := Depth.execute_none hN.type (by rw [hN.quantity.2.1]; exact hN.quantity.2.2) htrades.1
      have hv₁ : v₁ = v.executed o := by
        rw [htrades.1] at ht
        unfold Spec.cascade at ht
        cases ht
        rfl
      refine ⟨o, w.sequence, hN.orderId.1, ?_⟩
      cases h
      rw [hv₁]
      unfold View.executed
      rw [hexec, List.append_nil]

end

/-- A limit order is placed without a trade, other calls are made that do not use its id and in which
it takes part in no trade, and it is cancelled. The other calls have the same outcomes (but for the
events) as without it, with the same readings of the clock, and the book ends with the same recovery
snapshot (but for the sequence number). -/
theorem cancelled_order_leaves_no_trace {b b₁ b₂ : Book} {input : OrderInput} (h : Reachable b)
    (hplace : (call b (.placeLimit input)).1.map (·.trades) = .ok [])
    (h₁ : b₁ = (call b (.placeLimit input)).2) (h₂ : b₂ = { b with now := b₁.now }) (cs : List Call)
    (hids : ∀ c ∈ cs, c.orderId ≠ input.orderId)
    (hno : ∀ t ∈ (calls b₁ cs).trades.drop b₁.trades.length, ¬ t.names input.orderId) :
    List.Forall₂ (fun x y => x.1.map (·.withoutEvents) = y.1.map (·.withoutEvents))
        (steps b₁ cs) (steps b₂ cs) ∧
      ∀ id, ((call (calls b₁ cs) (.cancel input.orderId)).2.recoverySnapshot id).unnumbered =
        ((calls b₂ cs).recoverySnapshot id).unnumbered := by
  obtain ⟨v, hv⟩ := h.good
  obtain ⟨hout, hgood⟩ := call_refines (.placeLimit input) hv
  rw [hout] at hplace
  rw [← h₁] at hgood
  obtain ⟨r, hrun, hr⟩ : ∃ r, ((Spec.program (.placeLimit input)).run v).1 = .ok r ∧ r.trades = [] := by
    cases hrun : ((Spec.program (.placeLimit input)).run v).1 with
    | error e => rw [hrun] at hplace; cases hplace
    | ok r => rw [hrun] at hplace; exact ⟨r, rfl, Except.ok.inj hplace⟩
  set w := ((Spec.program (.placeLimit input)).run v).2 with hwdef
  obtain ⟨hid, o, n, ho, hw⟩ := placeLimit_none (w := w) (Prod.ext hrun rfl) hr
  have hb₂ : Good b₂ { v with clock := b₁.now } := by
    obtain ⟨⟨F, hr⟩, -⟩ := id hv
    rw [h₂]
    exact hv.scalars rfl (by simp only [hr.last, hr.sequence])
  have htogether : (untouched input.orderId).Together b₁.trades.length b₁ b₂ := by
    obtain ⟨⟨F, hrepr⟩, -⟩ := id hgood
    refine ⟨w, _, hgood, hb₂, ⟨hgood.sorted, ?_⟩, ?_, ?_, fun s hs => ?_, ?_, fun hf => hf.elim, fun k => ?_, ?_⟩
    · rw [hw, ← ho]
      show v.toDepth = (v.rest o).remove o.orderId
      rw [Depth.remove_rest, Depth.remove_absent]
      exact fun hmem => hid (.inl (ho ▸ hmem))
    · rw [hw]
    · rw [hw]
    · intro hs'
      rw [hw] at hs
      obtain ⟨k, hk⟩ := OMap.mem_values.mp hs
      refine hid (.inr (OMap.mem_keys.mpr ⟨s, ?_⟩))
      rw [← hs', hv.2.keyed k s hk]
      exact hk
    · rw [hw]
    · rw [hrepr.clock]
      exact ⟨rfl, Iff.rfl⟩
    · rw [hrepr.trades]
  obtain ⟨hsteps, hend⟩ := htogether.steps cs hids hno
  exact ⟨hsteps.imp fun x y hxy => untouched_outcome hxy.1, untouched_cancel hend⟩

/-- The sell order `x` rests behind `a`, which a market order takes. -/
theorem cancelled_order_leaves_no_trace_ask :
    ((call (calls (call oneAsk (.placeLimit (limitInput "x" .sell 2 1))).2
        [.placeMarket { limitInput "m" .buy 1 1 with priceTicks := none }]) (.cancel "x")).2.recoverySnapshot
          none).unnumbered =
      ((calls { oneAsk with now := (call oneAsk (.placeLimit (limitInput "x" .sell 2 1))).2.now }
        [.placeMarket { limitInput "m" .buy 1 1 with priceTicks := none }]).recoverySnapshot none).unnumbered :=
  (cancelled_order_leaves_no_trace oneAsk_reachable (by decide) rfl rfl _ (by decide) (by decide)).2 none

end Lob.Go
