import LobEngine.Go.Lockstep

/-!
# What the results of the Go engine depend on

* `recovery_lossless`: a book and the book restored from its recovery snapshot do the same from then on.
* `clock_irrelevant`: the clock shows only in the timestamps of what stop orders triggered, and of the
  events of the book.

Both compare two books whose orders differ in their timestamps only (`stampPairing`).
-/

namespace Lob.Go

/-- Books with the same orders, up to what `f` sees of the timestamps. -/
def stampPairing (f : Stamp → Stamp) : Pairing where
  seen := f
  ids := fun _ => True
  bad := fun _ => False
  events := True
  sides := fun d e => d.restamp f = e.restamp f
  has := fun {d e} h key _ => by rw [← Depth.ids_restamp f d, h, Depth.ids_restamp]
  find := fun {d e} h key _ => by
    have hfind : ∀ d : Depth, (d.orders.find? fun o => decide (o.orderId = key)).map (·.restamp f) =
        (d.restamp f).orders.find? fun o => decide (o.orderId = key) := fun d => by
      rw [Depth.orders_restamp, List.find?_map]
      rfl
    rw [hfind, hfind, h]
  remove := fun {d e} h key _ => by rw [← Depth.remove_restamp, h, Depth.remove_restamp]
  execute := fun {d e} h o p hop _ _ => by
    have hd := Depth.execute_restamp f d o
    have he := Depth.execute_restamp f e p
    rw [h, hop, he, Prod.mk.injEq, Prod.mk.injEq] at hd
    exact ⟨hd.1.symm, hd.2.1.symm, hd.2.2.symm⟩
  levels := fun _ {d e} h s => by
    have hs : (d.side s).map (·.restamp f) = (e.side s).map (·.restamp f) := by
      rw [← Depth.side_restamp, ← Depth.side_restamp, h]
    refine ⟨?_, ?_⟩
    · have hhead := congrArg (fun L => L.head?.map Order.price) hs
      rw [List.head?_map, List.head?_map, Option.map_map, Option.map_map] at hhead
      exact hhead
    · rw [← levelSnapshots_restamp f, hs, levelSnapshots_restamp]

section

variable {f : Stamp → Stamp} {n : Nat} {b b' : Book}

/-- The same outcome, up to what `f` sees of the timestamps. -/
theorem stampPairing_outcome {r r' : Except GoError Result} (h : (stampPairing f).SameOutcome r r') :
    r.map (·.restamp f) = r'.map (·.restamp f) := by
  cases r with
  | error e =>
    cases r' with
    | error e' => exact congrArg Except.error h
    | ok r' => exact h.elim
  | ok r =>
    cases r' with
    | error e' => exact h.elim
    | ok r' =>
      obtain ⟨horder, htrades, htriggered, hevents⟩ := h
      have hevents := hevents trivial
      refine congrArg Except.ok ?_
      unfold Result.restamp
      exact congr (congr (congr (congrArg Result.mk horder) htrades) htriggered) hevents

theorem stampPairing_books (h : (stampPairing f).Together n b b') :
    b.snapshot = b'.snapshot ∧
      ∀ id, (b.recoverySnapshot id).restamp f = (b'.recoverySnapshot id).restamp f := by
  obtain ⟨v, w, ⟨⟨F, hr⟩, -⟩, ⟨⟨F', hr'⟩, -⟩, h⟩ := h
  rw [hr.snapshot_eq, hr'.snapshot_eq]
  refine ⟨h.snapshot trivial, fun id => ?_⟩
  rw [hr.recoverySnapshot_eq, hr'.recoverySnapshot_eq]
  have hside : ∀ s, (View.levels View.recoveryLevel (v.side s)).map (·.restamp f) =
      (View.levels View.recoveryLevel (w.side s)).map (·.restamp f) := fun s => by
    have hs : v.toDepth.restamp f = w.toDepth.restamp f := h.sides
    rw [← recoveryLevels_restamp, ← recoveryLevels_restamp, ← Depth.side_restamp, ← Depth.side_restamp, hs]
  unfold View.recoverySnapshot RecoverySnapshot.restamp
  rw [h.symbol, h.stops, h.last, h.sequence trivial]
  congr 1
  · exact hside .buy
  · exact hside .sell

theorem stampPairing_steps (h : (stampPairing f).Together n b b') (cs : List Call) :
    List.Forall₂ (fun x y => x.1.map (·.restamp f) = y.1.map (·.restamp f) ∧
        x.2.snapshot = y.2.snapshot ∧
        ∀ id, (x.2.recoverySnapshot id).restamp f = (y.2.recoverySnapshot id).restamp f)
      (steps b cs) (steps b' cs) := by
  refine (h.steps cs (fun _ _ => trivial) fun _ _ => not_false).1.imp fun x y hxy => ?_
  exact ⟨stampPairing_outcome hxy.1, stampPairing_books hxy.2⟩

end

/-! ## Recovery -/

theorem map_restamp_id (r : Except GoError Result) : r.map (·.restamp id) = r := by
  cases r with
  | error e => rfl
  | ok r => exact congrArg Except.ok r.restamp_id

/-- A reachable book and the book restored from its recovery snapshot, with the same clock, show the same
snapshots and do the same in every sequence of calls. -/
theorem recovery_lossless {b : Book} (h : Reachable b) (key : Option String) :
    ∃ r, fromRecoverySnapshot (b.recoverySnapshot key) b.now = .ok r ∧
      b.snapshot = r.snapshot ∧ (∀ key, b.recoverySnapshot key = r.recoverySnapshot key) ∧
      ∀ cs, List.Forall₂ (fun x y => x.1 = y.1 ∧ x.2.snapshot = y.2.snapshot ∧
        ∀ key, x.2.recoverySnapshot key = y.2.recoverySnapshot key) (steps b cs) (steps r cs) := by
  obtain ⟨v, hv⟩ := h.good
  obtain ⟨r, hr, hgood⟩ := restored hv key b.now
  obtain ⟨⟨F, hrepr⟩, -⟩ := id hv
  have hclock : v.clock = b.now := hrepr.clock
  have htogether : (stampPairing id).Together 0 b r :=
    ⟨v, _, hv, hgood, rfl, rfl, rfl, fun _ _ => trivial, rfl, fun _ => rfl,
      fun k => ⟨by rw [hclock], by rw [hclock]⟩, Nat.zero_le _⟩
  obtain ⟨hsnap, hrec⟩ := stampPairing_books htogether
  refine ⟨r, hr, hsnap, fun key => ?_, fun cs => (stampPairing_steps htogether cs).imp fun x y hxy => ?_⟩
  · rw [← (b.recoverySnapshot key).restamp_id, hrec, RecoverySnapshot.restamp_id]
  · obtain ⟨hout, hsnap, hrec⟩ := hxy
    rw [map_restamp_id, map_restamp_id] at hout
    refine ⟨hout, hsnap, fun key => ?_⟩
    rw [← (x.2.recoverySnapshot key).restamp_id, hrec, RecoverySnapshot.restamp_id]

/-- The restored book makes the same four trades, the last of them by the stop order that the call triggers. -/
theorem recovery_lossless_mixed :
    ((call mixed sweep).1.toOption.map fun x => (x.trades.length, x.triggeredOrders.length)) = some (4, 1) ∧
      ∃ r, fromRecoverySnapshot (mixed.recoverySnapshot (some "7")) mixed.now = .ok r ∧
        mixed.snapshot = r.snapshot ∧ (call mixed sweep).1 = (call r sweep).1 ∧
        (call mixed sweep).2.snapshot = (call r sweep).2.snapshot := by
  refine ⟨by decide +kernel, ?_⟩
  obtain ⟨r, hr, hsnapshot, -, hsteps⟩ := recovery_lossless mixed_reachable (some "7")
  obtain ⟨⟨hout, hsnapshots, -⟩, -⟩ := List.forall₂_cons.mp (hsteps [sweep])
  exact ⟨r, hr, hsnapshot, hout, hsnapshots⟩

/-! ## The clock -/

/-- Without the reading of the clock, if it is one. -/
def Stamp.erase (s : Stamp) : Stamp := if s.clock then ⟨0, true⟩ else s

/-- Two empty books with different clocks do the same in every sequence of calls: same outcomes, same
snapshots, and same recovery snapshots, but for the timestamps of orders that a stop order triggered, of
trades that such an order made as the aggressor, and of the events of the book. -/
theorem clock_irrelevant {symbol : String} {c c' : Clock} (hs : isBlank symbol = false)
    (hc : ∀ n, 0 ≤ c n) (hc' : ∀ n, 0 ≤ c' n) (cs : List Call) :
    List.Forall₂ (fun x y => x.1.map (·.restamp Stamp.erase) = y.1.map (·.restamp Stamp.erase) ∧
        x.2.snapshot = y.2.snapshot ∧ ∀ key, (x.2.recoverySnapshot key).restamp Stamp.erase =
          (y.2.recoverySnapshot key).restamp Stamp.erase)
      (steps (Book.empty symbol c) cs) (steps (Book.empty symbol c') cs) := by
  refine stampPairing_steps (n := 0) ⟨_, _, good_empty c hs, good_empty c' hs, rfl, rfl, rfl,
    fun _ _ => trivial, rfl, fun _ => rfl, fun k => ⟨rfl, ?_⟩, le_rfl⟩ cs
  exact iff_of_false (not_lt.mpr (hc k)) (not_lt.mpr (hc' k))

/-- The last call triggers a stop order, and its trade gets another timestamp. -/
theorem clock_irrelevant_mixed :
    ((call mixed sweep).1.toOption.map fun x => x.trades.map (·.timestamp)) ≠
        ((call (calls (Book.empty "BTC-USD" fun n => n + 1) mixedCalls) sweep).1.toOption.map fun x =>
          x.trades.map (·.timestamp)) ∧
      List.Forall₂ (fun x y => x.1.map (·.restamp Stamp.erase) = y.1.map (·.restamp Stamp.erase) ∧
          x.2.snapshot = y.2.snapshot ∧ ∀ key, (x.2.recoverySnapshot key).restamp Stamp.erase =
            (y.2.recoverySnapshot key).restamp Stamp.erase)
        (steps (Book.empty "BTC-USD" fun _ => 0) (mixedCalls ++ [sweep]))
        (steps (Book.empty "BTC-USD" fun n => n + 1) (mixedCalls ++ [sweep])) :=
  ⟨by decide +kernel, clock_irrelevant (by decide) (fun _ => le_rfl) (fun n => by positivity) _⟩

end Lob.Go
