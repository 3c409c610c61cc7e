import LobEngine.Executions
import LobEngine.Go.Publishing
import LobEngine.Go.Reachable

/-!
# What the Go engine announces of the orders it executes

* `Book.executionsOf`: the orders that a call executes, with their trades.
* `fireCycles_sound`: the orders of the triggered stop orders.
* `executions_join`: a call adds those of them to the sides that come to rest, and no other order.
* `rests_announced_iff`: the orders that come to rest are announced, exactly if no triggered order trades
  before it rests.
-/

namespace Lob.Go

open Exc Book

/-- A new order is matched and settled, and the stop orders that its trades trigger after it. -/
def executing (typ : OrderType) (input : OrderInput) : Program (Option Execution × List Execution) := do
  assertAvailable input.orderId
  let b ← get
  let r ← allocate b.symbol typ input false
  let trades ← matchOrder r (typ ≠ .limit)
  settle typ r
  let b ← get
  let fs ← fireCycles maxCycles trades
  return (some ⟨b.order r, trades⟩, fs.map fun f => ⟨f.order, f.trades⟩)

/-- The orders that a call executes: the one it places, and those that the triggered stop orders become. -/
def Book.executionsOf (b : Book) : Call → Except GoError (Option Execution × List Execution)
  | .placeLimit input => ((executing .limit input).run b).1
  | .placeMarket input => ((executing .market input).run b).1
  | _ => .ok (none, [])

/-- What an event says of an order that took or rests. -/
def noteOf : EventBody → Option (Note String)
  | .trade t => some (.acted t.aggressorId)
  | .order e => if e.type = .orderRested then some (.settled e.orderId e.remainingQuantity) else none
  | _ => none

section

variable {b b' : Book} {v v' : View} {o : Order}

/-! ## The orders of the triggered stop orders -/

/-- The order that a stop order became, with what the engine made of it. -/
structure Firing.Sound (f : Firing) : Prop where
  sound : Execution.Sound ⟨f.order, f.trades⟩
  orderId : f.order.orderId = f.stop.orderId

/-- What matching and triggering rely on. -/
structure View.Steady (v : View) : Prop where
  rests : v.Rests
  keyed : ∀ k s, v.stops.get? k = some s → s.orderId = k

theorem Good.steady (h : Good b v) : v.Steady := by
  obtain ⟨⟨F, hr⟩, hok⟩ := h
  exact ⟨hr.rests_depth, hok.keyed⟩

theorem executeStop_sound {s : StopOrder} {ts : List Trade} (hv : v.Steady)
    (h : (Spec.executeStop s).run v = (.ok (o, ts), v')) :
    Firing.Sound ⟨s, o, ts⟩ ∧ v'.Rests ∧ v'.stops = v.stops := by
  unfold Spec.executeStop at h
  rw [run_get_bind] at h
  obtain ⟨ms, v₁, h₁, h⟩ := bind_ok h
  cases h₁
  rw [run_lift_bind] at h
  cases ho : newOrder v.symbol (executedType s) (executedInput s (v.clock 0)) true with
  | error e => rw [ho] at h; cases h
  | ok x =>
    rw [ho] at h
    cases h
    have hN := newOrder_ok.mp ho
    refine ⟨⟨Depth.execute_sound hv.rests hN.new, ?_⟩, Depth.execute_rests hv.rests hN.new, rfl⟩
    exact (execute_id v.toDepth x).trans hN.orderId.1

/-- What a triggered stop order does to the sides is the execution of a new order. -/
theorem executeStop_joins {s : StopOrder} {ts : List Trade}
    (h : (Spec.executeStop s).run v = (.ok (o, ts), v')) : ∃ x : Order, x.New ∧ v.execute x = (ts, o, v'.toDepth) := by
  unfold Spec.executeStop at h
  rw [run_get_bind] at h
  obtain ⟨ms, v₁, h₁, h⟩ := bind_ok h
  cases h₁
  rw [run_lift_bind] at h
  cases ho : newOrder v.symbol (executedType s) (executedInput s (v.clock 0)) true with
  | error e => rw [ho] at h; cases h
  | ok x =>
    rw [ho] at h
    cases h
    exact ⟨x, (newOrder_ok.mp ho).new, rfl⟩

/-- Record and book are those of new orders that execute one after the other. -/
def Joins (v : View) (fs : List Firing) (v' : View) : Prop :=
  ∃ os : List Order, (∀ x ∈ os, x.New) ∧
    v.toDepth.executeAll os = (fs.map fun f => ⟨f.order, f.trades⟩, v'.toDepth)

theorem Joins.nil (v : View) : Joins v [] v := ⟨[], by simp, rfl⟩

theorem Joins.append {v₁ : View} {fs gs : List Firing} (h : Joins v fs v₁) (h' : Joins v₁ gs v') :
    Joins v (fs ++ gs) v' := by
  obtain ⟨os, hnew, hall⟩ := h
  obtain ⟨os', hnew', hall'⟩ := h'
  refine ⟨os ++ os', fun x hx => (List.mem_append.mp hx).elim (hnew x) (hnew' x), ?_⟩
  rw [Depth.executeAll_append, hall, hall', List.map_append]

theorem fireAll_joins {ss : List StopOrder} {fs : List Firing} (h : (Spec.fireAll ss).run v = (.ok fs, v')) :
    Joins v fs v' := by
  induction ss generalizing v fs with
  | nil =>
    cases h
    exact .nil _
  | cons s ss ih =>
    unfold Spec.fireAll at h
    rw [run_modify_bind] at h
    obtain ⟨⟨o, ts⟩, v₁, h₁, h⟩ := bind_ok h
    obtain ⟨fs', v₂, h₂, h⟩ := bind_ok h
    cases h
    obtain ⟨x, hnew, hx⟩ := executeStop_joins h₁
    have hfirst : Joins v [⟨{ s with status := .triggered }, o, ts⟩] v₁ :=
      ⟨[x], by simpa using hnew, congrArg (fun y => ([(⟨y.2.1, y.1⟩ : Execution)], y.2.2)) hx⟩
    exact hfirst.append (ih h₂)

theorem fireCycles_joins {limit : Nat} {ts : List Trade} {fs : List Firing}
    (h : (Spec.fireCycles limit ts).run v = (.ok fs, v')) : Joins v fs v' := by
  induction limit generalizing v ts fs with
  | zero =>
    unfold Spec.fireCycles at h
    cases hl : ts.getLast? with
    | none =>
      rw [hl] at h
      cases h
      exact .nil _
    | some t => rw [hl] at h; cases h
  | succ limit ih =>
    unfold Spec.fireCycles at h
    cases hl : ts.getLast? with
    | none =>
      rw [hl] at h
      cases h
      exact .nil _
    | some t =>
      rw [hl] at h
      dsimp only at h
      rw [run_modify_bind, run_bind_ok (show Spec.updateTrailingStops.run _ = (.ok (), _) from rfl), run_get_bind] at h
      split at h
      · cases h
        exact .nil _
      · obtain ⟨gs, v₁, h₁, h⟩ := bind_ok h
        obtain ⟨rest, v₂, h₂, h⟩ := bind_ok h
        cases h
        have hround := fireAll_joins h₁
        -- What the trailing stop orders do before it leaves the sides.
        exact Joins.append (show Joins v gs v₁ from hround) (ih h₂)

/-- The record of a round: the stop orders go, and the others stay. -/
theorem fireAll_sound {ss : List StopOrder} {fs : List Firing} (hv : v.Steady)
    (h : (Spec.fireAll ss).run v = (.ok fs, v')) :
    (∀ f ∈ fs, f.Sound) ∧ fs.map (·.stop.orderId) = ss.map (·.orderId) ∧ v'.Steady ∧
      ∀ k s, v'.stops.get? k = some s → v.stops.get? k = some s ∧ k ∉ ss.map (·.orderId) := by
  induction ss generalizing v fs with
  | nil =>
    cases h
    exact ⟨by simp, rfl, hv, fun k s hs => ⟨hs, by simp⟩⟩
  | cons s ss ih =>
    unfold Spec.fireAll at h
    rw [run_modify_bind] at h
    obtain ⟨⟨o, ts⟩, v₁, h₁, h⟩ := bind_ok h
    obtain ⟨fs', v₂, h₂, h⟩ := bind_ok h
    cases h
    have hdel : ∀ k t, (v.stops.delete s.orderId).get? k = some t → v.stops.get? k = some t ∧ k ≠ s.orderId := by
      intro k t ht
      rw [OMap.get?_delete] at ht
      split at ht
      · cases ht
      · next hne => exact ⟨ht, hne⟩
    have hsteady : View.Steady { v with stops := v.stops.delete s.orderId } :=
      ⟨hv.rests, fun k t ht => hv.keyed k t (hdel k t ht).1⟩
    obtain ⟨hsound, hrests, hstops⟩ := executeStop_sound hsteady h₁
    obtain ⟨hall, hids, hv₂, hrest⟩ := ih ⟨hrests, by rw [hstops]; exact hsteady.keyed⟩ h₂
    refine ⟨fun f hf => ?_, by rw [List.map_cons, List.map_cons, hids], hv₂, fun k t ht => ?_⟩
    · rcases List.mem_cons.mp hf with rfl | hf
      · exact ⟨hsound.sound, hsound.orderId⟩
      · exact hall f hf
    · obtain ⟨ht₁, hk⟩ := hrest k t ht
      rw [hstops] at ht₁
      obtain ⟨ht₀, hne⟩ := hdel k t ht₁
      exact ⟨ht₀, by rw [List.map_cons, List.mem_cons, not_or]; exact ⟨hne, hk⟩⟩

/-- The record of a cascade: the stop orders were pending, under different ids. -/
structure Recorded (v : View) (fs : List Firing) : Prop where
  sound : ∀ f ∈ fs, f.Sound
  nodup : (fs.map (·.stop.orderId)).Nodup
  pending : ∀ f ∈ fs, f.stop.orderId ∈ v.stops.keys

theorem fireCycles_sound {limit : Nat} {ts : List Trade} {fs : List Firing} (hv : v.Steady)
    (h : (Spec.fireCycles limit ts).run v = (.ok fs, v')) : Recorded v fs := by
  have hnil : ∀ v : View, Recorded v [] := fun v => ⟨by simp, List.nodup_nil, by simp⟩
  induction limit generalizing v ts fs with
  | zero =>
    unfold Spec.fireCycles at h
    cases hl : ts.getLast? with
    | none =>
      rw [hl] at h
      rw [← Except.ok.inj (congrArg Prod.fst h)]
      exact hnil v
    | some t => rw [hl] at h; cases h
  | succ limit ih =>
    unfold Spec.fireCycles at h
    cases hl : ts.getLast? with
    | none =>
      rw [hl] at h
      rw [← Except.ok.inj (congrArg Prod.fst h)]
      exact hnil v
    | some t =>
      rw [hl] at h
      dsimp only at h
      set v₀ : View := { v with
        lastTradePriceTicks := some t.priceTicks
        stops := v.stops.mapValues (View.trail t.priceTicks) } with hv₀
      rw [run_modify_bind, run_bind_ok (show Spec.updateTrailingStops.run _ = (.ok (), v₀) from rfl), run_get_bind] at h
      have hkeys : v₀.stops.keys = v.stops.keys := OMap.keys_mapValues _ _
      have hsteady : v₀.Steady := by
        refine ⟨hv.rests, fun k s hs => ?_⟩
        rw [hv₀, OMap.get?_mapValues, Option.map_eq_some_iff] at hs
        obtain ⟨s₀, hs₀, rfl⟩ := hs
        obtain ⟨_, _, _, htrail⟩ := trail_eq t.priceTicks s₀
        rw [htrail]
        exact hv.keyed k s₀ hs₀
      by_cases he : v₀.eligible = []
      · rw [if_pos he] at h
        rw [← Except.ok.inj (congrArg Prod.fst h)]
        exact hnil v
      · rw [if_neg he] at h
        obtain ⟨gs, v₁, h₁, h⟩ := bind_ok h
        obtain ⟨rest, v₂, h₂, h⟩ := bind_ok h
        cases h
        obtain ⟨hsound, hids, hv₁, hstays⟩ := fireAll_sound hsteady h₁
        have hrec := ih hv₁ h₂
        have hvalues : (v₀.eligible.map (·.orderId)).Sublist v₀.stops.keys := by
          have hk : v₀.stops.values.map (·.orderId) = v₀.stops.keys := by
            unfold OMap.values OMap.keys
            rw [List.map_map]
            exact List.map_congr_left fun e he => hsteady.keyed e.1 e.2 (OMap.mem_entries.mp he)
          rw [← hk]
          exact (eligible_sublist v₀).map _
        have hpending : ∀ f ∈ rest, f.stop.orderId ∈ v₀.stops.keys ∧ f.stop.orderId ∉ v₀.eligible.map (·.orderId) := by
          intro f hf
          obtain ⟨s, hs⟩ := OMap.mem_keys.mp (hrec.pending f hf)
          obtain ⟨hs₀, hne⟩ := hstays _ s hs
          exact ⟨OMap.mem_keys.mpr ⟨s, hs₀⟩, hne⟩
        refine ⟨fun f hf => ?_, ?_, fun f hf => ?_⟩
        · rcases List.mem_append.mp hf with hf | hf
          · exact hsound f hf
          · exact hrec.sound f hf
        · rw [List.map_append, List.nodup_append, hids]
          refine ⟨hvalues.nodup v₀.stops.keys_nodup, hrec.nodup, fun x hx y hy heq => ?_⟩
          obtain ⟨f, hf, rfl⟩ := List.mem_map.mp hy
          exact (hpending f hf).2 (heq ▸ hx)
        · rw [← hkeys]
          rcases List.mem_append.mp hf with hf | hf
          · refine hvalues.subset ?_
            rw [← hids]
            exact List.mem_map_of_mem (f := fun f : Firing => f.stop.orderId) hf
          · exact (hpending f hf).1

/-! ## Announcements -/

theorem stampFrom_notes (symbol : String) (n : Int) (es : List EventBody) :
    (stampFrom symbol n es).filterMap (fun e => noteOf e.body) = es.filterMap noteOf := by
  rw [stampFrom_eq]
  exact numbered_filterMap (fun k e => by cases e <;> rfl) n es

theorem tradeEvents_notes {ts : List Trade} {id : String} (h : ∀ t ∈ ts, t.aggressorId = id) :
    (ts.map EventBody.trade).filterMap noteOf = List.replicate ts.length (.acted id) := by
  rw [List.filterMap_map, ← trades_notes h]
  exact congrFun List.filterMap_eq_map ts

theorem fillEvent_note (o : Order) : noteOf (orderFillEvent o) = none := by
  unfold orderFillEvent noteOf
  dsimp only
  split_ifs <;> simp_all

/-- The notes about a triggered order. -/
theorem firing_notes {f : Firing} (h : f.Sound) :
    f.events.filterMap noteOf = (Execution.triggeredEntry ⟨f.order, f.trades⟩).notes := by
  unfold Firing.events triggeredEvents
  rw [List.filterMap_append, List.filterMap_append, List.filterMap_append, tradeEvents_notes h.sound.taker,
    List.filterMap_cons_none rfl, List.filterMap_nil, List.nil_append, List.filterMap_cons_none (fillEvent_note _),
    List.filterMap_nil, List.append_nil]
  refine congrArg (_ ++ ·) (Eq.trans ?_ h.sound.triggered_note)
  split <;> rfl

theorem firings_notes {fs : List Firing} (h : ∀ f ∈ fs, f.Sound) :
    (fs.flatMap Firing.events).filterMap noteOf =
      ((fs.map fun f => Execution.mk f.order f.trades).map Execution.triggeredEntry).flatMap Entry.notes := by
  rw [List.map_map]
  exact Entry.flatMap_notes fun f hf => firing_notes (h f hf)

/-- The notes about the order that a call places, before it may rest. -/
theorem placed_notes {ts : List Trade} (h : Execution.Sound ⟨o, ts⟩) :
    ([orderAcceptedEvent o] ++ ts.map EventBody.trade ++ [orderFillEvent o]).filterMap noteOf =
      List.replicate ts.length (.acted o.orderId) := by
  rw [List.filterMap_append, List.filterMap_append, tradeEvents_notes h.taker, List.filterMap_cons_none rfl,
    List.filterMap_nil, List.nil_append, List.filterMap_cons_none (fillEvent_note _), List.filterMap_nil,
    List.append_nil]

theorem limit_notes {ts : List Trade} (h : Execution.Sound ⟨o, ts⟩) (hl : o.type = .limit)
    (hactive : 0 < o.remainingQuantity → o.isActive = true) :
    ([orderAcceptedEvent o] ++ ts.map EventBody.trade ++ [orderFillEvent o] ++
      if 0 < o.remainingQuantity then [orderRestedEvent o] else []).filterMap noteOf =
        (Execution.entry true ⟨o, ts⟩).notes := by
  rw [List.filterMap_append, placed_notes h]
  refine congrArg (_ ++ ·) (Eq.trans ?_ (Execution.incoming_note hl))
  have hc : (o.isActive = true ∧ 0 < o.remainingQuantity) ↔ 0 < o.remainingQuantity :=
    ⟨fun h => h.2, fun h => ⟨hactive h, h⟩⟩
  simp only [hc]
  split <;> rfl

theorem market_notes {ts : List Trade} (h : Execution.Sound ⟨o, ts⟩) (hm : o.type = .market) :
    ([orderAcceptedEvent o] ++ ts.map EventBody.trade ++ [orderFillEvent o]).filterMap noteOf =
      (Execution.entry true ⟨o, ts⟩).notes := by
  rw [placed_notes h]
  unfold Execution.entry Entry.notes Order.rests
  rw [if_neg fun hl => by rw [hm] at hl; cases hl.1]
  simp

variable {c : Call} {res : Result}

/-! ## The order of a call -/

/-- What the engine executes is what its specification executes. -/
theorem executing_run {typ : OrderType} {i : OrderInput} {fs : List Firing} {w : View} (h : Good b v)
    (hid : ¬ v.hasId i.orderId) (ho : newOrder v.symbol typ i false = .ok o)
    (hfs : (Spec.fireCycles maxCycles (v.execute o).1).run (v.executed o) = (.ok fs, w)) :
    ((executing typ i).run b).1 = .ok (some ⟨(v.execute o).2.1, (v.execute o).1⟩,
      fs.map fun f => ⟨f.order, f.trades⟩) := by
  rw [h.symbol] at ho
  have hN := newOrder_ok.mp ho
  obtain ⟨⟨F, hr⟩, hok⟩ := id h
  have hfree : (assertAvailable i.orderId).run b = (.ok (), b) := by
    rw [assertAvailable, run_get_bind, if_neg fun hc => hid ((hr.has_iff _).mp hc), run_pure]
  rw [View.hasId, not_or, ← OMap.get?_eq_none, ← hN.orderId.1] at hid
  obtain ⟨b₁, b₂, b₃, F₃, h₁, h₂, -, h₃, hrepr, hex⟩ := execute_run hr ho hid.1 hid.2
  have hrel : Rel b.next (v.execute o).2.1 b₃ (v.executed o) := ⟨⟨⟨F₃, hrepr⟩, hok.executed hid.2⟩, hex.new⟩
  have hsim := fireCycles_sim maxCycles (v.execute o).1 _ b₃ (v.executed o) hrel
  rw [hfs] at hsim
  rw [executing, run_bind_ok hfree, run_get_bind, run_bind_ok h₁, run_bind_ok h₂, run_bind_ok h₃, run_get_bind,
    hex.new.order]
  rcases hrun : (fireCycles maxCycles (v.execute o).1).run b₃ with ⟨e | gs, b₄⟩
  · rw [hrun] at hsim
    exact hsim.elim
  · rw [hrun] at hsim
    obtain ⟨rfl, -⟩ := hsim
    rw [run_bind_ok hrun]
    rfl

/-- The call executes the order `o`, whose trades trigger the stop orders of `fs`, up to `w`. -/
structure Executes (v : View) (typ : OrderType) (i : OrderInput) (o : Order) (fs : List Firing) (w : View) :
    Prop where
  free : ¬ v.hasId i.orderId
  new : newOrder v.symbol typ i false = .ok o
  fired : (Spec.fireCycles maxCycles (v.execute o).1).run (v.executed o) = (.ok fs, w)

theorem executes_run {typ : OrderType} {i : OrderInput} {f : Order × List Trade → StopResult → SpecProgram Result}
    {res : Result} {w : View}
    (h : (do
      Spec.assertAvailable i.orderId
      let v ← get
      let o ← lift (newOrder v.symbol typ i false)
      let x ← Spec.execute o
      let triggered ← Spec.cascade maxCycles x.2
      f x triggered : SpecProgram Result).run v = (.ok res, w)) :
    ∃ o fs v₁, Executes v typ i o fs v₁ ∧
      (f ((v.execute o).2.1, (v.execute o).1) (stopResultOf fs)).run v₁ = (.ok res, w) := by
  by_cases hid : v.hasId i.orderId
  · rw [run_bind_error (Spec.assertAvailable_taken hid)] at h
    cases h
  rw [run_bind_ok (Spec.assertAvailable_free hid), run_get_bind, run_lift_bind] at h
  cases ho : newOrder v.symbol typ i false with
  | error e => rw [ho] at h; cases h
  | ok o =>
    rw [ho] at h
    dsimp only at h
    rw [run_bind_ok (show (Spec.execute o).run v =
      (.ok ((v.execute o).2.1, (v.execute o).1), v.executed o) from rfl)] at h
    obtain ⟨t, v₁, ht, h⟩ := bind_ok h
    obtain ⟨fs, hfs, rfl⟩ := (Spec.cascade_fireCycles maxCycles _).of_ok ht
    exact ⟨o, fs, v₁, ⟨hid, ho, hfs⟩, h⟩

theorem limit_run {i : OrderInput} {w : View} (h : (Spec.placeLimit i).run v = (.ok res, w)) :
    ∃ o fs w₁ symbol n snapshot ms, Executes v .limit i o fs w₁ ∧ w.toDepth = w₁.toDepth ∧
      res.events = stampFrom symbol n ([orderAcceptedEvent (v.execute o).2.1] ++
        (v.execute o).1.map EventBody.trade ++ [orderFillEvent (v.execute o).2.1] ++
        (if 0 < (v.execute o).2.1.remainingQuantity then [orderRestedEvent (v.execute o).2.1] else []) ++
        [.bookUpdated none snapshot ms] ++ fs.flatMap Firing.events) := by
  obtain ⟨o, fs, v₁, hex, h⟩ := executes_run h
  cases h
  exact ⟨o, fs, v₁, _, _, _, _, hex, rfl, rfl⟩

theorem market_run {i : OrderInput} {w : View} (h : (Spec.placeMarket i).run v = (.ok res, w)) :
    ∃ o fs w₁ symbol n snapshot ms, Executes v .market i o fs w₁ ∧ w.toDepth = w₁.toDepth ∧
      res.events = stampFrom symbol n ([orderAcceptedEvent (v.execute o).2.1] ++
        (v.execute o).1.map EventBody.trade ++ [orderFillEvent (v.execute o).2.1] ++
        fs.flatMap Firing.events ++ [.bookUpdated none snapshot ms]) := by
  obtain ⟨o, fs, v₁, hex, h⟩ := executes_run h
  cases h
  exact ⟨o, fs, v₁, _, _, _, _, hex, rfl, rfl⟩

/-- The orders that a call executes: sound, and of different ids. -/
structure Executes.Sound (o : Order) (ts : List Trade) (fs : List Firing) : Prop where
  incoming : Execution.Sound ⟨o, ts⟩
  triggered : ∀ f ∈ fs, f.Sound
  ids : (([Execution.mk o ts] ++ fs.map fun f => Execution.mk f.order f.trades).map (·.order.orderId)).Nodup

theorem Executes.sound {typ : OrderType} {i : OrderInput} {fs : List Firing} {w : View} (h : Executes v typ i o fs w)
    (hv : v.Steady) : Executes.Sound (v.execute o).2.1 (v.execute o).1 fs := by
  have hN := newOrder_ok.mp h.new
  have hsteady : (v.executed o).Steady := ⟨Depth.execute_rests hv.rests hN.new, hv.keyed⟩
  have hrec := fireCycles_sound hsteady h.fired
  refine ⟨Depth.execute_sound hv.rests hN.new, hrec.sound, ?_⟩
  have hids : (fs.map fun f => Execution.mk f.order f.trades).map (·.order.orderId) = fs.map (·.stop.orderId) := by
    rw [List.map_map]
    exact List.map_congr_left fun f hf => (hrec.sound f hf).orderId
  rw [List.map_append, hids]
  refine List.nodup_cons.mpr ⟨fun hmem => h.free (.inr ?_), hrec.nodup⟩
  -- The triggered stop orders were pending under their ids.
  obtain ⟨f, hf, hfo⟩ := List.mem_map.mp hmem
  have hkey := hrec.pending f hf
  rw [show f.stop.orderId = (v.execute o).2.1.orderId from hfo, execute_id, hN.orderId.1] at hkey
  exact hkey

/-- The orders that a call executes, in turn: the sides are changed by nothing else. -/
theorem Executes.joins {typ : OrderType} {i : OrderInput} {fs : List Firing} {w : View} (h : Executes v typ i o fs w) :
    ∃ os : List Order, (∀ x ∈ os, x.New) ∧ v.toDepth.executeAll os =
      ([⟨(v.execute o).2.1, (v.execute o).1⟩] ++ fs.map fun f => ⟨f.order, f.trades⟩, w.toDepth) := by
  obtain ⟨os, hnew, hall⟩ := fireCycles_joins h.fired
  refine ⟨o :: os, List.forall_mem_cons.mpr ⟨(newOrder_ok.mp h.new).new, hnew⟩, ?_⟩
  exact congrArg (fun y : List Execution × Depth => (⟨(v.execute o).2.1, (v.execute o).1⟩ :: y.1, y.2)) hall

theorem Executes.announced {typ : OrderType} {i : OrderInput} {fs : List Firing} {w : View} {notes : List (Note String)}
    (h : Executes v typ i o fs w) (hv : v.Steady)
    (hnotes : notes = (Execution.entry true ⟨(v.execute o).2.1, (v.execute o).1⟩).notes ++
      (fs.flatMap Firing.events).filterMap noteOf) :
    Announced notes (Execution.rested ([⟨(v.execute o).2.1, (v.execute o).1⟩] ++
        fs.map fun f => ⟨f.order, f.trades⟩)) ↔
      ∀ x ∈ fs.map fun f => Execution.mk f.order f.trades, x.order.rests.isSome = true → x.trades = [] := by
  have hs := h.sound hv
  rw [hnotes, firings_notes hs.triggered, ← Execution.entries_notes]
  refine Execution.announced_rests (fun x hx => ?_) hs.ids
  obtain ⟨f, hf, rfl⟩ := List.mem_map.mp hx
  exact (hs.triggered f hf).sound

/-! ## All calls -/

/-- A call that executes no order announces none. -/
theorem others_notes {w : View} (h : (Spec.program c).run v = (.ok res, w))
    (hl : ∀ i, c ≠ .placeLimit i) (hm : ∀ i, c ≠ .placeMarket i) :
    res.events.filterMap (fun e => noteOf e.body) = [] := by
  have hstop : ∀ {v : View} {i : OrderInput} {typ : OrderType} {peak valley : Option Int},
      (Spec.placeStopWithExtrema i typ peak valley).run v = (.ok res, w) →
        res.events.filterMap (fun e => noteOf e.body) = [] := by
    intro v i typ peak valley h
    have h := assertAvailable_ok h
    rw [run_get_bind, run_lift_bind] at h
    cases hs : newStop v.symbol typ i peak valley with
    | error e => rw [hs] at h; cases h
    | ok s =>
      rw [hs] at h
      cases h
      rfl
  cases c with
  | placeLimit i => exact absurd rfl (hl i)
  | placeMarket i => exact absurd rfl (hm i)
  | placeStopMarket i => exact hstop h
  | placeStopLimit i => exact hstop h
  | placeTrailingStopMarket i =>
    unfold Spec.program Spec.placeTrailingStopMarket at h
    rw [run_get_bind, run_lift_bind] at h
    cases hn : newTrailing v.lastTradePriceTicks i with
    | error e => rw [hn] at h; cases h
    | ok x =>
      rw [hn] at h
      exact hstop h
  | cancel key =>
    unfold Spec.program Spec.cancelOrder at h
    rw [run_get_bind] at h
    cases hs : v.stops.get? key with
    | some s =>
      rw [hs] at h
      cases h
      rfl
    | none =>
      rw [hs] at h
      dsimp only at h
      cases ho : v.orders.find? (fun o => decide (o.orderId = key)) with
      | none => rw [ho] at h; cases h
      | some o =>
        rw [ho] at h
        cases h
        rfl

/-- A stop order that is accepted leaves the sides. -/
theorem stop_depth {i : OrderInput} {typ : OrderType} {peak valley : Option Int} {w : View}
    (h : (Spec.placeStopWithExtrema i typ peak valley).run v = (.ok res, w)) : w.toDepth = v.toDepth := by
  have h := assertAvailable_ok h
  rw [run_get_bind, run_lift_bind] at h
  cases hs : newStop v.symbol typ i peak valley with
  | error e => rw [hs] at h; cases h
  | ok s =>
    rw [hs] at h
    exact congrArg (fun y => y.2.toDepth) h.symm

/-- A successful call executes new orders one after the other, a cancellation apart; nothing else adds an order to the
sides, and `Depth.execute_joins` says that an executed one joins its side exactly if it comes to rest. -/
theorem executions_join (hb : Reachable b) (h : (call b c).1 = .ok res) :
    ∃ incoming triggered v v' d, ∃ os : List Order, b.executionsOf c = .ok (incoming, triggered) ∧ Good b v ∧
      Good (call b c).2 v' ∧ (d = v.toDepth ∨ ∃ key, d = v.remove key) ∧ (∀ o ∈ os, o.New) ∧
      d.executeAll os = (incoming.toList ++ triggered, v'.toDepth) := by
  obtain ⟨v, hv⟩ := hb.good
  obtain ⟨hout, hgood⟩ := call_refines c hv
  rw [h] at hout
  have hrun : (Spec.program c).run v = (.ok res, ((Spec.program c).run v).2) := Prod.ext hout.symm rfl
  have hnone : b.executionsOf c = .ok (none, []) →
      (((Spec.program c).run v).2.toDepth = v.toDepth ∨ ∃ key, ((Spec.program c).run v).2.toDepth = v.remove key) →
      ∃ incoming triggered v v' d, ∃ os : List Order, b.executionsOf c = .ok (incoming, triggered) ∧ Good b v ∧
        Good (call b c).2 v' ∧ (d = v.toDepth ∨ ∃ key, d = v.remove key) ∧ (∀ o ∈ os, o.New) ∧
        d.executeAll os = (incoming.toList ++ triggered, v'.toDepth) := fun hex hd =>
    ⟨none, [], v, _, _, [], hex, hv, hgood, hd, by simp, rfl⟩
  cases c with
  | placeLimit i =>
    obtain ⟨o, fs, w, symbol, n, snapshot, ms, hex, hdepth, -⟩ := limit_run hrun
    obtain ⟨os, hnew, hall⟩ := hex.joins
    exact ⟨_, _, v, _, _, os, executing_run hv hex.free hex.new hex.fired, hv, hgood, .inl rfl, hnew, hdepth ▸ hall⟩
  | placeMarket i =>
    obtain ⟨o, fs, w, symbol, n, snapshot, ms, hex, hdepth, -⟩ := market_run hrun
    obtain ⟨os, hnew, hall⟩ := hex.joins
    exact ⟨_, _, v, _, _, os, executing_run hv hex.free hex.new hex.fired, hv, hgood, .inl rfl, hnew, hdepth ▸ hall⟩
  | placeStopMarket i => exact hnone rfl (.inl (stop_depth hrun))
  | placeStopLimit i => exact hnone rfl (.inl (stop_depth hrun))
  | placeTrailingStopMarket i =>
    refine hnone rfl (.inl ?_)
    have hrun : (Spec.placeTrailingStopMarket i).run v = _ := hrun
    unfold Spec.placeTrailingStopMarket at hrun
    rw [run_get_bind, run_lift_bind] at hrun
    cases hn : newTrailing v.lastTradePriceTicks i with
    | error e => rw [hn] at hrun; cases hrun
    | ok x =>
      rw [hn] at hrun
      exact stop_depth hrun
  | cancel key =>
    refine hnone rfl ?_
    have hrun : (Spec.cancelOrder key).run v = _ := hrun
    unfold Spec.cancelOrder at hrun
    rw [run_get_bind] at hrun
    cases hs : v.stops.get? key with
    | some s =>
      rw [hs] at hrun
      exact .inl (congrArg (fun y => y.2.toDepth) hrun.symm)
    | none =>
      rw [hs] at hrun
      dsimp only at hrun
      cases ho : v.orders.find? (fun o => decide (o.orderId = key)) with
      | none => rw [ho] at hrun; cases hrun
      | some o =>
        rw [ho] at hrun
        exact .inr ⟨o.orderId, congrArg (fun y => y.2.toDepth) hrun.symm⟩

/-- Every order that comes to rest is announced as it rests, exactly if no triggered order trades before it
rests. -/
theorem rests_announced_iff (hb : Reachable b) (h : (call b c).1 = .ok res) :
    ∃ incoming triggered, b.executionsOf c = .ok (incoming, triggered) ∧
      (Announced (res.events.filterMap fun e => noteOf e.body) (Execution.rested (incoming.toList ++ triggered)) ↔
        ∀ x ∈ triggered, x.order.rests.isSome = true → x.trades = []) := by
  obtain ⟨v, hv⟩ := hb.good
  obtain ⟨hout, -⟩ := call_refines c hv
  rw [h] at hout
  have hrun : (Spec.program c).run v = (.ok res, ((Spec.program c).run v).2) := Prod.ext hout.symm rfl
  have hnone : (∀ i, c ≠ .placeLimit i) → (∀ i, c ≠ .placeMarket i) → b.executionsOf c = .ok (none, []) →
      ∃ incoming triggered, b.executionsOf c = .ok (incoming, triggered) ∧
        (Announced (res.events.filterMap fun e => noteOf e.body) (Execution.rested (incoming.toList ++ triggered)) ↔
          ∀ x ∈ triggered, x.order.rests.isSome = true → x.trades = []) := by
    intro hl hm hex
    refine ⟨none, [], hex, ?_⟩
    rw [others_notes hrun hl hm]
    exact iff_of_true ⟨by simp [Execution.rested], by simp⟩ (by simp)
  cases c with
  | placeLimit i =>
    obtain ⟨o, fs, w, symbol, n, snapshot, ms, hex, -, hevents⟩ := limit_run hrun
    have hN := newOrder_ok.mp hex.new
    have htype : (v.execute o).2.1.type = .limit := Depth.execute_type.trans hN.type
    refine ⟨_, _, executing_run hv hex.free hex.new hex.fired, hex.announced hv.steady ?_⟩
    rw [hevents, stampFrom_notes, List.filterMap_append, List.filterMap_append,
      limit_notes (hex.sound hv.steady).incoming htype (Depth.execute_isActive hN.new hN.type),
      List.filterMap_cons_none rfl, List.filterMap_nil, List.append_nil]
  | placeMarket i =>
    obtain ⟨o, fs, w, symbol, n, snapshot, ms, hex, -, hevents⟩ := market_run hrun
    have hN := newOrder_ok.mp hex.new
    have htype : (v.execute o).2.1.type = .market := Depth.execute_type.trans hN.type
    refine ⟨_, _, executing_run hv hex.free hex.new hex.fired, hex.announced hv.steady ?_⟩
    rw [hevents, stampFrom_notes, List.filterMap_append, List.filterMap_append,
      market_notes (hex.sound hv.steady).incoming htype, List.filterMap_cons_none rfl, List.filterMap_nil,
      List.append_nil]
  | placeStopMarket i => exact hnone (by simp) (by simp) rfl
  | placeStopLimit i => exact hnone (by simp) (by simp) rfl
  | placeTrailingStopMarket i => exact hnone (by simp) (by simp) rfl
  | cancel key => exact hnone (by simp) (by simp) rfl

end

end Lob.Go
