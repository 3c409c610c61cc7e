import LobEngine.Go.Calls

/-!
# What every call keeps

`Stable I`: the steps that the calls are made of keep `I`, so every call does (`Stable.program`).
`Cascading I` is about the steps of a cascade, which stamps no events.

* `Named`: the orders of a book are of its symbol.
-/

namespace Lob.Go

open Exc

/-- The steps of a cascade keep `I`. -/
structure Cascading (I : View → Prop) : Prop where
  clock : ∀ v, I v → I { v with clock := v.clock.tail }
  last : ∀ v last, I v → I { v with lastTradePriceTicks := last }
  delete : ∀ v key, I v → I { v with stops := v.stops.delete key }
  trail : ∀ v last, I v → I { v with stops := v.stops.mapValues (View.trail last) }
  execute : ∀ v o, I v → o.symbol = v.symbol → I (v.executed o)

/-- The steps of all calls keep `I`. -/
structure Stable (I : View → Prop) : Prop extends Cascading I where
  sequence : ∀ v sequence, I v → I { v with sequence := sequence }
  add : ∀ v s, I v → s.symbol = v.symbol → I { v with stops := v.stops.set s.orderId s }
  remove : ∀ v key, I v → I { v with toDepth := v.remove key }

namespace Cascading

variable {I : View → Prop} (h : Cascading I)
include h

theorem bookUpdatedEvent : Keeps I Spec.bookUpdatedEvent := fun v hv => h.clock v hv

/-- A new order executes, if it is valid. -/
theorem executeNew {α : Type} (typ : OrderType) (i : OrderInput) (clock : Bool) {v : View} (hv : I v)
    {f : Order × List Trade → SpecProgram α} (hf : ∀ x, Keeps I (f x)) :
    (Exc.lift (newOrder v.symbol typ i clock) >>= fun o => Spec.execute o >>= f).Post v
      fun _ w => I w := by
  unfold Post
  rw [run_lift_bind]
  cases ho : newOrder v.symbol typ i clock with
  | error e => exact hv
  | ok o => exact hf _ _ (h.execute v o hv (newOrder_ok.mp ho).symbol.1)

theorem executeStop (stop : StopOrder) : Keeps I (Spec.executeStop stop) := by
  intro v hv
  unfold Spec.executeStop
  refine Post.get ?_
  have hclock : I { v with clock := v.clock.tail } := h.clock v hv
  exact h.executeNew (executedType stop) (executedInput stop (v.clock 0)) true hclock
    (f := fun x => pure x) fun _ => Keeps.pure _

theorem triggerAll (stops : List StopOrder) : Keeps I (Spec.triggerAll stops) := by
  induction stops with
  | nil => exact Keeps.pure _
  | cons stop stops ih =>
    unfold Spec.triggerAll
    refine Keeps.bind (Keeps.modify fun v hv => h.delete v _ hv) fun _ => ?_
    exact (h.executeStop _).bind fun _ => ih.bind fun _ => Keeps.pure _

theorem updateTrailingStops : Keeps I Spec.updateTrailingStops := by
  intro v hv
  unfold Spec.updateTrailingStops
  refine Post.get ?_
  cases v.lastTradePriceTicks with
  | none => exact hv
  | some last => exact h.trail v last hv

theorem cascade (cycles : Nat) (ts : List Trade) : Keeps I (Spec.cascade cycles ts) := by
  induction cycles generalizing ts with
  | zero =>
    unfold Spec.cascade
    cases ts.getLast? with
    | none => exact Keeps.pure _
    | some t => exact Keeps.throw _
  | succ cycles ih =>
    unfold Spec.cascade
    cases ts.getLast? with
    | none => exact Keeps.pure _
    | some t =>
      refine Keeps.bind (Keeps.modify fun v hv => h.last v _ hv) fun _ => ?_
      refine h.updateTrailingStops.bind fun _ => Keeps.get.bind fun v => ?_
      refine Keeps.ite (Keeps.pure _) ?_
      exact (h.triggerAll _).bind fun _ => (ih _).bind fun _ => Keeps.pure _

end Cascading

namespace Stable

variable {I : View → Prop} (h : Stable I)
include h

theorem stamp (es : List EventBody) : Keeps I (Spec.stamp es) := fun v hv => h.sequence v _ hv

/-- What a call ends with. -/
theorem publish (events : EventBody → List EventBody) (result : List Event → Result) :
    Keeps I (do
      let updated ← Spec.bookUpdatedEvent
      let es ← Spec.stamp (events updated)
      return result es) :=
  h.bookUpdatedEvent.bind fun _ => (h.stamp _).bind fun _ => Keeps.pure _

omit h in
theorem assertAvailable (key : String) : Keeps I (Spec.assertAvailable key) := by
  intro v hv
  unfold Spec.assertAvailable
  refine Post.get ?_
  split <;> exact hv

theorem placeLimit (input : OrderInput) : Keeps I (Spec.placeLimit input) :=
  (assertAvailable _).bind fun _ _ hv => Post.get <|
    h.executeNew .limit input false hv fun _ => (h.cascade _ _).bind fun _ => h.publish _ _

theorem placeMarket (input : OrderInput) : Keeps I (Spec.placeMarket input) :=
  (assertAvailable _).bind fun _ _ hv => Post.get <|
    h.executeNew .market input false hv fun _ => (h.cascade _ _).bind fun _ => h.publish _ _

theorem placeStopWithExtrema (input : OrderInput) (typ : OrderType) (peak valley : Option Int) :
    Keeps I (Spec.placeStopWithExtrema input typ peak valley) := by
  refine (assertAvailable _).bind fun _ v hv => Post.get ?_
  unfold Post
  rw [run_lift_bind]
  cases hs : newStop v.symbol typ input peak valley with
  | error e => exact hv
  | ok s =>
    exact h.publish (fun updated => [.stopAccepted s, updated]) (fun es => ⟨.stop s, [], [], es⟩) _
      (h.add v s hv (newStop_ok.mp hs).symbol)

theorem placeTrailingStopMarket (input : OrderInput) :
    Keeps I (Spec.placeTrailingStopMarket input) :=
  Keeps.get.bind fun _ => (Keeps.lift _).bind fun _ => h.placeStopWithExtrema _ _ _ _

theorem cancelOrder (key : String) : Keeps I (Spec.cancelOrder key) := by
  refine Keeps.get.bind fun v => ?_
  split
  · refine Keeps.bind (Keeps.modify fun v hv => h.delete v _ hv) fun _ => ?_
    exact h.bookUpdatedEvent.bind fun _ => Keeps.pure _
  · split
    · exact Keeps.throw _
    · exact Keeps.bind (Keeps.modify fun v hv => h.remove v _ hv) fun _ => h.publish _ _

/-- Every call keeps what its steps keep. -/
theorem program (c : Call) : Keeps I (Spec.program c) := by
  cases c with
  | placeLimit input => exact h.placeLimit input
  | placeMarket input => exact h.placeMarket input
  | placeStopMarket input => exact h.placeStopWithExtrema input _ _ _
  | placeStopLimit input => exact h.placeStopWithExtrema input _ _ _
  | placeTrailingStopMarket input => exact h.placeTrailingStopMarket input
  | cancel key => exact h.cancelOrder key

end Stable

/-! ## The symbol -/

/-- The book is of the symbol, and so is each order in it. -/
structure Named (name : String) (v : View) : Prop where
  symbol : v.symbol = name
  orders : ∀ o ∈ v.orders, o.symbol = name
  stops : ∀ s ∈ v.stops.values, s.symbol = name

theorem stable_named (name : String) : Stable (Named name) where
  clock := fun _ hv => ⟨hv.symbol, hv.orders, hv.stops⟩
  last := fun _ _ hv => ⟨hv.symbol, hv.orders, hv.stops⟩
  sequence := fun _ _ hv => ⟨hv.symbol, hv.orders, hv.stops⟩
  delete := fun v key hv => ⟨hv.symbol, hv.orders, fun s hs => hv.stops s (OMap.mem_values_delete hs)⟩
  trail := fun v last hv => ⟨hv.symbol, hv.orders, fun s hs => by
    obtain ⟨k, hk⟩ := OMap.mem_values.mp hs
    rw [OMap.get?_mapValues, Option.map_eq_some_iff] at hk
    obtain ⟨s₀, hs₀, rfl⟩ := hk
    obtain ⟨_, _, _, htrail⟩ := trail_eq last s₀
    rw [htrail]
    exact hv.stops s₀ (OMap.mem_values.mpr ⟨k, hs₀⟩)⟩
  add := fun v s hv hs => ⟨hv.symbol, hv.orders, fun s' hs' => by
    obtain ⟨k, hk⟩ := OMap.mem_values.mp hs'
    rw [OMap.get?_set] at hk
    split at hk
    · cases hk; exact hs.trans hv.symbol
    · exact hv.stops s' (OMap.mem_values.mpr ⟨k, hk⟩)⟩
  execute := fun v o hv ho => ⟨hv.symbol, fun x hx => by
    obtain ⟨y, hy | ⟨rfl, -⟩, n, rfl⟩ := Depth.mem_execute hx
    · exact hv.orders y hy
    · exact ho.trans hv.symbol, hv.stops⟩
  remove := fun v key hv => ⟨hv.symbol, fun o ho => by
    have ho : o ∈ (v.toDepth.remove key).orders := ho
    rw [Depth.remove_orders] at ho
    exact hv.orders o (List.mem_of_mem_filter ho), hv.stops⟩

end Lob.Go
