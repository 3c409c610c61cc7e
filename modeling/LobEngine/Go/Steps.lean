import LobEngine.Go.Invariants

/-!
# What the steps of a call do

`Stable` is about any order that executes. `Fires I P` is about the orders that do execute in a cascade, those of
pending stop orders: with each of them the property `I` of the view is kept, and its trades have the property `P`.

* `Fires.cascade`: the cascade keeps `I`.
* `Fires.program`: so does a call, if `I` holds once its order executed or its stop order is pending.
-/

namespace Lob.Go

open Exc

/-- The order that the call executes, if it is accepted. -/
def View.orderOf (v : View) : Call → Option Order
  | .placeLimit i => (newOrder v.symbol .limit i false).toOption
  | .placeMarket i => (newOrder v.symbol .market i false).toOption
  | _ => none

/-- The stop order that the call adds, if it is accepted. -/
def View.stopOf (v : View) : Call → Option StopOrder
  | .placeStopMarket i => (newStop v.symbol .stopMarket i none none).toOption
  | .placeStopLimit i => (newStop v.symbol .stopLimit i none none).toOption
  | .placeTrailingStopMarket i => (newTrailing v.lastTradePriceTicks i).toOption.bind fun x =>
      (newStop v.symbol .trailingStopMarket x.1 x.2.1 x.2.2).toOption
  | _ => none

/-- The steps of a cascade keep `I`, and the trades of the orders that execute have `P`. -/
structure Fires (I : View → Prop) (P : Trade → Prop) : Prop where
  keyed : ∀ {v}, I v → ∀ k s, v.stops.get? k = some s → s.orderId = k
  clock : ∀ {v}, I v → I { v with clock := v.clock.tail }
  last : ∀ {v t}, I v → P t → I { v with
    lastTradePriceTicks := some t.priceTicks
    stops := v.stops.mapValues (View.trail t.priceTicks) }
  delete : ∀ {v s}, I v → v.stops.get? s.orderId = some s →
    I { v with stops := v.stops.delete s.orderId }
  fire : ∀ {v s o ms}, I v → v.stops.get? s.orderId = some s →
    newOrder v.symbol (executedType s) (executedInput s ms) true = .ok o →
      I (View.executed { v with stops := v.stops.delete s.orderId } o) ∧ ∀ t ∈ (v.execute o).1, P t

namespace Fires

variable {I : View → Prop} {P : Trade → Prop} (h : Fires I P)
include h

theorem triggerAll (ss : List StopOrder) {v : View} (hv : I v) (hss : Pending v ss) :
    (Spec.triggerAll ss).Post v fun r w => I w ∧ ∀ t, r = .ok t → ∀ x ∈ t.trades, P x := by
  induction ss generalizing v with
  | nil =>
    refine ⟨hv, fun t ht => ?_⟩
    cases ht
    exact fun x hx => by cases hx
  | cons s ss ih =>
    have hs := hss.2 s List.mem_cons_self
    have hpend : ∀ w : View, w.stops = v.stops.delete s.orderId → Pending w ss := by
      obtain ⟨hnew, hnd⟩ := List.nodup_cons.mp hss.1
      refine fun w hw => ⟨hnd, fun s' hs' => ?_⟩
      rw [hw, OMap.get?_delete_ne _ fun e => hnew (List.mem_map.mpr ⟨s', hs', e⟩)]
      exact hss.2 s' (List.mem_cons_of_mem _ hs')
    unfold Spec.triggerAll
    refine Post.modify ?_
    have hexec : (Spec.executeStop { s with status := .triggered }).Post
        { v with stops := v.stops.delete s.orderId } fun r w => I w ∧ w.stops = v.stops.delete s.orderId ∧
          ∀ x, r = .ok x → ∀ t ∈ x.2, P t := by
      unfold Spec.executeStop
      refine Post.get ?_
      unfold Post
      rw [run_bind_ok (show Spec.now.run { v with stops := v.stops.delete s.orderId } =
        (.ok (v.clock 0), { v with stops := v.stops.delete s.orderId, clock := v.clock.tail }) from rfl),
        run_lift_bind]
      cases ho : newOrder v.symbol (executedType { s with status := .triggered })
          (executedInput { s with status := .triggered } (v.clock 0)) true with
      | error e =>
        refine ⟨h.clock (h.delete hv hs), rfl, fun x hx => ?_⟩
        cases hx
      | ok o =>
        obtain ⟨hI, hP⟩ := h.fire hv hs ho
        refine ⟨h.clock hI, rfl, fun x hx => ?_⟩
        cases hx
        exact hP
    refine hexec.bind (fun x w hw => ?_) fun e w hw => ⟨hw.1, fun t ht => by cases ht⟩
    refine (ih hw.1 (hpend w hw.2.1)).bind (fun r w' hw' => ⟨hw'.1, fun t ht => ?_⟩)
      fun e w' hw' => ⟨hw'.1, fun t ht => by cases ht⟩
    cases ht
    intro t ht
    rcases List.mem_append.mp ht with ht | ht
    · exact hw.2.2 x rfl t ht
    · exact hw'.2 r rfl t ht

theorem cascade (cycles : Nat) (ts : List Trade) (hts : ∀ t ∈ ts, P t) : Keeps I (Spec.cascade cycles ts) := by
  induction cycles generalizing ts with
  | zero =>
    unfold Spec.cascade
    split
    · exact Keeps.pure _
    · exact Keeps.throw _
  | succ cycles ih =>
    unfold Spec.cascade
    cases ht : ts.getLast? with
    | none => exact Keeps.pure _
    | some t =>
      intro v hv
      refine Post.modify ?_
      have hlast := h.last hv (hts t (List.mem_of_getLast? ht))
      unfold Post
      rw [run_bind_ok (show Spec.updateTrailingStops.run { v with lastTradePriceTicks := some t.priceTicks } =
        (.ok (), { v with
          lastTradePriceTicks := some t.priceTicks
          stops := v.stops.mapValues (View.trail t.priceTicks) }) from rfl), run_get_bind]
      split
      · exact hlast
      · exact (h.triggerAll _ hlast (pending_sublist (h.keyed hlast) (eligible_sublist _))).bind
          (fun r w hw => (ih r.trades (hw.2 r rfl)).bind (fun _ => Keeps.pure _) w hw.1) fun _ _ hw => hw.1

/-- The events of a call are stamped. -/
theorem publish (hseq : ∀ {v : View} n, I v → I { v with sequence := n }) (g : EventBody → List EventBody)
    (f : List Event → Result) : Keeps I (do
      let updated ← Spec.bookUpdatedEvent
      let es ← Spec.stamp (g updated)
      return f es : SpecProgram Result) :=
  Keeps.bind (fun _ hv => h.clock hv) fun _ => Keeps.bind (fun _ hv => hseq _ hv) fun _ => Keeps.pure _

theorem placeStop (hseq : ∀ {v : View} n, I v → I { v with sequence := n }) {i : OrderInput} {typ : OrderType}
    {peak valley : Option Int} {v : View} (hv : I v)
    (hstop : ∀ s, newStop v.symbol typ i peak valley = .ok s → ¬ v.hasId s.orderId →
      I { v with stops := v.stops.set s.orderId s }) :
    (Spec.placeStopWithExtrema i typ peak valley).Post v fun _ w => I w := by
  unfold Spec.placeStopWithExtrema Post
  by_cases hid : v.hasId i.orderId
  · rw [run_bind_error (Spec.assertAvailable_taken hid)]
    exact hv
  · rw [run_bind_ok (Spec.assertAvailable_free hid), run_get_bind, run_lift_bind]
    cases hs : newStop v.symbol typ i peak valley with
    | error e => exact hv
    | ok s =>
      refine h.publish hseq (fun updated => [.stopAccepted s, updated]) (fun es => ⟨.stop s, [], [], es⟩) _
        (hstop s hs ?_)
      rw [(newStop_ok.mp hs).orderId.1]
      exact hid

theorem executeNew (hseq : ∀ {v : View} n, I v → I { v with sequence := n }) {typ : OrderType} {i : OrderInput}
    {v : View} (hv : I v) (horder : ∀ o, newOrder v.symbol typ i false = .ok o → ¬ v.hasId o.orderId →
      I (v.executed o) ∧ ∀ t ∈ (v.execute o).1, P t)
    {g : Order × List Trade → StopResult → EventBody → List EventBody}
    {f : Order × List Trade → StopResult → List Event → Result} :
    Post (do
      Spec.assertAvailable i.orderId
      let v ← get
      let o ← lift (newOrder v.symbol typ i false)
      let x ← Spec.execute o
      let triggered ← Spec.cascade maxCycles x.2
      let updated ← Spec.bookUpdatedEvent
      let es ← Spec.stamp (g x triggered updated)
      return f x triggered es : SpecProgram Result) v fun _ w => I w := by
  unfold Post
  by_cases hid : v.hasId i.orderId
  · rw [run_bind_error (Spec.assertAvailable_taken hid)]
    exact hv
  · rw [run_bind_ok (Spec.assertAvailable_free hid), run_get_bind, run_lift_bind]
    cases ho : newOrder v.symbol typ i false with
    | error e => exact hv
    | ok o =>
      obtain ⟨hI, hP⟩ := horder o ho (by rw [(newOrder_ok.mp ho).orderId.1]; exact hid)
      exact ((h.cascade _ _ hP).bind fun t => h.publish hseq (g _ t) (f _ t)) _ hI

/-- A call keeps `I`, if its own steps do. -/
theorem program (hseq : ∀ {v : View} n, I v → I { v with sequence := n }) {v : View} (hv : I v) (c : Call)
    (horder : ∀ o, v.orderOf c = some o → ¬ v.hasId o.orderId →
      I (v.executed o) ∧ ∀ t ∈ (v.execute o).1, P t)
    (hstop : ∀ s, v.stopOf c = some s → ¬ v.hasId s.orderId → I { v with stops := v.stops.set s.orderId s })
    (hremove : ∀ key, I { v with toDepth := v.remove key }) : (Spec.program c).Post v fun _ w => I w := by
  cases c with
  | placeLimit i =>
    exact h.executeNew hseq hv fun o ho => horder o (by rw [View.orderOf, ho]; rfl)
  | placeMarket i =>
    exact h.executeNew hseq hv fun o ho => horder o (by rw [View.orderOf, ho]; rfl)
  | placeStopMarket i => exact h.placeStop hseq hv fun s hs => hstop s (by rw [View.stopOf, hs]; rfl)
  | placeStopLimit i => exact h.placeStop hseq hv fun s hs => hstop s (by rw [View.stopOf, hs]; rfl)
  | placeTrailingStopMarket i =>
    unfold Spec.program Spec.placeTrailingStopMarket
    refine Post.get ?_
    unfold Post
    rw [run_lift_bind]
    cases hn : newTrailing v.lastTradePriceTicks i with
    | error e => exact hv
    | ok x =>
      refine h.placeStop hseq hv fun s hs => hstop s ?_
      rw [View.stopOf, hn]
      exact congrArg Except.toOption hs
  | cancel key =>
    refine Post.get ?_
    cases hs : v.stops.get? key with
    | some s =>
      dsimp only
      have hkey := h.keyed hv key s hs
      have hdelete := h.delete hv (hkey ▸ hs)
      rw [hkey] at hdelete
      exact Post.modify (h.clock hdelete)
    | none =>
      dsimp only
      split
      · exact hv
      · exact Post.modify (h.publish hseq _ _ _ (hremove _))

end Fires

end Lob.Go
