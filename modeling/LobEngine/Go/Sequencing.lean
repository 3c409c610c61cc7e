import LobEngine.Go.Reachable

/-!
# The sequence numbers of the Go engine

`gap_free`: over a run, the events of the successful calls (but for cancelled stop orders, whose events
have no number) are numbered from 1 on without a gap, and the book has the last number.

* `Stamps`: what one call does to the numbers.
* `Sequenced`: a list of events that continues the numbers.
-/

namespace Lob.Go

open Exc

/-- The event can only be one of the symbol. -/
def EventBody.Of (symbol : String) (e : EventBody) : Prop := e.symbol.getD symbol = symbol

/-- The events of the symbol, numbered from `n + 1` on. -/
def Sequenced (symbol : String) : Int → List Event → Prop
  | _, [] => True
  | n, e :: es =>
    (e.sequence = some (n + 1) ∧ e.body.symbol = some symbol ∧
      ∀ s snapshot ts, e.body = .bookUpdated s snapshot ts → snapshot.sequence = n + 1) ∧
    Sequenced symbol (n + 1) es

theorem Sequenced.append {symbol : String} {n : Int} {es fs : List Event} (h : Sequenced symbol n es)
    (h' : Sequenced symbol (n + es.length) fs) : Sequenced symbol n (es ++ fs) := by
  induction es generalizing n with
  | nil => simpa using h'
  | cons e es ih =>
    refine ⟨h.1, ih h.2 ?_⟩
    rwa [List.length_cons, Nat.cast_succ, add_comm (es.length : Int), ← add_assoc] at h'

theorem stampFrom_length (symbol : String) (n : Int) (bodies : List EventBody) :
    (stampFrom symbol n bodies).length = bodies.length := by
  induction bodies generalizing n with
  | nil => rfl
  | cons e es ih => rw [stampFrom, List.length_cons, List.length_cons, ih]

theorem stampFrom_sequenced {symbol : String} (n : Int) {bodies : List EventBody}
    (h : ∀ e ∈ bodies, e.Of symbol) : Sequenced symbol n (stampFrom symbol n bodies) := by
  induction bodies generalizing n with
  | nil => trivial
  | cons e es ih =>
    refine ⟨?_, ih _ fun e he => h e (List.mem_cons_of_mem _ he)⟩
    have he := h e List.mem_cons_self
    cases e with
    | bookUpdated s snapshot ts =>
      refine ⟨rfl, congrArg some he, ?_⟩
      rintro _ _ _ ⟨⟩
      rfl
    | order e => exact ⟨rfl, congrArg some he, by rintro _ _ _ ⟨⟩⟩
    | trade t => exact ⟨rfl, congrArg some he, by rintro _ _ _ ⟨⟩⟩
    | stopAccepted s => exact ⟨rfl, congrArg some he, by rintro _ _ _ ⟨⟩⟩
    | stopTriggered s => exact ⟨rfl, congrArg some he, by rintro _ _ _ ⟨⟩⟩

/-! ## The events of a call -/

/-- A call that started with the number `n`: it stamped the events it returned, or failed and stamped
none. -/
def Stamps (symbol : String) (n : Int) (r : Except GoError Result) (w : View) : Prop :=
  match r with
  | .ok r => ∃ bodies, r.events = stampFrom symbol n bodies ∧ w.sequence = n + bodies.length ∧
      ∀ e ∈ bodies, e.Of symbol
  | .error _ => w.sequence = n

/-- The state before the events are stamped. -/
structure Unstamped (symbol : String) (n : Int) (v : View) : Prop where
  named : Named symbol v
  sequence : v.sequence = n

theorem cascading_unstamped (symbol : String) (n : Int) : Cascading (Unstamped symbol n) where
  clock := fun v h => ⟨(stable_named symbol).clock v h.named, h.sequence⟩
  last := fun v p h => ⟨(stable_named symbol).last v p h.named, h.sequence⟩
  delete := fun v k h => ⟨(stable_named symbol).delete v k h.named, h.sequence⟩
  trail := fun v p h => ⟨(stable_named symbol).trail v p h.named, h.sequence⟩
  execute := fun v o h ho => ⟨(stable_named symbol).execute v o h.named ho, h.sequence⟩

section

variable {symbol : String} {n : Int} {v : View}

/-- The trades of an execution, and the order then, are of the symbol of the order. -/
theorem execute_symbol (d : Depth) (o : Order) :
    (d.execute o).2.1.symbol = o.symbol ∧ ∀ t ∈ (d.execute o).1, t.symbol = o.symbol := by
  refine ⟨?_, fun t ht => ?_⟩
  · unfold Depth.execute
    dsimp only
    rw [Depth.settle]
    split_ifs <;> rfl
  · obtain ⟨f, -, rfl⟩ := List.mem_map.mp ht
    rfl

/-- The events of a triggered stop order are of the symbol. -/
theorem triggeredEvents_symbol {stop : StopOrder} {o : Order} {ts : List Trade}
    (hs : stop.symbol = symbol) (ho : o.symbol = symbol) (ht : ∀ t ∈ ts, t.symbol = symbol) :
    ∀ e ∈ triggeredEvents stop o ts, e.symbol = some symbol := by
  intro e he
  unfold triggeredEvents at he
  simp only [List.mem_append, List.mem_cons, List.not_mem_nil, or_false, List.mem_map] at he
  rcases he with ((rfl | ⟨t, h, rfl⟩) | rfl) | he
  · exact congrArg some hs
  · exact congrArg some (ht t h)
  · exact congrArg some ho
  · split at he
    · rw [List.mem_singleton.mp he]
      exact congrArg some ho
    · cases he

/-- Each event of what the triggered stop orders did is of the symbol. -/
def OfSymbol (symbol : String) (r : Except GoError StopResult) : Prop :=
  ∀ t, r = .ok t → ∀ e ∈ t.events, e.symbol = some symbol

theorem executeStop_symbol (stop : StopOrder) (hv : Unstamped symbol n v) :
    (Spec.executeStop stop).Post v fun r w => Unstamped symbol n w ∧
      ∀ x, r = .ok x → x.1.symbol = symbol ∧ ∀ t ∈ x.2, t.symbol = symbol := by
  refine ⟨(cascading_unstamped symbol n).executeStop stop v hv, fun x hx => ?_⟩
  have hrun : ((Spec.executeStop stop).run v).1 =
      ((Exc.lift (newOrder v.symbol (executedType stop) (executedInput stop (v.clock 0)) true) >>=
        Spec.execute).run { v with clock := v.clock.tail }).1 := rfl
  rw [hrun, run_lift_bind] at hx
  cases ho : newOrder v.symbol (executedType stop) (executedInput stop (v.clock 0)) true with
  | error e => rw [ho] at hx; cases hx
  | ok o =>
    rw [ho] at hx
    cases hx
    obtain ⟨h₁, h₂⟩ := execute_symbol v.toDepth o
    have hsym : o.symbol = symbol := (newOrder_ok.mp ho).symbol.1.trans hv.named.symbol
    exact ⟨h₁.trans hsym, fun t ht => (h₂ t ht).trans hsym⟩

theorem triggerAll_symbol (stops : List StopOrder) (hs : ∀ s ∈ stops, s.symbol = symbol)
    (hv : Unstamped symbol n v) :
    (Spec.triggerAll stops).Post v fun r w => Unstamped symbol n w ∧ OfSymbol symbol r := by
  induction stops generalizing v with
  | nil =>
    refine ⟨hv, ?_⟩
    rintro _ ⟨⟩ e he
    cases he
  | cons s stops ih =>
    have hd := (cascading_unstamped symbol n).delete v s.orderId hv
    unfold Spec.triggerAll
    refine Post.modify ?_
    refine (executeStop_symbol { s with status := .triggered } hd).bind (fun x w hw => ?_)
      fun e w hw => ⟨hw.1, by rintro _ ⟨⟩⟩
    refine (ih (fun s hs' => hs s (List.mem_cons_of_mem _ hs')) hw.1).bind (fun t w' hw' => ?_)
      fun e w' hw' => ⟨hw'.1, by rintro _ ⟨⟩⟩
    refine ⟨hw'.1, ?_⟩
    rintro _ ⟨⟩ e he
    obtain ⟨ho, ht⟩ := hw.2 x rfl
    rcases List.mem_append.mp he with he | he
    · refine triggeredEvents_symbol ?_ ho ht e he
      exact hs s List.mem_cons_self
    · exact hw'.2 t rfl e he

theorem cascade_symbol (cycles : Nat) (ts : List Trade) (hv : Unstamped symbol n v) :
    (Spec.cascade cycles ts).Post v fun r w => Unstamped symbol n w ∧ OfSymbol symbol r := by
  have hdone : ∀ w, Unstamped symbol n w → Unstamped symbol n w ∧ OfSymbol symbol (.ok .empty) := by
    refine fun w hw => ⟨hw, ?_⟩
    rintro _ ⟨⟩ e he
    cases he
  induction cycles generalizing v ts with
  | zero =>
    unfold Spec.cascade
    cases ts.getLast? with
    | none => exact hdone v hv
    | some t => exact ⟨hv, by rintro _ ⟨⟩⟩
  | succ cycles ih =>
    unfold Spec.cascade
    cases ts.getLast? with
    | none => exact hdone v hv
    | some t =>
      have hl := (cascading_unstamped symbol n).last v (some t.priceTicks) hv
      refine Post.modify ?_
      refine ((cascading_unstamped symbol n).updateTrailingStops _ hl).bind (fun _ w hw => ?_)
        fun e w hw => ⟨hw, by rintro _ ⟨⟩⟩
      refine Post.get ?_
      by_cases he : w.eligible = []
      · rw [if_pos he]
        exact hdone w hw
      · rw [if_neg he]
        have hstops : ∀ s ∈ w.eligible, s.symbol = symbol := fun s hs =>
          hw.named.stops s ((eligible_sublist w).subset hs)
        refine (triggerAll_symbol w.eligible hstops hw).bind (fun a w₁ h₁ => ?_)
          fun e w₁ h₁ => ⟨h₁.1, by rintro _ ⟨⟩⟩
        refine (ih a.trades h₁.1).bind (fun a' w₂ h₂ => ?_) fun e w₂ h₂ => ⟨h₂.1, by rintro _ ⟨⟩⟩
        refine ⟨h₂.1, ?_⟩
        rintro _ ⟨⟩ e he
        rcases List.mem_append.mp he with he | he
        · exact h₁.2 a rfl e he
        · exact h₂.2 a' rfl e he

/-- The end of a call: all its events are stamped. -/
theorem publish_stamps {g : EventBody → List EventBody} {f : List Event → Result}
    (hv : Unstamped symbol n v) (he : ∀ updated, updated.Of symbol → ∀ e ∈ g updated, e.Of symbol)
    (hr : ∀ es, (f es).events = es) :
    Post (do
      let updated ← Spec.bookUpdatedEvent
      let es ← Spec.stamp (g updated)
      return f es) v (Stamps symbol n) := by
  obtain ⟨hn, rfl⟩ := hv
  refine ⟨g (.bookUpdated none v.snapshot (v.clock 0)), ?_, rfl, he _ rfl⟩
  rw [← hn.symbol]
  exact hr _

/-- A new order executes: its own events and those of the cascade are of the symbol. -/
theorem executeNew_stamps {typ : OrderType} {input : OrderInput}
    {f : Order × List Trade → SpecProgram Result} (hv : Unstamped symbol n v)
    (hf : ∀ o ts w, o.symbol = symbol → (∀ t ∈ ts, t.symbol = symbol) → Unstamped symbol n w →
      (f (o, ts)).Post w (Stamps symbol n)) :
    (Exc.lift (newOrder v.symbol typ input false) >>= fun o => Spec.execute o >>= f).Post v
      (Stamps symbol n) := by
  unfold Post
  rw [run_lift_bind]
  cases ho : newOrder v.symbol typ input false with
  | error e => exact hv.sequence
  | ok o =>
    obtain ⟨h₁, h₂⟩ := execute_symbol v.toDepth o
    have hvsym := (newOrder_ok.mp ho).symbol.1
    have hsym : o.symbol = symbol := hvsym.trans hv.named.symbol
    exact hf _ _ _ (h₁.trans hsym) (fun t ht => (h₂ t ht).trans hsym)
      ((cascading_unstamped symbol n).execute v o hv hvsym)

theorem cascade_stamps {ts : List Trade} {f : StopResult → SpecProgram Result}
    (hv : Unstamped symbol n v)
    (hf : ∀ t w, (∀ e ∈ t.events, e.Of symbol) → Unstamped symbol n w → (f t).Post w (Stamps symbol n)) :
    (Spec.cascade maxCycles ts >>= f).Post v (Stamps symbol n) := by
  refine (cascade_symbol maxCycles ts hv).bind (fun t w hw => ?_) fun e w hw => hw.1.sequence
  refine hf t w (fun e he => ?_) hw.1
  rw [EventBody.Of, hw.2 t rfl e he, Option.getD_some]

theorem assertAvailable_stamps {key : String} {f : Unit → SpecProgram Result}
    (hv : Unstamped symbol n v) (hf : (f ()).Post v (Stamps symbol n)) :
    (Spec.assertAvailable key >>= f).Post v (Stamps symbol n) := by
  unfold Post
  rw [run_bind, Spec.assertAvailable, run_get_bind]
  split_ifs
  · exact hv.sequence
  · exact hf

theorem placeLimit_stamps (input : OrderInput) (hv : Unstamped symbol n v) :
    (Spec.placeLimit input).Post v (Stamps symbol n) := by
  refine assertAvailable_stamps hv (Post.get (executeNew_stamps hv fun o ts w ho ht hw => ?_))
  refine cascade_stamps hw fun t w' ht' hw' => publish_stamps hw' (fun u hu e he => ?_) fun _ => rfl
  simp only [List.mem_append, List.mem_singleton, List.mem_map] at he
  rcases he with ((((rfl | ⟨t', h, rfl⟩) | rfl) | he) | rfl) | he
  · exact ho
  · exact ht t' h
  · exact ho
  · split at he
    · rw [List.mem_singleton.mp he]
      exact ho
    · cases he
  · exact hu
  · exact ht' e he

theorem placeMarket_stamps (input : OrderInput) (hv : Unstamped symbol n v) :
    (Spec.placeMarket input).Post v (Stamps symbol n) := by
  refine assertAvailable_stamps hv (Post.get (executeNew_stamps hv fun o ts w ho ht hw => ?_))
  refine cascade_stamps hw fun t w' ht' hw' => publish_stamps hw' (fun u hu e he => ?_) fun _ => rfl
  simp only [List.mem_append, List.mem_singleton, List.mem_map] at he
  rcases he with (((rfl | ⟨t', h, rfl⟩) | rfl) | he) | rfl
  · exact ho
  · exact ht t' h
  · exact ho
  · exact ht' e he
  · exact hu

theorem placeStopWithExtrema_stamps (input : OrderInput) (typ : OrderType) (peak valley : Option Int)
    (hv : Unstamped symbol n v) :
    (Spec.placeStopWithExtrema input typ peak valley).Post v (Stamps symbol n) := by
  refine assertAvailable_stamps hv (Post.get ?_)
  unfold Post
  rw [run_lift_bind]
  cases hs : newStop v.symbol typ input peak valley with
  | error e => exact hv.sequence
  | ok s =>
    have hsym := (newStop_ok.mp hs).symbol
    have hadd : Unstamped symbol n { v with stops := v.stops.set s.orderId s } :=
      ⟨(stable_named symbol).add v s hv.named hsym, hv.sequence⟩
    refine publish_stamps (g := fun u => [.stopAccepted s, u])
      (f := fun es => ⟨.stop s, [], [], es⟩) hadd (fun u hu e he => ?_) fun _ => rfl
    rcases List.mem_pair.mp he with rfl | rfl
    · exact hsym.trans hv.named.symbol
    · exact hu

theorem cancelResting_stamps {o : Order} (hv : Unstamped symbol n v) (ho : o ∈ v.orders) :
    (Spec.cancelResting o).Post v (Stamps symbol n) := by
  have hsym := hv.named.orders o ho
  have hrem : Unstamped symbol n { v with toDepth := v.remove o.orderId } :=
    ⟨(stable_named symbol).remove v o.orderId hv.named, hv.sequence⟩
  refine Post.modify (publish_stamps hrem (fun u hu e he => ?_) fun _ => rfl)
  rcases List.mem_pair.mp he with rfl | rfl
  · exact hsym
  · exact hu

/-- The call cancels a stop order that is pending in the view. -/
def View.cancelsStop (v : View) : Call → Bool
  | .cancel orderId => v.stops.has orderId
  | _ => false

/-- A call stamps its events, unless it cancels a pending stop order: it then leaves the numbers. -/
theorem program_stamps (c : Call) (hv : Unstamped symbol n v) :
    (Spec.program c).Post v fun r w =>
      if v.cancelsStop c then w.sequence = n else Stamps symbol n r w := by
  cases c with
  | placeLimit input => exact placeLimit_stamps input hv
  | placeMarket input => exact placeMarket_stamps input hv
  | placeStopMarket input => exact placeStopWithExtrema_stamps input _ _ _ hv
  | placeStopLimit input => exact placeStopWithExtrema_stamps input _ _ _ hv
  | placeTrailingStopMarket input =>
    refine Post.get ?_
    unfold Post
    rw [run_lift_bind]
    cases newTrailing v.lastTradePriceTicks input with
    | error e => exact hv.sequence
    | ok x => exact placeStopWithExtrema_stamps _ _ _ _ hv
  | cancel key =>
    refine Post.get ?_
    show Post _ v fun r w => if (v.stops.get? key).isSome = true then _ else _
    cases v.stops.get? key with
    | some s =>
      simp only [Option.isSome_some, if_true]
      exact hv.sequence
    | none =>
      simp only [Option.isSome_none, Bool.false_eq_true, if_false]
      cases ho : v.orders.find? (fun o => decide (o.orderId = key)) with
      | none => exact hv.sequence
      | some o => exact cancelResting_stamps hv (List.mem_of_find?_eq_some ho)

end

/-! ## Runs -/

theorem Good.cancelsStop {b : Book} {v : View} (h : Good b v) (c : Call) :
    cancelsStop b c = v.cancelsStop c := by
  obtain ⟨⟨F, hr⟩, -⟩ := h
  cases c with
  | cancel key => unfold Go.cancelsStop View.cancelsStop; rw [hr.stops]
  | _ => rfl

theorem Good.sequence {b : Book} {v : View} (h : Good b v) : b.sequence = v.sequence := by
  obtain ⟨⟨F, hr⟩, -⟩ := h
  exact hr.sequence.symm

/-- The events of one call continue the numbers. -/
theorem call_sequenced {symbol : String} {b : Book} {v : View} (h : Good b v) (hn : Named symbol v)
    (c : Call) : Sequenced symbol b.sequence (sequencedEvents b c) ∧
      (call b c).2.sequence = b.sequence + (sequencedEvents b c).length := by
  obtain ⟨hres, hgood⟩ := call_refines c h
  have hpost := program_stamps c ⟨hn, rfl⟩
  unfold Post at hpost
  dsimp only at hpost
  unfold sequencedEvents
  rw [hgood.sequence, h.sequence, hres, h.cancelsStop]
  by_cases hc : v.cancelsStop c = true
  · rw [if_pos hc] at hpost
    rw [hpost]
    cases ((Spec.program c).run v).1 <;> simp [hc, Sequenced]
  · rw [if_neg hc] at hpost
    cases hr : ((Spec.program c).run v).1 with
    | error e =>
      rw [hr] at hpost
      have hseq : _ = v.sequence := hpost
      rw [hseq]
      simp [Sequenced]
    | ok r =>
      rw [hr] at hpost
      obtain ⟨bodies, he, hs, hof⟩ := hpost
      dsimp only
      rw [if_neg hc, he, stampFrom_length]
      exact ⟨stampFrom_sequenced _ hof, hs⟩

theorem Run.sequenced {symbol : String} {es : List Event} {b : Book} (h : Run symbol es b) :
    Sequenced symbol 0 es ∧ b.sequence = es.length := by
  induction h with
  | empty now valid => exact ⟨trivial, rfl⟩
  | call h c ih =>
    obtain ⟨v, hv, hn⟩ := h.good
    obtain ⟨h₁, h₂⟩ := call_sequenced hv hn c
    rw [ih.2] at h₁ h₂
    refine ⟨ih.1.append (by rwa [zero_add]), ?_⟩
    rw [h₂, List.length_append, Nat.cast_add]
  | restore h id now hb ih =>
    obtain ⟨v, hv, -⟩ := h.good
    obtain ⟨b₁, hb₁, hg⟩ := restored hv id now
    rw [hb] at hb₁
    cases hb₁
    refine ⟨ih.1, ?_⟩
    rw [hg.sequence, ← ih.2, hv.sequence]

theorem Sequenced.numbers {symbol : String} {n : Int} {es : List Event} (h : Sequenced symbol n es) :
    es.map (·.sequence) = (List.range es.length).map fun i : Nat => some (n + 1 + i) := by
  induction es generalizing n with
  | nil => rfl
  | cons e es ih =>
    rw [List.map_cons, ih h.2, h.1.1, List.length_cons, List.range_succ_eq_map, List.map_cons,
      List.map_map]
    congr 1
    · simp
    · refine List.map_congr_left fun i _ => ?_
      simp only [Function.comp, Nat.cast_succ, Option.some_inj]
      omega

theorem Sequenced.each {symbol : String} {n : Int} {es : List Event} (h : Sequenced symbol n es) :
    ∀ e ∈ es, e.body.symbol = some symbol ∧
      ∀ s snapshot ts, e.body = .bookUpdated s snapshot ts → e.sequence = some snapshot.sequence := by
  induction es generalizing n with
  | nil => intro e he; cases he
  | cons e es ih =>
    intro x hx
    rcases List.mem_cons.mp hx with rfl | hx
    · exact ⟨h.1.2.1, fun s snapshot ts hb => by rw [h.1.2.2 s snapshot ts hb, h.1.1]⟩
    · exact ih h.2 x hx

/-- Over any run, with failing calls and restarts, the events of the successful calls other than
cancellations of a pending stop order are numbered 1, 2, ..., n, the book has the number n, each event
is of its symbol, and the snapshot in an event has the number of the event. -/
theorem gap_free {symbol : String} {es : List Event} {b : Book} (h : Run symbol es b) :
    es.map (·.sequence) = (List.range es.length).map (fun i : Nat => some ((i : Int) + 1)) ∧
      b.sequence = es.length ∧ b.symbol = symbol ∧
      ∀ e ∈ es, e.body.symbol = some symbol ∧
        ∀ s snapshot ts, e.body = .bookUpdated s snapshot ts → e.sequence = some snapshot.sequence := by
  obtain ⟨hes, hseq⟩ := h.sequenced
  obtain ⟨v, hv, hn⟩ := h.good
  refine ⟨?_, hseq, hv.symbol.symm.trans hn.symbol, hes.each⟩
  rw [hes.numbers]
  exact List.map_congr_left fun i _ => by rw [zero_add, add_comm]

/-- A call that is refused, a restart, and a call that triggers a stop order. -/
theorem gap_free_mixed : (call mixed (.placeLimit (limitInput "a" .sell 1 1))).1.isOk = false ∧
    ∃ b, fromRecoverySnapshot ((call mixed (.placeLimit (limitInput "a" .sell 1 1))).2.recoverySnapshot none)
        mixed.now = .ok b ∧
      (sequencedRun (Book.empty "BTC-USD" fun _ => 0) mixedCalls ++ sequencedEvents b sweep).map (·.sequence) =
        (List.range 27).map (fun i : Nat => some ((i : Int) + 1)) ∧ (call b sweep).2.sequence = 27 := by
  have hrun := mixed_run.call (.placeLimit (limitInput "a" .sell 1 1))
  obtain ⟨v, hv, -⟩ := hrun.good
  obtain ⟨b, hb, -⟩ := restored hv none mixed.now
  have hnone : sequencedEvents mixed (.placeLimit (limitInput "a" .sell 1 1)) = [] := by decide +kernel
  have hlen : (sequencedRun (Book.empty "BTC-USD" fun _ => 0) mixedCalls ++ sequencedEvents b sweep).length = 27 := by
    have h : (fromRecoverySnapshot ((call mixed (.placeLimit (limitInput "a" .sell 1 1))).2.recoverySnapshot none)
        mixed.now).toOption.map (fun b => (sequencedRun (Book.empty "BTC-USD" fun _ => 0) mixedCalls ++
          sequencedEvents b sweep).length) = some 27 := by decide +kernel
    rw [hb] at h
    exact Option.some.inj h
  have hafter := (hrun.restore none mixed.now hb).call sweep
  rw [hnone, List.append_nil, List.nil_append] at hafter
  obtain ⟨hnumbers, hsequence, -⟩ := gap_free hafter
  rw [hlen] at hnumbers hsequence
  exact ⟨by decide +kernel, b, hb, hnumbers, hsequence⟩

end Lob.Go
