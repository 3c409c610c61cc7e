import LobEngine.Node.Publishing

/-!
# The cycles of a cascade

`processStopOrdersAfterTrades`, cycle by cycle. A cycle starts from a batch of trades: those of the
incoming order, or those of the stop orders that the cycle before triggered. Its last trade sets the last
price, and this price triggers the eligible stop orders.

* `cycles`: the cascade, with a record of its cycles. `cascade_cycles`: it does what the cascade does.
* `Cascaded`: what the cycles do to the pending stop orders and to the last price.
* `OrderBook.cyclesOf`: the cycles of a call.

Nothing here asks for exact numbers.
-/

namespace Lob.Node

open Exc OrderBook

/-- A triggered stop order: its snapshot, the order it became, and the trades that this order made. -/
structure Firing where
  stop : StopOrder
  order : Order
  trades : List Trade

/-- A cycle of the cascade. -/
structure Cycle where
  batch : List Trade
  fired : List Firing

def Firing.events (f : Firing) : List EventBody := triggeredEvents f.stop f.order f.trades

/-- What `processStopOrdersAfterTrades` collects of these orders. -/
def triggeredOf (fs : List Firing) : Triggered :=
  ⟨fs.flatMap (·.trades), fs.map (·.stop), fs.flatMap Firing.events⟩

/-- `triggerAll`, with a record of what it does. -/
def fireAll : List StopOrder → Program (List Firing)
  | [] => return []
  | s :: ss => do
    modify fun b => { b with stopOrdersById := b.stopOrdersById.delete s.orderId }
    let s := { s with status := .triggered }
    let (o, trades) ← executeTriggeredStopOrder s
    let rest ← fireAll ss
    return ⟨s, o, trades⟩ :: rest

/-- `cascade`, with a record of what it does. -/
def cycles : Nat → List Trade → Program (List Cycle)
  | limit, latestTrades =>
    match latestTrades.getLast? with
    | none => return []
    | some lastTrade =>
      match limit with
      | 0 => throw (.error "stop order trigger cycle limit exceeded")
      | limit + 1 => do
        modify fun b => { b with lastTradePriceTicks := some lastTrade.priceTicks }
        updateTrailingStopOrders
        let eligible ← getEligibleStopOrders
        if eligible = [] then return [⟨latestTrades, []⟩]
        else do
          let fired ← fireAll eligible
          let rest ← cycles limit (fired.flatMap (·.trades))
          return ⟨latestTrades, fired⟩ :: rest

/-- The orders of all cycles. -/
def firedIn (cs : List Cycle) : List Firing := cs.flatMap (·.fired)

/-- The cycles of a call that places a limit order or a market order. -/
def OrderBook.cyclesOf (b : OrderBook) : Call → Except JsError (List Cycle)
  | .placeLimitOrder (some p) => (Exc.run (do
      assertOrderIdAvailable p.orderId
      let r ← newOrderNode { p with symbol := b.symbol, type := .limit, clock := false }
      let trades ← matchBySide r false
      restIfActive r
      cycles maxCycles trades) b).1
  | .placeMarketOrder (some p) => (Exc.run (do
      assertOrderIdAvailable p.orderId
      let r ← newOrderNode
        { p with symbol := b.symbol, type := .market, priceTicks := .null, clock := false }
      let trades ← matchBySide r true
      cancelRemainder r
      cycles maxCycles trades) b).1
  | _ => .ok []

/-! ## What matching leaves alone -/

/-- The pending stop orders, the last price and the scalars are those of `b₀`. -/
structure Aside (b₀ b : OrderBook) : Prop where
  stops : b.stopOrdersById = b₀.stopOrdersById
  last : b.lastTradePriceTicks = b₀.lastTradePriceTicks
  symbol : b.symbol = b₀.symbol
  sequence : b.sequence = b₀.sequence

section

variable {b₀ b b' : OrderBook}

theorem Aside.refl (b : OrderBook) : Aside b b := ⟨rfl, rfl, rfl, rfl⟩

theorem aside_onHeap {α : Type} {p : Exc JsError Heap α} : Keeps (Aside b₀) (onHeap p) :=
  fun _ h => ⟨h.stops, h.last, h.symbol, h.sequence⟩

theorem Aside.trans {b'' : OrderBook} (h : Aside b b') (h' : Aside b' b'') : Aside b b'' :=
  ⟨h'.stops.trans h.stops, h'.last.trans h.last, h'.symbol.trans h.symbol, h'.sequence.trans h.sequence⟩

theorem Aside.setSide (b : OrderBook) (s : Side) (m : OMap Int LevelRef) : Aside b (b.setSide s m) := by
  refine ⟨?_, ?_, ?_, ?_⟩ <;> simp

theorem aside_newOrderNode {i : OrderInput} : Keeps (Aside b₀) (newOrderNode i) :=
  (Keeps.lift _).bind fun _ => Keeps.get.bind fun _ =>
    (Keeps.modify fun _ h => by exact ⟨h.stops, h.last, h.symbol, h.sequence⟩).bind
    fun _ => Keeps.pure _

theorem framed_aside : Framed (Aside b₀) :=
  .of_heap (fun _ _ h => ⟨h.stops, h.last, h.symbol, h.sequence⟩) (fun b _ _ h => h.trans (Aside.setSide b _ _))
    fun _ _ h => ⟨h.stops, h.last, h.symbol, h.sequence⟩

theorem aside_matchBySide {r : NodeRef} (ignore : Bool) : Keeps (Aside b₀) (matchBySide r ignore) :=
  framed_aside.matchBySide (fun _ _ => aside_onHeap) (fun _ _ h => ⟨h.stops, h.last, h.symbol, h.sequence⟩) r ignore

theorem aside_cancelRemainder {r : NodeRef} : Keeps (Aside b₀) (cancelRemainder r) :=
  Keeps.get.bind fun _ => aside_onHeap.ite (Keeps.pure ())

theorem aside_restIfActive {r : NodeRef} : Keeps (Aside b₀) (restIfActive r) :=
  framed_aside.restIfActive (fun _ _ h => ⟨h.stops, h.last, h.symbol, h.sequence⟩) r

/-! ## The trades of the book -/

/-- The trades of the book are `ts`. -/
def Traded (ts : List Trade) (b : OrderBook) : Prop := b.trades = ts

theorem traded_onHeap {ts : List Trade} {α : Type} {p : Exc JsError Heap α} : Keeps (Traded ts) (onHeap p) :=
  fun _ h => h

theorem framed_traded {ts : List Trade} : Framed (Traded ts) :=
  .of_heap (fun _ _ h => h) (fun b _ _ h => (setSide_trades b _ _).trans h) fun _ _ h => h

theorem matchBest_trades {s : Side} {r : NodeRef} {best : Int} {t : Trade}
    (h : (matchBest s r best).run b = (.ok t, b')) : b'.trades = b.trades ++ [t] := by
  unfold matchBest at h
  rw [run_get_bind] at h
  split at h
  · cases h
  split at h
  · cases h
  obtain ⟨_, b₁, h₁, h⟩ := bind_ok h
  obtain ⟨_, b₂, h₂, h⟩ := bind_ok h
  obtain ⟨_, b₃, h₃, h⟩ := bind_ok h
  rw [run_modify_bind] at h
  obtain ⟨_, b₄, h₄, h⟩ := bind_ok h
  cases h
  have ht₁ : Traded b.trades b₁ := traded_onHeap.of_run rfl h₁
  have ht₂ : Traded b.trades b₂ := traded_onHeap.of_run ht₁ h₂
  have ht₃ : Traded b.trades b₃ := traded_onHeap.of_run ht₂ h₃
  refine (framed_traded.dropFilled _ _ _ best).of_run (I := Traded (b.trades ++ [_])) ?_ h₄
  show b₃.trades ++ [_] = _
  rw [show b₃.trades = b.trades from ht₃]

theorem matchLoop_trades {s : Side} {r : NodeRef} {ignore : Bool} {fuel : Nat} {ts : List Trade}
    (h : (matchLoop s r ignore fuel).run b = (.ok ts, b')) : b'.trades = b.trades ++ ts := by
  induction fuel generalizing b ts with
  | zero => cases h
  | succ fuel ih =>
    unfold matchLoop at h
    rw [run_get_bind] at h
    have hdone : (pure [] : Program (List Trade)).run b = (.ok ts, b') → b'.trades = b.trades ++ ts := by
      intro h
      cases h
      exact (List.append_nil _).symm
    split at h
    · exact hdone h
    split at h
    · exact hdone h
    split at h
    · exact hdone h
    obtain ⟨t, b₁, h₁, h⟩ := bind_ok h
    obtain ⟨us, b₂, h₂, h⟩ := bind_ok h
    cases h
    rw [ih h₂, matchBest_trades h₁, List.append_assoc, List.singleton_append]

theorem matchBySide_trades {r : NodeRef} {ignore : Bool} {ts : List Trade}
    (h : (matchBySide r ignore).run b = (.ok ts, b')) : b'.trades = b.trades ++ ts := by
  unfold matchBySide at h
  rw [run_get_bind] at h
  split at h
  · exact matchLoop_trades h
  · exact matchLoop_trades h

theorem traded_restIfActive {ts : List Trade} {r : NodeRef} : Keeps (Traded ts) (restIfActive r) :=
  framed_traded.restIfActive (fun _ _ h => h) r

theorem traded_cancelRemainder {ts : List Trade} {r : NodeRef} : Keeps (Traded ts) (cancelRemainder r) :=
  Keeps.get.bind fun _ => traded_onHeap.ite (Keeps.pure ())

theorem traded_newOrderNode {ts : List Trade} {i : OrderInput} : Keeps (Traded ts) (newOrderNode i) :=
  (Keeps.lift _).bind fun _ => Keeps.get.bind fun _ => (Keeps.modify fun _ h => by exact h).bind fun _ => Keeps.pure _

/-! ## One triggered stop order -/

/-- What the execution of a triggered stop order does to the book. -/
structure Fired (b b' : OrderBook) (ts : List Trade) : Prop where
  aside : Aside b b'
  trades : b'.trades = b.trades ++ ts

theorem executeTriggered_fired {s : StopOrder} {o : Order} {ts : List Trade}
    (h : (executeTriggeredStopOrder s).run b = (.ok (o, ts), b')) : Fired b b' ts := by
  unfold executeTriggeredStopOrder at h
  rw [run_get_bind] at h
  -- The new order is created and matched, and its remainder rests or is cancelled.
  have hrun : ∀ {i : OrderInput} {ignore : Bool} {settle : NodeRef → Program Unit},
      (∀ r, Keeps (Aside b) (settle r)) → (∀ ts r, Keeps (Traded ts) (settle r)) →
      Exc.run (do
        let ms ← now
        let r ← newOrderNode (triggeredInput b.symbol s i.type i.priceTicks ms)
        let trades ← matchBySide r ignore
        settle r
        let b ← get
        return (b.order r, trades)) b = (.ok (o, ts), b') → Fired b b' ts := by
    intro i ignore settle haside htraded h
    obtain ⟨ms, b₁, h₁, h⟩ := bind_ok h
    cases h₁
    obtain ⟨r, b₂, h₂, h⟩ := bind_ok h
    obtain ⟨us, b₃, h₃, h⟩ := bind_ok h
    obtain ⟨_, b₄, h₄, h⟩ := bind_ok h
    cases h
    have ha₁ : Aside b { b with clock := b.clock.tail } := ⟨rfl, rfl, rfl, rfl⟩
    have ha₂ : Aside b b₂ := aside_newOrderNode.of_run ha₁ h₂
    have ht₁ : Traded b.trades { b with clock := b.clock.tail } := rfl
    have ht₂ : Traded b.trades b₂ := traded_newOrderNode.of_run ht₁ h₂
    have ht₃ : Traded (b.trades ++ ts) b₃ := by
      rw [Traded, matchBySide_trades h₃, show b₂.trades = b.trades from ht₂]
    exact ⟨(haside r).of_run ((aside_matchBySide ignore).of_run ha₂ h₃) h₄, (htraded _ r).of_run ht₃ h₄⟩
  split_ifs at h
  · exact hrun (i := triggeredInput b.symbol s .market .null 0) (fun _ => aside_cancelRemainder)
      (fun _ _ => traded_cancelRemainder) h
  · exact hrun (i := triggeredInput b.symbol s .limit s.priceTicks 0) (fun _ => aside_restIfActive)
      (fun _ _ => traded_restIfActive) h
  · cases h

/-- The pending stop orders without those of `ss`. -/
def without (ss : List StopOrder) (m : OMap JsVal StopOrder) : OMap JsVal StopOrder :=
  ss.foldl (fun m s => m.delete s.orderId) m

theorem fireAll_fired {ss : List StopOrder} {fs : List Firing}
    (h : (fireAll ss).run b = (.ok fs, b')) :
    fs.map (·.stop) = ss.map (fun s => { s with status := .triggered }) ∧
      b'.stopOrdersById = without ss b.stopOrdersById ∧
      b'.lastTradePriceTicks = b.lastTradePriceTicks ∧ b'.trades = b.trades ++ fs.flatMap (·.trades) := by
  induction ss generalizing b fs with
  | nil =>
    cases h
    exact ⟨rfl, rfl, rfl, (List.append_nil _).symm⟩
  | cons s ss ih =>
    unfold fireAll at h
    rw [run_modify_bind] at h
    obtain ⟨⟨o, ts⟩, b₁, h₁, h⟩ := bind_ok h
    obtain ⟨fs', b₂, h₂, h⟩ := bind_ok h
    cases h
    obtain ⟨haside, htrades⟩ := executeTriggered_fired h₁
    obtain ⟨hmap, hstops, hlast, htr⟩ := ih h₂
    refine ⟨by rw [List.map_cons, List.map_cons, hmap], ?_, hlast.trans haside.last, ?_⟩
    · rw [hstops, haside.stops]
      rfl
    · rw [htr, htrades, List.flatMap_cons, List.append_assoc]

/-- The record of `triggerAll` says what it collects. -/
theorem triggerAll_fireAll {ss : List StopOrder} {t : Triggered}
    (h : (triggerAll ss).run b = (.ok t, b')) :
    ∃ fs, (fireAll ss).run b = (.ok fs, b') ∧ t = triggeredOf fs := by
  induction ss generalizing b t with
  | nil =>
    cases h
    exact ⟨[], rfl, rfl⟩
  | cons s ss ih =>
    unfold triggerAll at h
    rw [run_modify_bind] at h
    obtain ⟨⟨o, ts⟩, b₁, h₁, h⟩ := bind_ok h
    obtain ⟨t', b₂, h₂, h⟩ := bind_ok h
    cases h
    obtain ⟨fs, hfs, rfl⟩ := ih h₂
    refine ⟨⟨{ s with status := .triggered }, o, ts⟩ :: fs, ?_, rfl⟩
    unfold fireAll
    rw [run_modify_bind, run_bind_ok h₁, run_bind_ok hfs]
    rfl

/-! ## Cycles -/

/-- From the pending stop orders `m` and a batch of trades, these cycles lead to the pending stop orders
`m'` and the last price `last'`. -/
inductive Cascaded : OMap JsVal StopOrder → Option Int → List Trade → List Cycle →
    OMap JsVal StopOrder → Option Int → Prop
  /-- No trades. -/
  | idle (m : OMap JsVal StopOrder) (last : Option Int) : Cascaded m last [] [] m last
  /-- No stop order is eligible. -/
  | quiet {m : OMap JsVal StopOrder} {last : Option Int} {batch : List Trade} {t : Trade}
    (final : batch.getLast? = some t)
    (eligible : eligibleOf t.priceTicks (m.mapValues (trail t.priceTicks)).values = .ok []) :
    Cascaded m last batch [⟨batch, []⟩] (m.mapValues (trail t.priceTicks)) (some t.priceTicks)
  /-- The eligible stop orders are triggered, and their trades are the next batch. -/
  | fire {m m' : OMap JsVal StopOrder} {last last' : Option Int} {batch : List Trade} {t : Trade}
    {es : List StopOrder} {fs : List Firing} {cs : List Cycle} (final : batch.getLast? = some t)
    (eligible : eligibleOf t.priceTicks (m.mapValues (trail t.priceTicks)).values = .ok es)
    (stops : fs.map (·.stop) = es.map (fun s => { s with status := .triggered }))
    (rest : Cascaded (without es (m.mapValues (trail t.priceTicks))) (some t.priceTicks)
      (fs.flatMap (·.trades)) cs m' last') :
    Cascaded m last batch (⟨batch, fs⟩ :: cs) m' last'

/-- The cascade does what its cycles say. -/
theorem cascade_cycles {limit : Nat} {ts : List Trade} {t : Triggered}
    (h : (cascade limit ts).run b = (.ok t, b')) :
    ∃ cs, (cycles limit ts).run b = (.ok cs, b') ∧ t = triggeredOf (firedIn cs) := by
  induction limit generalizing b ts t with
  | zero =>
    unfold cascade at h
    unfold cycles
    cases hl : ts.getLast? with
    | none =>
      rw [hl] at h
      cases h
      exact ⟨[], rfl, rfl⟩
    | some x => rw [hl] at h; cases h
  | succ limit ih =>
    unfold cascade at h
    unfold cycles
    cases hl : ts.getLast? with
    | none =>
      rw [hl] at h
      cases h
      exact ⟨[], rfl, rfl⟩
    | some x =>
      rw [hl] at h
      dsimp only at h ⊢
      rw [run_modify_bind] at h ⊢
      obtain ⟨_, b₁, h₁, h⟩ := bind_ok h
      obtain ⟨es, b₂, h₂, h⟩ := bind_ok h
      rw [run_bind_ok h₁, run_bind_ok h₂]
      by_cases he : es = []
      · rw [if_pos he] at h ⊢
        cases h
        exact ⟨_, rfl, rfl⟩
      · rw [if_neg he] at h ⊢
        obtain ⟨a, b₃, h₃, h⟩ := bind_ok h
        obtain ⟨c, b₄, h₄, h⟩ := bind_ok h
        cases h
        obtain ⟨fs, hfs, rfl⟩ := triggerAll_fireAll h₃
        obtain ⟨cs, hcs, rfl⟩ := ih h₄
        refine ⟨⟨ts, fs⟩ :: cs, ?_, ?_⟩
        · rw [run_bind_ok hfs]
          exact run_bind_ok hcs
        · simp only [triggeredOf, Triggered.append, firedIn, List.flatMap_cons, List.map_append,
            List.flatMap_append]

/-- The trades of the cycles are their batches. -/
theorem Cascaded.trades {m m' : OMap JsVal StopOrder} {last last' : Option Int} {ts : List Trade}
    {cs : List Cycle} (h : Cascaded m last ts cs m' last') :
    cs.flatMap (·.batch) = ts ++ (firedIn cs).flatMap (·.trades) := by
  induction h with
  | idle => rfl
  | quiet => simp [firedIn]
  | fire final eligible stops rest ih =>
    rw [List.flatMap_cons, ih]
    simp only [firedIn, List.flatMap_cons, List.flatMap_append]

theorem cycles_cascaded {limit : Nat} {ts : List Trade} {cs : List Cycle}
    (h : (cycles limit ts).run b = (.ok cs, b')) :
    Cascaded b.stopOrdersById b.lastTradePriceTicks ts cs b'.stopOrdersById b'.lastTradePriceTicks ∧
      b'.trades = b.trades ++ (firedIn cs).flatMap (·.trades) := by
  have hdone : ∀ {b : OrderBook} {ts : List Trade} {cs : List Cycle}, ts.getLast? = none →
      (pure [] : Program (List Cycle)).run b = (.ok cs, b') →
      Cascaded b.stopOrdersById b.lastTradePriceTicks ts cs b'.stopOrdersById b'.lastTradePriceTicks ∧
        b'.trades = b.trades ++ (firedIn cs).flatMap (·.trades) := by
    intro b ts cs hl h
    cases h
    rw [List.getLast?_eq_none_iff.mp hl]
    exact ⟨.idle _ _, (List.append_nil _).symm⟩
  induction limit generalizing b ts cs with
  | zero =>
    unfold cycles at h
    cases hl : ts.getLast? with
    | none =>
      rw [hl] at h
      exact hdone hl h
    | some x => rw [hl] at h; cases h
  | succ limit ih =>
    unfold cycles at h
    cases hl : ts.getLast? with
    | none =>
      rw [hl] at h
      exact hdone hl h
    | some x =>
      rw [hl] at h
      dsimp only at h
      set b₀ : OrderBook := { b with
        lastTradePriceTicks := some x.priceTicks
        stopOrdersById := b.stopOrdersById.mapValues (trail x.priceTicks) } with hb₀
      rw [run_modify_bind, run_bind_ok (show updateTrailingStopOrders.run _ = (.ok (), b₀) from rfl)] at h
      obtain ⟨es, b₁, hes, h⟩ := bind_ok h
      have helig : eligibleOf x.priceTicks (b.stopOrdersById.mapValues (trail x.priceTicks)).values = .ok es :=
        congrArg Prod.fst hes
      obtain rfl : b₀ = b₁ := congrArg Prod.snd hes
      by_cases he : es = []
      · rw [if_pos he] at h
        obtain rfl : [⟨ts, []⟩] = cs := Except.ok.inj (congrArg Prod.fst h)
        obtain rfl : b₀ = b' := congrArg Prod.snd h
        rw [he] at helig
        exact ⟨.quiet hl helig, (List.append_nil _).symm⟩
      · rw [if_neg he] at h
        obtain ⟨fs, b₂, hfs, h⟩ := bind_ok h
        obtain ⟨rest, b₃, hrest, h⟩ := bind_ok h
        cases h
        obtain ⟨hmap, hstops, hlast, htr⟩ := fireAll_fired hfs
        obtain ⟨hcas, htrades⟩ := ih hrest
        rw [hstops, hlast] at hcas
        refine ⟨.fire hl helig hmap hcas, ?_⟩
        rw [htrades, htr, List.append_assoc]
        simp only [firedIn, List.flatMap_cons, List.flatMap_append]
        rfl

end

end Lob.Node
