import LobEngine.Depth
import LobEngine.Lib.Announce

/-!
# Executed orders

A call executes the order it places, and the orders that the triggered stop orders become. `Execution` is
such an order with the trades it made, and `Execution.entry` what the events should say of it.

* `announced_rests`: the events announce the orders that come to rest, exactly if no triggered order trades
  before it rests.
* `execute_sound`: the execution of a new order.
-/

namespace Lob

/-- The order that took. -/
def Trade.aggressorId (t : Trade) : String :=
  match t.aggressorSide with
  | .buy => t.buyOrderId
  | .sell => t.sellOrderId

/-- The quantity with which the order comes to rest, if it does. -/
def Order.rests (o : Order) : Option Int :=
  if o.type = .limit ∧ o.isActive = true ∧ 0 < o.remainingQuantity then some o.remainingQuantity else none

/-- An executed order, as it was when its remainder was settled, and the trades in which it took. -/
structure Execution where
  order : Order
  trades : List Trade
  deriving DecidableEq

namespace Execution

/-- The trades of the order, and its announcement as a resting order. -/
def entry (announced : Bool) (x : Execution) : Entry String :=
  ⟨x.order.orderId, x.trades.length, x.order.rests, announced⟩

/-- A triggered order is announced if nothing of it traded. -/
def triggeredEntry (x : Execution) : Entry String := x.entry (decide (x.order.status = .opened))

/-- The orders that came to rest, each with its quantity. -/
def rested (xs : List Execution) : List (String × Int) :=
  xs.filterMap fun x => x.order.rests.map (x.order.orderId, ·)

/-- The trades of an execution are those of its order, which says whether it traded. -/
structure Sound (x : Execution) : Prop where
  taker : ∀ t ∈ x.trades, t.aggressorId = x.order.orderId
  begun : x.order.type = .limit → (x.order.status = .opened ↔ x.trades = [])
  settled : x.order.type ≠ .limit → ¬ (x.order.status = .opened ∧ 0 < x.order.remainingQuantity)

/-- The condition under which a triggered order is announced. -/
theorem Sound.triggered_note {x : Execution} (h : x.Sound) :
    (if x.order.status = .opened ∧ 0 < x.order.remainingQuantity then
      [Note.settled x.order.orderId x.order.remainingQuantity] else []) =
      if x.triggeredEntry.announced then x.order.rests.toList.map (.settled x.order.orderId) else [] := by
  have hannounced : x.triggeredEntry.announced = decide (x.order.status = .opened) := rfl
  by_cases hopened : x.order.status = .opened
  · rw [hannounced, if_pos (decide_eq_true hopened)]
    by_cases hrem : 0 < x.order.remainingQuantity
    · have hlimit : x.order.type = .limit := by
        by_contra hne
        exact h.settled hne ⟨hopened, hrem⟩
      have hactive : x.order.isActive = true := by
        unfold Order.isActive
        rw [hopened]
        rfl
      rw [if_pos ⟨hopened, hrem⟩, Order.rests, if_pos ⟨hlimit, hactive, hrem⟩]
      rfl
    · rw [if_neg fun hc => hrem hc.2, Order.rests, if_neg fun hc => hrem hc.2.2]
      rfl
  · rw [hannounced, if_neg fun hc => hopened hc.1, if_neg fun hc => hopened (of_decide_eq_true hc)]

/-- The condition under which the limit order that a call places is announced. -/
theorem incoming_note {o : Order} (hl : o.type = .limit) :
    (if o.isActive = true ∧ 0 < o.remainingQuantity then [Note.settled o.orderId o.remainingQuantity] else []) =
      o.rests.toList.map (.settled o.orderId) := by
  by_cases hc : o.isActive = true ∧ 0 < o.remainingQuantity
  · rw [if_pos hc, Order.rests, if_pos ⟨hl, hc⟩]
    rfl
  · rw [if_neg hc, Order.rests, if_neg fun h => hc h.2]
    rfl

/-- What the events should say of the order that a call places and of the triggered ones, in turn. -/
def entries (incoming : Option Execution) (triggered : List Execution) : List (Entry String) :=
  incoming.toList.map (entry true) ++ triggered.map triggeredEntry

theorem entries_notes (x : Execution) (triggered : List Execution) :
    (entries (some x) triggered).flatMap Entry.notes =
      (x.entry true).notes ++ (triggered.map triggeredEntry).flatMap Entry.notes := by
  simp [entries]

theorem rested_entries (incoming : Option Execution) (triggered : List Execution) :
    (entries incoming triggered).filterMap Entry.amount = rested (incoming.toList ++ triggered) := by
  rw [entries, rested, List.filterMap_append, List.filterMap_map, List.filterMap_map, List.filterMap_append]
  rfl

/-- The orders that come to rest are announced, exactly if no triggered order trades before it rests. -/
theorem announced_rests {incoming : Option Execution} {triggered : List Execution}
    (hsound : ∀ x ∈ triggered, x.Sound)
    (hids : ((incoming.toList ++ triggered).map (·.order.orderId)).Nodup) :
    Announced ((entries incoming triggered).flatMap Entry.notes) (rested (incoming.toList ++ triggered)) ↔
      ∀ x ∈ triggered, x.order.rests.isSome = true → x.trades = [] := by
  have hnd : ((entries incoming triggered).map (·.i)).Nodup := by
    rw [entries, List.map_append, List.map_map, List.map_map]
    rwa [List.map_append] at hids
  rw [← rested_entries, announced_iff hnd]
  have hlimit : ∀ o : Order, o.rests.isSome = true → o.type = .limit := by
    intro o ho
    unfold Order.rests at ho
    split at ho
    · next h => exact h.1
    · cases ho
  constructor
  · intro h x hx hs
    have hopened := h x.triggeredEntry (List.mem_append_right _ (List.mem_map_of_mem hx)) hs
    exact ((hsound x hx).begun (hlimit _ hs)).mp (of_decide_eq_true hopened)
  · intro h y hy hs
    rcases List.mem_append.mp hy with hy | hy
    · obtain ⟨x, -, rfl⟩ := List.mem_map.mp hy
      rfl
    · obtain ⟨x, hx, rfl⟩ := List.mem_map.mp hy
      exact decide_eq_true (((hsound x hx).begun (hlimit _ hs)).mpr (h x hx hs))

/-- The order traded before it came to rest. -/
def restsTraded (x : Execution) : Bool := x.order.rests.isSome && decide (x.trades ≠ [])

end Execution

section

variable {ε : Type} {executions : Except ε (Option Execution × List Execution)} {notes : List (Note String)}

/-- The events announce those of the executed orders that came to rest, and no other. -/
def Announces (executions : Except ε (Option Execution × List Execution)) (notes : List (Note String)) : Prop :=
  ∃ incoming triggered, executions = .ok (incoming, triggered) ∧
    Announced notes (Execution.rested (incoming.toList ++ triggered))

/-- A triggered order trades before it comes to rest. -/
def triggeredRestsTraded (executions : Except ε (Option Execution × List Execution)) : Bool :=
  executions.toOption.any fun xs => xs.2.any Execution.restsTraded

theorem announces_iff (h : ∃ incoming triggered, executions = .ok (incoming, triggered) ∧
    (Announced notes (Execution.rested (incoming.toList ++ triggered)) ↔
      ∀ x ∈ triggered, x.order.rests.isSome = true → x.trades = [])) :
    Announces executions notes ↔ triggeredRestsTraded executions = false := by
  obtain ⟨incoming, triggered, hx, hiff⟩ := h
  have hsome : Announces executions notes ↔ Announced notes (Execution.rested (incoming.toList ++ triggered)) := by
    constructor
    · rintro ⟨i, t, heq, h⟩
      cases hx.symm.trans heq
      exact h
    · exact fun h => ⟨incoming, triggered, hx, h⟩
  rw [hsome, hiff, hx]
  show _ ↔ triggered.any Execution.restsTraded = false
  simp [Execution.restsTraded]

end

theorem trades_notes {ts : List Trade} {id : String} (h : ∀ t ∈ ts, t.aggressorId = id) :
    ts.map (fun t => Note.acted t.aggressorId) = List.replicate ts.length (.acted id) := by
  rw [List.eq_replicate_iff]
  refine ⟨List.length_map _, fun n hn => ?_⟩
  obtain ⟨t, ht, rfl⟩ := List.mem_map.mp hn
  rw [h t ht]

/-! ## The execution of a new order -/

/-- An order that did not trade yet. -/
structure Order.New (o : Order) : Prop where
  remaining : o.remainingQuantity = o.initialQuantity
  positive : 0 < o.initialQuantity
  status : o.status = .opened
  price : o.type = .limit → ∃ p, o.priceTicks = some p ∧ 0 < p

namespace Depth

variable {d : Depth} {o : Order}

theorem aggressorId_tradeOf (incoming resting : Order) (q : Int) :
    (tradeOf incoming resting q).aggressorId = incoming.orderId := by
  unfold tradeOf Trade.aggressorId
  cases incoming.side <;> rfl

/-- The new order once it was matched, before its remainder is settled. -/
theorem execute_order : (d.execute o).2.1 = ((d.fillFrom o (o.type ≠ .limit)).2.2.settle
    (o.filledBy (d.taken o (o.type ≠ .limit)))).1 := rfl

theorem execute_type : (d.execute o).2.1.type = o.type := by
  rw [execute_order, settle]
  split_ifs <;> rfl

theorem execute_isActive (ho : o.New) (hl : o.type = .limit) (hrem : 0 < (d.execute o).2.1.remainingQuantity) :
    (d.execute o).2.1.isActive = true := by
  rw [execute_limit hl] at hrem ⊢
  exact Order.filledBy_isActive (by simp [Order.isActive, ho.status]) hrem

theorem New.restsOn (ho : o.New) {n : Int} (hn : 0 ≤ n) (hl : o.type = .limit)
    (hrem : 0 < (o.filledBy n).remainingQuantity) : (o.filledBy n).RestsOn (o.filledBy n).side := by
  obtain ⟨p, hp, hp'⟩ := ho.price hl
  have hpos := ho.positive
  have hrests : o.RestsOn o.side := ⟨rfl, hl, ⟨p, hp, hp'⟩, by rw [ho.remaining]; exact hpos,
    .inl ⟨ho.status, ho.remaining⟩⟩
  rw [Order.filledBy_remaining] at hrem
  rcases hn.eq_or_lt with hz | hz
  · rwa [← hz, Order.filledBy_zero]
  · exact hrests.filledBy hz (by omega)

theorem execute_rests (h : d.Rests) (ho : o.New) : (d.execute o).2.2.Rests := by
  show ((d.fillFrom o (o.type ≠ .limit)).2.2.settle (o.filledBy (d.taken o (o.type ≠ .limit)))).2.Rests
  unfold settle
  split_ifs with hrem hl
  · exact rest_rests (fillFrom_rests h) (New.restsOn ho (taken_nonneg h o _) hl hrem)
  · exact fillFrom_rests h
  · exact fillFrom_rests h

theorem execute_sound (h : d.Rests) (ho : o.New) : Execution.Sound ⟨(d.execute o).2.1, (d.execute o).1⟩ where
  taker := fun t ht => by
    have hid : (d.execute o).2.1.orderId = o.orderId := by
      rw [execute_order, settle]
      split_ifs <;> rfl
    obtain ⟨x, -, q, -, rfl⟩ := fillFrom_trades h ht
    exact (aggressorId_tradeOf o x q).trans hid.symm
  begun := fun hl => by
    have hlimit : o.type = .limit := by
      rw [execute_order, settle] at hl
      split_ifs at hl with hrem ht
      · exact ht
      · exact hl
      · exact hl
    rw [execute_limit hlimit]
    constructor
    · intro hopened
      have hzero : d.taken o (o.type ≠ .limit) = 0 := by
        by_contra hne
        unfold Order.filledBy at hopened
        dsimp only at hopened
        rw [if_neg hne] at hopened
        split at hopened <;> cases hopened
      have hsum := fillFrom_sum d o (o.type ≠ .limit)
      rw [hzero] at hsum
      refine List.eq_nil_iff_forall_not_mem.mpr fun t ht => ?_
      have hpos := fillFrom_pos h o (o.type ≠ .limit)
      have hle := List.single_le_sum (l := (d.fillFrom o (o.type ≠ .limit)).1.map (·.quantity))
        (fun q hq => by
          obtain ⟨u, hu, rfl⟩ := List.mem_map.mp hq
          exact (hpos u hu).le) t.quantity (List.mem_map_of_mem ht)
      have := hpos t ht
      omega
    · intro hnil
      have hnone : d.fillFrom o (decide (o.type ≠ .limit)) = ([], o, d) := fillFrom_none hnil
      have hfilled : o.filledBy (d.taken o (o.type ≠ .limit)) = o :=
        (congrArg (fun x => x.2.1) hnone)
      rw [hfilled]
      exact ho.status
  settled := fun hne hs => by
    rw [execute_order, settle] at hne hs
    split_ifs at hne hs with hrem hl
    · exact hne hl
    · cases hs.1
    · exact hrem hs.2

/-- The executed order joins its side exactly if it comes to rest. -/
theorem execute_joins (ho : o.New) : (d.execute o).2.2 =
    if (d.execute o).2.1.rests.isSome then (d.fillFrom o (o.type ≠ .limit)).2.2.rest (d.execute o).2.1
    else (d.fillFrom o (o.type ≠ .limit)).2.2 := by
  have hbook : (d.execute o).2.2 = ((d.fillFrom o (o.type ≠ .limit)).2.2.settle
      (o.filledBy (d.taken o (o.type ≠ .limit)))).2 := rfl
  by_cases hl : o.type = .limit
  · have horder := execute_limit (d := d) hl
    by_cases hrem : 0 < (d.execute o).2.1.remainingQuantity
    · have hrests : (d.execute o).2.1.rests.isSome = true := by
        rw [Order.rests, if_pos ⟨execute_type.trans hl, execute_isActive ho hl hrem, hrem⟩]
        rfl
      rw [if_pos hrests, horder]
      rw [horder] at hrem
      rw [hbook, settle_limit (show (o.filledBy (d.taken o (o.type ≠ .limit))).type = .limit from hl) hrem]
    · have hrests : ¬ (d.execute o).2.1.rests.isSome = true := by
        rw [Order.rests, if_neg fun h => hrem h.2.2]
        decide
      rw [horder] at hrem
      rw [if_neg hrests, hbook, settle, if_neg hrem]
  · have hrests : ¬ (d.execute o).2.1.rests.isSome = true := by
      rw [Order.rests, if_neg fun h => hl (execute_type.symm.trans h.1)]
      decide
    have hstays : ¬ (o.filledBy (d.taken o (o.type ≠ .limit))).type = .limit := hl
    rw [if_neg hrests, hbook, settle, if_neg hstays]
    split <;> rfl

/-- New orders that execute one after the other, and the book after them. -/
def executeAll (d : Depth) : List Order → List Execution × Depth
  | [] => ([], d)
  | o :: os =>
    let (ts, o', d') := d.execute o
    (⟨o', ts⟩ :: (d'.executeAll os).1, (d'.executeAll os).2)

theorem executeAll_append (d : Depth) (os os' : List Order) : d.executeAll (os ++ os') =
    ((d.executeAll os).1 ++ ((d.executeAll os).2.executeAll os').1, ((d.executeAll os).2.executeAll os').2) := by
  induction os generalizing d with
  | nil => rfl
  | cons o os ih =>
    rw [List.cons_append, executeAll, executeAll]
    dsimp only
    rw [ih]
    rfl

end Depth

end Lob
