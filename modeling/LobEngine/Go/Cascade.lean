import LobEngine.Go.Spec

/-!
# The cascade of the Go engine, stop order by stop order

`triggerAll` and `cascade` collect trades, stop orders and events. `fireAll` and `fireCycles` record instead what
became of each triggered stop order, in the engine and in its specification: `triggerAll_fireAll`,
`cascade_fireCycles` and their counterparts say that the result comes from the record.
-/

namespace Lob.Go

open Exc Book

/-- A triggered stop order: its snapshot, the order it became, and the trades that this order made. -/
structure Firing where
  stop : StopOrder
  order : Order
  trades : List Trade

def Firing.events (f : Firing) : List EventBody := triggeredEvents f.stop f.order f.trades

/-- What `processStops` collects of these orders. -/
def stopResultOf (fs : List Firing) : StopResult :=
  ⟨fs.flatMap (·.trades), fs.map (·.stop), fs.flatMap Firing.events⟩

theorem stopResultOf_append (fs gs : List Firing) :
    stopResultOf (fs ++ gs) = (stopResultOf fs).append (stopResultOf gs) := by
  simp [stopResultOf, StopResult.append]

/-! ## The engine -/

/-- `triggerAll`, with a record of what it does. -/
def fireAll : List StopOrder → Program (List Firing)
  | [] => return []
  | stop :: stops => do
    modify fun b => b.deleteStop stop.orderId
    let stop := { stop with status := .triggered }
    let (r, trades) ← executeStop stop
    let b ← get
    let rest ← fireAll stops
    return ⟨stop, b.order r, trades⟩ :: rest

/-- `cascade`, with a record of what it does. -/
def fireCycles : Nat → List Trade → Program (List Firing)
  | cycles, latest =>
    match latest.getLast? with
    | none => return []
    | some trade =>
      match cycles with
      | 0 => throw (.error "stop order trigger cycle limit exceeded")
      | cycles + 1 => do
        modify fun b => { b with lastTradePriceTicks := some trade.priceTicks }
        updateTrailingStops
        let b ← get
        if eligibleStops b = [] then return []
        else do
          let fired ← fireAll (eligibleStops b)
          let rest ← fireCycles cycles (fired.flatMap (·.trades))
          return fired ++ rest

theorem triggerAll_fireAll (stops : List StopOrder) : Records (triggerAll stops) (fireAll stops) stopResultOf := by
  induction stops with
  | nil => exact .pure rfl
  | cons stop stops ih => exact .same fun _ => .same fun _ => .same fun b => ih.bind fun fs => .pure rfl

theorem cascade_fireCycles (cycles : Nat) (ts : List Trade) :
    Records (cascade cycles ts) (fireCycles cycles ts) stopResultOf := by
  induction cycles generalizing ts with
  | zero =>
    unfold cascade fireCycles
    cases ts.getLast? with
    | none => exact .pure rfl
    | some t => exact .throw _
  | succ cycles ih =>
    unfold cascade fireCycles
    cases ts.getLast? with
    | none => exact .pure rfl
    | some t =>
      refine .same fun _ => .same fun _ => .same fun b => .ite (.pure rfl) ?_
      exact (triggerAll_fireAll _).bind fun fs => (ih _).bind fun gs => .pure (stopResultOf_append fs gs).symm

/-! ## The specification -/

namespace Spec

def fireAll : List StopOrder → SpecProgram (List Firing)
  | [] => return []
  | stop :: stops => do
    modify fun v => { v with stops := v.stops.delete stop.orderId }
    let stop := { stop with status := .triggered }
    let (o, trades) ← executeStop stop
    let rest ← fireAll stops
    return ⟨stop, o, trades⟩ :: rest

def fireCycles : Nat → List Trade → SpecProgram (List Firing)
  | cycles, latest =>
    match latest.getLast? with
    | none => return []
    | some trade =>
      match cycles with
      | 0 => throw (.error "stop order trigger cycle limit exceeded")
      | cycles + 1 => do
        modify fun v => { v with lastTradePriceTicks := some trade.priceTicks }
        updateTrailingStops
        let v ← get
        if v.eligible = [] then return []
        else do
          let fired ← fireAll v.eligible
          let rest ← fireCycles cycles (fired.flatMap (·.trades))
          return fired ++ rest

theorem triggerAll_fireAll (stops : List StopOrder) : Records (triggerAll stops) (fireAll stops) stopResultOf := by
  induction stops with
  | nil => exact .pure rfl
  | cons stop stops ih => exact .same fun _ => .same fun _ => ih.bind fun fs => .pure rfl

theorem cascade_fireCycles (cycles : Nat) (ts : List Trade) :
    Records (cascade cycles ts) (fireCycles cycles ts) stopResultOf := by
  induction cycles generalizing ts with
  | zero =>
    unfold cascade fireCycles
    cases ts.getLast? with
    | none => exact .pure rfl
    | some t => exact .throw _
  | succ cycles ih =>
    unfold cascade fireCycles
    cases ts.getLast? with
    | none => exact .pure rfl
    | some t =>
      refine .same fun _ => .same fun _ => .same fun v => .ite (.pure rfl) ?_
      exact (triggerAll_fireAll _).bind fun fs => (ih _).bind fun gs => .pure (stopResultOf_append fs gs).symm

end Spec

end Lob.Go
