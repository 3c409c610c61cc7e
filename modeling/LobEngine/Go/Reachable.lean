import LobEngine.Go.Invariants
import LobEngine.Go.Restore

/-!
# Runs of the Go engine

`Run symbol es b`: calls and restarts lead from an empty book to `b`, and the sequenced events of the
calls are `es`. Every book of a run represents a view (`Run.good`).

* `steps`: the outcomes of some calls, and the books after them.
-/

namespace Lob.Go

open Exc

/-- The call cancels a pending stop order. -/
def cancelsStop (b : Book) : Call → Bool
  | .cancel orderId => b.stopOrders.has orderId
  | _ => false

/-- The events of a successful call, but for the cancellation of a pending stop order. -/
def sequencedEvents (b : Book) (c : Call) : List Event :=
  match (call b c).1 with
  | .ok r => if cancelsStop b c then [] else r.events
  | .error _ => []

inductive Run (symbol : String) : List Event → Book → Prop
  | empty (now : Clock) (valid : isBlank symbol = false) : Run symbol [] (Book.empty symbol now)
  | call {es : List Event} {b : Book} (h : Run symbol es b) (c : Call) :
    Run symbol (es ++ sequencedEvents b c) (Go.call b c).2
  | restore {es : List Event} {b b' : Book} (h : Run symbol es b) (id : Option String) (now : Clock)
    (restored : fromRecoverySnapshot (b.recoverySnapshot id) now = .ok b') : Run symbol es b'

def Reachable (b : Book) : Prop := ∃ symbol es, Run symbol es b

theorem Run.good {symbol : String} {es : List Event} {b : Book} (h : Run symbol es b) :
    ∃ v, Good b v ∧ Named symbol v := by
  induction h with
  | empty now valid =>
    exact ⟨_, good_empty now valid, rfl, by simp [View.empty, Depth.orders, Depth.empty],
      by simp [View.empty, OMap.values, OMap.empty]⟩
  | call h c ih =>
    obtain ⟨v, hv, hn⟩ := ih
    exact ⟨_, (call_refines c hv).2, (stable_named symbol).program c v hn⟩
  | restore h id now hb ih =>
    obtain ⟨v, hv, hn⟩ := ih
    obtain ⟨b₁, hb₁, hg⟩ := restored hv id now
    rw [hb] at hb₁
    cases hb₁
    exact ⟨_, hg, hn.symbol, hn.orders, hn.stops⟩

theorem Reachable.good {b : Book} (h : Reachable b) : ∃ v, Good b v := by
  obtain ⟨symbol, es, h⟩ := h
  obtain ⟨v, hv, -⟩ := h.good
  exact ⟨v, hv⟩

/-- The outcomes of calls made one after the other, each with the book after it. -/
def steps (b : Book) : List Call → List (Except GoError Result × Book)
  | [] => []
  | c :: cs => call b c :: steps (call b c).2 cs

/-- The book after some calls. -/
def calls (b : Book) (cs : List Call) : Book := cs.foldl (fun b c => (call b c).2) b

/-- The input of a limit order of user `u`. -/
def limitInput (orderId : String) (side : Side) (priceTicks quantity : Int) : OrderInput where
  orderId := orderId
  userId := "u"
  side := sideText side
  priceTicks := some priceTicks
  triggerPriceTicks := none
  trailingAmountTicks := none
  quantity := quantity
  timestamp := 0

/-- A book on which one sell order of quantity 1 rests, at price 1. -/
def oneAsk : Book :=
  (call (Book.empty "BTC-USD" fun _ => 0) (.placeLimit (limitInput "a" .sell 1 1))).2

theorem oneAsk_run : Run "BTC-USD" ([] ++ sequencedEvents (Book.empty "BTC-USD" fun _ => 0)
    (.placeLimit (limitInput "a" .sell 1 1))) oneAsk :=
  .call (.empty _ (by decide)) _

theorem oneAsk_reachable : Reachable oneAsk := ⟨_, _, oneAsk_run⟩

/-- The events of some calls, as `sequencedEvents` has them. -/
def sequencedRun (b : Book) : List Call → List Event
  | [] => []
  | c :: cs => sequencedEvents b c ++ sequencedRun (call b c).2 cs

theorem Run.calls {symbol : String} {es : List Event} {b : Book} (h : Run symbol es b) (cs : List Call) :
    Run symbol (es ++ sequencedRun b cs) (calls b cs) := by
  induction cs generalizing es b with
  | nil => rwa [sequencedRun, List.append_nil]
  | cons c cs ih =>
    rw [sequencedRun, ← List.append_assoc]
    exact ih (h.call c)

/-- Three sell orders rest, two at price 1 and one at price 2, of which a buy order fills the first in part. A trailing
stop order to buy follows from price 1, and triggers at price 2. -/
def mixedCalls : List Call :=
  [.placeLimit (limitInput "a" .sell 1 2), .placeLimit (limitInput "b" .sell 1 1),
    .placeLimit (limitInput "c" .sell 2 3), .placeLimit (limitInput "d" .buy 1 1),
    .placeTrailingStopMarket { limitInput "t" .buy 1 1 with priceTicks := none, trailingAmountTicks := some 1 }]

def mixed : Book := calls (Book.empty "BTC-USD" fun _ => 0) mixedCalls

/-- A buy order that trades at both prices, and so triggers the trailing stop order. -/
def sweep : Call := .placeLimit (limitInput "e" .buy 2 3)

theorem mixed_run : Run "BTC-USD" ([] ++ sequencedRun (Book.empty "BTC-USD" fun _ => 0) mixedCalls) mixed :=
  .calls (.empty _ (by decide)) _

theorem mixed_reachable : Reachable mixed := ⟨_, _, mixed_run⟩

end Lob.Go
