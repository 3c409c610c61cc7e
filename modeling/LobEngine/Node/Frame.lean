import LobEngine.Node.OrderBook

/-!
# What matching and resting leave alone

`Framed I` says that the single steps of matching and resting keep the property `I` of a book, a fill, a trade and an
arrival apart. Then the parts of a call keep it.

* `Framed.of_heap`: properties that do not look at nodes and levels.
* `Framed.matchBySide`, `Framed.restIfActive`: what is left to show of a fill, a trade and an arrival.
-/

namespace Lob.Node

open Exc OrderBook

structure Framed (I : OrderBook → Prop) : Prop where
  decrease : ∀ l q, Keeps I (onHeap (decreaseTotalQuantity l q))
  remove : ∀ l r, Keeps I (onHeap (remove l r))
  append : ∀ l r, Keeps I (onHeap (append l r))
  newLevel : ∀ b priceTicks, I b → I { b with toHeap := b.toHeap.newLevel priceTicks }
  setSide : ∀ b s m, I b → I (b.setSide s m)
  index : ∀ b m, I b → I { b with ordersById := m }

namespace Framed

variable {I : OrderBook → Prop}

theorem of_heap (heap : ∀ b h, I b → I { b with toHeap := h }) (setSide : ∀ b s m, I b → I (b.setSide s m))
    (index : ∀ b m, I b → I { b with ordersById := m }) : Framed I where
  decrease := fun _ _ b => heap b _
  remove := fun _ _ b => heap b _
  append := fun _ _ b => heap b _
  newLevel := fun b _ => heap b _
  setSide := setSide
  index := index

theorem dropFilled (hI : Framed I) (s : Side) (l : LevelRef) (r : NodeRef) (best : Int) :
    Keeps I (dropFilled s l r best) := by
  refine Keeps.get.bind fun b => Keeps.bind ?_ fun _ => Keeps.get.bind fun b => ?_
  · exact ((hI.remove l r).bind fun _ => Keeps.modify fun b => hI.index b _).ite (Keeps.pure ())
  · exact Keeps.ite (Keeps.modify fun b => hI.setSide b _ _) (Keeps.pure ())

section

variable (hI : Framed I) (hfill : ∀ r q, Keeps I (onHeap (fill r q)))
  (htrade : ∀ b ts, I b → I { b with trades := b.trades ++ ts })

include hI hfill htrade

theorem matchBest (s : Side) (r : NodeRef) (best : Int) : Keeps I (matchBest s r best) := by
  refine Keeps.get.bind fun b => ?_
  split
  · exact Keeps.throw _
  split
  · exact Keeps.throw _
  · exact (hfill _ _).bind fun _ => (hfill _ _).bind fun _ => (hI.decrease _ _).bind fun _ =>
      (Keeps.modify fun b => htrade b _).bind fun _ => (hI.dropFilled _ _ _ _).bind fun _ => Keeps.pure _

theorem matchLoop (s : Side) (r : NodeRef) (ignore : Bool) (fuel : Nat) : Keeps I (matchLoop s r ignore fuel) := by
  induction fuel with
  | zero => exact Keeps.throw _
  | succ fuel ih =>
    refine Keeps.get.bind fun b => Keeps.ite (Keeps.pure _) ?_
    split
    · exact Keeps.pure _
    · exact Keeps.ite (Keeps.pure _) ((hI.matchBest hfill htrade s r _).bind fun _ => ih.bind fun _ => Keeps.pure _)

theorem matchBySide (r : NodeRef) (ignore : Bool) : Keeps I (matchBySide r ignore) := by
  refine Keeps.get.bind fun b => ?_
  split
  · exact Keeps.get.bind fun b => hI.matchLoop hfill htrade _ _ _ _
  · exact Keeps.get.bind fun b => hI.matchLoop hfill htrade _ _ _ _

end

theorem restIfActive (hI : Framed I) (harrival : ∀ b rs, I b → I { b with arrivals := b.arrivals ++ rs })
    (r : NodeRef) : Keeps I (restIfActive r) := by
  refine Keeps.get.bind fun b => Keeps.ite (Keeps.bind ?_ fun _ => ?_) (Keeps.pure ())
  · refine Keeps.get.bind fun b => Keeps.ite (Keeps.throw _) (Keeps.bind ?_ fun _ => ?_)
    · refine Keeps.get.bind fun b => ?_
      split
      · exact Keeps.pure _
      · refine Keeps.ite (Keeps.throw _) (Keeps.bind (Keeps.modify fun b h => ?_) fun _ => Keeps.pure _)
        exact hI.setSide _ _ _ (hI.newLevel b _ h)
    · exact (hI.append _ _).bind fun _ => Keeps.modify fun b => harrival b _
  · exact Keeps.modify fun b => hI.index b _

end Framed

end Lob.Node
