import LobEngine.Node.OrderNode
import Mathlib.Data.List.Perm.Subperm
import Mathlib.Data.List.Range

/-!
# Price levels

`PriceLevel` of the reference engine: a doubly linked queue of nodes with two counters.

`Linked h l Q` says that in the heap `h` the level `l` is the queue `Q`: from the head along `next`
and from the tail along `prev`, every node of `Q` points to its neighbours and to `l`.

* `append_ok`, `remove_ok`: the two operations on a linked level, and what they leave alone
  (`SameBut`).
* `Linked.queue_eq`: the traversal from the head is `Q`.
* `Linked.frame`: what other levels do does not matter.
-/

namespace Lob.Node

open Exc

def PriceLevel.isEmpty (v : PriceLevel) : Bool := v.orderCount = 0

/-- The nodes met along `next`, at most `fuel` of them. -/
def Heap.follow (h : Heap) : Nat → Option NodeRef → List NodeRef
  | _, none => []
  | 0, some _ => []
  | fuel + 1, some r => r :: h.follow fuel (h.node r).next

/-- The traversal of `toArray`: a queue has at most as many nodes as there are. -/
def Heap.queue (h : Heap) (l : LevelRef) : List NodeRef := h.follow h.nodes (h.level l).head

def toArray (h : Heap) (l : LevelRef) : List Order := (h.queue l).map h.order

/-- `new PriceLevel(priceTicks)`; its address is the old `levels`. -/
def Heap.newLevel (h : Heap) (priceTicks : Int) : Heap :=
  { h with
    level := Function.update h.level h.levels
      { priceTicks, head := none, tail := none, totalQuantity := .int 0, orderCount := 0 }
    levels := h.levels + 1 }

def assertAppendable (v : PriceLevel) (n : OrderNode) : Except JsError Unit :=
  if n.priceTicks ≠ some v.priceTicks then
    .error (.error "order priceTicks does not match price level")
  else if n.priceLevel ≠ none then .error (.error "order already belongs to a price level")
  else if n.remainingQuantity ≤ 0 then
    .error (.error "order remainingQuantity must be a positive integer")
  else .ok ()

def append (l : LevelRef) (r : NodeRef) : Exc JsError Heap Unit := do
  let h ← get
  lift (assertAppendable (h.level l) (h.node r))
  modify (·.modifyNode r fun n => { n with priceLevel := some l })
  (if (h.level l).isEmpty then
    modify (·.modifyLevel l fun v => { v with head := some r, tail := some r })
  else match (h.level l).tail with
    | none => throw .typeError
    | some t => do
      modify (·.modifyNode t fun n => { n with next := some r })
      modify (·.modifyNode r fun n => { n with prev := some t })
      modify (·.modifyLevel l fun v => { v with tail := some r }))
  modify (·.modifyLevel l fun v => { v with
    totalQuantity := v.totalQuantity.addInt (h.node r).remainingQuantity
    orderCount := v.orderCount + 1 })

def assertBelongsToLevel (l : LevelRef) (n : OrderNode) : Except JsError Unit :=
  if n.priceLevel ≠ some l then .error (.error "order does not belong to this price level")
  else .ok ()

/-- What follows `p`: its `next`, or the head if there is no `p`. -/
def Heap.setNext (h : Heap) (l : LevelRef) (p n : Option NodeRef) : Heap :=
  match p with
  | some p => h.modifyNode p fun v => { v with next := n }
  | none => h.modifyLevel l fun v => { v with head := n }

/-- What precedes `n`: its `prev`, or the tail if there is no `n`. -/
def Heap.setPrev (h : Heap) (l : LevelRef) (n p : Option NodeRef) : Heap :=
  match n with
  | some n => h.modifyNode n fun v => { v with prev := p }
  | none => h.modifyLevel l fun v => { v with tail := p }

def remove (l : LevelRef) (r : NodeRef) : Exc JsError Heap Unit := do
  let h ← get
  lift (assertBelongsToLevel l (h.node r))
  let previousNode := (h.node r).prev
  let nextNode := (h.node r).next
  modify (·.setNext l previousNode nextNode)
  modify (·.setPrev l nextNode previousNode)
  modify (·.modifyLevel l fun v => { v with
    totalQuantity := v.totalQuantity.addInt (-(h.node r).remainingQuantity)
    orderCount := v.orderCount - 1 })
  detachLinks r

def decreaseTotalQuantity (l : LevelRef) (quantity : Int) : Exc JsError Heap Unit := do
  let h ← get
  if quantity ≤ 0 then throw (.error "quantity must be a positive integer")
  else if (Num.int quantity).le (h.level l).totalQuantity = false then
    throw (.error "cannot decrease more than total price level quantity")
  else modify (·.modifyLevel l fun v => { v with
    totalQuantity := v.totalQuantity.addInt (-quantity) })

/-! ## Linked queues -/

/-- The nodes `Q` are linked in order, between `p` before them and `n` behind them, and belong to
level `l`. -/
def Seg (h : Heap) (l : LevelRef) : Option NodeRef → List NodeRef → Option NodeRef → Prop
  | _, [], _ => True
  | p, r :: Q, n => (h.node r).prev = p ∧ (h.node r).next = Q.head?.or n ∧
      (h.node r).priceLevel = some l ∧ Seg h l (some r) Q n

/-- The level `l` is the queue `Q`. -/
structure Linked (h : Heap) (l : LevelRef) (Q : List NodeRef) : Prop where
  head : (h.level l).head = Q.head?
  tail : (h.level l).tail = Q.getLast?
  seg : Seg h l none Q none
  nodup : Q.Nodup
  count : (h.level l).orderCount = Q.length
  bound : ∀ r ∈ Q, r < h.nodes

/-- `h'` is `h` but for the level `l`, and for the links of the nodes `S`. -/
structure SameBut (l : LevelRef) (S : List NodeRef) (h h' : Heap) : Prop where
  order : ∀ x, h'.order x = h.order x
  node : ∀ x, x ∉ S → h'.node x = h.node x
  level : ∀ k, k ≠ l → h'.level k = h.level k
  price : (h'.level l).priceTicks = (h.level l).priceTicks
  nodes : h'.nodes = h.nodes
  levels : h'.levels = h.levels

section Seg

variable {h h' : Heap} {l : LevelRef}

theorem seg_append {p n : Option NodeRef} {A B : List NodeRef} :
    Seg h l p (A ++ B) n ↔ Seg h l p A (B.head?.or n) ∧ Seg h l (A.getLast?.or p) B n := by
  induction A generalizing p with
  | nil => simp [Seg]
  | cons r A ih =>
    simp only [List.cons_append, Seg, ih]
    have hh : (A ++ B).head?.or n = A.head?.or (B.head?.or n) := by cases A <;> simp
    have hl : (r :: A).getLast?.or p = A.getLast?.or (some r) := by
      cases A with
      | nil => simp
      | cons a A => simp [List.getLast?_cons]
    rw [hh, hl]
    tauto

theorem Seg.congr {p n : Option NodeRef} {Q : List NodeRef} (hs : Seg h l p Q n)
    (he : ∀ r ∈ Q, (h'.node r).prev = (h.node r).prev ∧ (h'.node r).next = (h.node r).next ∧
      (h'.node r).priceLevel = (h.node r).priceLevel) : Seg h' l p Q n := by
  induction Q generalizing p with
  | nil => trivial
  | cons r Q ih =>
    obtain ⟨h₁, h₂, h₃, h₄⟩ := hs
    obtain ⟨e₁, e₂, e₃⟩ := he r List.mem_cons_self
    exact ⟨e₁.trans h₁, e₂.trans h₂, e₃.trans h₃, ih h₄ fun x hx => he x (List.mem_cons_of_mem _ hx)⟩

theorem Seg.mem_level {p n : Option NodeRef} {Q : List NodeRef} (hs : Seg h l p Q n) :
    ∀ r ∈ Q, (h.node r).priceLevel = some l := by
  induction Q generalizing p with
  | nil => simp
  | cons r Q ih =>
    intro x hx
    rcases List.mem_cons.mp hx with rfl | hx
    · exact hs.2.2.1
    · exact ih hs.2.2.2 x hx

/-- The last node gets another successor. -/
theorem Seg.set_next {p n n' : Option NodeRef} {A : List NodeRef} {x : NodeRef}
    (hs : Seg h l p (A ++ [x]) n) (hx : x ∉ A) :
    Seg (h.modifyNode x fun v => { v with next := n' }) l p (A ++ [x]) n' := by
  rw [seg_append] at hs ⊢
  refine ⟨hs.1.congr fun r hr => ?_, ?_⟩
  · rw [Heap.modifyNode_node_ne (ne_of_mem_of_not_mem hr hx)]; exact ⟨rfl, rfl, rfl⟩
  · obtain ⟨h₁, h₂, h₃, -⟩ := hs.2
    simp only [Seg, Heap.modifyNode_node_self, and_true, List.head?_nil, Option.none_or]
    exact ⟨h₁, trivial, h₃⟩

/-- The first node gets another predecessor. -/
theorem Seg.set_prev {p p' n : Option NodeRef} {B : List NodeRef} {x : NodeRef}
    (hs : Seg h l p (x :: B) n) (hx : x ∉ B) :
    Seg (h.modifyNode x fun v => { v with prev := p' }) l p' (x :: B) n := by
  obtain ⟨h₁, h₂, h₃, h₄⟩ := hs
  simp only [Seg, Heap.modifyNode_node_self, true_and]
  refine ⟨h₂, h₃, h₄.congr fun r hr => ?_⟩
  rw [Heap.modifyNode_node_ne (ne_of_mem_of_not_mem hr hx)]; exact ⟨rfl, rfl, rfl⟩

end Seg

section Linked

variable {h h' : Heap} {l : LevelRef} {Q : List NodeRef}

theorem follow_seg {p : Option NodeRef} (hs : Seg h l p Q none) {fuel : Nat}
    (hf : Q.length ≤ fuel) : h.follow fuel Q.head? = Q := by
  induction Q generalizing p fuel with
  | nil => cases fuel <;> rfl
  | cons r Q ih =>
    cases fuel with
    | zero => simp at hf
    | succ fuel =>
      obtain ⟨-, hn, -, hs⟩ := hs
      rw [List.head?_cons, Heap.follow, hn, Option.or_none, ih hs (by simpa using hf)]

/-- The traversal from the head is the queue. -/
theorem Linked.queue_eq (hl : Linked h l Q) : h.queue l = Q := by
  have hlen : Q.length ≤ h.nodes := by
    have := (hl.nodup.subperm fun r hr => List.mem_range.mpr (hl.bound r hr)).length_le
    rwa [List.length_range] at this
  rw [Heap.queue, hl.head, follow_seg hl.seg hlen]

theorem Linked.isEmpty (hl : Linked h l Q) : (h.level l).isEmpty = Q.isEmpty := by
  rw [PriceLevel.isEmpty, hl.count]
  cases Q with
  | nil => rfl
  | cons r Q =>
    rw [List.isEmpty_cons, decide_eq_false_iff_not, List.length_cons]
    omega

theorem Linked.mem_level (hl : Linked h l Q) : ∀ r ∈ Q, (h.node r).priceLevel = some l :=
  hl.seg.mem_level

/-- A queue does not notice what happens to other levels and to nodes outside it, nor a change of
its nodes' orders. -/
theorem Linked.frame (hl : Linked h l Q) (hn : h.nodes ≤ h'.nodes)
    (hlev : h'.level l = h.level l)
    (hnode : ∀ r ∈ Q, (h'.node r).prev = (h.node r).prev ∧ (h'.node r).next = (h.node r).next ∧
      (h'.node r).priceLevel = (h.node r).priceLevel) : Linked h' l Q :=
  ⟨hlev ▸ hl.head, hlev ▸ hl.tail, hl.seg.congr hnode, hl.nodup, hlev ▸ hl.count,
    fun r hr => (hl.bound r hr).trans_le hn⟩

/-- A new level is empty. -/
theorem linked_newLevel (h : Heap) (p : Int) : Linked (h.newLevel p) h.levels [] := by
  constructor <;> simp [Heap.newLevel, Seg]

/-! ## The operations -/

theorem decreaseTotalQuantity_ok {t q : Int} (ht : (h.level l).totalQuantity = .int t) (hq : 0 < q)
    (hle : q ≤ t) (hmax : t ≤ Num.maxExact) : (decreaseTotalQuantity l q).run h =
      (.ok (), h.modifyLevel l fun v => { v with totalQuantity := .int (t - q) }) := by
  unfold decreaseTotalQuantity
  rw [run_get_bind]
  rw [if_neg (show ¬ q ≤ 0 by omega), ht, Num.le_int, if_neg (by simpa using hle)]
  have e : (Num.int t).addInt (-q) = .int (t - q) :=
    Num.addInt_exact (b := -q) (by omega) (by omega)
  simp only [run_modify, Heap.modifyLevel, ht, e]

/-- `append` to a linked level: the node goes to the end. -/
theorem append_ok {r : NodeRef} (hl : Linked h l Q) (hr : r ∉ Q) (hb : r < h.nodes)
    (hp : (h.node r).priceTicks = some (h.level l).priceTicks)
    (hlinks : (h.node r).prev = none ∧ (h.node r).next = none ∧ (h.node r).priceLevel = none)
    (hrem : 0 < (h.node r).remainingQuantity) :
    ∃ h', (append l r).run h = (.ok (), h') ∧ Linked h' l (Q ++ [r]) ∧
      SameBut l (Q ++ [r]) h h' ∧ (h'.level l).totalQuantity =
        (h.level l).totalQuantity.addInt (h.node r).remainingQuantity := by
  obtain ⟨hprev, hnext, hlevel⟩ := hlinks
  have ha : assertAppendable (h.level l) (h.node r) = .ok () := by
    rw [assertAppendable, if_neg (by simp [hp]), if_neg (by simp [hlevel]), if_neg (by omega)]
  unfold append
  simp only [run_get_bind, run_lift_bind, ha, run_modify_bind]
  rcases List.eq_nil_or_concat' Q with rfl | ⟨A, t, rfl⟩
  · rw [show (h.level l).isEmpty = true from hl.isEmpty, if_pos rfl, run_modify_bind, run_modify]
    refine ⟨_, rfl, ⟨?_, ?_, ?_, by simp, ?_, by simpa using hb⟩, ⟨?_, ?_, ?_, ?_, rfl, rfl⟩, ?_⟩
    · simp
    · simp
    · simp [Seg, hprev, hnext]
    · simp [hl.count]
    · intro x
      simp only [Heap.order, Heap.modifyLevel_node, Heap.modifyNode_node]
      split <;> simp_all
    · intro x hx
      simp only [List.nil_append, List.mem_singleton] at hx
      simp [Heap.modifyNode_node_ne hx]
    · intro k hk; simp [Heap.modifyLevel_level_ne hk]
    · simp
    · simp
  · have htl : (h.level l).tail = some t := by rw [hl.tail]; simp
    have hrt : r ≠ t := by rintro rfl; simp at hr
    have htA : t ∉ A := fun h =>
      (List.nodup_append.mp hl.nodup).2.2 t h t (List.mem_singleton_self t) rfl
    rw [show (h.level l).isEmpty = false by rw [hl.isEmpty]; simp, if_neg Bool.false_ne_true, htl]
    simp only [run_bind_assoc, run_modify_bind, run_modify]
    refine ⟨_, rfl, ⟨?_, ?_, ?_, ?_, ?_, ?_⟩, ⟨?_, ?_, ?_, ?_, rfl, rfl⟩, ?_⟩
    · simp [hl.head]
    · simp
    · rw [seg_append]
      constructor
      · have hseg : Seg _ l none (A ++ [t]) (some r) := hl.seg.set_next htA
        refine hseg.congr fun x hx => ?_
        have hxr : x ≠ r := ne_of_mem_of_not_mem hx hr
        simp [Heap.modifyNode_node, hxr, hrt.symm]
      · simp [Seg, Heap.modifyNode_node, hrt, hnext]
    · exact List.nodup_append.mpr ⟨hl.nodup, List.nodup_singleton r, fun a ha b hb e => hr (by
        rw [List.mem_singleton] at hb; exact hb ▸ e ▸ ha)⟩
    · simp [hl.count, add_assoc]
    · intro x hx
      rcases List.mem_append.mp hx with hx | hx
      · exact hl.bound x hx
      · rw [List.mem_singleton.mp hx]; exact hb
    · intro x
      simp only [Heap.order, Heap.modifyLevel_node, Heap.modifyNode_node]
      split <;> split <;> simp_all
    · intro x hx
      simp only [List.mem_append, List.mem_singleton, not_or] at hx
      simp [Heap.modifyNode_node, hx.1.2, hx.2]
    · intro k hk; simp [Heap.modifyLevel_level_ne hk]
    · simp
    · simp

/-- Behind the relinked nodes `A` comes `n`. -/
theorem setNext_seg {p n n' : Option NodeRef} {A : List NodeRef} (hs : Seg h l p A n)
    (hA : A.Nodup) : Seg (h.setNext l A.getLast? n') l p A n' := by
  rcases List.eq_nil_or_concat' A with rfl | ⟨A, x, rfl⟩
  · trivial
  · rw [List.getLast?_concat]
    exact hs.set_next fun h => (List.nodup_append.mp hA).2.2 x h x (List.mem_singleton_self x) rfl

theorem setPrev_seg {p p' n : Option NodeRef} {B : List NodeRef} (hs : Seg h l p B n)
    (hB : B.Nodup) : Seg (h.setPrev l B.head? p') l p' B n := by
  cases B with
  | nil => trivial
  | cons x B => exact hs.set_prev (List.nodup_cons.mp hB).1

theorem setNext_node {A : List NodeRef} {n : Option NodeRef} {x : NodeRef} (hx : x ∉ A) :
    (h.setNext l A.getLast? n).node x = h.node x := by
  cases ht : A.getLast? with
  | none => rfl
  | some t =>
    simp only [Heap.setNext]
    exact Heap.modifyNode_node_ne (ne_of_mem_of_not_mem (List.mem_of_getLast? ht) hx).symm

theorem setPrev_node {B : List NodeRef} {p : Option NodeRef} {x : NodeRef} (hx : x ∉ B) :
    (h.setPrev l B.head? p).node x = h.node x := by
  cases ht : B.head? with
  | none => rfl
  | some t =>
    simp only [Heap.setPrev]
    exact Heap.modifyNode_node_ne (ne_of_mem_of_not_mem (List.mem_of_head? ht) hx).symm

/-- Relinking changes no order, no other level, and at level `l` the head at most. -/
theorem setNext_sameBut (A : List NodeRef) (n : Option NodeRef) :
    SameBut l A h (h.setNext l A.getLast? n) ∧
      ((h.setNext l A.getLast? n).level l) =
        { h.level l with head := if A = [] then n else (h.level l).head } := by
  refine ⟨⟨fun x => ?_, fun x hx => setNext_node hx, fun k hk => ?_, ?_, ?_, ?_⟩, ?_⟩
  all_goals rcases List.eq_nil_or_concat' A with rfl | ⟨A, t, rfl⟩
  all_goals simp [Heap.setNext, Heap.order, Heap.modifyNode_node, Heap.modifyLevel_level, *]
  split <;> simp_all

theorem setPrev_sameBut (B : List NodeRef) (p : Option NodeRef) :
    SameBut l B h (h.setPrev l B.head? p) ∧
      ((h.setPrev l B.head? p).level l) =
        { h.level l with tail := if B = [] then p else (h.level l).tail } := by
  refine ⟨⟨fun x => ?_, fun x hx => setPrev_node hx, fun k hk => ?_, ?_, ?_, ?_⟩, ?_⟩
  all_goals cases B
  all_goals simp [Heap.setPrev, Heap.order, Heap.modifyNode_node, Heap.modifyLevel_level, *]
  split <;> simp_all

/-- `remove` of any node of a linked level: the others stay in order. -/
theorem remove_ok {A B : List NodeRef} {r : NodeRef} (hl : Linked h l (A ++ r :: B)) :
    ∃ h', (remove l r).run h = (.ok (), h') ∧ Linked h' l (A ++ B) ∧
      SameBut l (A ++ r :: B) h h' ∧ ((h'.node r).prev = none ∧ (h'.node r).next = none ∧
        (h'.node r).priceLevel = none) ∧ (h'.level l).totalQuantity =
        (h.level l).totalQuantity.addInt (-(h.node r).remainingQuantity) := by
  have hb : assertBelongsToLevel l (h.node r) = .ok () := by
    rw [assertBelongsToLevel, if_neg (by simp [hl.mem_level r (by simp)])]
  have hseg := hl.seg
  rw [seg_append] at hseg
  obtain ⟨hA, hprev, hnext, -, hB⟩ := hseg
  rw [Option.or_none] at hprev hnext
  obtain ⟨hndA, hndB, hdisj⟩ := List.nodup_append.mp hl.nodup
  obtain ⟨hrB, hndB⟩ := List.nodup_cons.mp hndB
  have hrA : r ∉ A := fun h => hdisj r h r List.mem_cons_self rfl
  have hAB : ∀ x ∈ A, x ∉ B := fun x hx hx' => hdisj x hx x (List.mem_cons_of_mem _ hx') rfl
  unfold remove
  simp only [run_get_bind, run_lift_bind, hb, hprev, hnext, run_modify_bind, detachLinks, run_modify]
  -- The heap with both neighbours relinked; counting and detaching change no link of `A` and `B`.
  obtain ⟨hs₁, hlev₁⟩ := setNext_sameBut (h := h) (l := l) A B.head?
  set h₁ := h.setNext l A.getLast? B.head? with hh₁
  obtain ⟨hs₂, hlev₂⟩ := setPrev_sameBut (h := h₁) (l := l) B A.getLast?
  set h₂ := h₁.setPrev l B.head? A.getLast? with hh₂
  have hsegA : Seg h₂ l none A B.head? :=
    (setNext_seg hA hndA).congr fun x hx => by
      rw [hs₂.node x (hAB x hx)]; exact ⟨rfl, rfl, rfl⟩
  have hsegB : Seg h₂ l A.getLast? B none :=
    setPrev_seg (hB.congr fun x hx => by
      rw [hs₁.node x fun hx' => hAB x hx' hx]; exact ⟨rfl, rfl, rfl⟩) hndB
  refine ⟨_, rfl, ⟨?_, ?_, ?_, ?_, ?_, ?_⟩, ⟨?_, ?_, ?_, ?_, ?_, ?_⟩, ?_, ?_⟩
  · simp only [Heap.modifyNode_level, Heap.modifyLevel_level_self, hlev₂, hlev₁, hl.head]
    cases A <;> simp
  · simp only [Heap.modifyNode_level, Heap.modifyLevel_level_self, hlev₂, hlev₁, hl.tail]
    cases B <;> simp
  · rw [seg_append, Option.or_none, Option.or_none]
    constructor
    · exact hsegA.congr fun x hx => by
        simp [Heap.modifyNode_node_ne (ne_of_mem_of_not_mem hx hrA)]
    · exact hsegB.congr fun x hx => by
        simp [Heap.modifyNode_node_ne (ne_of_mem_of_not_mem hx hrB)]
  · exact List.nodup_append.mpr ⟨hndA, hndB, fun x hx y hy e => hAB x hx (e ▸ hy)⟩
  · simp only [Heap.modifyNode_level, Heap.modifyLevel_level_self, hlev₂, hlev₁, hl.count]
    simp only [List.length_append, List.length_cons]
    omega
  · intro x hx
    simp only [Heap.modifyNode_nodes, Heap.modifyLevel_nodes, hs₂.nodes, hs₁.nodes]
    apply hl.bound
    simp only [List.mem_append, List.mem_cons] at hx ⊢
    tauto
  · intro x
    have ho : h₂.order x = h.order x := (hs₂.order x).trans (hs₁.order x)
    simp only [Heap.order, Heap.modifyLevel_node, Heap.modifyNode_node] at ho ⊢
    split
    · next e => subst e; exact ho
    · exact ho
  · intro x hx
    simp only [List.mem_append, List.mem_cons, not_or] at hx
    rw [Heap.modifyNode_node_ne hx.2.1, Heap.modifyLevel_node, hs₂.node x hx.2.2, hs₁.node x hx.1]
  · intro k hk
    rw [Heap.modifyNode_level, Heap.modifyLevel_level_ne hk, hs₂.level k hk, hs₁.level k hk]
  · simp only [Heap.modifyNode_level, Heap.modifyLevel_level_self, hlev₂, hlev₁]
  · exact hs₂.nodes.trans hs₁.nodes
  · exact hs₂.levels.trans hs₁.levels
  · simp
  · simp only [Heap.modifyNode_level, Heap.modifyLevel_level_self, hlev₂, hlev₁]

end Linked

/-! ## One order, whatever the heap does -/

/-- The order of node `r` has the property `P`. -/
def OfOrder (P : Order → Prop) (r : NodeRef) (h : Heap) : Prop := P (h.order r)

/-- A fill keeps the property of an order. -/
def Lasting (P : Order → Prop) : Prop := ∀ (o : Order) (left : Int), P o →
  P { o with remainingQuantity := left, status := if left = 0 then .filled else .partiallyFilled }

section OfOrder

variable {P : Order → Prop} {r x : NodeRef} {l : LevelRef} {q : Int}

theorem OfOrder.modifyNode {h : Heap} {f : OrderNode → OrderNode} (hr : OfOrder P r h)
    (hf : P (h.order x) → P (f (h.node x)).toOrder) : OfOrder P r (h.modifyNode x f) := by
  unfold OfOrder Heap.order at *
  rw [Heap.modifyNode_node]
  split
  · next e =>
    subst e
    exact hf hr
  · exact hr

theorem keeps_ofOrder_fill (hP : Lasting P) : Keeps (OfOrder P r) (fill x q) :=
  Keeps.get.bind fun _ => (Keeps.throw _).ite ((Keeps.throw _).ite ((Keeps.throw _).ite
    (Keeps.modify fun _ h => h.modifyNode fun hx => hP _ _ hx)))

theorem keeps_ofOrder_decrease : Keeps (OfOrder P r) (decreaseTotalQuantity l q) :=
  Keeps.get.bind fun _ => (Keeps.throw _).ite ((Keeps.throw _).ite (Keeps.modify fun _ h => h))

theorem keeps_ofOrder_remove : Keeps (OfOrder P r) (remove l x) := by
  refine Keeps.get.bind fun h => (Keeps.lift _).bind fun _ => Keeps.bind ?_ fun _ =>
    Keeps.bind ?_ fun _ => Keeps.bind (Keeps.modify fun _ h => h) fun _ =>
      Keeps.modify fun _ h => h.modifyNode fun hx => hx
  · refine Keeps.modify fun h' hr => ?_
    unfold Heap.setNext
    split
    · exact hr.modifyNode fun hx => hx
    · exact hr
  · refine Keeps.modify fun h' hr => ?_
    unfold Heap.setPrev
    split
    · exact hr.modifyNode fun hx => hx
    · exact hr

theorem keeps_ofOrder_append : Keeps (OfOrder P r) (append l x) := by
  refine Keeps.get.bind fun h => (Keeps.lift _).bind fun _ =>
    (Keeps.modify fun _ h => h.modifyNode fun hx => hx).bind fun _ => Keeps.bind ?_ fun _ =>
      Keeps.modify fun _ h => h
  refine Keeps.ite (Keeps.modify fun _ h => h) ?_
  split
  · exact Keeps.throw _
  · exact (Keeps.modify fun _ h => h.modifyNode fun hx => hx).bind fun _ =>
      (Keeps.modify fun _ h => h.modifyNode fun hx => hx).bind fun _ => Keeps.modify fun _ h => h

end OfOrder

end Lob.Node
