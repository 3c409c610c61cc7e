import LobEngine.Node.Queues

/-!
# Price levels as queues, over whole runs

Any levels and any nodes, and any sequence of the operations of `PriceLevel` and `OrderNode` on
them: a node comes to a level, leaves it, is filled (and its level's total decreased with it) or
cancelled. `LevelRun s` says that `s` is the state after such a sequence; beside the heap, a state
has the queue that each level stands for and the greatest sum of quantities it had so far.

* `Queued`: the invariant. Each level is linked as its queue, and a node outside the queues has no
  links.
* `priceLevel_fifo`: after every run, each level shows its queue, forwards and backwards, with its
  counters; a node outside the queues can be appended to any level of its price.
* `totalQuantity_rounds`: beyond `2^53` the total is not the sum.
-/

namespace Lob.Node

open Exc

def peek (h : Heap) (l : LevelRef) : Option NodeRef := (h.level l).head

/-- The nodes met along `prev`, at most `fuel` of them. -/
def Heap.followBack (h : Heap) : Nat → Option NodeRef → List NodeRef
  | _, none => []
  | 0, some _ => []
  | fuel + 1, some r => r :: h.followBack fuel (h.node r).prev

/-- The traversal from the tail along `prev`. -/
def Heap.queueBack (h : Heap) (l : LevelRef) : List NodeRef := h.followBack h.nodes (h.level l).tail

/-! ## Operations -/

inductive LevelOp where
  | newNode (i : OrderInput)
  | newLevel (priceTicks : JsVal)
  | append (l : LevelRef) (r : NodeRef)
  | remove (l : LevelRef) (r : NodeRef)
  | fill (r : NodeRef) (quantity : Int)
  | cancel (r : NodeRef)

namespace LevelOp

/-- The objects the operation is about exist. -/
def Exists (h : Heap) : LevelOp → Prop
  | .append l r | .remove l r => l < h.levels ∧ r < h.nodes
  | .fill r _ | .cancel r => r < h.nodes
  | _ => True

instance (h : Heap) (op : LevelOp) : Decidable (op.Exists h) := by
  cases op <;> unfold Exists <;> infer_instance

/-- The calls of the operation. The fill of a linked node comes with the decrease of its level. -/
def program : LevelOp → Exc JsError Heap Unit
  | .newNode i => do
    let o ← lift (newOrder i)
    modify (·.newNode o)
  | .newLevel v => do
    let p ← lift (assertPositiveInteger "priceTicks" v)
    modify (·.newLevel p)
  | .append l r => Node.append l r
  | .remove l r => Node.remove l r
  | .fill r q => do
    Node.fill r q
    let h ← get
    (match (h.node r).priceLevel with
      | some l => decreaseTotalQuantity l q
      | none => pure ())
  | .cancel r => Node.cancel r

/-- What the operation does to the queues. -/
def apply (L : LevelRef → List NodeRef) : LevelOp → LevelRef → List NodeRef
  | .append l r => Function.update L l (L l ++ [r])
  | .remove l r => Function.update L l ((L l).erase r)
  | _ => L

end LevelOp

structure LevelState where
  heap : Heap
  /-- The queue that a level stands for. -/
  queue : LevelRef → List NodeRef
  /-- The greatest sum of remaining quantities the level had so far. -/
  most : LevelRef → Int

/-- The state after an operation; `none` if it throws. -/
def LevelOp.step (op : LevelOp) (s : LevelState) : Option LevelState :=
  if op.Exists s.heap then
    match op.program.run s.heap with
    | (.ok (), h) => some
      { heap := h
        queue := op.apply s.queue
        most := fun l => max (s.most l) (h.remaining (op.apply s.queue l)) }
    | _ => none
  else none

inductive LevelRun : LevelState → Prop
  | start {h : Heap} (hn : h.nodes = 0) (hl : h.levels = 0) : LevelRun ⟨h, fun _ => [], fun _ => 0⟩
  | step {s s' : LevelState} (op : LevelOp) (hs : LevelRun s) (h : op.step s = some s') : LevelRun s'

/-- Several operations after a run. -/
theorem LevelRun.all {s s' : LevelState} {ops : List LevelOp} (hs : LevelRun s)
    (h : ops.foldlM (fun s (op : LevelOp) => op.step s) s = some s') : LevelRun s' := by
  induction ops generalizing s with
  | nil =>
    cases h
    exact hs
  | cons op ops ih =>
    rw [List.foldlM_cons] at h
    obtain ⟨t, ht, h⟩ := Option.bind_eq_some_iff.mp h
    exact ih (hs.step op ht) h

/-- What an operation that returned did. -/
theorem LevelOp.step_some {op : LevelOp} {s s' : LevelState} (h : op.step s = some s') :
    op.Exists s.heap ∧ op.program.run s.heap = (.ok (), s'.heap) ∧ s'.queue = op.apply s.queue ∧
      ∀ l, s'.most l = max (s.most l) (s'.heap.remaining (s'.queue l)) := by
  unfold LevelOp.step at h
  split at h
  · next hex =>
    split at h
    · next h' hrun =>
      cases h
      exact ⟨hex, hrun, rfl, fun _ => rfl⟩
    · cases h
  · cases h

/-! ## The invariant -/

/-- Each level of `h` is linked as its queue, and a node outside the queues has no links. -/
structure Queued (h : Heap) (L : LevelRef → List NodeRef) : Prop where
  linked : ∀ l, l < h.levels → Linked h l (L l)
  none : ∀ l, h.levels ≤ l → L l = []
  member : ∀ r, r < h.nodes → ∀ l, (h.node r).priceLevel = some l → r ∈ L l
  loose : ∀ r, r < h.nodes → (h.node r).priceLevel = .none →
    (h.node r).prev = .none ∧ (h.node r).next = .none
  left : ∀ r, r < h.nodes → 0 ≤ (h.order r).remainingQuantity

/-- The total of each level is the sum of its queue, if that never was more than `M l`. -/
def Totals (h : Heap) (L : LevelRef → List NodeRef) (M : LevelRef → Int) : Prop :=
  ∀ l, l < h.levels → M l ≤ Num.maxExact → h.remaining (L l) ≤ M l ∧
    (h.level l).totalQuantity = .int (h.remaining (L l))

section

variable {h h' : Heap} {L : LevelRef → List NodeRef} {M : LevelRef → Int} {l : LevelRef} {r : NodeRef}

theorem followBack_seg {Q : List NodeRef} {n : Option NodeRef} (hs : Seg h l none Q n) {fuel : Nat}
    (hf : Q.length ≤ fuel) : h.followBack fuel Q.getLast? = Q.reverse := by
  induction Q using List.reverseRecOn generalizing n fuel with
  | nil => cases fuel <;> rfl
  | append_singleton Q r ih =>
    rw [seg_append] at hs
    obtain ⟨hQ, hprev, -⟩ := hs
    rw [Option.or_none] at hprev
    cases fuel with
    | zero => simp at hf
    | succ fuel =>
      rw [List.length_append, List.length_singleton] at hf
      rw [List.getLast?_concat, Heap.followBack, hprev, ih hQ (by omega), List.reverse_concat]

theorem Linked.length_le {Q : List NodeRef} (hl : Linked h l Q) : Q.length ≤ h.nodes := by
  have := (hl.nodup.subperm fun r hr => List.mem_range.mpr (hl.bound r hr)).length_le
  rwa [List.length_range] at this

/-- The traversal from the tail is the queue, reversed. -/
theorem Linked.queueBack_eq {Q : List NodeRef} (hl : Linked h l Q) : h.queueBack l = Q.reverse := by
  rw [Heap.queueBack, hl.tail, followBack_seg hl.seg hl.length_le]

namespace Queued

theorem mem (hq : Queued h L) (hr : r ∈ L l) : l < h.levels ∧ r < h.nodes := by
  have hl : l < h.levels := by
    by_contra hl
    rw [hq.none l (Nat.le_of_not_lt hl)] at hr
    cases hr
  exact ⟨hl, (hq.linked l hl).bound r hr⟩

theorem mem_iff (hq : Queued h L) (hr : r < h.nodes) : (h.node r).priceLevel = some l ↔ r ∈ L l :=
  ⟨hq.member r hr l, fun hm => (hq.linked l (hq.mem hm).1).mem_level r hm⟩

theorem unlinked (hq : Queued h L) (hr : r < h.nodes) (hm : ∀ l, r ∉ L l) :
    (h.node r).prev = .none ∧ (h.node r).next = .none ∧ (h.node r).priceLevel = .none := by
  have hl : (h.node r).priceLevel = .none := by
    cases hp : (h.node r).priceLevel with
    | none => rfl
    | some l => exact absurd (hq.member r hr l hp) (hm l)
  obtain ⟨hp, hn⟩ := hq.loose r hr hl
  exact ⟨hp, hn, hl⟩

theorem remaining_nonneg (hq : Queued h L) (l : LevelRef) : 0 ≤ h.remaining (L l) := by
  apply List.sum_nonneg
  intro x hx
  obtain ⟨r, hr, rfl⟩ := List.mem_map.mp hx
  exact hq.left r (hq.mem hr).2

/-- Changes of orders and of totals touch no queue. -/
theorem frame (hq : Queued h L) (hn : h'.nodes = h.nodes) (hl : h'.levels = h.levels)
    (hlev : ∀ l, (h'.level l).head = (h.level l).head ∧ (h'.level l).tail = (h.level l).tail ∧
      (h'.level l).orderCount = (h.level l).orderCount)
    (hnode : ∀ r, (h'.node r).prev = (h.node r).prev ∧ (h'.node r).next = (h.node r).next ∧
      (h'.node r).priceLevel = (h.node r).priceLevel)
    (hleft : ∀ r, r < h.nodes → 0 ≤ (h'.order r).remainingQuantity) : Queued h' L where
  linked l hlt := by
    have hk := hq.linked l (hl ▸ hlt)
    obtain ⟨e₁, e₂, e₃⟩ := hlev l
    exact ⟨e₁.trans hk.head, e₂.trans hk.tail, hk.seg.congr fun r _ => hnode r, hk.nodup,
      e₃.trans hk.count, hn ▸ hk.bound⟩
  none l hle := hq.none l (hl ▸ hle)
  member r hr l hm := hq.member r (hn ▸ hr) l ((hnode r).2.2 ▸ hm)
  loose r hr hm := by
    obtain ⟨e₁, e₂, e₃⟩ := hnode r
    rw [e₁, e₂]
    exact hq.loose r (hn ▸ hr) (e₃ ▸ hm)
  left r hr := hleft r (hn ▸ hr)

/-- One level and its nodes change; no order does. -/
theorem update {Q : List NodeRef} (hq : Queued h L) (hlt : l < h.levels) (hlinked : Linked h' l Q)
    (hs : SameBut l (L l ++ Q) h h') (hother : ∀ x ∈ Q, ∀ k, k ≠ l → x ∉ L k)
    (hleft : ∀ x ∈ L l, x ∉ Q → (h'.node x).prev = .none ∧ (h'.node x).next = .none ∧
      (h'.node x).priceLevel = .none) : Queued h' (Function.update L l Q) := by
  have houter : ∀ k, k ≠ l → ∀ x ∈ L k, x ∉ L l ++ Q := by
    intro k hk x hx hm
    rcases List.mem_append.mp hm with hm | hm
    · have := ((hq.linked l hlt).mem_level x hm).symm.trans ((hq.linked k (hq.mem hx).1).mem_level x hx)
      exact hk (Option.some.inj this).symm
    · exact hother x hm k hk hx
  refine ⟨fun k hk => ?_, fun k hk => ?_, fun x hx k hk => ?_, fun x hx hm => ?_, fun x hx => ?_⟩
  · by_cases e : k = l
    · subst e
      rwa [Function.update_self]
    · rw [Function.update_of_ne e]
      refine (hq.linked k (hs.levels ▸ hk)).frame hs.nodes.ge (hs.level k e) fun x hx => ?_
      rw [hs.node x (houter k e x hx)]
      exact ⟨rfl, rfl, rfl⟩
  · have e : k ≠ l := (hlt.trans_le (hs.levels ▸ hk)).ne'
    rw [Function.update_of_ne e]
    exact hq.none k (hs.levels ▸ hk)
  · by_cases hin : x ∈ Q
    · have e := (hlinked.mem_level x hin).symm.trans hk
      cases e
      rwa [Function.update_self]
    by_cases hold : x ∈ L l
    · rw [(hleft x hold hin).2.2] at hk
      cases hk
    · rw [hs.node x (by simp [hin, hold])] at hk
      have hx' := hq.member x (hs.nodes ▸ hx) k hk
      have e : k ≠ l := by
        rintro rfl
        exact hold hx'
      rwa [Function.update_of_ne e]
  · by_cases hin : x ∈ Q
    · rw [hlinked.mem_level x hin] at hm
      cases hm
    by_cases hold : x ∈ L l
    · exact ⟨(hleft x hold hin).1, (hleft x hold hin).2.1⟩
    · rw [hs.node x (by simp [hin, hold])] at hm ⊢
      exact hq.loose x (hs.nodes ▸ hx) hm
  · rw [hs.order x]
    exact hq.left x (hs.nodes ▸ hx)

/-- A node outside the queues comes to a level of its price. -/
theorem append_run (hq : Queued h L) (hlt : l < h.levels) (hr : r < h.nodes) (hm : ∀ k, r ∉ L k)
    (hp : (h.node r).priceTicks = some (h.level l).priceTicks) (hrem : 0 < (h.node r).remainingQuantity) :
    ∃ h', (append l r).run h = (.ok (), h') ∧ Queued h' (Function.update L l (L l ++ [r])) ∧
      SameBut l (L l ++ [r]) h h' ∧ (h'.level l).totalQuantity =
        (h.level l).totalQuantity.addInt (h.node r).remainingQuantity := by
  obtain ⟨h', hrun, hlinked, hs, htot⟩ :=
    append_ok (hq.linked l hlt) (hm l) hr hp (hq.unlinked hr hm) hrem
  refine ⟨h', hrun, hq.update hlt hlinked ⟨hs.order, fun x hx => hs.node x fun hx' => hx ?_, hs.level,
    hs.price, hs.nodes, hs.levels⟩ ?_ ?_, hs, htot⟩
  · exact List.mem_append_right _ hx'
  · intro x hx k hk
    rcases List.mem_append.mp hx with hx | hx
    · intro hx'
      exact hk (Option.some.inj (((hq.mem_iff (hq.mem hx).2).mpr hx').symm.trans
        ((hq.mem_iff (hq.mem hx).2).mpr hx)))
    · rw [List.mem_singleton.mp hx]
      exact hm k
  · exact fun x hx hx' => absurd (List.mem_append_left _ hx) hx'

/-- A node leaves its level. -/
theorem remove_run (hq : Queued h L) (hm : r ∈ L l) :
    ∃ h', (remove l r).run h = (.ok (), h') ∧ Queued h' (Function.update L l ((L l).erase r)) ∧
      SameBut l (L l) h h' ∧ (h'.level l).totalQuantity =
        (h.level l).totalQuantity.addInt (-(h.node r).remainingQuantity) := by
  obtain ⟨A, B, hA, he, herase⟩ := List.exists_erase_eq hm
  have hlt := (hq.mem hm).1
  have hlinked := hq.linked l hlt
  rw [he] at hlinked
  obtain ⟨h', hrun, hlinked', hs, hgone, htot⟩ := remove_ok hlinked
  rw [← he] at hs
  refine ⟨h', hrun, ?_, hs, htot⟩
  rw [herase]
  have hsub : ∀ x ∈ A ++ B, x ∈ L l := fun x hx => by
    rw [he]
    simp only [List.mem_append, List.mem_cons] at hx ⊢
    tauto
  refine hq.update hlt hlinked' ⟨hs.order, fun x hx => hs.node x fun hx' => hx ?_, hs.level, hs.price,
    hs.nodes, hs.levels⟩ ?_ ?_
  · exact List.mem_append_left _ hx'
  · intro x hx k hk hx'
    exact hk (Option.some.inj (((hq.mem_iff (hq.mem hx').2).mpr hx').symm.trans
      ((hq.mem_iff (hq.mem hx').2).mpr (hsub x hx))))
  · intro x hx hx'
    have e : x = r := by
      rw [he] at hx
      simp only [List.mem_append, List.mem_cons] at hx hx'
      tauto
    rw [e]
    exact hgone

end Queued

/-! ## Totals -/

theorem assertAppendable_ok {v : PriceLevel} {n : OrderNode} (h : assertAppendable v n = .ok ()) :
    n.priceTicks = some v.priceTicks ∧ n.priceLevel = none ∧ 0 < n.remainingQuantity := by
  unfold assertAppendable at h
  by_cases hp : n.priceTicks = some v.priceTicks
  · rw [if_neg (not_not.mpr hp)] at h
    by_cases hl : n.priceLevel = none
    · rw [if_neg (not_not.mpr hl)] at h
      by_cases hr : n.remainingQuantity ≤ 0
      · rw [if_pos hr] at h
        cases h
      · exact ⟨hp, hl, by omega⟩
    · rw [if_pos hl] at h
      cases h
  · rw [if_pos hp] at h
    cases h

/-- Another queue at one level `l`, whose total changes by what its queue loses or gains. -/
theorem Totals.update {Q S : List NodeRef} {d : Int} (ht : Totals h L M) (hs : SameBut l S h h')
    (hd : h.remaining Q = h.remaining (L l) + d) (h₀ : 0 ≤ h.remaining Q)
    (htot : (h'.level l).totalQuantity = (h.level l).totalQuantity.addInt d) :
    Totals h' (Function.update L l Q) fun k =>
      max (M k) (h'.remaining (Function.update L l Q k)) := by
  intro k hk hmax
  have hrem : ∀ Q, h'.remaining Q = h.remaining Q := fun Q => remaining_congr fun x _ => hs.order x
  obtain ⟨hM, hsum⟩ := max_le_iff.mp hmax
  obtain ⟨hle, he⟩ := ht k (hs.levels ▸ hk) hM
  refine ⟨le_max_right _ _, ?_⟩
  by_cases e : k = l
  · subst e
    rw [Function.update_self, hrem] at hsum ⊢
    rw [htot, he, Num.addInt_exact (by omega) (by omega), hd]
  · rw [Function.update_of_ne e, hs.level k e, he, hrem]

section

variable {s s' : LevelState}

/-- The sum of a queue one of whose orders changes. -/
theorem remaining_modify {Q : List NodeRef} {f : OrderNode → OrderNode} (hnd : Q.Nodup) :
    (h.modifyNode r f).remaining Q = h.remaining Q +
      if r ∈ Q then (f (h.node r)).remainingQuantity - (h.node r).remainingQuantity else 0 := by
  induction Q with
  | nil => simp
  | cons x Q ih =>
    obtain ⟨hx, hnd⟩ := List.nodup_cons.mp hnd
    rw [remaining_cons, remaining_cons, ih hnd, Heap.order, Heap.modifyNode_node]
    by_cases e : x = r
    · subst e
      rw [if_pos rfl, if_neg hx, if_pos List.mem_cons_self]
      simp only [Heap.order]
      omega
    · have hmem : r ∈ x :: Q ↔ r ∈ Q := by simp [Ne.symm e]
      simp only [if_neg e, hmem]
      simp only [Heap.order]
      omega

theorem roundInt_nonneg {n : Int} (hn : 0 ≤ n) : 0 ≤ Num.roundInt n := by
  rw [Num.roundInt, if_neg (by omega)]
  omega

/-- A `fill` that returned. -/
theorem fill_run {q : Int} (hrun : (fill r q).run h = (.ok (), h')) :
    0 < q ∧ q ≤ (h.node r).remainingQuantity ∧ ∃ status, h' = h.modifyNode r fun n => { n with
      remainingQuantity := Num.roundInt ((h.node r).remainingQuantity - q), status } := by
  unfold fill at hrun
  rw [run_get_bind] at hrun
  dsimp only at hrun
  split at hrun
  · cases hrun
  · split at hrun
    · cases hrun
    · split at hrun
      · cases hrun
      · next hq _ hle =>
        cases hrun
        exact ⟨by omega, Int.not_lt.mp hle, _, rfl⟩

theorem decreaseTotalQuantity_run {q : Int} (hrun : (decreaseTotalQuantity l q).run h = (.ok (), h')) :
    h' = h.modifyLevel l fun v => { v with totalQuantity := v.totalQuantity.addInt (-q) } := by
  unfold decreaseTotalQuantity at hrun
  rw [run_get_bind] at hrun
  split at hrun
  · cases hrun
  · split at hrun
    · cases hrun
    · cases hrun
      rfl

/-! ## Steps -/

variable {s s' : LevelState}

/-- The queues and the totals of a state. -/
def LevelState.Ok (s : LevelState) : Prop :=
  Queued s.heap s.queue ∧ Totals s.heap s.queue s.most

theorem Queued.newNode (hq : Queued h L) {o : Order} (ho : 0 ≤ o.remainingQuantity) :
    Queued (h.newNode o) L where
  linked l hl := (hq.linked l hl).frame (Nat.le_succ _) rfl fun r hr => by
    have e : r ≠ h.nodes := ((hq.linked l hl).bound r hr).ne
    simp [Heap.newNode, e]
  none := hq.none
  member r hr l hm := by
    rcases Nat.lt_succ_iff_lt_or_eq.mp hr with hlt | rfl
    · simp only [Heap.newNode, Function.update_of_ne hlt.ne] at hm
      exact hq.member r hlt l hm
    · simp [Heap.newNode] at hm
  loose r hr hm := by
    rcases Nat.lt_succ_iff_lt_or_eq.mp hr with hlt | rfl
    · simp only [Heap.newNode, Function.update_of_ne hlt.ne] at hm ⊢
      exact hq.loose r hlt hm
    · simp [Heap.newNode]
  left r hr := by
    rcases Nat.lt_succ_iff_lt_or_eq.mp hr with hlt | rfl
    · simp only [Heap.order, Heap.newNode, Function.update_of_ne hlt.ne]
      exact hq.left r hlt
    · simpa [Heap.order, Heap.newNode] using ho

theorem Queued.newLevel (hq : Queued h L) (p : Int) : Queued (h.newLevel p) L where
  linked l hl := by
    rcases Nat.lt_succ_iff_lt_or_eq.mp hl with hlt | rfl
    · refine (hq.linked l hlt).frame le_rfl ?_ fun r _ => ⟨rfl, rfl, rfl⟩
      simp [Heap.newLevel, hlt.ne]
    · rw [hq.none h.levels le_rfl]
      exact linked_newLevel h p
  none l hl := hq.none l ((Nat.le_succ _).trans hl)
  member := hq.member
  loose := hq.loose
  left := hq.left

/-- What a fill and the decrease of its level do. -/
theorem fillOp_ok {q : Int} (hs : s.Ok) (hr : r < s.heap.nodes)
    (hrun : (LevelOp.fill r q).program.run s.heap = (.ok (), h')) :
    Queued h' s.queue ∧ Totals h' s.queue fun l => max (s.most l) (h'.remaining (s.queue l)) := by
  obtain ⟨hq, ht⟩ := hs
  obtain ⟨_, h₁, hfill, hrun⟩ := bind_ok hrun
  rw [run_get_bind] at hrun
  obtain ⟨hpos, hle, status, rfl⟩ := fill_run hfill
  have hlevel : ((s.heap.modifyNode r fun n => { n with
      remainingQuantity := Num.roundInt ((s.heap.node r).remainingQuantity - q), status }).node r).priceLevel =
      (s.heap.node r).priceLevel := by
    rw [Heap.modifyNode_node_self]
  set h₁ := s.heap.modifyNode r fun n => { n with
    remainingQuantity := Num.roundInt ((s.heap.node r).remainingQuantity - q), status } with hh₁
  have hq₁ : Queued h₁ s.queue := by
    refine hq.frame rfl rfl (fun _ => ⟨rfl, rfl, rfl⟩) (fun x => ?_) fun x hx => ?_
    · rw [hh₁, Heap.modifyNode_node]
      split
      · next e => rw [e]; exact ⟨rfl, rfl, rfl⟩
      · exact ⟨rfl, rfl, rfl⟩
    · rw [Heap.order, hh₁, Heap.modifyNode_node]
      split
      · exact roundInt_nonneg (by omega)
      · exact hq.left x hx
  have hsum : ∀ l, l < s.heap.levels → h₁.remaining (s.queue l) = s.heap.remaining (s.queue l) +
      if r ∈ s.queue l then Num.roundInt ((s.heap.node r).remainingQuantity - q) -
        (s.heap.node r).remainingQuantity else 0 := fun l hl =>
    remaining_modify (hq.linked l hl).nodup
  rw [hlevel] at hrun
  cases hp : (s.heap.node r).priceLevel with
  | none =>
    rw [hp] at hrun
    rw [show h' = h₁ from (Prod.mk.inj hrun).2.symm]
    refine ⟨hq₁, fun l hl hmax => ⟨le_max_right _ _, ?_⟩⟩
    have hout : r ∉ s.queue l := fun hm => by
      rw [(hq.mem_iff hr).mpr hm] at hp
      cases hp
    rw [hsum l hl, if_neg hout, add_zero]
    exact (ht l hl (max_le_iff.mp hmax).1).2
  | some k =>
    rw [hp] at hrun
    have hk : r ∈ s.queue k := hq.member r hr k hp
    rw [decreaseTotalQuantity_run hrun]
    refine ⟨hq₁.frame rfl rfl (fun l => ?_) (fun _ => ⟨rfl, rfl, rfl⟩) hq₁.left, ?_⟩
    · rw [Heap.modifyLevel_level]
      split
      · next e => rw [e]; exact ⟨rfl, rfl, rfl⟩
      · exact ⟨rfl, rfl, rfl⟩
    intro l hl hmax
    refine ⟨le_max_right _ _, ?_⟩
    obtain ⟨hle', htot⟩ := ht l hl (max_le_iff.mp hmax).1
    change _ = Num.int (h₁.remaining (s.queue l))
    rw [hsum l hl, Heap.modifyLevel_level]
    by_cases e : l = k
    · subst e
      -- The order has at most what its level has, so its remainder is exact.
      have hpart : (s.heap.node r).remainingQuantity ≤ s.heap.remaining (s.queue l) :=
        List.single_le_sum (fun x hx => by
          obtain ⟨y, hy, rfl⟩ := List.mem_map.mp hx
          exact hq.left y (hq.mem hy).2) _ (List.mem_map_of_mem hk)
      have hmost := (max_le_iff.mp hmax).1
      rw [if_pos rfl, if_pos hk, Num.roundInt_sub hpos.le hle (by omega)]
      change (s.heap.level l).totalQuantity.addInt (-q) = _
      rw [htot, Num.addInt_exact (by omega) (by omega)]
      congr 1
      omega
    · have hout : r ∉ s.queue l := fun hm =>
        e (Option.some.inj (((hq.mem_iff hr).mpr hm).symm.trans hp))
      rw [if_neg e, if_neg hout, add_zero]
      exact htot

/-- An `append` that returned passed its checks. -/
theorem append_checked (hrun : (append l r).run h = (.ok (), h')) :
    assertAppendable (h.level l) (h.node r) = .ok () := by
  cases ha : assertAppendable (h.level l) (h.node r) with
  | ok => rfl
  | error e =>
    unfold append at hrun
    simp only [run_get_bind, run_lift_bind, ha] at hrun
    cases hrun

/-- A `remove` that returned found the node at its level. -/
theorem remove_checked (hrun : (remove l r).run h = (.ok (), h')) :
    (h.node r).priceLevel = some l := by
  by_contra hne
  have hb : assertBelongsToLevel l (h.node r) =
      .error (.error "order does not belong to this price level") := by
    rw [assertBelongsToLevel, if_pos hne]
  unfold remove at hrun
  simp only [run_get_bind, run_lift_bind, hb] at hrun
  cases hrun

theorem cancel_run (hrun : (cancel r).run h = (.ok (), h')) :
    h' = h.modifyNode r fun n => { n with status := .cancelled } := by
  unfold cancel at hrun
  rw [run_get_bind] at hrun
  split at hrun
  · cases hrun
  · exact (Prod.mk.inj hrun).2.symm

theorem appendOp_ok (hs : s.Ok) (hl : l < s.heap.levels) (hr : r < s.heap.nodes)
    (hrun : (append l r).run s.heap = (.ok (), h')) :
    Queued h' (Function.update s.queue l (s.queue l ++ [r])) ∧
      Totals h' (Function.update s.queue l (s.queue l ++ [r])) fun k =>
        max (s.most k) (h'.remaining (Function.update s.queue l (s.queue l ++ [r]) k)) := by
  obtain ⟨hq, ht⟩ := hs
  obtain ⟨hp, hfree, hrem⟩ := assertAppendable_ok (append_checked hrun)
  have hout : ∀ k, r ∉ s.queue k := fun k hk => by
    rw [(hq.mem_iff hr).mpr hk] at hfree
    cases hfree
  obtain ⟨h₁, hrun₁, hq₁, hsame, htot⟩ := hq.append_run hl hr hout hp hrem
  cases hrun.symm.trans hrun₁
  have hd : s.heap.remaining (s.queue l ++ [r]) =
      s.heap.remaining (s.queue l) + (s.heap.node r).remainingQuantity := by
    rw [remaining_append]
    simp [Heap.order]
  have h₀ := hq.remaining_nonneg l
  exact ⟨hq₁, ht.update hsame hd (by omega) htot⟩

theorem removeOp_ok (hs : s.Ok) (hr : r < s.heap.nodes)
    (hrun : (remove l r).run s.heap = (.ok (), h')) :
    Queued h' (Function.update s.queue l ((s.queue l).erase r)) ∧
      Totals h' (Function.update s.queue l ((s.queue l).erase r)) fun k =>
        max (s.most k) (h'.remaining (Function.update s.queue l ((s.queue l).erase r) k)) := by
  obtain ⟨hq, ht⟩ := hs
  have hin := hq.member r hr l (remove_checked hrun)
  obtain ⟨h₁, hrun₁, hq₁, hsame, htot⟩ := hq.remove_run hin
  cases hrun.symm.trans hrun₁
  have hd : s.heap.remaining ((s.queue l).erase r) =
      s.heap.remaining (s.queue l) + -(s.heap.node r).remainingQuantity := by
    obtain ⟨A, B, -, he, herase⟩ := List.exists_erase_eq hin
    rw [herase, he]
    simp only [remaining_append, remaining_cons, Heap.order]
    omega
  have h₀ : 0 ≤ s.heap.remaining ((s.queue l).erase r) := by
    have := hq₁.remaining_nonneg l
    rwa [Function.update_self, remaining_congr fun x _ => hsame.order x] at this
  exact ⟨hq₁, ht.update hsame hd h₀ htot⟩

theorem cancelOp_ok (hs : s.Ok) (hrun : (cancel r).run s.heap = (.ok (), h')) :
    Queued h' s.queue ∧ Totals h' s.queue fun l => max (s.most l) (h'.remaining (s.queue l)) := by
  obtain ⟨hq, ht⟩ := hs
  rw [cancel_run hrun]
  have hnode : ∀ x, ∃ status, (s.heap.modifyNode r fun n => { n with status := .cancelled }).node x =
      { s.heap.node x with status } := fun x => by
    rw [Heap.modifyNode_node]
    split
    · next e => rw [e]; exact ⟨_, rfl⟩
    · exact ⟨_, rfl⟩
  refine ⟨hq.frame rfl rfl (fun _ => ⟨rfl, rfl, rfl⟩) (fun x => ?_) fun x hx => ?_, fun l hl hmax => ?_⟩
  · obtain ⟨_, e⟩ := hnode x
    rw [e]
    exact ⟨rfl, rfl, rfl⟩
  · obtain ⟨_, e⟩ := hnode x
    rw [Heap.order, e]
    exact hq.left x hx
  · refine ⟨le_max_right _ _, (ht l hl (max_le_iff.mp hmax).1).2.trans ?_⟩
    rw [remaining_modify (hq.linked l hl).nodup]
    simp

theorem LevelOp.step_ok {op : LevelOp} (hs : s.Ok) (h : op.step s = some s') : s'.Ok := by
  obtain ⟨hex, hrun, hqueue, hmost⟩ := LevelOp.step_some h
  have hm : s'.most = fun l => max (s.most l) (s'.heap.remaining (op.apply s.queue l)) :=
    funext fun l => by rw [hmost, hqueue]
  rw [LevelState.Ok, hqueue, hm]
  cases op with
  | newNode i =>
    obtain ⟨hq, ht⟩ := hs
    obtain ⟨o, h₁, ho, hrun⟩ := bind_ok hrun
    obtain ⟨hi, rfl⟩ := Prod.mk.inj ho
    rw [← (Prod.mk.inj hrun).2]
    have hnew := newOrder_ok.mp hi
    refine ⟨hq.newNode (by rw [hnew.remaining]; exact hnew.quantity.2.le), fun l hl hmax => ?_⟩
    refine ⟨le_max_right _ _, ((ht l hl (max_le_iff.mp hmax).1).2).trans ?_⟩
    refine congrArg Num.int (remaining_congr fun r hr => ?_).symm
    simp [Heap.order, Heap.newNode, (hq.mem hr).2.ne]
  | newLevel v =>
    obtain ⟨hq, ht⟩ := hs
    obtain ⟨p, h₁, hp, hrun⟩ := bind_ok hrun
    obtain ⟨-, rfl⟩ := Prod.mk.inj hp
    rw [← (Prod.mk.inj hrun).2]
    refine ⟨hq.newLevel p, fun l hl hmax => ⟨le_max_right _ _, ?_⟩⟩
    rcases Nat.lt_succ_iff_lt_or_eq.mp hl with hlt | rfl
    · simp only [Heap.newLevel, Function.update_of_ne hlt.ne]
      exact (ht l hlt (max_le_iff.mp hmax).1).2
    · simp [Heap.newLevel, LevelOp.apply, hq.none _ le_rfl]
  | append l r => exact appendOp_ok hs hex.1 hex.2 hrun
  | remove l r => exact removeOp_ok hs hex.2 hrun
  | fill r q => exact fillOp_ok hs hex hrun
  | cancel r => exact cancelOp_ok hs hrun

theorem LevelRun.ok (hs : LevelRun s) : s.Ok := by
  induction hs with
  | start hn hl =>
    rw [LevelState.Ok]
    refine ⟨⟨fun l h => ?_, fun _ _ => rfl, fun r h => ?_, fun r h => ?_, fun r h => ?_⟩, fun l h => ?_⟩
    all_goals dsimp only at h; omega
  | step op _ h ih => exact LevelOp.step_ok ih h

/-! ## What a level shows -/

/-- What the level `l` shows is the queue `Q`. -/
structure Fifo (h : Heap) (l : LevelRef) (Q : List NodeRef) : Prop where
  peek : peek h l = Q.head?
  toArray : toArray h l = Q.map h.order
  back : h.queueBack l = Q.reverse
  orderCount : (h.level l).orderCount = Q.length
  nodup : Q.Nodup
  member : ∀ r, r < h.nodes → ((h.node r).priceLevel = some l ↔ r ∈ Q)

/-- The node `r` has no links left and, if it has quantity left, can be appended to any level of its
price. -/
structure Detached (h : Heap) (r : NodeRef) : Prop where
  prev : (h.node r).prev = none
  next : (h.node r).next = none
  priceLevel : (h.node r).priceLevel = none
  appendable : 0 < (h.node r).remainingQuantity → ∀ l, l < h.levels →
    (h.node r).priceTicks = some (h.level l).priceTicks → ((append l r).run h).1 = .ok ()

/-- After every run each level is its queue, with the exact total as long as the sum of its quantities
stayed within `2^53`, and the nodes outside the queues are free. -/
theorem priceLevel_fifo (hs : LevelRun s) :
    (∀ l, l < s.heap.levels → Fifo s.heap l (s.queue l) ∧ (s.most l ≤ Num.maxExact →
      (s.heap.level l).totalQuantity = .int (s.heap.remaining (s.queue l)))) ∧
    ∀ r, r < s.heap.nodes → (∀ l, r ∉ s.queue l) → Detached s.heap r := by
  obtain ⟨hq, ht⟩ := hs.ok
  refine ⟨fun l hl => ⟨?_, fun hmax => (ht l hl hmax).2⟩, fun r hr hout => ?_⟩
  · have hlinked := hq.linked l hl
    exact ⟨hlinked.head, by rw [toArray, hlinked.queue_eq], hlinked.queueBack_eq, hlinked.count,
      hlinked.nodup, fun r hr => hq.mem_iff hr⟩
  · obtain ⟨hp, hn, hlevel⟩ := hq.unlinked hr hout
    refine ⟨hp, hn, hlevel, fun hrem l hl hprice => ?_⟩
    obtain ⟨h', hrun, -⟩ := hq.append_run hl hr hout hprice hrem
    rw [hrun]

end

/-! ## Two runs -/

/-- No objects yet. -/
def LevelState.start : LevelState where
  heap := OrderBook.noHeap
  queue _ := []
  most _ := 0

def LevelState.after (ops : List LevelOp)
    (h : (ops.foldlM (fun s (op : LevelOp) => op.step s) LevelState.start).isSome) : LevelState :=
  Option.get _ h

theorem LevelState.after_run {ops : List LevelOp}
    (h : (ops.foldlM (fun s (op : LevelOp) => op.step s) LevelState.start).isSome) : LevelRun (.after ops h) :=
  (LevelRun.start rfl rfl : LevelRun LevelState.start).all (Option.some_get h).symm

/-- A sell order at price 1. -/
def askOf (orderId : String) (quantity : Int) : OrderInput where
  orderId := .str orderId
  userId := .str "u"
  symbol := "BTC-USD"
  side := .str "SELL"
  type := .limit
  priceTicks := .num (.int 1)
  quantity := .num (.int quantity)
  timestamp := .num (.int 0)
  clock := false

/-- Two orders, of which the first is filled in part, leaves, and comes back behind the second. -/
def requeued : LevelState := .after
  [.newLevel (.num (.int 1)), .newNode (askOf "a" 3), .newNode (askOf "b" 2), .append 0 0, .append 0 1,
    .fill 0 1, .remove 0 0, .append 0 0] (by decide +kernel)

theorem priceLevel_fifo_requeued : requeued.queue 0 = [1, 0] ∧
    (∀ l, l < requeued.heap.levels → Fifo requeued.heap l (requeued.queue l) ∧
      (requeued.most l ≤ Num.maxExact →
        (requeued.heap.level l).totalQuantity = .int (requeued.heap.remaining (requeued.queue l)))) ∧
    ∀ r, r < requeued.heap.nodes → (∀ l, r ∉ requeued.queue l) → Detached requeued.heap r :=
  ⟨by decide +kernel, priceLevel_fifo (LevelState.after_run _)⟩

/-- A level with one order more than `2^53`. -/
def beyond : LevelState := .after
  [.newLevel (.num (.int 1)), .newNode (askOf "a" (2 ^ 53)), .newNode (askOf "b" 1), .append 0 0,
    .append 0 1] (by decide +kernel)

/-- The total of a level of the quantities `2^53` and 1 is `2^53`. -/
theorem totalQuantity_rounds : LevelRun beyond ∧ 0 < beyond.heap.levels ∧
    (beyond.heap.level 0).totalQuantity ≠ .int (beyond.heap.remaining (beyond.queue 0)) :=
  ⟨LevelState.after_run _, by decide +kernel, by decide +kernel⟩

end

end Lob.Node
