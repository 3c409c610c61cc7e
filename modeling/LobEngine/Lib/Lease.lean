import Mathlib.Logic.Function.Basic

/-!
# Leases

Keys that have an owner until a time, as in a store with expiring keys. The owner alone extends or ends the lease, and
somebody else takes it only when it has expired.

* `get`, `setNX`, `extend`, `delete`: what a client asks of the store at a time.
* `Step`, `Reach`: the calls of any clients, in any order, while time goes on; `since` is when a client last took or
  extended the lease of a key, until it ended it.
* `Reach.get`: the lease lasts for `ttl` from then on, whatever the others do. `Step.get`: it changes hands only through
  nobody's.
-/

namespace Lob

structure Lease (W : Type) where
  owner : W
  expiresAt : Nat

abbrev Leases (K W : Type) := K → Option (Lease W)

namespace Leases

section

variable {K W : Type} {L M : Leases K W} {now t : Nat} {k : K} {w : W}

/-- The owner, unless the lease has expired. -/
def get (L : Leases K W) (now : Nat) (k : K) : Option W :=
  (L k).bind fun l => if now < l.expiresAt then some l.owner else none

theorem get_eq_some : L.get now k = some w ↔ ∃ t, L k = some ⟨w, t⟩ ∧ now < t := by
  unfold get
  rw [Option.bind_eq_some_iff]
  constructor
  · rintro ⟨⟨o, t⟩, hk, hget⟩
    split at hget
    · cases hget
      exact ⟨t, hk, ‹_›⟩
    · cases hget
  · rintro ⟨t, hk, ht⟩
    exact ⟨_, hk, if_pos ht⟩

theorem get_congr (h : M k = L k) : M.get now k = L.get now k := by
  unfold get
  rw [h]

theorem get_none (h : M k = none) : M.get now k = none := by
  unfold get
  rw [h]
  rfl

/-- With time, an owner stays or is gone. -/
theorem get_later (h : now ≤ t) : L.get t k = L.get now k ∨ L.get t k = none := by
  cases hg : L.get t k with
  | none => exact .inr rfl
  | some w =>
    obtain ⟨e, hk, ht⟩ := get_eq_some.mp hg
    exact .inl (get_eq_some.mpr ⟨e, hk, Nat.lt_of_le_of_lt h ht⟩).symm

end

variable {K W : Type} [DecidableEq K]

section

variable (L : Leases K W) (now ttl : Nat) (k : K) (w : W)

def grant : Leases K W := Function.update L k (some ⟨w, now + ttl⟩)

/-- Take the lease, if nobody has it. -/
def setNX : Bool × Leases K W :=
  match L.get now k with
  | none => (true, L.grant now ttl k w)
  | some _ => (false, L)

variable {L now ttl} in
theorem get_grant (h : 0 < ttl) (j k : K) (w : W) :
    (L.grant now ttl j w).get now k = if j = k then some w else L.get now k := by
  by_cases hj : j = k
  · subst hj
    rw [if_pos rfl]
    exact get_eq_some.mpr ⟨_, Function.update_self .., Nat.lt_add_of_pos_right h⟩
  · rw [if_neg hj]
    exact get_congr (Function.update_of_ne (Ne.symm hj) ..)

variable [DecidableEq W]

/-- Extend the lease, if it is `w`'s. -/
def extend : Bool × Leases K W := if L.get now k = some w then (true, L.grant now ttl k w) else (false, L)

/-- End the lease, if it is `w`'s. -/
def delete : Bool × Leases K W := if L.get now k = some w then (true, Function.update L k none) else (false, L)

end

/-! ## Other names of the keys -/

section

variable {J : Type} [DecidableEq J] {f : J → K} (hf : Function.Injective f) (L : Leases K W) (now ttl : Nat) (j : J)
  (w : W)

include hf

theorem grant_comap : (L.grant now ttl (f j) w) ∘ f = Leases.grant (L ∘ f) now ttl j w :=
  Function.update_comp_eq_of_injective L hf j _

theorem setNX_comap : ((L.setNX now ttl (f j) w).1, (L.setNX now ttl (f j) w).2 ∘ f) =
    Leases.setNX (L ∘ f) now ttl j w := by
  show _ = (match L.get now (f j) with | none => _ | some _ => _)
  unfold setNX
  cases L.get now (f j) with
  | none => rw [← grant_comap hf]
  | some _ => rfl

variable [DecidableEq W]

theorem extend_comap : ((L.extend now ttl (f j) w).1, (L.extend now ttl (f j) w).2 ∘ f) =
    Leases.extend (L ∘ f) now ttl j w := by
  show _ = if L.get now (f j) = some w then _ else _
  unfold extend
  split
  · rw [← grant_comap hf]
  · rfl

theorem delete_comap : ((L.delete now (f j) w).1, (L.delete now (f j) w).2 ∘ f) =
    Leases.delete (L ∘ f) now j w := by
  show _ = if L.get now (f j) = some w then _ else _
  unfold delete
  split
  · rw [← Function.update_comp_eq_of_injective L hf]
  · rfl

end

/-! ## Runs -/

/-- The time, the keys, and when a client last took or extended the lease of a key, until it ended it. -/
structure Clients (K W : Type) where
  now : Nat
  leases : Leases K W
  since : W → K → Option Nat

variable [DecidableEq W]

namespace Clients

def init : Clients K W := ⟨0, fun _ => none, fun _ _ => none⟩

/-- When `w` took or extended the lease of `k`. -/
def note (x : Clients K W) (w : W) (k : K) (t : Option Nat) : W → K → Option Nat :=
  Function.update x.since w (Function.update (x.since w) k t)

inductive Step (ttl : Nat) : Clients K W → Clients K W → Prop
  | wait {x : Clients K W} (t : Nat) (h : x.now ≤ t) : Step ttl x { x with now := t }
  | acquire {x : Clients K W} (w : W) (k : K) : Step ttl x { x with
      leases := (x.leases.setNX x.now ttl k w).2
      since := if (x.leases.setNX x.now ttl k w).1 then x.note w k (some x.now) else x.since }
  | renew {x : Clients K W} (w : W) (k : K) : Step ttl x { x with
      leases := (x.leases.extend x.now ttl k w).2
      since := if (x.leases.extend x.now ttl k w).1 then x.note w k (some x.now) else x.since }
  | release {x : Clients K W} (w : W) (k : K) : Step ttl x { x with
      leases := (x.leases.delete x.now k w).2, since := x.note w k none }

inductive Reach (ttl : Nat) : Clients K W → Prop
  | init : Reach ttl .init
  | step {x y : Clients K W} (h : Reach ttl x) (hxy : Step ttl x y) : Reach ttl y

/-- Every lease that cannot have expired is there. -/
def Held (ttl : Nat) (x : Clients K W) : Prop :=
  ∀ w k t, x.since w k = some t → x.now < t + ttl → x.leases k = some ⟨w, t + ttl⟩

variable {x y : Clients K W} {ttl t : Nat} {k : K} {w : W}

theorem note_cases {v : W} {j : K} {o : Option Nat} (h : x.note w k o v j = some t) :
    v = w ∧ j = k ∧ o = some t ∨ (v ≠ w ∨ j ≠ k) ∧ x.since v j = some t := by
  unfold note at h
  rcases eq_or_ne v w with rfl | hv
  · rw [Function.update_self] at h
    rcases eq_or_ne j k with rfl | hj
    · rw [Function.update_self] at h
      exact .inl ⟨rfl, rfl, h⟩
    · rw [Function.update_of_ne hj] at h
      exact .inr ⟨.inr hj, h⟩
  · rw [Function.update_of_ne hv] at h
    exact .inr ⟨.inl hv, h⟩

omit [DecidableEq K] [DecidableEq W] in
theorem Held.get (hx : x.Held ttl) (hs : x.since w k = some t) (ht : x.now < t + ttl) :
    x.leases.get x.now k = some w := get_eq_some.mpr ⟨_, hx w k t hs ht, ht⟩

/-- A lease is granted if it is the client's already, or nobody's. -/
theorem Held.grant (hx : x.Held ttl) (hfree : ∀ v, x.leases.get x.now k = some v → v = w) :
    Held ttl { x with leases := x.leases.grant x.now ttl k w, since := x.note w k (some x.now) } := by
  intro v j t hs ht
  rcases note_cases hs with ⟨rfl, rfl, hnow⟩ | ⟨hne, hsince⟩
  · cases hnow
    exact Function.update_self ..
  · have hj : j ≠ k := by
      rintro rfl
      exact hne.elim (fun hv => hv (hfree v (hx.get hsince ht))) fun hj => hj rfl
    exact (Function.update_of_ne hj ..).trans (hx v j t hsince ht)

theorem Held.delete (hx : x.Held ttl) : Held ttl { x with
    leases := (x.leases.delete x.now k w).2, since := x.note w k none } := by
  intro v j t hs ht
  rcases note_cases hs with ⟨-, -, hnone⟩ | ⟨hne, hsince⟩
  · cases hnone
  · refine Eq.trans ?_ (hx v j t hsince ht)
    show (x.leases.delete x.now k w).2 j = x.leases j
    unfold Leases.delete
    by_cases hw : x.leases.get x.now k = some w
    · rw [if_pos hw]
      refine Function.update_of_ne ?_ ..
      rintro rfl
      have hv := hx.get hsince ht
      rw [hw] at hv
      exact hne.elim (fun hne => hne (Option.some.inj hv).symm) fun hj => hj rfl
    · rw [if_neg hw]

theorem Step.held (h : Step ttl x y) (hx : x.Held ttl) : y.Held ttl := by
  cases h with
  | wait t h => exact fun w k t' hs ht => hx w k t' hs (Nat.lt_of_le_of_lt h ht)
  | acquire w k =>
    unfold setNX
    cases hg : x.leases.get x.now k with
    | none => exact hx.grant fun v hv => by rw [hg] at hv; cases hv
    | some v => exact hx
  | renew w k =>
    unfold extend
    by_cases hw : x.leases.get x.now k = some w
    · rw [if_pos hw]
      exact hx.grant fun v hv => Option.some.inj (hv.symm.trans hw)
    · rw [if_neg hw]
      exact hx
  | release w k => exact hx.delete

theorem Reach.held (h : Reach ttl x) : x.Held ttl := by
  induction h with
  | init => exact fun _ _ _ hs => by cases hs
  | step h hxy ih => exact hxy.held ih

/-- The owner of a key, now. -/
def owner (x : Clients K W) (k : K) : Option W := x.leases.get x.now k

/-- Whoever took or extended a lease less than `ttl` ago, and has not ended it, is its owner. -/
theorem Reach.owner (h : Reach ttl x) (hs : x.since w k = some t) (ht : x.now < t + ttl) : x.owner k = some w :=
  h.held.get hs ht

/-- A lease changes hands only through nobody's. -/
theorem Step.owner (httl : 0 < ttl) (h : Step ttl x y) (k : K) :
    y.owner k = x.owner k ∨ y.owner k = none ∨ x.owner k = none ∧ ∃ w, y.owner k = some w := by
  cases h with
  | wait t h => exact (get_later h).imp id .inl
  | acquire w j =>
    show Leases.get (x.leases.setNX x.now ttl j w).2 x.now k = _ ∨ Leases.get _ x.now k = none ∨ _
    unfold setNX
    cases hg : x.leases.get x.now j with
    | some v => exact .inl rfl
    | none =>
      by_cases hj : j = k
      · subst hj
        exact .inr (.inr ⟨hg, w, (get_grant httl j j w).trans (if_pos rfl)⟩)
      · exact .inl ((get_grant httl j k w).trans (if_neg hj))
  | renew w j =>
    refine .inl ?_
    show Leases.get (x.leases.extend x.now ttl j w).2 x.now k = _
    unfold extend
    by_cases hw : x.leases.get x.now j = some w
    · rw [if_pos hw, get_grant httl]
      by_cases hj : j = k
      · subst hj
        rw [if_pos rfl]
        exact hw.symm
      · rw [if_neg hj]
        rfl
    · rw [if_neg hw]
      rfl
  | release w j =>
    show Leases.get (x.leases.delete x.now j w).2 x.now k = _ ∨ Leases.get _ x.now k = none ∨ _
    unfold Leases.delete
    by_cases hw : x.leases.get x.now j = some w
    · rw [if_pos hw]
      rcases eq_or_ne k j with rfl | hk
      · exact .inr (.inl (get_none (Function.update_self ..)))
      · exact .inl (get_congr (Function.update_of_ne hk ..))
    · rw [if_neg hw]
      exact .inl rfl

end Clients

end Leases

end Lob
