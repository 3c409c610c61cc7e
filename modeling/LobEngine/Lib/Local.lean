import LobEngine.Lib.Exc
import Mathlib.Data.List.Nodup
import Mathlib.Data.List.Perm.Basic

/-!
# Programs that touch one place

A state has a value at each place. A program is local to a place if it changes the value at no other place,
and what it does depends on no other.

* `Local.bind`: a sequence of programs that are local to one place.
* `forEach_returns`, `forEach_view`: a loop of local programs over different places, from what each of them
  does alone.
* `SameEnd.forEach`: the order of such a loop does not matter.
-/

namespace Lob.Exc

variable {ε σ σ' κ ν α β : Type}

/-- The program returns. -/
def Returns (m : Exc ε σ α) (s : σ) : Prop := ∃ a s', m.run s = (.ok a, s')

/-- The values at each place are the same. -/
def SameView (view : σ → κ → ν) (s t : σ) : Prop := ∀ k, view s k = view t k

/-- From `s` and from `t`, both programs return or none, and if they return, then to the same values. -/
def SameEnd (view : σ → κ → ν) (m : Exc ε σ α) (n : Exc ε σ β) (s t : σ) : Prop :=
  (m.Returns s ↔ n.Returns t) ∧
    ∀ a b s' t', m.run s = (.ok a, s') → n.run t = (.ok b, t') → SameView view s' t'

/-- The program changes the value at no place but `k`, and depends on no other. -/
structure Local (view : σ → κ → ν) (k : κ) (m : Exc ε σ α) : Prop where
  frame : ∀ s k', k' ≠ k → view (m.run s).2 k' = view s k'
  same : ∀ s t, view s k = view t k → (m.run s).1 = (m.run t).1 ∧ view (m.run s).2 k = view (m.run t).2 k

variable {view : σ → κ → ν} {k : κ} {m : Exc ε σ α} {f : α → Exc ε σ β} {s s' t : σ}

theorem not_returns {e : ε} (h : m.run s = (.error e, s')) : ¬ m.Returns s := by
  rintro ⟨a, s'', ha⟩
  rw [h] at ha
  cases ha

theorem Returns.bind_iff {a : α} (h : m.run s = (.ok a, s')) : (m >>= f).Returns s ↔ (f a).Returns s' := by
  unfold Returns
  rw [run_bind_ok h]

theorem Returns.of_bind (h : (m >>= f).Returns s) : m.Returns s := by
  obtain ⟨b, s', h⟩ := h
  obtain ⟨a, s₁, ha, -⟩ := bind_ok h
  exact ⟨a, s₁, ha⟩

namespace Local

theorem pure (a : α) : Local view k (Pure.pure a : Exc ε σ α) := ⟨fun _ _ _ => rfl, fun _ _ h => ⟨rfl, h⟩⟩

theorem lift (r : Except ε α) : Local view k (Exc.lift r : Exc ε σ α) := ⟨fun _ _ _ => rfl, fun _ _ h => ⟨rfl, h⟩⟩

/-- A check that does not touch the state, and what follows if it succeeds. -/
theorem lift_bind {r : Except ε α} (hf : ∀ a, r = .ok a → Local view k (f a)) :
    Local view k (Exc.lift r >>= f) := by
  cases r with
  | error e => exact ⟨fun _ _ _ => rfl, fun _ _ h => ⟨rfl, h⟩⟩
  | ok a => exact hf a rfl

theorem bind (hm : Local view k m) (hf : ∀ a, Local view k (f a)) : Local view k (m >>= f) := by
  refine ⟨fun s k' hk => ?_, fun s t hst => ?_⟩
  · have h := hm.frame s k' hk
    rw [run_bind]
    rcases hr : m.run s with ⟨e | a, s'⟩ <;> rw [hr] at h
    · exact h
    · exact ((hf a).frame s' k' hk).trans h
  · obtain ⟨hout, hview⟩ := hm.same s t hst
    rw [run_bind, run_bind]
    rcases hr : m.run s with ⟨e | a, s'⟩ <;> rcases hr' : m.run t with ⟨e' | a', t'⟩ <;>
      rw [hr, hr'] at hout hview <;> cases hout
    · exact ⟨rfl, hview⟩
    · exact (hf a).same s' t' hview

/-- A local program returns from a state exactly if it does from another with the same value. -/
theorem returns_iff (h : Local view k m) (hst : view s k = view t k) : m.Returns s ↔ m.Returns t := by
  have hout := (h.same s t hst).1
  unfold Returns
  rcases hr : m.run s with ⟨e | a, s'⟩ <;> rcases hr' : m.run t with ⟨e' | a', t'⟩ <;>
    rw [hr, hr'] at hout <;> cases hout
  · exact ⟨fun h => (by obtain ⟨_, _, h⟩ := h; cases h), fun h => (by obtain ⟨_, _, h⟩ := h; cases h)⟩
  · exact ⟨fun _ => ⟨a, t', rfl⟩, fun _ => ⟨a, s', rfl⟩⟩

end Local

theorem SameEnd.pure {a : α} {b : β} (h : SameView view s t) :
    SameEnd view (Pure.pure a : Exc ε σ α) (Pure.pure b : Exc ε σ β) s t := by
  refine ⟨⟨fun _ => ⟨b, t, rfl⟩, fun _ => ⟨a, s, rfl⟩⟩, fun _ _ _ _ hs ht => ?_⟩
  cases hs
  cases ht
  exact h

theorem SameEnd.symm {n : Exc ε σ β} (h : SameEnd view m n s t) : SameEnd view n m t s :=
  ⟨h.1.symm, fun b a t' s' hb ha k => (h.2 a b s' t' ha hb k).symm⟩

theorem SameEnd.trans {γ : Type} {n : Exc ε σ β} {o : Exc ε σ γ} {u : σ} (h : SameEnd view m n s t)
    (h' : SameEnd view n o t u) : SameEnd view m o s u := by
  refine ⟨h.1.trans h'.1, fun a c s' u' ha hc k => ?_⟩
  obtain ⟨b, t', hb⟩ := h.1.mp ⟨a, s', ha⟩
  exact (h.2 a b s' t' ha hb k).trans (h'.2 b c t' u' hb hc k)

theorem SameEnd.bind {γ δ : Type} {n : Exc ε σ β} {f : α → Exc ε σ γ} {g : β → Exc ε σ δ}
    (h : SameEnd view m n s t) (hf : ∀ a b s' t', m.run s = (.ok a, s') → n.run t = (.ok b, t') →
      SameView view s' t' → SameEnd view (f a) (g b) s' t') : SameEnd view (m >>= f) (n >>= g) s t := by
  rcases hm : m.run s with ⟨e | a, s'⟩
  · have hn := fun h' => not_returns hm (h.1.mpr h')
    exact ⟨⟨fun h' => absurd h'.of_bind (not_returns hm), fun h' => absurd h'.of_bind hn⟩,
      fun c _ u _ hc _ => absurd (Returns.of_bind ⟨c, u, hc⟩) (not_returns hm)⟩
  · obtain ⟨b, t', hn⟩ := h.1.mp ⟨a, s', hm⟩
    obtain ⟨hreturns, hview⟩ := hf a b s' t' hm hn (h.2 a b s' t' hm hn)
    rw [SameEnd, Returns.bind_iff hm, Returns.bind_iff hn, run_bind_ok hm, run_bind_ok hn]
    exact ⟨hreturns, hview⟩

/-! ## Loops -/

/-- The programs of the places, one after the other. -/
def forEach (p : κ → Exc ε σ α) : List κ → Exc ε σ (List α)
  | [] => Pure.pure []
  | x :: xs => do
    let a ← p x
    let as ← forEach p xs
    return a :: as

variable {p q : κ → Exc ε σ α} {xs ys : List κ}

theorem forEach_congr (h : ∀ x ∈ xs, p x = q x) : forEach p xs = forEach q xs := by
  induction xs with
  | nil => rfl
  | cons x xs ih =>
    rw [forEach, forEach, h x List.mem_cons_self, ih fun y hy => h y (List.mem_cons_of_mem _ hy)]

/-- The loop returns exactly if each program returns alone. -/
theorem forEach_returns (hl : ∀ x ∈ xs, Local view x (p x)) (hn : xs.Nodup) :
    (forEach p xs).Returns s ↔ ∀ x ∈ xs, (p x).Returns s := by
  induction xs generalizing s with
  | nil => exact ⟨fun _ _ h => (by cases h), fun _ => ⟨[], s, rfl⟩⟩
  | cons x xs ih =>
    obtain ⟨hx, hn⟩ := List.nodup_cons.mp hn
    rw [List.forall_mem_cons]
    rcases hr : (p x).run s with ⟨e | a, s₁⟩
    · exact ⟨fun h => absurd h.of_bind (not_returns hr), fun h => absurd h.1 (not_returns hr)⟩
    · have hrest : (forEach p xs).Returns s₁ ↔ ∀ y ∈ xs, (p y).Returns s := by
        rw [ih (fun y hy => hl y (List.mem_cons_of_mem _ hy)) hn]
        refine forall₂_congr fun y hy => (hl y (List.mem_cons_of_mem _ hy)).returns_iff ?_
        have hframe := (hl x List.mem_cons_self).frame s y fun h => hx (h ▸ hy)
        rwa [hr] at hframe
      rw [← hrest, forEach, Returns.bind_iff hr]
      refine ⟨fun h => ⟨⟨a, s₁, hr⟩, h.of_bind⟩, fun h => ?_⟩
      obtain ⟨as, s₂, has⟩ := h.2
      exact ⟨a :: as, s₂, run_bind_ok has⟩

/-- The loop leaves at each place what its program does there alone. -/
theorem forEach_view [DecidableEq κ] (hl : ∀ x ∈ xs, Local view x (p x)) (hn : xs.Nodup) {as : List α}
    (h : (forEach p xs).run s = (.ok as, s')) (k : κ) :
    view s' k = if k ∈ xs then view ((p k).run s).2 k else view s k := by
  induction xs generalizing s as with
  | nil =>
    cases h
    rfl
  | cons x xs ih =>
    obtain ⟨hx, hn⟩ := List.nodup_cons.mp hn
    obtain ⟨a, s₁, ha, h⟩ := bind_ok h
    obtain ⟨bs, s₂, hbs, h⟩ := bind_ok h
    cases h
    rw [ih (fun y hy => hl y (List.mem_cons_of_mem _ hy)) hn hbs]
    have hlx := hl x List.mem_cons_self
    rcases eq_or_ne k x with rfl | hne
    · rw [if_neg hx, if_pos List.mem_cons_self, ha]
    · have hframe := hlx.frame s k hne
      rw [ha] at hframe
      by_cases hk : k ∈ xs
      · rw [if_pos hk, if_pos (List.mem_cons_of_mem _ hk)]
        exact ((hl k (List.mem_cons_of_mem _ hk)).same _ _ hframe).2
      · rw [if_neg hk, if_neg (by simp [hne, hk])]
        exact hframe

/-- What the programs of the loop returned. -/
theorem forEach_results (hl : ∀ x ∈ xs, Local view x (p x)) (hn : xs.Nodup) {as : List α}
    (h : (forEach p xs).run s = (.ok as, s')) : (xs.map fun x => ((p x).run s).1) = as.map .ok := by
  induction xs generalizing s as with
  | nil =>
    cases h
    rfl
  | cons x xs ih =>
    obtain ⟨hx, hn⟩ := List.nodup_cons.mp hn
    obtain ⟨a, s₁, ha, h⟩ := bind_ok h
    obtain ⟨bs, s₂, hbs, h⟩ := bind_ok h
    cases h
    rw [List.map_cons, List.map_cons, ha, ← ih (fun y hy => hl y (List.mem_cons_of_mem _ hy)) hn hbs]
    refine congrArg _ (List.map_congr_left fun y hy => ?_)
    have hframe := (hl x List.mem_cons_self).frame s y fun h => hx (h ▸ hy)
    rw [ha] at hframe
    exact ((hl y (List.mem_cons_of_mem _ hy)).same _ _ hframe).1.symm

/-- The order of the loop does not matter. -/
theorem SameEnd.forEach [DecidableEq κ] (hl : ∀ x ∈ xs, Local view x (p x)) (hn : xs.Nodup) (hperm : xs.Perm ys)
    (hst : SameView view s t) : SameEnd view (forEach p xs) (forEach p ys) s t := by
  have hl' : ∀ y ∈ ys, Local view y (p y) := fun y hy => hl y (hperm.mem_iff.mpr hy)
  have hn' := hperm.nodup_iff.mp hn
  constructor
  · rw [forEach_returns hl hn, forEach_returns hl' hn']
    constructor
    · exact fun h y hy => ((hl' y hy).returns_iff (hst y)).mp (h y (hperm.mem_iff.mpr hy))
    · exact fun h x hx => ((hl x hx).returns_iff (hst x)).mpr (h x (hperm.mem_iff.mp hx))
  · intro as bs s' t' hs ht k
    rw [forEach_view hl hn hs, forEach_view hl' hn' ht]
    by_cases hk : k ∈ xs
    · rw [if_pos hk, if_pos (hperm.mem_iff.mp hk)]
      exact ((hl k hk).same _ _ (hst k)).2
    · rw [if_neg hk, if_neg fun h => hk (hperm.mem_iff.mpr h)]
      exact hst k

end Lob.Exc
