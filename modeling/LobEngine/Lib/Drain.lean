import Mathlib.Data.List.Perm.Subperm

/-!
# Rounds that drain a pool

A loop that takes elements out of a pool, in rounds: each round but the last takes at least one. Nothing is put
back, so the rounds end by themselves.

* `Drains`: the rounds of such a loop.
* `Drains.subperm`: no element is taken twice.
* `Drains.length_le`: the pool bounds the number of rounds.
-/

namespace Lob

/-- The pool before a round, and what the round takes. -/
structure Round (ι : Type) where
  pool : List ι
  taken : List ι

variable {ι : Type} [DecidableEq ι]

inductive Drains : List ι → List (Round ι) → Prop
  | done (pool : List ι) : Drains pool []
  | last {pool taken : List ι} (sub : taken.Subperm pool) : Drains pool [⟨pool, taken⟩]
  | round {pool taken : List ι} {rs : List (Round ι)} (sub : taken.Subperm pool) (some : taken ≠ [])
    (rest : Drains (pool.diff taken) rs) : Drains pool (⟨pool, taken⟩ :: rs)

namespace Drains

variable {pool taken : List ι} {rs : List (Round ι)}

theorem perm_diff (h : taken.Subperm pool) : (taken ++ pool.diff taken).Perm pool :=
  List.subperm_append_diff_self_of_count_le fun x _ => h.count_le x

theorem length_diff (h : taken.Subperm pool) : taken.length + (pool.diff taken).length = pool.length := by
  rw [← List.length_append]
  exact (perm_diff h).length_eq

theorem subperm (h : Drains pool rs) : (rs.flatMap (·.taken)).Subperm pool := by
  induction h with
  | done pool => exact List.nil_subperm
  | @last pool taken sub => simpa using sub
  | @round pool taken rs sub _ _ ih =>
    rw [List.flatMap_cons]
    exact (perm_diff sub).subperm_left.mp ((List.subperm_append_left taken).mpr ih)

theorem nodup (h : Drains pool rs) (hp : pool.Nodup) : (rs.flatMap (·.taken)).Nodup := by
  obtain ⟨l, hperm, hsub⟩ := h.subperm
  exact hperm.nodup_iff.mp (hsub.nodup hp)

theorem length_le (h : Drains pool rs) : rs.length ≤ pool.length + 1 := by
  induction h with
  | done pool => exact Nat.zero_le _
  | last sub => exact Nat.succ_le_succ (Nat.zero_le _)
  | @round pool taken rs sub some _ ih =>
    have hlen := length_diff sub
    have hpos := List.length_pos_iff.mpr some
    rw [List.length_cons]
    omega

theorem pool_le (h : Drains pool rs) : ∀ r ∈ rs, r.pool.length ≤ pool.length := by
  induction h with
  | done pool => simp
  | last sub => simp
  | @round pool taken rs sub some _ ih =>
    have hlen := length_diff sub
    refine List.forall_mem_cons.mpr ⟨Nat.le_refl _, fun r hr => ?_⟩
    have := ih r hr
    omega

/-- Each round but the last leaves less behind. -/
theorem decreasing (h : Drains pool rs) : rs.Pairwise fun r r' => r'.pool.length < r.pool.length := by
  induction h with
  | done pool => exact .nil
  | last sub => exact List.pairwise_singleton ..
  | @round pool taken rs sub some rest ih =>
    have hlen := length_diff sub
    have hpos := List.length_pos_iff.mpr some
    refine List.pairwise_cons.mpr ⟨fun r hr => ?_, ih⟩
    have := rest.pool_le r hr
    dsimp only
    omega

omit [DecidableEq ι] in
/-- Rounds that each take something take at least as many elements as there are rounds. -/
theorem length_le_taken (h : ∀ r ∈ rs, r.taken ≠ []) : rs.length ≤ (rs.flatMap (·.taken)).length := by
  induction rs with
  | nil => exact Nat.le_refl _
  | cons r rs ih =>
    obtain ⟨hr, hrs⟩ := List.forall_mem_cons.mp h
    have hpos := List.length_pos_iff.mpr hr
    have := ih hrs
    rw [List.flatMap_cons, List.length_append, List.length_cons]
    omega

end Drains

end Lob
