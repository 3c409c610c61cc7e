import Mathlib.Logic.Function.Basic

/-!
# Objects that are made when they are asked for

A registry has an object for some keys. `lookup` is the object of a key, a new one if there is none, so that
making it and holding it are the same to a reader (`lookup_update_iff`).
-/

namespace Lob

section

variable {κ α β : Type} (new : κ → α)

/-- The object of a key, a new one if there is none. -/
def lookup (r : κ → Option α) (k : κ) : α := (r k).getD (new k)

variable {new} {r r' : κ → Option α} {k : κ} {a : α}

theorem lookup_of_some (h : r k = some a) : lookup new r k = a := by
  rw [lookup, h, Option.getD_some]

theorem lookup_of_none (h : r k = none) : lookup new r k = new k := by
  rw [lookup, h, Option.getD_none]

variable [DecidableEq κ]

/-- The objects of two registries that agree but for the key `k`, where the one has `a` now, look the same
to `f`, exactly if `a` does. -/
theorem lookup_update_iff (f : α → β) (h : ∀ k' ≠ k, r' k' = r k') :
    (∀ k', f (lookup new (Function.update r' k (some a)) k') = f (lookup new r k')) ↔
      f a = f (lookup new r k) := by
  constructor
  · intro hk
    have hk := hk k
    rwa [lookup_of_some (Function.update_self ..)] at hk
  · intro ha k'
    rcases eq_or_ne k' k with rfl | hne
    · rwa [lookup_of_some (Function.update_self ..)]
    · rw [lookup, Function.update_of_ne hne, h k' hne, lookup]

end

end Lob
