import Mathlib.Data.List.Nodup

/-!
# Insertion-ordered maps

`OMap κ ν` is a finite map that remembers the order in which its keys were first inserted, as a
JavaScript `Map` does: `set` of a present key keeps its place, `set` of a new key appends it,
`delete` removes it. That no key occurs twice is a field, so it is never a side condition.

* `get?_set`, `get?_delete`, `get?_mapValues`: what a lookup sees after each operation.
* `mem_entries`: an entry is listed exactly if the lookup of its key finds it.
* `entries_set_new`, `values_delete_perm`: the order of the entries.
* `rename`: the same map with other keys and values.
-/

namespace Lob

/-- A finite map with its keys in insertion order. -/
structure OMap (κ ν : Type) where
  entries : List (κ × ν)
  nodup : (entries.map Prod.fst).Nodup

namespace OMap

variable {κ ν : Type}

@[ext] theorem ext {m m' : OMap κ ν} (h : m.entries = m'.entries) : m = m' := by
  cases m; cases m'; cases h; rfl

instance [DecidableEq κ] [DecidableEq ν] : DecidableEq (OMap κ ν) := fun m m' =>
  decidable_of_iff (m.entries = m'.entries) ⟨ext, fun h => by rw [h]⟩

def empty : OMap κ ν := ⟨[], List.nodup_nil⟩

instance : Inhabited (OMap κ ν) := ⟨empty⟩

def keys (m : OMap κ ν) : List κ := m.entries.map Prod.fst

def values (m : OMap κ ν) : List ν := m.entries.map Prod.snd

def size (m : OMap κ ν) : Nat := m.entries.length

/-- Every value replaced by its image: the keys and their order stay. -/
def mapValues {ν' : Type} (f : ν → ν') (m : OMap κ ν) : OMap κ ν' :=
  ⟨m.entries.map fun e => (e.1, f e.2), by
    rw [List.map_map]; exact m.nodup⟩

@[simp] theorem keys_mapValues {ν' : Type} (f : ν → ν') (m : OMap κ ν) :
    (m.mapValues f).keys = m.keys := by
  simp [keys, mapValues, Function.comp_def]

@[simp] theorem values_mapValues {ν' : Type} (f : ν → ν') (m : OMap κ ν) :
    (m.mapValues f).values = m.values.map f := by
  simp [values, mapValues, Function.comp_def]

theorem keys_nodup (m : OMap κ ν) : m.keys.Nodup := m.nodup

variable [DecidableEq κ]

def get? (m : OMap κ ν) (k : κ) : Option ν := m.entries.lookup k

def has (m : OMap κ ν) (k : κ) : Bool := (m.get? k).isSome

/-- The entries with the value of `k`, if it is there, replaced by `v`. -/
def replace (k : κ) (v : ν) (es : List (κ × ν)) : List (κ × ν) :=
  es.map fun e => if e.1 = k then (k, v) else e

theorem map_fst_replace (k : κ) (v : ν) (es : List (κ × ν)) :
    (replace k v es).map Prod.fst = es.map Prod.fst := by
  unfold replace
  rw [List.map_map]
  apply List.map_congr_left
  intro e _
  by_cases h : e.1 = k <;> simp [h]

def set (m : OMap κ ν) (k : κ) (v : ν) : OMap κ ν :=
  if h : k ∈ m.keys then ⟨replace k v m.entries, by rw [map_fst_replace]; exact m.nodup⟩
  else ⟨m.entries ++ [(k, v)], by
    rw [List.map_append, List.map_singleton, List.nodup_append]
    exact ⟨m.nodup, List.nodup_singleton _, fun a ha b hb e => h (by
      rw [List.mem_singleton] at hb; subst hb; subst e; exact ha)⟩⟩

def delete (m : OMap κ ν) (k : κ) : OMap κ ν :=
  ⟨m.entries.filter (·.1 ≠ k), m.nodup.sublist (List.filter_sublist.map _)⟩

/-! ## Lookups -/

@[simp] theorem get?_empty (k : κ) : (empty : OMap κ ν).get? k = none := rfl

theorem lookup_of_mem {es : List (κ × ν)} (hn : (es.map Prod.fst).Nodup) {k : κ} {v : ν}
    (h : (k, v) ∈ es) : es.lookup k = some v := by
  induction es with
  | nil => cases h
  | cons e es ih =>
    rw [List.map_cons, List.nodup_cons] at hn
    rcases List.mem_cons.mp h with rfl | h
    · exact List.lookup_cons_self
    · have hne : k ≠ e.1 := fun hk => hn.1 (hk ▸ List.mem_map_of_mem (f := Prod.fst) h)
      rw [List.lookup_cons, beq_false_of_ne hne]
      exact ih hn.2 h

/-- An entry is listed exactly if the lookup of its key finds it. -/
theorem mem_entries {m : OMap κ ν} {k : κ} {v : ν} : (k, v) ∈ m.entries ↔ m.get? k = some v := by
  refine ⟨lookup_of_mem m.nodup, fun h => ?_⟩
  obtain ⟨l₁, l₂, hl, -⟩ := List.lookup_eq_some_iff.mp h
  rw [hl]; simp

theorem mem_keys {m : OMap κ ν} {k : κ} : k ∈ m.keys ↔ ∃ v, m.get? k = some v := by
  simp only [keys, List.mem_map, Prod.exists, exists_and_right, exists_eq_right, mem_entries]

theorem mem_values {m : OMap κ ν} {v : ν} : v ∈ m.values ↔ ∃ k, m.get? k = some v := by
  simp only [values, List.mem_map, Prod.exists, exists_eq_right, mem_entries]

theorem get?_eq_none {m : OMap κ ν} {k : κ} : m.get? k = none ↔ k ∉ m.keys := by
  rw [mem_keys]
  cases m.get? k <;> simp

theorem has_iff {m : OMap κ ν} {k : κ} : m.has k = true ↔ k ∈ m.keys := by
  rw [mem_keys, has, Option.isSome_iff_exists]

theorem has_eq_false {m : OMap κ ν} {k : κ} : m.has k = false ↔ m.get? k = none := by
  simp [has]

theorem get?_of_entries {m m' : OMap κ ν} {k k' : κ}
    (h : ∀ v, (k, v) ∈ m.entries ↔ (k', v) ∈ m'.entries) : m.get? k = m'.get? k' :=
  Option.ext fun v => by rw [← mem_entries, ← mem_entries]; exact h v

theorem get?_set (m : OMap κ ν) (k k' : κ) (v : ν) :
    (m.set k v).get? k' = if k' = k then some v else m.get? k' := by
  by_cases hk : k' = k
  · subst hk
    rw [if_pos rfl, ← mem_entries]
    unfold set
    split
    · next h =>
      obtain ⟨e, he, hek⟩ := List.mem_map.mp h
      exact List.mem_map.mpr ⟨e, he, if_pos hek⟩
    · simp
  · rw [if_neg hk]
    apply get?_of_entries
    intro w
    unfold set
    split
    · simp only [replace, List.mem_map]
      constructor
      · rintro ⟨e, he, heq⟩
        split at heq
        · cases heq; exact absurd rfl hk
        · exact heq ▸ he
      · exact fun he => ⟨_, he, if_neg hk⟩
    · simp [hk]

@[simp] theorem get?_set_self (m : OMap κ ν) (k : κ) (v : ν) : (m.set k v).get? k = some v := by
  rw [get?_set, if_pos rfl]

theorem get?_set_ne (m : OMap κ ν) {k k' : κ} (v : ν) (h : k' ≠ k) :
    (m.set k v).get? k' = m.get? k' := by
  rw [get?_set, if_neg h]

theorem get?_delete (m : OMap κ ν) (k k' : κ) :
    (m.delete k).get? k' = if k' = k then none else m.get? k' := by
  by_cases hk : k' = k
  · subst hk
    rw [if_pos rfl, get?_eq_none]
    simp [keys, delete]
  · rw [if_neg hk]
    apply get?_of_entries
    intro v
    simp [delete, hk]

@[simp] theorem get?_delete_self (m : OMap κ ν) (k : κ) : (m.delete k).get? k = none := by
  rw [get?_delete, if_pos rfl]

theorem get?_delete_ne (m : OMap κ ν) {k k' : κ} (h : k' ≠ k) :
    (m.delete k).get? k' = m.get? k' := by
  rw [get?_delete, if_neg h]

theorem get?_mapValues {ν' : Type} (f : ν → ν') (m : OMap κ ν) (k : κ) :
    (m.mapValues f).get? k = (m.get? k).map f := by
  apply Option.ext
  intro v
  rw [← mem_entries, Option.map_eq_some_iff]
  simp only [mapValues, List.mem_map, Prod.exists, Prod.mk.injEq, mem_entries]
  constructor
  · rintro ⟨a, b, h, rfl, rfl⟩; exact ⟨b, h, rfl⟩
  · rintro ⟨b, h, rfl⟩; exact ⟨k, b, h, rfl, rfl⟩

/-! ## Entries -/

/-- A new key goes to the end. -/
theorem entries_set_new {m : OMap κ ν} {k : κ} (v : ν) (h : m.get? k = none) :
    (m.set k v).entries = m.entries ++ [(k, v)] := by
  rw [get?_eq_none] at h
  unfold set
  rw [dif_neg h]

theorem values_set_new {m : OMap κ ν} {k : κ} (v : ν) (h : m.get? k = none) :
    (m.set k v).values = m.values ++ [v] := by
  rw [values, entries_set_new v h, List.map_append]
  rfl

theorem get?_of_delete {m : OMap κ ν} {k k' : κ} {v : ν} (h : (m.delete k).get? k' = some v) :
    k' ≠ k ∧ m.get? k' = some v := by
  rw [get?_delete] at h
  split at h
  · cases h
  · next hne => exact ⟨hne, h⟩

theorem get?_delete_none {m : OMap κ ν} {k' : κ} (h : m.get? k' = none) (k : κ) :
    (m.delete k).get? k' = none := by
  rw [get?_delete, h, ite_self]

theorem mem_values_delete {m : OMap κ ν} {k : κ} {v : ν} (h : v ∈ (m.delete k).values) : v ∈ m.values := by
  obtain ⟨k', hk'⟩ := mem_values.mp h
  exact mem_values.mpr ⟨k', (get?_of_delete hk').2⟩

/-- The value of a key, and the values of the others. -/
theorem values_delete_perm {m : OMap κ ν} {k : κ} {v : ν} (h : m.get? k = some v) :
    m.values.Perm (v :: (m.delete k).values) := by
  obtain ⟨A, B, he⟩ := List.append_of_mem (mem_entries.mpr h)
  have hn := m.nodup
  rw [he, List.map_append, List.map_cons, List.nodup_append, List.nodup_cons] at hn
  have hA : A.filter (·.1 ≠ k) = A := List.filter_eq_self.mpr fun e he => by
    simpa using hn.2.2 _ (List.mem_map_of_mem he) k List.mem_cons_self
  have hB : B.filter (·.1 ≠ k) = B := List.filter_eq_self.mpr fun e he => by
    simpa using ne_of_mem_of_not_mem (List.mem_map_of_mem he) hn.2.1.1
  show (m.entries.map Prod.snd).Perm (v :: (m.entries.filter (·.1 ≠ k)).map Prod.snd)
  rw [he, List.filter_append, List.filter_cons_of_neg (by simp), hA, hB, List.map_append,
    List.map_append, List.map_cons]
  exact List.perm_middle

/-- A map is rebuilt from its values, in order, where they determine their keys. -/
theorem foldl_set_values {key : ν → κ} {m : OMap κ ν} (hk : ∀ k v, m.get? k = some v → key v = k) :
    m.values.foldl (fun acc v => acc.set (key v) v) empty = m := by
  have go : ∀ (L : List (κ × ν)) (acc : OMap κ ν), (∀ e ∈ L, key e.2 = e.1) →
      ((acc.entries ++ L).map Prod.fst).Nodup →
      ((L.map Prod.snd).foldl (fun acc v => acc.set (key v) v) acc).entries = acc.entries ++ L := by
    intro L
    induction L with
    | nil => intro acc _ _; simp
    | cons e L ih =>
      intro acc hL hn
      have hnew : acc.get? e.1 = none := by
        rw [get?_eq_none]
        rw [List.map_append, List.map_cons, List.nodup_append] at hn
        exact fun hmem => hn.2.2 _ hmem _ List.mem_cons_self rfl
      have hset := entries_set_new e.2 hnew
      rw [List.map_cons, List.foldl_cons, hL e List.mem_cons_self,
        ih _ (fun x hx => hL x (List.mem_cons_of_mem _ hx)) (by rw [hset, List.append_assoc]; exact hn),
        hset, List.append_assoc]
      rfl
  refine ext ((go m.entries empty (fun e he => hk e.1 e.2 (mem_entries.mp he)) ?_).trans rfl)
  exact m.nodup

/-- A present key keeps its place. -/
theorem keys_set_of_mem {m : OMap κ ν} {k : κ} (v : ν) (h : k ∈ m.keys) :
    (m.set k v).keys = m.keys := by
  unfold set
  rw [dif_pos h]
  exact map_fst_replace k v m.entries

theorem mem_keys_set {m : OMap κ ν} {k k' : κ} {v : ν} :
    k' ∈ (m.set k v).keys ↔ k' = k ∨ k' ∈ m.keys := by
  rw [mem_keys, mem_keys, get?_set]
  by_cases h : k' = k <;> simp [h]

theorem mem_keys_delete {m : OMap κ ν} {k k' : κ} :
    k' ∈ (m.delete k).keys ↔ k' ≠ k ∧ k' ∈ m.keys := by
  rw [mem_keys, mem_keys, get?_delete]
  by_cases h : k' = k <;> simp [h]

theorem keys_delete_subset {m : OMap κ ν} {k : κ} : ∀ k' ∈ (m.delete k).keys, k' ∈ m.keys :=
  fun _ h => (mem_keys_delete.mp h).2

/-- Maps with the same keys, in the same order, and the same lookups are equal. -/
theorem ext_get? {m m' : OMap κ ν} (hk : m.keys = m'.keys) (hg : ∀ k, m.get? k = m'.get? k) :
    m = m' := by
  have hlist : ∀ n : OMap κ ν, n.entries.map (fun e => (e.1, some e.2)) =
      n.keys.map fun k => (k, n.get? k) := fun n => by
    unfold keys
    rw [List.map_map]
    exact List.map_congr_left fun e he => by rw [Function.comp_apply, mem_entries.mp he]
  have h := hlist m
  rw [hk, funext hg, ← hlist m'] at h
  refine ext (List.map_injective_iff.mpr (fun e e' he => ?_) h)
  rw [Prod.mk.injEq, Option.some_inj] at he
  exact Prod.ext he.1 he.2

theorem keys_delete (m : OMap κ ν) (k : κ) : (m.delete k).keys = m.keys.erase k := by
  rw [m.keys_nodup.erase_eq_filter]
  unfold keys delete
  rw [List.filter_map]
  congr 1
  refine List.filter_congr fun e _ => ?_
  by_cases h : e.1 = k <;> simp [h]

theorem size_eq_zero {m : OMap κ ν} : m.size = 0 ↔ ∀ k, m.get? k = none := by
  constructor
  · intro h k
    rw [get?_eq_none, keys, List.eq_nil_of_length_eq_zero h]
    exact List.not_mem_nil
  · intro h
    cases hm : m.entries with
    | nil => simp [size, hm]
    | cons e es =>
      have : m.get? e.1 = some e.2 := mem_entries.mp (by rw [hm]; exact List.mem_cons_self)
      rw [h] at this; cases this

/-! ## Renaming -/

section

variable {κ' ν' : Type} {f : κ → κ'} (hf : Function.Injective f) (g : ν → ν')
  (m : OMap κ ν)

omit [DecidableEq κ]

/-- Every key and every value replaced by its image. -/
def rename (m : OMap κ ν) : OMap κ' ν' :=
  ⟨m.entries.map fun e => (f e.1, g e.2), by
    have h := m.nodup.map hf
    rw [List.map_map] at h ⊢
    exact h⟩

@[simp] theorem values_rename : (m.rename hf g).values = m.values.map g := by
  simp [values, rename, Function.comp_def]

@[simp] theorem keys_rename : (m.rename hf g).keys = m.keys.map f := by
  simp [keys, rename, Function.comp_def]

theorem mapValues_rename {h : ν → ν} {h' : ν' → ν'} (hg : ∀ v ∈ m.values, g (h v) = h' (g v)) :
    (m.mapValues h).rename hf g = (m.rename hf g).mapValues h' := by
  apply ext
  simp only [rename, mapValues, List.map_map]
  refine List.map_congr_left fun e he => ?_
  simp only [Function.comp_apply]
  rw [hg e.2 (List.mem_map_of_mem he)]

variable [DecidableEq κ] [DecidableEq κ']

theorem get?_rename (k : κ) : (m.rename hf g).get? (f k) = (m.get? k).map g := by
  apply Option.ext
  intro v
  rw [← mem_entries, Option.map_eq_some_iff]
  simp only [rename, List.mem_map, Prod.exists, Prod.mk.injEq, mem_entries]
  constructor
  · rintro ⟨a, b, h, ha, rfl⟩
    obtain rfl := hf ha
    exact ⟨b, h, rfl⟩
  · rintro ⟨b, h, rfl⟩
    exact ⟨k, b, h, rfl, rfl⟩

theorem has_rename (k : κ) : (m.rename hf g).has (f k) = m.has k := by
  rw [has, get?_rename, Option.isSome_map, has]

theorem set_rename (k : κ) (v : ν) : (m.set k v).rename hf g = (m.rename hf g).set (f k) (g v) := by
  apply ext
  by_cases h : k ∈ m.keys
  · have h' : f k ∈ (m.rename hf g).keys := by
      rw [keys_rename]
      exact List.mem_map_of_mem h
    unfold set
    rw [dif_pos h, dif_pos h']
    simp only [rename, replace, List.map_map]
    refine List.map_congr_left fun e _ => ?_
    by_cases he : e.1 = k
    · simp [he]
    · have hne : f e.1 ≠ f k := hf.ne he
      simp [he, hne]
  · have h' : f k ∉ (m.rename hf g).keys := by
      rw [keys_rename]
      exact fun hm => h ((List.mem_map_of_injective hf).mp hm)
    rw [entries_set_new _ (get?_eq_none.mpr h')]
    show ((m.set k v).entries.map fun e => (f e.1, g e.2)) = _
    rw [entries_set_new _ (get?_eq_none.mpr h), List.map_append]
    rfl

theorem delete_rename (k : κ) : (m.delete k).rename hf g = (m.rename hf g).delete (f k) := by
  apply ext
  simp only [rename, delete, List.filter_map, Function.comp_def, hf.ne_iff, ne_eq]

end

end OMap

end Lob
