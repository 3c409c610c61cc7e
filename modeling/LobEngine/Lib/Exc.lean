/-!
# Programs that change a state and may throw

`Exc ε σ α` is a program over a state `σ` that returns an `α` or throws an `ε`; a throw keeps the
changes made so far, as an exception of an imperative language does. `Exc.Post m s Q` says that
`Q` holds of the outcome and the state after running `m` from `s`.

* `run_bind_ok`, `run_bind_error`: a sequence, once the outcome of its first part is known.
* `Post.bind`: a sequence, from what its parts guarantee.
* `Keeps`: a program that keeps a property of the state whatever its outcome is.
* `Throws`: a program whose errors are of a given kind.
* `Sim`: two programs side by side, over two states, with the same outcomes (`Sim.bind`).
* `Both`: two programs whose errors are of different types, from two given states. `BothOk`: if both return.
* `Agree`: two programs that do the same in related states, up to what is seen of their results (`Agree.bind`).
* `SimUnless`: as `Sim`, as long as the first one avoids the bad states.
* `Records`: a program and a variant of it that returns more.
-/

namespace Lob

theorem toOption_some {ε α : Type} {x : Except ε α} {a : α} (h : x.toOption = some a) : x = .ok a := by
  cases x with
  | error e => cases h
  | ok b => exact congrArg Except.ok (Option.some.inj h)

def Exc (ε σ α : Type) : Type := σ → Except ε α × σ

namespace Exc

variable {ε σ α β : Type}

/-- Run the program `m` from the state `s`. -/
def run (m : Exc ε σ α) (s : σ) : Except ε α × σ := m s

instance : Monad (Exc ε σ) where
  pure a := fun s => (.ok a, s)
  bind m f := fun s =>
    match m.run s with
    | (.ok a, s') => (f a).run s'
    | (.error e, s') => (.error e, s')

def throw (e : ε) : Exc ε σ α := fun s => (.error e, s)

def get : Exc ε σ σ := fun s => (.ok s, s)

def modify (f : σ → σ) : Exc ε σ Unit := fun s => (.ok (), f s)

/-- The outcome of a check that does not touch the state. -/
def lift (r : Except ε α) : Exc ε σ α := fun s => (r, s)

@[simp] theorem run_pure (a : α) (s : σ) : (pure a : Exc ε σ α).run s = (.ok a, s) := rfl
@[simp] theorem run_throw (e : ε) (s : σ) : (throw e : Exc ε σ α).run s = (.error e, s) := rfl
@[simp] theorem run_get (s : σ) : (get : Exc ε σ σ).run s = (.ok s, s) := rfl
@[simp] theorem run_modify (f : σ → σ) (s : σ) : (modify f : Exc ε σ Unit).run s = (.ok (), f s) := rfl
@[simp] theorem run_lift (r : Except ε α) (s : σ) : (lift r : Exc ε σ α).run s = (r, s) := rfl

theorem run_bind (m : Exc ε σ α) (f : α → Exc ε σ β) (s : σ) :
    (m >>= f).run s =
      match m.run s with
      | (.ok a, s') => (f a).run s'
      | (.error e, s') => (.error e, s') := rfl

theorem run_bind_ok {m : Exc ε σ α} {f : α → Exc ε σ β} {s s' : σ} {a : α}
    (h : m.run s = (.ok a, s')) : (m >>= f).run s = (f a).run s' := by
  rw [run_bind, h]

theorem run_bind_error {m : Exc ε σ α} {f : α → Exc ε σ β} {s s' : σ} {e : ε}
    (h : m.run s = (.error e, s')) : (m >>= f).run s = (.error e, s') := by
  rw [run_bind, h]

@[simp] theorem run_get_bind (f : σ → Exc ε σ β) (s : σ) : (get >>= f).run s = (f s).run s := rfl

@[simp] theorem run_modify_bind (g : σ → σ) (f : Unit → Exc ε σ β) (s : σ) :
    (modify g >>= f).run s = (f ()).run (g s) := rfl

@[simp] theorem run_throw_bind (e : ε) (f : α → Exc ε σ β) (s : σ) :
    (throw e >>= f).run s = (.error e, s) := rfl

@[simp] theorem run_pure_bind (a : α) (f : α → Exc ε σ β) (s : σ) :
    ((pure a : Exc ε σ α) >>= f).run s = (f a).run s := rfl

theorem run_bind_assoc {γ : Type} (m : Exc ε σ α) (f : α → Exc ε σ β) (g : β → Exc ε σ γ) (s : σ) :
    ((m >>= f) >>= g).run s = (m >>= fun a => f a >>= g).run s := by
  simp only [run_bind]
  rcases m.run s with ⟨_ | _, _⟩ <;> rfl

theorem run_lift_bind (r : Except ε α) (f : α → Exc ε σ β) (s : σ) :
    (lift r >>= f).run s = match r with | .ok a => (f a).run s | .error e => (.error e, s) := by
  cases r <;> rfl

/-- A sequence that returned: both parts did. -/
theorem bind_ok {m : Exc ε σ α} {f : α → Exc ε σ β} {s s' : σ} {b : β}
    (h : (m >>= f).run s = (.ok b, s')) :
    ∃ a s₁, m.run s = (.ok a, s₁) ∧ (f a).run s₁ = (.ok b, s') := by
  rw [run_bind] at h
  rcases hm : m.run s with ⟨_ | a, s₁⟩
  · rw [hm] at h; cases h
  · rw [hm] at h; exact ⟨a, s₁, rfl, h⟩

/-- A sequence that threw, though its second part never does. -/
theorem bind_error {m : Exc ε σ α} {f : α → Exc ε σ β} {s s' : σ} {e : ε}
    (h : (m >>= f).run s = (.error e, s')) (hf : ∀ a t, ∃ b, ((f a).run t).1 = .ok b) :
    m.run s = (.error e, s') := by
  rw [run_bind] at h
  rcases hm : m.run s with ⟨e' | a, t⟩
  · rw [hm] at h
    cases h
    rfl
  · rw [hm] at h
    obtain ⟨b, hb⟩ := hf a t
    rw [show (f a).run t = (.error e, s') from h] at hb
    cases hb

/-! ## Postconditions -/

/-- `Q` holds of the outcome and the state after `m`. -/
def Post (m : Exc ε σ α) (s : σ) (Q : Except ε α → σ → Prop) : Prop := Q (m.run s).1 (m.run s).2

theorem Post.mono {m : Exc ε σ α} {s : σ} {Q Q' : Except ε α → σ → Prop} (h : m.Post s Q)
    (hQ : ∀ r s', Q r s' → Q' r s') : m.Post s Q' := hQ _ _ h

theorem Post.bind {m : Exc ε σ α} {f : α → Exc ε σ β} {s : σ} {Q : Except ε α → σ → Prop}
    {Q' : Except ε β → σ → Prop} (h : m.Post s Q)
    (hok : ∀ a s', Q (.ok a) s' → (f a).Post s' Q')
    (herr : ∀ e s', Q (.error e) s' → Q' (.error e) s') : (m >>= f).Post s Q' := by
  unfold Post at h ⊢
  rw [run_bind]
  rcases hm : m.run s with ⟨e | a, s'⟩
  · rw [hm] at h; exact herr e s' h
  · rw [hm] at h; exact hok a s' h

/-- `m` keeps `I`, whether it returns or throws. -/
def Keeps (I : σ → Prop) (m : Exc ε σ α) : Prop := ∀ s, I s → m.Post s fun _ s' => I s'

theorem Keeps.bind {I : σ → Prop} {m : Exc ε σ α} {f : α → Exc ε σ β} (hm : Keeps I m)
    (hf : ∀ a, Keeps I (f a)) : Keeps I (m >>= f) := fun s hs =>
  (hm s hs).bind (fun a s' hs' => hf a s' hs') fun _ _ h => h

theorem Keeps.of_run {I : σ → Prop} {m : Exc ε σ α} {s s' : σ} {r : Except ε α} (hm : Keeps I m)
    (hs : I s) (h : m.run s = (r, s')) : I s' := by
  have hI := hm s hs
  rw [Post, h] at hI
  exact hI

theorem Keeps.pure {I : σ → Prop} (a : α) : Keeps I (Pure.pure a : Exc ε σ α) := fun _ h => h

theorem Keeps.throw {I : σ → Prop} (e : ε) : Keeps I (Exc.throw e : Exc ε σ α) := fun _ h => h

theorem Keeps.lift {I : σ → Prop} (r : Except ε α) : Keeps I (Exc.lift r : Exc ε σ α) :=
  fun _ h => h

theorem Keeps.get {I : σ → Prop} : Keeps I (Exc.get : Exc ε σ σ) := fun _ h => h

theorem Keeps.modify {I : σ → Prop} {f : σ → σ}
    (h : ∀ s, I s → I (f s)) : Keeps I (Exc.modify f : Exc ε σ Unit) := h

theorem Keeps.ite {I : σ → Prop} {c : Prop} [Decidable c] {m n : Exc ε σ α} (hm : Keeps I m)
    (hn : Keeps I n) : Keeps I (if c then m else n) := by
  split
  · exact hm
  · exact hn

/-- The errors of `m` are in `E`. -/
def Throws (E : ε → Prop) (m : Exc ε σ α) : Prop := ∀ s e s', m.run s = (.error e, s') → E e

theorem Throws.bind {E : ε → Prop} {m : Exc ε σ α} {f : α → Exc ε σ β} (hm : Throws E m)
    (hf : ∀ a, Throws E (f a)) : Throws E (m >>= f) := by
  intro s e s' h
  rw [run_bind] at h
  rcases hr : m.run s with ⟨e' | a, s₁⟩
  · rw [hr] at h
    cases h
    exact hm s _ _ hr
  · rw [hr] at h
    exact hf a s₁ e s' h

theorem Throws.pure {E : ε → Prop} (a : α) : Throws E (Pure.pure a : Exc ε σ α) := fun _ _ _ h => by cases h

theorem Throws.get {E : ε → Prop} : Throws E (Exc.get : Exc ε σ σ) := fun _ _ _ h => by cases h

theorem Throws.modify {E : ε → Prop} (f : σ → σ) : Throws E (Exc.modify f : Exc ε σ Unit) :=
  fun _ _ _ h => by cases h

theorem Throws.throw {E : ε → Prop} {e : ε} (h : E e) : Throws E (Exc.throw e : Exc ε σ α) := by
  intro s e' s' he
  cases he
  exact h

theorem Throws.lift {E : ε → Prop} {r : Except ε α} (h : ∀ e, r = .error e → E e) :
    Throws E (Exc.lift r : Exc ε σ α) := fun _ e _ he => h e (congrArg Prod.fst he)

theorem Throws.ite {E : ε → Prop} {c : Prop} [Decidable c] {m n : Exc ε σ α} (hm : Throws E m)
    (hn : Throws E n) : Throws E (if c then m else n) := by
  split
  · exact hm
  · exact hn

theorem Post.pure {a : α} {s : σ} {Q : Except ε α → σ → Prop} (h : Q (.ok a) s) :
    (Pure.pure a : Exc ε σ α).Post s Q := h

theorem Post.get {f : σ → Exc ε σ α} {s : σ} {Q : Except ε α → σ → Prop} (h : (f s).Post s Q) :
    (Exc.get >>= f).Post s Q := h

theorem Post.modify {g : σ → σ} {f : Unit → Exc ε σ α} {s : σ} {Q : Except ε α → σ → Prop}
    (h : (f ()).Post (g s) Q) : (Exc.modify g >>= f).Post s Q := h

/-- A program that keeps `I`, then one whose postcondition follows from `I`. -/
theorem Keeps.bind_post {I : σ → Prop} {m : Exc ε σ α} {f : α → Exc ε σ β} {s : σ}
    {Q : Except ε β → σ → Prop} (hm : Keeps I m) (hs : I s) (hf : ∀ a s', I s' → (f a).Post s' Q)
    (he : ∀ e s', I s' → Q (.error e) s') : (m >>= f).Post s Q :=
  (hm s hs).bind hf he

/-! ## Two programs side by side -/

variable {σ' α' β' : Type}

/-- From states related by `R`, the two programs both return, with results and states related by
`Q`, or both throw the same, in states related by `E`. -/
def Sim (R : σ → σ' → Prop) (m : Exc ε σ α) (m' : Exc ε σ' α') (Q : α → α' → σ → σ' → Prop)
    (E : σ → σ' → Prop) : Prop :=
  ∀ s s', R s s' →
    match m.run s, m'.run s' with
    | (.ok a, t), (.ok a', t') => Q a a' t t'
    | (.error e, t), (.error e', t') => e = e' ∧ E t t'
    | _, _ => False

section Sim

variable {R : σ → σ' → Prop} {E : σ → σ' → Prop} {m : Exc ε σ α} {m' : Exc ε σ' α'}
  {Q : α → α' → σ → σ' → Prop}

theorem Sim.conseq {R' E' : σ → σ' → Prop} {Q' : α → α' → σ → σ' → Prop} (h : Sim R m m' Q E)
    (hR : ∀ s s', R' s s' → R s s') (hQ : ∀ a a' t t', Q a a' t t' → Q' a a' t t')
    (hE : ∀ t t', E t t' → E' t t') : Sim R' m m' Q' E' := by
  intro s s' hs
  have := h s s' (hR s s' hs)
  revert this
  rcases m.run s with ⟨_ | _, _⟩ <;> rcases m'.run s' with ⟨_ | _, _⟩ <;> simp only [imp_self]
  · exact fun h => ⟨h.1, hE _ _ h.2⟩
  · exact hQ _ _ _ _

theorem Sim.bind {f : α → Exc ε σ β} {f' : α' → Exc ε σ' β'} {Q' : β → β' → σ → σ' → Prop}
    (h : Sim R m m' Q E) (hf : ∀ a a', Sim (Q a a') (f a) (f' a') Q' E) :
    Sim R (m >>= f) (m' >>= f') Q' E := by
  intro s s' hs
  have h := h s s' hs
  rw [run_bind, run_bind]
  rcases hm : m.run s with ⟨_ | a, t⟩ <;> rcases hm' : m'.run s' with ⟨_ | a', t'⟩ <;>
    rw [hm, hm'] at h <;> simp only at h ⊢
  · exact h
  · exact hf a a' t t' h

theorem Sim.pure {a : α} {a' : α'} (h : ∀ s s', R s s' → Q a a' s s') :
    Sim R (Pure.pure a : Exc ε σ α) (Pure.pure a' : Exc ε σ' α') Q E := h

theorem Sim.throw {e : ε} (h : ∀ s s', R s s' → E s s') :
    Sim R (Exc.throw e : Exc ε σ α) (Exc.throw e : Exc ε σ' α') Q E := fun s s' hs => ⟨rfl, h s s' hs⟩

theorem Sim.lift {r : Except ε α} {Q : α → α → σ → σ' → Prop} (hE : ∀ s s', R s s' → E s s')
    (h : ∀ a s s', r = .ok a → R s s' → Q a a s s') :
    Sim R (Exc.lift r : Exc ε σ α) (Exc.lift r : Exc ε σ' α) Q E := by
  intro s s' hs
  cases r with
  | error e => exact ⟨rfl, hE s s' hs⟩
  | ok a => exact h a s s' rfl hs

theorem Sim.modify {f : σ → σ} {f' : σ' → σ'} {Q : Unit → Unit → σ → σ' → Prop}
    (h : ∀ s s', R s s' → Q () () (f s) (f' s')) :
    Sim R (Exc.modify f : Exc ε σ Unit) (Exc.modify f' : Exc ε σ' Unit) Q E := h

/-- Both programs read their states. -/
theorem Sim.get {f : σ → Exc ε σ α} {f' : σ' → Exc ε σ' α'}
    (h : ∀ s s', R s s' → Sim (fun t t' => t = s ∧ t' = s') (f s) (f' s') Q E) :
    Sim R (Exc.get >>= f) (Exc.get >>= f') Q E := fun s s' hs => h s s' hs s s' ⟨rfl, rfl⟩

/-- Side by side runs from two given states. -/
theorem Sim.at {s : σ} {s' : σ'} (h : Sim R m m' Q E) (hs : R s s') :
    Sim (fun t t' => t = s ∧ t' = s') m m' Q E := by
  rintro _ _ ⟨rfl, rfl⟩
  exact h _ _ hs

theorem Sim.of_at (h : ∀ s s', R s s' → Sim (fun t t' => t = s ∧ t' = s') m m' Q E) :
    Sim R m m' Q E := fun s s' hs => h s s' hs s s' ⟨rfl, rfl⟩

/-- The first program takes a step alone. -/
theorem Sim.left {f : α → Exc ε σ β} {m' : Exc ε σ' β'} {Q : β → β' → σ → σ' → Prop} {s t : σ}
    {s' : σ'} {a : α} (hm : m.run s = (.ok a, t))
    (h : Sim (fun x y => x = t ∧ y = s') (f a) m' Q E) :
    Sim (fun x y => x = s ∧ y = s') (m >>= f) m' Q E := by
  rintro _ _ ⟨rfl, rfl⟩
  rw [run_bind_ok hm]
  exact h _ _ ⟨rfl, rfl⟩

/-- The second program takes a step alone. -/
theorem Sim.right {f' : α' → Exc ε σ' β'} {m : Exc ε σ β} {Q : β → β' → σ → σ' → Prop} {s : σ}
    {u w : σ'} {a : α'} (hm : m'.run u = (.ok a, w))
    (h : Sim (fun x y => x = s ∧ y = w) m (f' a) Q E) :
    Sim (fun x y => x = s ∧ y = u) m (m' >>= f') Q E := by
  rintro _ _ ⟨rfl, rfl⟩
  rw [run_bind_ok hm]
  exact h _ _ ⟨rfl, rfl⟩

theorem Sim.of_error {s t : σ} {u w : σ'} {e : ε} (hm : m.run s = (.error e, t))
    (hm' : m'.run u = (.error e, w)) (hE : E t w) :
    Sim (fun x y => x = s ∧ y = u) m m' Q E := by
  rintro _ _ ⟨rfl, rfl⟩
  rw [hm, hm']
  exact ⟨rfl, hE⟩

theorem Sim.of_ok {s t : σ} {u w : σ'} {a : α} {a' : α'} (hm : m.run s = (.ok a, t))
    (hm' : m'.run u = (.ok a', w)) (hQ : Q a a' t w) :
    Sim (fun x y => x = s ∧ y = u) m m' Q E := by
  rintro _ _ ⟨rfl, rfl⟩
  rw [hm, hm']
  exact hQ

theorem Sim.ite {c c' : Prop} [Decidable c] [Decidable c'] {n : Exc ε σ α} {n' : Exc ε σ' α'}
    (hc : ∀ s s', R s s' → (c ↔ c')) (ht : c → Sim R m m' Q E) (hf : ¬ c → Sim R n n' Q E) :
    Sim R (if c then m else n) (if c' then m' else n') Q E := by
  intro s s' hs
  by_cases h : c
  · rw [if_pos h, if_pos ((hc s s' hs).mp h)]; exact ht h s s' hs
  · rw [if_neg h, if_neg fun h' => h ((hc s s' hs).mpr h')]; exact hf h s s' hs

end Sim

/-! ## Programs that do not see the difference -/

/-- From states related by `R`, both programs return, with results that `g` does not tell apart, or both throw the
same, and they leave states related by `R`. -/
def Agree {γ : Type} (R : σ → σ → Prop) (g : α → γ) (m m' : Exc ε σ α) : Prop :=
  Sim R m m' (fun a a' s t => g a = g a' ∧ R s t) R

namespace Agree

variable {γ δ : Type} {R : σ → σ → Prop} {g : α → γ} {g' : β → δ} {m m' n n' : Exc ε σ α}

theorem pure {a a' : α} (h : g a = g a') : Agree R g (Pure.pure a : Exc ε σ α) (Pure.pure a') :=
  Sim.pure fun _ _ hst => ⟨h, hst⟩

theorem throw (e : ε) : Agree R g (Exc.throw e : Exc ε σ α) (Exc.throw e) := Sim.throw fun _ _ h => h

theorem lift (r : Except ε α) : Agree R g (Exc.lift r : Exc ε σ α) (Exc.lift r) :=
  Sim.lift (fun _ _ h => h) fun _ _ _ _ h => ⟨rfl, h⟩

theorem modify {f f' : σ → σ} (h : ∀ s t, R s t → R (f s) (f' t)) :
    Agree R id (Exc.modify f : Exc ε σ Unit) (Exc.modify f') := Sim.modify fun s t hst => ⟨rfl, h s t hst⟩

theorem bind {f f' : α → Exc ε σ β} (hm : Agree R g m m') (hf : ∀ a a', g a = g a' → Agree R g' (f a) (f' a')) :
    Agree R g' (m >>= f) (m' >>= f') :=
  Sim.bind hm fun a a' => Sim.of_at fun _ _ ⟨haa, hst⟩ => (hf a a' haa).at hst

theorem get {f f' : σ → Exc ε σ β} (h : ∀ s t, R s t → Agree R g' (f s) (f' t)) :
    Agree R g' (Exc.get >>= f) (Exc.get >>= f') := Sim.get fun s t hst => (h s t hst).at hst

theorem ite {c c' : Prop} [Decidable c] [Decidable c'] (hc : c ↔ c') (hm : c → Agree R g m m')
    (hn : ¬ c → Agree R g n n') : Agree R g (if c then m else n) (if c' then m' else n') :=
  Sim.ite (fun _ _ _ => hc) hm hn

/-- The two runs from related states. -/
theorem run {s t : σ} (h : Agree R g m m') (hst : R s t) :
    (m.run s).1.map g = (m'.run t).1.map g ∧ R (m.run s).2 (m'.run t).2 := by
  have hsim := h s t hst
  rcases hm : m.run s with ⟨e | a, s'⟩ <;> rcases hm' : m'.run t with ⟨e' | a', t'⟩ <;> rw [hm, hm'] at hsim
  · exact ⟨congrArg Except.error hsim.1, hsim.2⟩
  · exact hsim.elim
  · exact hsim.elim
  · exact ⟨congrArg Except.ok hsim.1, hsim.2⟩

end Agree

/-! ## Two kinds of errors -/

section

variable {ε' : Type}

/-- From `s` and `s'`, the two programs both return, with results and states related by `Q`, or both
throw, in states related by `E`. -/
def Both (m : Exc ε σ α) (m' : Exc ε' σ' α') (Q : α → α' → σ → σ' → Prop) (E : σ → σ' → Prop)
    (s : σ) (s' : σ') : Prop :=
  match m.run s, m'.run s' with
  | (.ok a, t), (.ok a', t') => Q a a' t t'
  | (.error _, t), (.error _, t') => E t t'
  | _, _ => False

namespace Both

variable {m : Exc ε σ α} {m' : Exc ε' σ' α'} {f : α → Exc ε σ β} {f' : α' → Exc ε' σ' β'}
  {Q R : α → α' → σ → σ' → Prop} {Q' : β → β' → σ → σ' → Prop} {E : σ → σ' → Prop} {s t : σ}
  {s' u : σ'} {a : α} {b : α'} {e : ε} {d : ε'}

theorem ok (hm : m.run s = (.ok a, t)) (hm' : m'.run s' = (.ok b, u)) (h : Q a b t u) :
    Both m m' Q E s s' := by
  rw [Both, hm, hm']
  exact h

theorem error (hm : m.run s = (.error e, t)) (hm' : m'.run s' = (.error d, u)) (h : E t u) :
    Both m m' Q E s s' := by
  rw [Both, hm, hm']
  exact h

theorem mono (h : Both m m' Q E s s') (hQ : ∀ a a' t t', Q a a' t t' → R a a' t t') :
    Both m m' R E s s' := by
  unfold Both at *
  rcases hm : m.run s with ⟨_ | a, t⟩ <;> rcases hm' : m'.run s' with ⟨_ | a', t'⟩ <;> rw [hm, hm'] at h
  · exact h
  · exact h
  · exact h
  · exact hQ a a' t t' h

/-- Both programs take a step that is known. -/
theorem step (hm : m.run s = (.ok a, t)) (hm' : m'.run s' = (.ok b, u))
    (h : Both (f a) (f' b) Q' E t u) : Both (m >>= f) (m' >>= f') Q' E s s' := by
  unfold Both at *
  rw [run_bind_ok hm, run_bind_ok hm']
  exact h

/-- The first program takes a step alone. -/
theorem left {n : Exc ε' σ' β'} (hm : m.run s = (.ok a, t)) (h : Both (f a) n Q' E t s') :
    Both (m >>= f) n Q' E s s' := by
  unfold Both at *
  rw [run_bind_ok hm]
  exact h

/-- The second program takes a step alone. -/
theorem right {n : Exc ε σ β} (hm' : m'.run s' = (.ok b, u)) (h : Both n (f' b) Q' E s u) :
    Both n (m' >>= f') Q' E s s' := by
  unfold Both at *
  rw [run_bind_ok hm']
  exact h

theorem bind (h : Both m m' Q E s s') (hf : ∀ a a' t t', Q a a' t t' → Both (f a) (f' a') Q' E t t') :
    Both (m >>= f) (m' >>= f') Q' E s s' := by
  unfold Both at h hf ⊢
  rw [run_bind, run_bind]
  rcases hm : m.run s with ⟨e | a, t⟩ <;> rcases hm' : m'.run s' with ⟨e' | a', t'⟩ <;>
    rw [hm, hm'] at h
  · exact h
  · exact h.elim
  · exact h.elim
  · exact hf a a' t t' h

end Both

/-- If the two programs both return, their results and states are related by `Q`. -/
def BothOk (m : Exc ε σ α) (m' : Exc ε' σ' α') (Q : α → α' → σ → σ' → Prop) (s : σ) (s' : σ') : Prop :=
  ∀ a b t u, m.run s = (.ok a, t) → m'.run s' = (.ok b, u) → Q a b t u

namespace BothOk

variable {m : Exc ε σ α} {m' : Exc ε' σ' α'} {f : α → Exc ε σ β} {f' : α' → Exc ε' σ' β'}
  {Q : α → α' → σ → σ' → Prop} {Q' : β → β' → σ → σ' → Prop} {E : σ → σ' → Prop} {s t : σ}
  {s' u : σ'} {a : α} {b : α'} {d : ε'}

theorem of_both (h : Both m m' Q E s s') : BothOk m m' Q s s' := by
  intro a b t u hm hm'
  rw [Both, hm, hm'] at h
  exact h

/-- The second program throws. -/
theorem error (hm' : m'.run s' = (.error d, u)) : BothOk m m' Q s s' := by
  intro a b t u' _ h
  rw [hm'] at h
  cases h

/-- The first program takes a step that is known, alone. -/
theorem left {n : Exc ε' σ' β'} (hm : m.run s = (.ok a, t)) (h : BothOk (f a) n Q' t s') :
    BothOk (m >>= f) n Q' s s' := by
  intro c d t' u hf hn
  rw [run_bind_ok hm] at hf
  exact h c d t' u hf hn

/-- The second program takes a step that is known, alone. -/
theorem right {n : Exc ε σ β} (hm' : m'.run s' = (.ok b, u)) (h : BothOk n (f' b) Q' s u) :
    BothOk n (m' >>= f') Q' s s' := by
  intro c d t u' hn hf
  rw [run_bind_ok hm'] at hf
  exact h c d t u' hn hf

end BothOk

end

/-! ## Up to bad ends -/

/-- From `s` and `s'`, the two programs both return, with results and states related by `Q`, or both
throw the same, in states related by `E`; unless the first one ends in a bad state. -/
def SimUnless (bad : σ → Prop) (m : Exc ε σ α) (m' : Exc ε σ' α') (Q : α → α' → σ → σ' → Prop)
    (E : σ → σ' → Prop) (s : σ) (s' : σ') : Prop :=
  ¬ bad (m.run s).2 →
    match m.run s, m'.run s' with
    | (.ok a, t), (.ok a', t') => Q a a' t t'
    | (.error e, t), (.error e', t') => e = e' ∧ E t t'
    | _, _ => False

namespace SimUnless

variable {bad : σ → Prop} {m : Exc ε σ α} {m' : Exc ε σ' α'} {f : α → Exc ε σ β}
  {f' : α' → Exc ε σ' β'} {Q : α → α' → σ → σ' → Prop} {Q' : β → β' → σ → σ' → Prop}
  {E : σ → σ' → Prop} {s t : σ} {s' t' : σ'} {a : α} {a' : α'} {e : ε}

theorem ok (hm : m.run s = (.ok a, t)) (hm' : m'.run s' = (.ok a', t')) (h : ¬ bad t → Q a a' t t') :
    SimUnless bad m m' Q E s s' := by
  intro hb
  rw [hm] at hb
  rw [hm, hm']
  exact h hb

theorem error (hm : m.run s = (.error e, t)) (hm' : m'.run s' = (.error e, t')) (h : E t t') :
    SimUnless bad m m' Q E s s' := by
  intro _
  rw [hm, hm']
  exact ⟨rfl, h⟩

/-- Both programs take a step that is known. -/
theorem step (hm : m.run s = (.ok a, t)) (hm' : m'.run s' = (.ok a', t'))
    (h : SimUnless bad (f a) (f' a') Q' E t t') : SimUnless bad (m >>= f) (m' >>= f') Q' E s s' := by
  unfold SimUnless
  rw [run_bind_ok hm, run_bind_ok hm']
  exact h

/-- What follows keeps a bad state bad. -/
theorem bind (h : SimUnless bad m m' Q E s s') (hk : ∀ a, Keeps bad (f a))
    (hf : ∀ a a' t t', Q a a' t t' → SimUnless bad (f a) (f' a') Q' E t t') :
    SimUnless bad (m >>= f) (m' >>= f') Q' E s s' := by
  intro hb
  unfold SimUnless at h hf
  rw [run_bind] at hb ⊢
  rw [run_bind]
  rcases hm : m.run s with ⟨e | a, t⟩ <;> rcases hm' : m'.run s' with ⟨e' | a', t'⟩ <;>
    rw [hm, hm'] at h <;> rw [hm] at hb <;> simp only at h hb ⊢
  · exact h hb
  · exact (h hb).elim
  · exact (h fun ht => hb (hk a t ht)).elim
  · exact hf a a' t t' (h fun ht => hb (hk a t ht)) hb

end SimUnless

/-! ## Programs with a record -/

section

variable {γ δ : Type}

/-- `m` does what `m'` does, and its result comes from that of `m'`. -/
def Records (m : Exc ε σ β) (m' : Exc ε σ α) (f : α → β) : Prop :=
  ∀ s, m.run s = (m' >>= fun a => Pure.pure (f a)).run s

namespace Records

variable {m : Exc ε σ β} {m' : Exc ε σ α} {f : α → β} {k : β → Exc ε σ δ} {k' : α → Exc ε σ γ} {g : γ → δ}

theorem pure {a : α} {b : β} (h : b = f a) : Records (Pure.pure b : Exc ε σ β) (Pure.pure a) f :=
  fun s => by rw [h]; rfl

theorem throw (e : ε) : Records (Exc.throw e : Exc ε σ β) (Exc.throw e : Exc ε σ α) f := fun _ => rfl

theorem bind (h : Records m m' f) (hk : ∀ a, Records (k (f a)) (k' a) g) : Records (m >>= k) (m' >>= k') g := by
  intro s
  rw [run_bind_assoc, run_bind, run_bind, h s, run_bind]
  rcases m'.run s with ⟨e | a, s'⟩
  · rfl
  · exact hk a s'

/-- Both begin with the same program. -/
theorem same {n : Exc ε σ β} {k : β → Exc ε σ δ} {k' : β → Exc ε σ γ} (hk : ∀ b, Records (k b) (k' b) g) :
    Records (n >>= k) (n >>= k') g := by
  intro s
  rw [run_bind_assoc, run_bind, run_bind]
  rcases n.run s with ⟨e | b, s'⟩
  · rfl
  · exact hk b s'

theorem ite {c : Prop} [Decidable c] {n : Exc ε σ β} {n' : Exc ε σ α} (h : Records m m' f) (h' : Records n n' f) :
    Records (if c then m else n) (if c then m' else n') f := by
  split
  · exact h
  · exact h'

/-- Two programs side by side, from their records. -/
theorem sim {σ' α' β' : Type} {R : σ → σ' → Prop} {E : σ → σ' → Prop} {n : Exc ε σ' β'} {n' : Exc ε σ' α'}
    {f' : α' → β'} {Q : α → α' → σ → σ' → Prop} {Q' : β → β' → σ → σ' → Prop} (h : Records m m' f)
    (h' : Records n n' f') (hsim : Sim R m' n' Q E) (hQ : ∀ a a' t t', Q a a' t t' → Q' (f a) (f' a') t t') :
    Sim R m n Q' E := by
  intro s s' hs
  rw [h s, h' s']
  exact (hsim.bind fun a a' => Sim.pure fun t t' ht => hQ a a' t t' ht) s s' hs

/-- A run that returned. -/
theorem of_ok (h : Records m m' f) {s s' : σ} {b : β} (hm : m.run s = (.ok b, s')) :
    ∃ a, m'.run s = (.ok a, s') ∧ b = f a := by
  rw [h s] at hm
  obtain ⟨a, s₁, ha, hb⟩ := bind_ok hm
  cases hb
  exact ⟨a, ha, rfl⟩

end Records

end

end Exc

end Lob
