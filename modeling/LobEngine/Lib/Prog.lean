import Mathlib.Logic.Relation

/-!
# Programs that call their environment

`Prog C R α` computes an `α` and may call its environment on the way: the call `c` is answered by an
`R c`. What a call does to the state of the environment is a relation `act`; between two calls others
may change the state.

* `Run`: the program runs to its end, and nobody else changes the state.
* `Ensures`: as long as the others keep to `rely`, each call keeps to `guar` and the result satisfies a
  postcondition (`Ensures.bind`, `Ensures.stable`, `Ensures.call`).
* `Steps`: the first calls of the program.
* `Only`: all calls of the program are of a kind.
* `Guarded`: alone, the program meets a precondition of each call, and its result a postcondition.
* `AtMost`: as long as the answers are possible, the program makes at most so many calls of a kind.
-/

namespace Lob

inductive Prog (C : Type) (R : C → Type) (α : Type) where
  | ret (a : α)
  | call (c : C) (k : R c → Prog C R α)

namespace Prog

variable {C : Type} {R : C → Type} {α β : Type}

def bind : Prog C R α → (α → Prog C R β) → Prog C R β
  | .ret a, f => f a
  | .call c k, f => .call c fun r => (k r).bind f

instance : Monad (Prog C R) where
  pure := .ret
  bind := bind

/-- Make a call. -/
def perform (c : C) : Prog C R (R c) := .call c .ret

@[simp] theorem pure_bind (a : α) (f : α → Prog C R β) : (pure a : Prog C R α) >>= f = f a := rfl

@[simp] theorem perform_bind (c : C) (f : R c → Prog C R β) : perform c >>= f = .call c f := rfl

variable {S : Type} (act : (c : C) → S → R c → S → Prop)

/-- From the state `s` the program returns `a` and leaves the state `s'`. -/
inductive Run : Prog C R α → S → α → S → Prop
  | ret (a : α) (s : S) : Run (.ret a) s a s
  | call {c : C} {k : R c → Prog C R α} {s t s' : S} {r : R c} {a : α} (first : act c s r t)
    (rest : Run (k r) t a s') : Run (.call c k) s a s'

/-- From the state `s`, with others that keep to `rely`, the calls of the program keep to `guar`, and
its result satisfies `Q`. -/
def Ensures (rely guar : S → S → Prop) (Q : α → S → Prop) : Prog C R α → S → Prop
  | .ret a, s => Q a s
  | .call c k, s => ∀ t, rely s t → ∀ r t', act c t r t' → guar t t' ∧ Ensures rely guar Q (k r) t'

variable {act} {rely guar : S → S → Prop} {Q : α → S → Prop}

namespace Ensures

theorem mono {p : Prog C R α} {s : S} {Q' : α → S → Prop} (h : Ensures act rely guar Q p s)
    (hQ : ∀ a t, Q a t → Q' a t) : Ensures act rely guar Q' p s := by
  induction p generalizing s with
  | ret a => exact hQ a s h
  | call c k ih => exact fun t ht r t' ha => ⟨(h t ht r t' ha).1, ih r (h t ht r t' ha).2⟩

theorem bind {p : Prog C R α} {f : α → Prog C R β} {s : S} {Q' : β → S → Prop}
    (h : Ensures act rely guar Q p s) (hf : ∀ a t, Q a t → Ensures act rely guar Q' (f a) t) :
    Ensures act rely guar Q' (p >>= f) s := by
  induction p generalizing s with
  | ret a => exact hf a s h
  | call c k ih => exact fun t ht r t' ha => ⟨(h t ht r t' ha).1, ih r (h t ht r t' ha).2⟩

/-- What the others do does not matter. -/
theorem stable {p : Prog C R α} {s t : S} (h : Ensures act rely guar Q p s)
    (htrans : ∀ s t u, rely s t → rely t u → rely s u) (hQ : ∀ a s t, Q a s → rely s t → Q a t)
    (hst : rely s t) : Ensures act rely guar Q p t := by
  cases p with
  | ret a => exact hQ a s t h hst
  | call c k => exact fun u hu => h u (htrans s t u hst hu)

/-- One call. -/
theorem next {c : C} {k : R c → Prog C R α} {s t : S} {r : R c}
    (h : Ensures act rely guar Q (.call c k) s) (hrefl : rely s s) (ha : act c s r t) :
    guar s t ∧ Ensures act rely guar Q (k r) t := h s hrefl r t ha

end Ensures

theorem Run.bind {p : Prog C R α} {f : α → Prog C R β} {s t u : S} {a : α} {b : β} (h : Run act p s a t)
    (hf : Run act (f a) t b u) : Run act (p >>= f) s b u := by
  induction h with
  | ret a s => exact hf
  | call first rest ih => exact .call first (ih hf)

/-- After some calls, the rest of the program is `p'`. -/
inductive Steps (act : (c : C) → S → R c → S → Prop) : Prog C R α → S → Prog C R α → S → Prop
  | refl (p : Prog C R α) (s : S) : Steps act p s p s
  | call {c : C} {k : R c → Prog C R α} {p' : Prog C R α} {s t s' : S} {r : R c} (first : act c s r t)
    (rest : Steps act (k r) t p' s') : Steps act (.call c k) s p' s'

namespace Steps

variable {p p' : Prog C R α} {f : α → Prog C R β} {s t u : S} {a : α}

theorem bind (h : Steps act p s p' t) : Steps act (p >>= f) s (p' >>= f) t := by
  induction h with
  | refl p s => exact .refl _ s
  | call first rest ih => exact .call first ih

theorem trans {p'' : Prog C R α} (h : Steps act p s p' t) (h' : Steps act p' t p'' u) : Steps act p s p'' u := by
  induction h with
  | refl p s => exact h'
  | call first rest ih => exact .call first (ih h')

/-- All calls of the first part, then some of the rest. -/
theorem after {q : Prog C R β} (h : Run act p s a t) (hf : Steps act (f a) t q u) : Steps act (p >>= f) s q u := by
  induction h with
  | ret a s => exact hf
  | call first rest ih => exact .call first (ih hf)

end Steps

theorem Run.steps {p : Prog C R α} {s t : S} {a : α} (h : Run act p s a t) : Steps act p s (.ret a) t := by
  induction h with
  | ret a s => exact .refl _ s
  | call first rest ih => exact .call first ih

/-- All calls have been made. -/
theorem Steps.run {p : Prog C R α} {s t : S} {a : α} (h : Steps act p s (.ret a) t) : Run act p s a t := by
  generalize hq : (Prog.ret a : Prog C R α) = q at h
  induction h with
  | refl p s =>
    subst hq
    exact .ret a s
  | call first rest ih => exact .call first (ih hq)

/-- The program makes only such calls. -/
def Only (A : C → Prop) : Prog C R α → Prop
  | .ret _ => True
  | .call c k => A c ∧ ∀ r, Only A (k r)

namespace Only

variable {A B : C → Prop} {p : Prog C R α} {f : α → Prog C R β}

theorem pure (a : α) : Only A (Pure.pure a : Prog C R α) := trivial

theorem bind (h : Only A p) (hf : ∀ a, Only A (f a)) : Only A (p >>= f) := by
  induction p with
  | ret a => exact hf a
  | call c k ih => exact ⟨h.1, fun r => ih r (h.2 r)⟩

theorem mono (h : Only A p) (hAB : ∀ c, A c → B c) : Only B p := by
  induction p with
  | ret a => trivial
  | call c k ih => exact ⟨hAB c h.1, fun r => ih r (h.2 r)⟩

/-- A run of such calls, for another meaning of them. -/
theorem run {act' : (c : C) → S → R c → S → Prop} {s t : S} {a : α} (h : Only A p) (hrun : Run act p s a t)
    (hact : ∀ c s r t, A c → act c s r t → act' c s r t) : Run act' p s a t := by
  induction hrun with
  | ret a s => exact .ret a s
  | call first rest ih => exact .call (hact _ _ _ _ h.1 first) (ih (h.2 _))

end Only

/-- From the state `s`, with nobody else, `A` holds before every call, and `Q` of the result. -/
def Guarded (act : (c : C) → S → R c → S → Prop) (A : C → S → Prop) (Q : α → S → Prop) : Prog C R α → S → Prop
  | .ret a, s => Q a s
  | .call c k, s => A c s ∧ ∀ r t, act c s r t → Guarded act A Q (k r) t

namespace Guarded

variable {A : C → S → Prop} {Q' : α → S → Prop} {p : Prog C R α} {f : α → Prog C R β} {s t : S}

theorem mono (h : Guarded act A Q p s) (hQ : ∀ a t, Q a t → Q' a t) : Guarded act A Q' p s := by
  induction p generalizing s with
  | ret a => exact hQ a s h
  | call c k ih => exact ⟨h.1, fun r t ha => ih r (h.2 r t ha)⟩

theorem bind {Q' : β → S → Prop} (h : Guarded act A Q p s) (hf : ∀ a t, Q a t → Guarded act A Q' (f a) t) :
    Guarded act A Q' (p >>= f) s := by
  induction p generalizing s with
  | ret a => exact hf a s h
  | call c k ih => exact ⟨h.1, fun r t ha => ih r (h.2 r t ha)⟩

/-- What calls of a kind preserve. -/
theorem only {B : C → Prop} {J : S → Prop} (h : Only B p) (hA : ∀ c s, B c → J s → A c s)
    (hJ : ∀ c s r t, B c → act c s r t → J s → J t) (hs : J s) : Guarded act A (fun _ => J) p s := by
  induction p generalizing s with
  | ret a => exact hs
  | call c k ih => exact ⟨hA c s h.1 hs, fun r t ha => ih r (h.2 r) (hJ c s r t h.1 ha hs)⟩

end Guarded

/-- A run of a guarded program. -/
theorem Run.guarded {A : C → S → Prop} {p : Prog C R α} {s t : S} {a : α} (h : Run act p s a t)
    (hg : Guarded act A Q p s) : Q a t := by
  induction h with
  | ret a s => exact hg
  | call first rest ih => exact ih (hg.2 _ _ first)

/-- As long as the answers are possible, the program makes at most `n` calls of the kind, and its result satisfies
`Q`. -/
def AtMost (possible : (c : C) → R c → Prop) (kind : C → Bool) (Q : α → Prop) : Nat → Prog C R α → Prop
  | _, .ret a => Q a
  | n, .call c k => (kind c).toNat ≤ n ∧ ∀ r, possible c r → AtMost possible kind Q (n - (kind c).toNat) (k r)

namespace AtMost

variable {possible possible' : (c : C) → R c → Prop} {kind : C → Bool} {Q Q' : α → Prop} {p : Prog C R α}
  {f : α → Prog C R β} {m n : Nat}

theorem pure {a : α} (h : Q a) : AtMost possible kind Q n (Pure.pure a : Prog C R α) := h

theorem mono (h : AtMost possible kind Q m p) (hn : m ≤ n) (hpos : ∀ c r, possible' c r → possible c r)
    (hQ : ∀ a, Q a → Q' a) : AtMost possible' kind Q' n p := by
  induction p generalizing m n with
  | ret a => exact hQ a h
  | call c k ih =>
    exact ⟨Nat.le_trans h.1 hn, fun r hr => ih r (h.2 r (hpos c r hr)) (Nat.sub_le_sub_right hn _)⟩

theorem le (h : AtMost possible kind Q m p) (hn : m ≤ n) : AtMost possible kind Q n p :=
  h.mono hn (fun _ _ h => h) fun _ h => h

theorem bind {Q' : β → Prop} (h : AtMost possible kind Q m p) (hf : ∀ a, Q a → AtMost possible kind Q' n (f a)) :
    AtMost possible kind Q' (m + n) (p >>= f) := by
  induction p generalizing m with
  | ret a => exact (hf a h).le (Nat.le_add_left n m)
  | call c k ih =>
    refine ⟨Nat.le_trans h.1 (Nat.le_add_right m n), fun r hr => ?_⟩
    rw [Nat.sub_add_comm h.1]
    exact ih r (h.2 r hr)

/-- One call. -/
theorem perform (c : C) : AtMost possible kind (fun _ => True) (kind c).toNat (Prog.call c .ret) :=
  ⟨Nat.le_refl _, fun _ _ => trivial⟩

/-- Calls of other kinds. -/
theorem only {A : C → Prop} (h : Only A p) (hA : ∀ c, A c → kind c = false) :
    AtMost possible kind (fun _ => True) 0 p := by
  induction p with
  | ret a => trivial
  | call c k ih =>
    have hc := hA c h.1
    refine ⟨by rw [hc]; exact Nat.le_refl _, fun r _ => ?_⟩
    rw [hc]
    exact ih r (h.2 r)

end AtMost

end Prog

end Lob
