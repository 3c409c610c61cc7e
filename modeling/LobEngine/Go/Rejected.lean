import LobEngine.Go.Atomic
import LobEngine.Go.Command
import LobEngine.Go.Steps
import LobEngine.Lib.Registry

/-!
# Rejected commands

A command that errs before it begins to match leaves every book as it is. Once it began to match, it errs only
in the cascade, so it has traded: the resting order that it traded with first is not what it was
(`call_error_iff`).

* `Lost`: an order has less than it had, and no pending stop order can bring it back.
* `Registry.Held`: the registry holds reachable books, as it does after any commands.
* `Registry.rejected_iff`: the same about the command and all books of a registry.
-/

namespace Lob.Go

open Exc

/-- What is left of the order `x` is less than `x` had, and no pending stop order has its id. -/
structure Lost (x : Order) (v : View) : Prop where
  worn : v.toDepth.Worn x
  stops : v.stops.get? x.orderId = none
  keyed : ∀ k s, v.stops.get? k = some s → s.orderId = k

section

variable {b : Book} {v w : View} {x : Order} {e : GoError}

theorem lost_fires : Fires (Lost x) fun _ => True where
  keyed h := h.keyed
  clock h := ⟨h.worn, h.stops, h.keyed⟩
  last h _ := by
    refine ⟨h.worn, ?_, fun k s hs => ?_⟩
    · rw [OMap.get?_mapValues, h.stops]
      rfl
    · rw [OMap.get?_mapValues, Option.map_eq_some_iff] at hs
      obtain ⟨t, ht, rfl⟩ := hs
      obtain ⟨_, _, _, he⟩ := trail_eq _ t
      rw [he]
      exact h.keyed k t ht
  delete h _ := ⟨h.worn, OMap.get?_delete_none h.stops _, fun _ _ hs => h.keyed _ _ (OMap.get?_of_delete hs).2⟩
  fire {v s o ms} h hs ho := by
    refine ⟨⟨h.worn.execute fun e => ?_, OMap.get?_delete_none h.stops _,
      fun _ _ hs => h.keyed _ _ (OMap.get?_of_delete hs).2⟩, fun _ _ => trivial⟩
    rw [(newOrder_ok.mp ho).orderId.1] at e
    have hnone := h.stops
    rw [← e] at hnone
    exact absurd (hs.symm.trans hnone) (by simp)

/-- A call that errs after it began to match has taken from an order that rested. -/
theorem program_lost (h : Good b v) {c : Call} (hc : v.begins c) (he : (Spec.program c).run v = (.error e, w)) :
    ∃ x ∈ v.orders, Lost x w := by
  obtain ⟨o, f, hid, -, hrun, hf⟩ := program_begun hc
  obtain ⟨⟨F, hr⟩, hok⟩ := h
  rw [hrun] at he
  have hts : (v.execute o).1 ≠ [] := by
    intro hts
    obtain ⟨x, hx⟩ := hf .empty (v.executed o)
    rw [hts, run_bind_ok (show (Spec.cascade maxCycles []).run (v.executed o) = (.ok .empty, v.executed o)
      from rfl)] at he
    rw [he] at hx
    cases hx
  obtain ⟨x, hx, hworn⟩ := Depth.execute_worn hr.ids (fun h => hid (.inl h)) hts
  refine ⟨x, hx, ?_⟩
  have hlost : Lost x (v.executed o) :=
    ⟨hworn, hok.separate x.orderId (List.mem_map_of_mem hx), hok.keyed⟩
  exact (lost_fires.cascade _ _ fun _ _ => trivial).of_run hlost (bind_error he hf)

/-! ## What a recovery snapshot shows -/

/-- The levels of a side say which orders are on it. -/
theorem flatMap_recoveryLevels {s : Side} {L : List Order}
    (hL : L.Pairwise fun x y => s.rank x.price ≤ s.rank y.price) :
    (View.levels View.recoveryLevel L).flatMap (·.orders) = L := by
  unfold View.levels
  rw [List.flatMap_map]
  exact flatMap_filter_dedup s.rank_injective hL

/-- Books with one recovery snapshot have the same resting orders. -/
theorem orders_eq {b' : Book} (h : Good b v) (h' : Good b' w) {id : Option String}
    (hs : b.recoverySnapshot id = b'.recoverySnapshot id) : v.orders = w.orders := by
  obtain ⟨⟨F, hr⟩, -⟩ := h
  obtain ⟨⟨F', hr'⟩, -⟩ := h'
  rw [hr.recoverySnapshot_eq, hr'.recoverySnapshot_eq] at hs
  have hbids := congrArg (fun r : RecoverySnapshot => r.bids.flatMap (·.orders)) hs
  have hasks := congrArg (fun r : RecoverySnapshot => r.asks.flatMap (·.orders)) hs
  unfold Depth.orders
  rw [show v.bids = w.bids from (flatMap_recoveryLevels (hr.sorted .buy)).symm.trans
      (hbids.trans (flatMap_recoveryLevels (hr'.sorted .buy))),
    show v.asks = w.asks from (flatMap_recoveryLevels (hr.sorted .sell)).symm.trans
      (hasks.trans (flatMap_recoveryLevels (hr'.sorted .sell)))]

/-- A call that errs leaves the book as it is, exactly if it does not begin to match. -/
theorem call_error_iff (h : Good b v) {c : Call} (he : (call b c).1 = .error e) (key : Option String) :
    (call b c).2.recoverySnapshot key = b.recoverySnapshot key ↔ b.begins c = false := by
  constructor
  · intro hs
    rw [Bool.eq_false_iff]
    intro hc
    obtain ⟨hout, hgood⟩ := call_refines c h
    rcases hrun : (Spec.program c).run v with ⟨r, w⟩
    rw [he, hrun] at hout
    obtain rfl : Except.error e = r := hout
    obtain ⟨x, hx, hlost⟩ := program_lost h ((h.begins c).mp hc) hrun
    rw [hrun] at hgood
    exact hlost.worn.not_mem (orders_eq hgood h hs ▸ hx)
  · intro hc
    obtain ⟨⟨F, hr⟩, -⟩ := id h
    obtain ⟨⟨F', hr'⟩, -⟩ := h.error he hc
    rw [hr.recoverySnapshot_eq, hr'.recoverySnapshot_eq]

end

/-! ## Registries -/

namespace Registry

/-- The registry holds reachable books. -/
def Held (r : Registry) : Prop := ∀ symbol b, r symbol = some b → Reachable b

/-- The book of a symbol, a new one if there is none. -/
def bookOf (r : Registry) (now : Clock) : String → Book := lookup (Book.empty · now) r

/-- What the books of the registry hold. -/
def content (r : Registry) (now : Clock) (symbol : String) : RecoverySnapshot :=
  (r.bookOf now symbol).recoverySnapshot none

/-- The command begins to match in the book of its symbol. -/
def begins (r : Registry) (now : Clock) (c : Command) : Bool :=
  match r.getOrCreate c.symbol now with
  | .error _ => false
  | .ok (b, _) => c.call.toOption.any b.begins

variable {r : Registry} {now : Clock} {c : Command} {e : CommandError}

/-- The book of a command is held, or new. -/
theorem getOrCreate_cases (r : Registry) (symbol : String) (now : Clock) :
    (∃ e, r.getOrCreate symbol now = .error e) ∨
      (∃ b, r symbol = some b ∧ r.getOrCreate symbol now = .ok (b, r)) ∨
      r symbol = none ∧ isBlank symbol = false ∧
        r.getOrCreate symbol now = .ok (Book.empty symbol now, r.put symbol (Book.empty symbol now)) := by
  unfold getOrCreate
  cases hb : r symbol with
  | some b => exact .inr (.inl ⟨b, rfl, rfl⟩)
  | none =>
    by_cases hs : isBlank symbol = true
    · exact .inl ⟨_, if_pos hs⟩
    · exact .inr (.inr ⟨rfl, by simpa using hs, if_neg hs⟩)

theorem Held.empty : Registry.empty.Held := fun _ _ h => by cases h

/-- A command keeps the books reachable. -/
theorem Held.execute (h : r.Held) (now : Clock) (c : Command) : (r.execute now c).2.Held := by
  have hput : ∀ {r : Registry} {b : Book}, r.Held → Reachable b → (r.put c.symbol b).Held := by
    intro r b hr hb symbol b' hb'
    rcases eq_or_ne symbol c.symbol with rfl | hne
    · rw [put_self] at hb'
      cases hb'
      exact hb
    · rw [put_ne r b hne] at hb'
      exact hr symbol b' hb'
  have hexecute : ∀ {b : Book}, Reachable b → Reachable (b.execute c).2 := by
    intro b hb
    unfold Book.execute
    split
    · exact hb
    · obtain ⟨symbol, es, hrun⟩ := hb
      exact ⟨_, _, hrun.call _⟩
  unfold Registry.execute
  rcases r.getOrCreate_cases c.symbol now with ⟨e, he⟩ | ⟨b, hb, he⟩ | ⟨hb, hs, he⟩
  · rw [he]
    exact h
  · rw [he]
    exact hput h (hexecute (h _ b hb))
  · rw [he]
    have hempty : Reachable (Book.empty c.symbol now) := ⟨_, _, .empty now hs⟩
    exact hput (hput h hempty) (hexecute hempty)

/-- The command errs in the book `b` of its symbol. -/
theorem content_iff {r' : Registry} {b : Book} (hb : r.bookOf now c.symbol = b)
    (hr' : ∀ symbol, symbol ≠ c.symbol → r' symbol = r symbol) (hreach : Reachable b)
    (he : ((b.execute c).1.map fun result => ((b.execute c).2, result)) = .error e) :
    (∀ symbol, (r'.put c.symbol (b.execute c).2).content now symbol = r.content now symbol) ↔
      c.call.toOption.any b.begins = false := by
  have hbook : (b.execute c).2.recoverySnapshot none = b.recoverySnapshot none ↔
      c.call.toOption.any b.begins = false := by
    unfold Book.execute at he ⊢
    cases hc : c.call with
    | error e => exact ⟨fun _ => rfl, fun _ => rfl⟩
    | ok call =>
      rw [hc] at he
      dsimp only at he ⊢
      obtain ⟨v, hv⟩ := hreach.good
      cases hcall : (Go.call b call).1 with
      | error e => exact call_error_iff hv hcall none
      | ok x =>
        rw [hcall] at he
        cases he
  subst hb
  exact (lookup_update_iff (Book.recoverySnapshot · none) hr').trans hbook

/-- A rejected command leaves every book as it is, exactly if it does not begin to match. -/
theorem rejected_iff (h : r.Held) (he : (r.execute now c).1 = .error e) :
    (∀ symbol, (r.execute now c).2.content now symbol = r.content now symbol) ↔ r.begins now c = false := by
  unfold Registry.execute at he ⊢
  unfold begins
  rcases r.getOrCreate_cases c.symbol now with ⟨e', hget⟩ | ⟨b, hb, hget⟩ | ⟨hb, hs, hget⟩
  · rw [hget]
    exact ⟨fun _ => rfl, fun _ _ => rfl⟩
  · rw [hget] at he ⊢
    exact content_iff (lookup_of_some hb) (fun _ _ => rfl) (h _ b hb) he
  · rw [hget] at he ⊢
    exact content_iff (lookup_of_none hb) (fun _ hne => put_ne _ _ hne) ⟨_, _, .empty now hs⟩ he

end Registry

end Lob.Go
