import LobEngine.Go.Recovery
import LobEngine.Lib.Local
import LobEngine.Partition

/-!
# Recovery of a partition

`RecoverPartition` of `storage/redis.go` recovers the listed symbols of a partition, and skips the others.

* `recoverSymbol_local`: the recovery of a symbol changes no other book, and reads none.
* `recoverPartition_isolated`: what is stored of the symbols of other partitions does not matter, if every listed
  symbol has a partition.
* `recoverPartition_blank`: a listed symbol without a partition stops the recovery.
-/

namespace Lob.Go

open Exc

/-- The loop over the symbols. -/
def recoverSymbols (now : Clock) (S : Store Content) (p n : Int) :
    List String → RegistryProgram (List RecoveryResult)
  | [] => return []
  | symbol :: symbols => do
    let id ← lift ((partitionID symbol n).mapError .partition)
    if id ≠ p then recoverSymbols now S p n symbols else do
    let result ← recoverSymbol now (S.content symbol) symbol
    let results ← recoverSymbols now S p n symbols
    return result :: results

def recoverPartition (now : Clock) (S : Store Content) (p n : Int) : RegistryProgram (List RecoveryResult) :=
  recoverSymbols now S p n S.symbols

/-- The commands of the stream are commands of the symbol. -/
def Content.Own (symbol : String) (c : Content) : Prop :=
  ∀ e ∈ c.commands, ∀ d : Command, e.value = some d → d.symbol = symbol

/-- The books of a registry, by their symbols. -/
def Registry.books (r : Registry) : String → Option Book := r

section

variable {now : Clock} {c : Content} {symbol : String} {r : Registry}

theorem getOrCreate_local (r : Registry) (symbol : String) (now : Clock) :
    (∃ e, ∀ s : Registry, s symbol = r symbol → s.getOrCreate symbol now = .error e) ∨
      ∃ b, ∀ s : Registry, s symbol = r symbol → ∃ s', s.getOrCreate symbol now = .ok (b, s') ∧
        ∀ k, k ≠ symbol → s' k = s k := by
  unfold Registry.getOrCreate
  cases hr : r symbol with
  | some b => exact .inr ⟨b, fun s hs => ⟨s, by rw [hs], fun _ _ => rfl⟩⟩
  | none =>
    by_cases hblank : isBlank symbol = true
    · exact .inl ⟨_, fun s hs => by rw [hs]; exact if_pos hblank⟩
    · exact .inr ⟨Book.empty symbol now, fun s hs => ⟨s.put symbol (Book.empty symbol now), by
        rw [hs]; exact if_neg hblank, fun k hk => s.put_ne _ hk⟩⟩

theorem executeEntry_local {d : Command} (hd : d.symbol = symbol) :
    Local Registry.books symbol (executeEntry now d) := by
  subst hd
  have hrun : ∀ s : Registry, (executeEntry now d).run s =
      (((s.execute now d).1.mapError .command).map fun _ => (), (s.execute now d).2) := fun _ => rfl
  refine ⟨fun s k hk => ?_, fun s t hst => ?_⟩
  · rw [hrun]
    unfold Registry.execute
    rcases getOrCreate_local s d.symbol now with ⟨e, he⟩ | ⟨b, hb⟩
    · rw [he s rfl]
    · obtain ⟨s', hs', hframe⟩ := hb s rfl
      rw [hs']
      exact (s'.put_ne _ hk).trans (hframe k hk)
  · rw [hrun, hrun]
    unfold Registry.execute
    rcases getOrCreate_local t d.symbol now with ⟨e, he⟩ | ⟨b, hb⟩
    · rw [he s hst, he t rfl]
      exact ⟨rfl, hst⟩
    · obtain ⟨s', hs', -⟩ := hb s hst
      obtain ⟨t', ht', -⟩ := hb t rfl
      rw [hs', ht']
      exact ⟨rfl, (s'.put_self ..).trans (t'.put_self ..).symm⟩

theorem replayEntries_local {es : Stream Command} (h : ∀ e ∈ es, e.value.symbol = symbol) (lastID : String) :
    Local Registry.books symbol (replayEntries now es lastID) := by
  induction es generalizing lastID with
  | nil => exact .pure _
  | cons e es ih =>
    exact (executeEntry_local (h e List.mem_cons_self)).bind fun _ =>
      ih (fun x hx => h x (List.mem_cons_of_mem _ hx)) e.id

theorem restoreBook_local (s : RecoverySnapshot) : Local Registry.books symbol (restoreBook now symbol s) := by
  have hfails : ∀ {e}, (∀ r : Registry, (restoreBook now symbol s).run r = (.error e, r)) →
      Local Registry.books symbol (restoreBook now symbol s) := fun h =>
    ⟨fun r k _ => by rw [h], fun r t hrt => by rw [h, h]; exact ⟨rfl, hrt⟩⟩
  cases hb : fromRecoverySnapshot s now with
  | error e =>
    refine hfails (e := .command (.engine e)) fun r => ?_
    show restoreBook now symbol s r = _
    rw [restoreBook, hb]
  | ok b =>
    by_cases hs : b.symbol = symbol
    · have hrun : ∀ r : Registry, (restoreBook now symbol s).run r = (.ok (), r.put symbol b) := by
        intro r
        show restoreBook now symbol s r = _
        rw [restoreBook, hb]
        dsimp only
        rw [Registry.set, if_neg (not_not.mpr hs)]
      exact ⟨fun r k hk => by rw [hrun]; exact r.put_ne b hk,
        fun r t _ => by rw [hrun, hrun]; exact ⟨rfl, (r.put_self ..).trans (t.put_self ..).symm⟩⟩
    · refine hfails (e := .command (.engine (.error ("book symbol mismatch: " ++ symbol)))) fun r => ?_
      show restoreBook now symbol s r = _
      rw [restoreBook, hb]
      dsimp only
      rw [Registry.set, if_pos hs]

theorem readCommands_own (h : c.Own symbol) {start : Option String} {count : Nat} {es : Stream Command}
    (hes : c.readCommands start count = .ok es) : ∀ e ∈ es, e.value.symbol = symbol := by
  unfold Content.readCommands at hes
  cases hr : c.commands.range start count with
  | none =>
    rw [hr] at hes
    cases hes
  | some entries =>
    rw [hr] at hes
    intro e he
    refine h ⟨e.id, some e.value⟩ (Stream.mem_of_range hr ?_) e.value rfl
    rw [decodeCommands_ok hes]
    exact List.mem_map_of_mem he

/-- The recovery of a symbol changes no other book, and reads none. -/
theorem recoverSymbol_local (h : c.Own symbol) : Local Registry.books symbol (recoverSymbol now c symbol) := by
  refine .lift_bind fun snapshot _ => ?_
  cases checkpointOf snapshot with
  | none =>
    exact .lift_bind fun es hes => (replayEntries_local (readCommands_own h hes) _).bind fun _ => .pure _
  | some x =>
    exact (restoreBook_local x.1).bind fun _ => .lift_bind fun es hes =>
      (replayEntries_local (readCommands_own h hes) _).bind fun _ => .pure _

end

section

variable {now : Clock} {S S' : Store Content} {p n : Int}

instance (p n : Int) (symbol : String) : Decidable (Store.Own p n symbol) :=
  inferInstanceAs (Decidable (partitionID symbol n = .ok p))

/-- The loop skips the symbols of other partitions. -/
theorem recoverSymbols_eq (hn : 1 ≤ n) {symbols : List String} (h : ∀ s ∈ symbols, isBlank s = false) :
    recoverSymbols now S p n symbols =
      forEach (fun symbol => recoverSymbol now (S.content symbol) symbol)
        (symbols.filter fun symbol => Store.Own p n symbol) := by
  induction symbols with
  | nil => rfl
  | cons symbol symbols ih =>
    obtain ⟨id, hid, -⟩ := partitionID_ok (h symbol List.mem_cons_self) hn
    have ih := ih fun s hs => h s (List.mem_cons_of_mem _ hs)
    have hstep : recoverSymbols now S p n (symbol :: symbols) =
        if id ≠ p then recoverSymbols now S p n symbols else do
          let result ← recoverSymbol now (S.content symbol) symbol
          let results ← recoverSymbols now S p n symbols
          return result :: results := by
      rw [recoverSymbols, hid]
      rfl
    rw [hstep, ih]
    by_cases hp : id = p
    · have hown : Store.Own p n symbol := hid.trans (congrArg _ hp)
      rw [if_neg (not_not.mpr hp), List.filter_cons, if_pos (decide_eq_true hown), forEach]
    · have hown : ¬ Store.Own p n symbol := fun h => hp (Except.ok.inj (hid.symm.trans h))
      rw [if_pos hp, List.filter_cons, if_neg (by rwa [decide_eq_true_iff])]

/-- What is stored of the symbols of other partitions does not matter. -/
theorem recoverPartition_isolated (hn : 1 ≤ n) (hS : S.WellFormed Content.Own p n)
    (hS' : S'.WellFormed Content.Own p n) (hrouted : S.Routed isBlank) (hrouted' : S'.Routed isBlank)
    (h : S.Agree p n S') (r : Registry) :
    SameEnd Registry.books (recoverPartition now S p n) (recoverPartition now S' p n) r r := by
  have hown : ∀ {T : Store Content} {x}, x ∈ T.symbols.filter (fun s => Store.Own p n s) → Store.Own p n x :=
    fun hx => of_decide_eq_true (List.mem_filter.mp hx).2
  unfold recoverPartition
  rw [recoverSymbols_eq hn hrouted, recoverSymbols_eq hn hrouted',
    forEach_congr (p := fun s => recoverSymbol now (S'.content s) s)
      (q := fun s => recoverSymbol now (S.content s) s) fun x hx => by rw [h.content x (hown hx)]]
  refine .forEach (fun x hx => recoverSymbol_local (hS.content x (hown hx))) (hS.nodup.filter _) ?_ fun _ => rfl
  refine (List.perm_ext_iff_of_nodup (hS.nodup.filter _) (hS'.nodup.filter _)).mpr fun x => ?_
  rw [List.mem_filter, List.mem_filter]
  refine and_congr_left fun hx => h.listed x (of_decide_eq_true hx)

/-- A blank symbol has no partition, and no partition recovers while one is listed: the loop comes to it, or fails
before. -/
theorem recoverSymbols_blank {symbols : List String} {symbol : String} (hmem : symbol ∈ symbols)
    (hblank : isBlank symbol = true) (r : Registry) : ¬ (recoverSymbols now S p n symbols).Returns r := by
  induction symbols generalizing r with
  | nil => cases hmem
  | cons x xs ih =>
    intro h
    rw [recoverSymbols] at h
    obtain ⟨results, r', h⟩ := h
    obtain ⟨id, r₁, hid, h⟩ := bind_ok h
    rcases List.mem_cons.mp hmem with rfl | hmem
    · rw [partitionID, if_pos hblank] at hid
      cases hid
    · split at h
      · exact ih hmem r₁ ⟨_, _, h⟩
      · obtain ⟨result, r₂, -, h⟩ := bind_ok h
        exact ih hmem r₂ (Returns.of_bind ⟨_, _, h⟩)

theorem recoverPartition_blank (h : ¬ S.Routed isBlank) (r : Registry) : ¬ (recoverPartition now S p n).Returns r := by
  unfold Store.Routed at h
  push Not at h
  obtain ⟨symbol, hmem, hblank⟩ := h
  exact recoverSymbols_blank hmem (Bool.eq_true_of_not_eq_false hblank) r

end

end Lob.Go
