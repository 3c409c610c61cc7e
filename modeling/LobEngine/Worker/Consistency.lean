import LobEngine.Worker.Processor

/-!
# What the store and the registry agree on

* `Logs`: the command stream of a symbol, its processed ids and its recovery snapshot fit together.
* `Consistent`: those of every symbol do. `Consistent.append`, `Consistent.save`: the two writes that they depend on.
* `Held`: the book of a symbol in the registry has executed the commands of the stream.
* `recoverSymbol_held`, `recoverPartition_held`: a recovery succeeds and rebuilds such books.
-/

namespace Lob.Worker

open Exc Go

/-! ## Streams -/

/-- What is stored of a symbol fits together. -/
structure Logs (symbol : String) (x : SymbolState) : Prop where
  ranked : ∀ e ∈ x.log, ∃ k, streamRank e.id = some k
  ordered : x.log.Pairwise fun e f => (streamRank e.id).getD 0 < (streamRank f.id).getD 0
  own : ∀ e ∈ x.log, e.value.symbol = symbol
  ids : ∀ id, id ∈ x.processedIds ↔ id ∈ x.log.map (·.value.commandId)
  nodup : (x.log.map (·.value.commandId)).Nodup
  /-- Every command was accepted by a book that had executed those before it. -/
  accepted : Accepted symbol x.commands
  /-- The recovery snapshot is one of a book that had executed the commands up to the checkpoint. -/
  snapshot : ∀ snapshot, x.recoverySnapshot = some snapshot → ∃ pre e post b, x.log = pre ++ e :: post ∧
    snapshot = Book.recoverySnapshot b (some e.id) ∧ Logged symbol b ((pre ++ [e]).map (·.value))
  trimmed : x.trimmed ≤ x.log.length - maxCommands

/-- What is stored fits together. -/
structure Consistent (s : State) : Prop where
  symbols : s.symbols.Nodup
  logs : ∀ k, Logs k (s.symbol k)
  listed : ∀ k, (s.symbol k).log ≠ [] → k ∈ s.symbols
  valid : ∀ k ∈ s.symbols, isBlank k = false

/-- The stream of every symbol is short enough to be read at once. -/
def State.Short (s : State) : Prop := ∀ k, (s.symbol k).log.length ≤ maxReplayed

/-- The registry has the book of the symbol that has executed the commands, or none has been executed. -/
def Held (symbol : String) (r : Registry) (cs : List Go.Command) : Prop :=
  (∀ b, r symbol = some b → Logged symbol b cs) ∧ (r symbol = none → cs = [])

theorem logs_empty (k : String) : Logs k .empty where
  ranked := fun _ h => (by cases h)
  ordered := .nil
  own := fun _ h => (by cases h)
  ids := fun _ => Iff.rfl
  nodup := .nil
  accepted := .nil
  snapshot := fun _ h => (by cases h)
  trimmed := Nat.zero_le _

theorem consistent_empty : Consistent .empty :=
  ⟨.nil, fun k => logs_empty k, fun _ h => absurd rfl h, fun _ h => (by cases h)⟩

section

variable {s t : State} {symbol : String} {x : SymbolState} {r : Registry} {cs : List Go.Command} {c : Go.Command}
  {now : Clock} {b : Book} {id : String}

theorem mem_setAdd {y : String} {xs : List String} {x : String} : y ∈ setAdd x xs ↔ y = x ∨ y ∈ xs := by
  unfold setAdd
  split
  · next h => exact ⟨.inr, fun hy => hy.elim (fun e => e ▸ h) (fun h => h)⟩
  · exact List.mem_cons

theorem setAdd_nodup {x : String} {xs : List String} (h : xs.Nodup) : (setAdd x xs).Nodup := by
  unfold setAdd
  split
  · exact h
  · next hx => exact List.nodup_cons.mpr ⟨hx, h⟩

/-- The time at which a command was processed does not matter to its execution. -/
theorem logged_processedAt (h : Logged symbol b (cs ++ [c])) (processedAt : Int) :
    Logged symbol b (cs ++ [{ c with processedAt := some processedAt }]) :=
  ⟨h.name, h.clock, fun now hn => by
    have hr := h.replay now hn
    rw [replay_append] at hr ⊢
    exact hr⟩

theorem accepted_processedAt (h : Accepted symbol (cs ++ [c])) (processedAt : Int) :
    Accepted symbol (cs ++ [{ c with processedAt := some processedAt }]) := by
  intro pre d hpre b hb
  rcases List.prefix_concat_iff.mp hpre with heq | hpre
  · obtain ⟨rfl, hd⟩ := List.append_inj' heq rfl
    obtain rfl : d = _ := List.head_eq_of_cons_eq hd
    exact h pre c (List.prefix_refl _) b hb
  · exact h pre d (hpre.trans (List.prefix_append ..)) b hb

/-! ## The writes -/

theorem Logs.append (h : Logs symbol x) (hc : c.symbol = symbol) (hnew : c.commandId ∉ x.processedIds)
    (hacc : Accepted symbol (x.commands ++ [c])) (hid : Later id x.log) (processedAt : Int) {n : Nat}
    (hn : n ≤ max x.trimmed (x.log.length + 1 - maxCommands)) : Logs symbol { x with
      log := x.log ++ [⟨id, { c with processedAt := some processedAt }⟩]
      trimmed := n
      processedIds := setAdd c.commandId x.processedIds } := by
  obtain ⟨k, hk, -, hlater⟩ := hid
  have hnew' : c.commandId ∉ x.log.map (·.value.commandId) := fun hmem => hnew ((h.ids _).mpr hmem)
  constructor
  · intro e he
    rcases List.mem_append.mp he with he | he
    · exact h.ranked e he
    · rw [List.mem_singleton.mp he]
      exact ⟨k, hk⟩
  · refine List.pairwise_append.mpr ⟨h.ordered, List.pairwise_singleton .., fun e he f hf => ?_⟩
    rw [List.mem_singleton.mp hf]
    show _ < (streamRank id).getD 0
    rw [hk]
    exact hlater e he
  · intro e he
    rcases List.mem_append.mp he with he | he
    · exact h.own e he
    · rw [List.mem_singleton.mp he]
      exact hc
  · intro i
    rw [mem_setAdd, List.map_append, List.mem_append, h.ids, or_comm]
    refine or_congr_right ?_
    show _ ↔ i ∈ [c.commandId]
    rw [List.mem_singleton]
  · rw [List.map_append]
    refine List.nodup_append.mpr ⟨h.nodup, List.nodup_singleton _, fun a ha b hb hab => hnew' ?_⟩
    rw [show c.commandId = b from (List.mem_singleton.mp hb).symm, ← hab]
    exact ha
  · rw [SymbolState.commands, List.map_append]
    exact accepted_processedAt hacc processedAt
  · intro snapshot hs
    obtain ⟨pre, e, post, b, hlog, heq, hb⟩ := h.snapshot snapshot hs
    exact ⟨pre, e, post ++ [⟨id, { c with processedAt := some processedAt }⟩], b, by
      show x.log ++ _ = _
      rw [hlog, List.append_assoc, List.cons_append], heq, hb⟩
  · have := h.trimmed
    simp only [List.length_append, List.length_singleton]
    omega

theorem Consistent.append (h : Consistent s) (hblank : isBlank c.symbol = false)
    (hnew : c.commandId ∉ (s.symbol c.symbol).processedIds)
    (hacc : Accepted c.symbol ((s.symbol c.symbol).commands ++ [c])) (hid : Later id (s.symbol c.symbol).log)
    (processedAt : Int) {n : Nat}
    (hn : n ≤ max (s.symbol c.symbol).trimmed ((s.symbol c.symbol).log.length + 1 - maxCommands)) :
    Consistent (s.append c id processedAt n) := by
  have hself := (h.logs c.symbol).append rfl hnew hacc hid processedAt hn
  refine ⟨setAdd_nodup h.symbols, fun k => ?_, fun k hk => ?_, fun k hk => ?_⟩
  · rcases eq_or_ne k c.symbol with rfl | hne
    · rw [State.append_self]
      exact hself
    · rw [State.append_ne s hne]
      exact h.logs k
  · rcases eq_or_ne k c.symbol with rfl | hne
    · exact mem_setAdd.mpr (.inl rfl)
    · rw [State.append_ne s hne] at hk
      exact mem_setAdd.mpr (.inr (h.listed k hk))
  · rcases mem_setAdd.mp hk with rfl | hk
    · exact hblank
    · exact h.valid k hk

theorem Consistent.update (h : Consistent s) {f : SymbolState → SymbolState}
    (hlog : (f (s.symbol symbol)).log = (s.symbol symbol).log)
    (hlogs : Logs symbol (f (s.symbol symbol))) : Consistent (s.update symbol f) := by
  refine ⟨h.symbols, fun k => ?_, fun k hk => ?_, h.valid⟩
  · rcases eq_or_ne k symbol with rfl | hne
    · exact (s.update_self ..).symm ▸ hlogs
    · exact (s.update_ne _ hne).symm ▸ h.logs k
  · rcases eq_or_ne k symbol with rfl | hne
    · rw [State.update_self, hlog] at hk
      exact h.listed k hk
    · rw [State.update_ne s f hne] at hk
      exact h.listed k hk

/-- The recovery snapshot after the last command of the stream. -/
theorem Consistent.save (h : Consistent s) {pre : Stream Go.Command} {e : StreamEntry Go.Command}
    (hlog : (s.symbol symbol).log = pre ++ [e]) (hb : Logged symbol b (s.symbol symbol).commands) :
    Consistent (s.update symbol fun x => { x with recoverySnapshot := some (b.recoverySnapshot (some e.id)) }) := by
  obtain ⟨ranked, ordered, own, ids, nodup, accepted, -, trimmed⟩ := h.logs symbol
  refine h.update rfl ⟨ranked, ordered, own, ids, nodup, accepted, fun snapshot hs => ?_, trimmed⟩
  cases hs
  refine ⟨pre, e, [], b, hlog, rfl, ?_⟩
  rw [← hlog]
  exact hb

theorem Logs.same (h : Logs symbol x) {y : SymbolState} (hlog : y.log = x.log) (htrimmed : y.trimmed = x.trimmed)
    (hids : y.processedIds = x.processedIds) (hsnap : y.recoverySnapshot = x.recoverySnapshot) : Logs symbol y := by
  obtain ⟨log, trimmed, processedIds, recoverySnapshot, _, _, _, _⟩ := y
  cases hlog
  cases htrimmed
  cases hids
  cases hsnap
  exact ⟨h.ranked, h.ordered, h.own, h.ids, h.nodup, h.accepted, h.snapshot, h.trimmed⟩

theorem SameLogs.consistent (hst : SameLogs s t) (h : Consistent s) : Consistent t := by
  refine ⟨hst.symbols ▸ h.symbols, fun k => ?_, fun k hk => ?_, hst.symbols ▸ h.valid⟩
  · exact (h.logs k).same (hst.log k) (hst.trimmed k) (hst.processedIds k) (hst.recoverySnapshot k)
  · rw [hst.symbols]
    exact h.listed k (hst.log k ▸ hk)

theorem SameLogs.commands (hst : SameLogs s t) (k : String) : (t.symbol k).commands = (s.symbol k).commands := by
  rw [SymbolState.commands, hst.log k]
  rfl

/-! ## Books -/

/-- A command executes on a book that has executed the commands before it. -/
theorem Held.execute (h : Held c.symbol r cs) (hblank : isBlank c.symbol = false) (hn : ∀ n, 0 ≤ now n) :
    ∃ b, Logged c.symbol b cs ∧ (r c.symbol).getD (Book.empty c.symbol now) = b ∧
      (r.execute now c).1 = (b.execute c).1.map (fun result => ((b.execute c).2, result)) ∧
      (r.execute now c).2 c.symbol = some (b.execute c).2 ∧ ∀ k ≠ c.symbol, (r.execute now c).2 k = r k := by
  unfold Registry.execute Registry.getOrCreate
  cases hr : r c.symbol with
  | some b =>
    refine ⟨b, h.1 b hr, rfl, rfl, Registry.put_self .., fun k hk => Registry.put_ne _ _ hk⟩
  | none =>
    have hcs := h.2 hr
    have hnot : ¬ isBlank c.symbol = true := by rw [hblank]; decide
    dsimp only
    rw [if_neg hnot]
    exact ⟨Book.empty c.symbol now, hcs ▸ .empty hblank hn, rfl, rfl, Registry.put_self ..,
      fun k hk => (Registry.put_ne _ _ hk).trans (Registry.put_ne _ _ hk)⟩

/-- The replay of accepted commands. -/
theorem replayEntries_held {es : Stream Go.Command} (hblank : isBlank symbol = false) (hn : ∀ n, 0 ≤ now n)
    (hown : ∀ e ∈ es, e.value.symbol = symbol) (hacc : Accepted symbol (cs ++ es.map (·.value)))
    (h : Held symbol r cs) (lastID : String) :
    ∃ id r', (replayEntries now es lastID).run r = (.ok id, r') ∧ Held symbol r' (cs ++ es.map (·.value)) := by
  induction es generalizing r cs lastID with
  | nil => exact ⟨_, _, rfl, by rw [List.map_nil, List.append_nil]; exact h⟩
  | cons e es ih =>
    obtain rfl := hown e List.mem_cons_self
    obtain ⟨b, hb, -, hout, hbook, -⟩ := h.execute hblank hn
    rw [List.map_cons, List.append_cons] at hacc ⊢
    obtain ⟨result, hresult⟩ := hacc cs e.value (List.prefix_append ..) b hb
    have hrun : (executeEntry now e.value).run r = (.ok (), (r.execute now e.value).2) := by
      show ((_ : Except StoreError Unit), (r.execute now e.value).2) = _
      rw [hout, hresult]
      rfl
    have hheld : Held e.value.symbol (r.execute now e.value).2 (cs ++ [e.value]) := by
      refine ⟨fun b' hb' => ?_, fun hnone => ?_⟩
      · obtain rfl : (b.execute e.value).2 = b' := Option.some.inj (hbook.symm.trans hb')
        exact hb.execute e.value
      · rw [hbook] at hnone
        cases hnone
    obtain ⟨id, r', hrest, hheld'⟩ := ih (fun f hf => hown f (List.mem_cons_of_mem _ hf)) hacc hheld e.id
    exact ⟨id, r', by rw [replayEntries, run_bind_ok hrun]; exact hrest, hheld'⟩

theorem decodeCommands_map (es : Stream Go.Command) :
    decodeCommands (es.map fun e => ⟨e.id, some e.value⟩) = .ok es := by
  induction es with
  | nil => rfl
  | cons e es ih =>
    rw [List.map_cons, decodeCommands]
    dsimp only
    rw [ih]
    rfl

/-- A short stream has not been trimmed. -/
theorem Logs.commands_content (h : Logs symbol (s.symbol symbol))
    (hshort : (s.symbol symbol).log.length ≤ maxReplayed) :
    (s.content symbol).commands = (s.symbol symbol).log.map fun e => ⟨e.id, some e.value⟩ := by
  have htrimmed := h.trimmed
  have hzero : (s.symbol symbol).trimmed = 0 := by
    unfold maxReplayed at hshort
    unfold maxCommands at htrimmed
    omega
  rw [State.content, SymbolState.stream, hzero, List.drop_zero]

/-- After the checkpoint comes what is behind it. -/
theorem after_checkpoint {log pre post : Stream Go.Command} {e : StreamEntry Go.Command} (hlog : log = pre ++ e :: post)
    (hranked : ∀ e ∈ log, ∃ k, streamRank e.id = some k)
    (hordered : log.Pairwise fun e f => (streamRank e.id).getD 0 < (streamRank f.id).getD 0) :
    Stream.after (log.map fun e => (⟨e.id, some e.value⟩ : StreamEntry (Option Go.Command))) (some e.id) =
      some (post.map fun e => ⟨e.id, some e.value⟩) := by
  subst hlog
  obtain ⟨k, hk⟩ := hranked e (List.mem_append_right _ List.mem_cons_self)
  obtain ⟨-, hpost, hpre⟩ := List.pairwise_append.mp hordered
  obtain ⟨hpost, -⟩ := List.pairwise_cons.mp hpost
  rw [Stream.after, hk, Option.map_some, Option.some_inj, List.map_append, List.map_cons, List.filter_append,
    List.filter_cons_of_neg (by simp [hk])]
  have hnone : List.filter (fun e => decide (k < (streamRank e.id).getD 0))
      (pre.map fun e => (⟨e.id, some e.value⟩ : StreamEntry (Option Go.Command))) = [] := by
    refine List.filter_eq_nil_iff.mpr fun f hf => ?_
    obtain ⟨g, hg, rfl⟩ := List.mem_map.mp hf
    have := hpre g hg e List.mem_cons_self
    rw [hk, Option.getD_some] at this
    rw [decide_eq_true_iff]
    exact Nat.not_lt.mpr this.le
  have hall : List.filter (fun e => decide (k < (streamRank e.id).getD 0))
      (post.map fun e => (⟨e.id, some e.value⟩ : StreamEntry (Option Go.Command))) =
        post.map fun e => ⟨e.id, some e.value⟩ := by
    refine List.filter_eq_self.mpr fun f hf => ?_
    obtain ⟨g, hg, rfl⟩ := List.mem_map.mp hf
    have := hpost g hg
    rw [hk, Option.getD_some] at this
    exact decide_eq_true this
  rw [hnone, hall, List.nil_append]

/-- A recovery of a symbol succeeds, and rebuilds a book that has executed the stream. -/
theorem recoverSymbol_held (h : Logs symbol (s.symbol symbol)) (hblank : isBlank symbol = false)
    (hshort : (s.symbol symbol).log.length ≤ maxReplayed) (hn : ∀ n, 0 ≤ now n) (hr : r symbol = none) :
    ∃ result r', (recoverSymbol now (s.content symbol) symbol).run r = (.ok result, r') ∧
      Held symbol r' (s.symbol symbol).commands := by
  have hcommands := h.commands_content hshort
  unfold recoverSymbol Content.readSnapshot
  cases hs : (s.symbol symbol).recoverySnapshot with
  | none =>
    have hread : (s.content symbol).readCommands none maxReplayed = .ok (s.symbol symbol).log := by
      rw [Content.readCommands, Stream.range, hcommands, Stream.after, Option.map_some]
      dsimp only
      rw [List.take_of_length_le (by rw [List.length_map]; exact hshort), decodeCommands_map]
    have hsnap : (s.content symbol).recoverySnapshot = none := by rw [State.content, hs, Option.map_none]
    have hheld₀ : Held symbol r [] := ⟨fun b hb => (by rw [hr] at hb; cases hb), fun _ => rfl⟩
    obtain ⟨id, r', hrun, hheld⟩ := replayEntries_held hblank hn h.own (by rw [List.nil_append]; exact h.accepted)
      hheld₀ "0-0"
    refine ⟨⟨symbol, .fullReplay, id, (s.symbol symbol).log.length⟩, r', ?_, ?_⟩
    · rw [hsnap, run_lift_bind]
      dsimp only [checkpointOf, Option.bind_none]
      rw [hread, run_lift_bind]
      dsimp only
      rw [run_bind_ok hrun]
      rfl
    · rw [List.nil_append] at hheld
      exact hheld
  | some snapshot =>
    obtain ⟨pre, e, post, b, hlog, rfl, hb⟩ := h.snapshot snapshot hs
    obtain ⟨b', hrestore, hb'⟩ := hb.restore (some e.id) hn
    have hsnap : (s.content symbol).recoverySnapshot = some (some (b.recoverySnapshot (some e.id))) := by
      rw [State.content, hs, Option.map_some]
    have hbook : (restoreBook now symbol (b.recoverySnapshot (some e.id))).run r = (.ok (), r.put symbol b') := by
      show restoreBook now symbol _ r = _
      rw [restoreBook, hrestore]
      dsimp only
      rw [Registry.set, if_neg (not_not.mpr hb'.name)]
    have hread : (s.content symbol).readCommands (some e.id) maxReplayed = .ok post := by
      rw [Content.readCommands, Stream.range, hcommands, after_checkpoint hlog h.ranked h.ordered, Option.map_some]
      dsimp only
      rw [List.take_of_length_le, decodeCommands_map]
      rw [hlog, List.length_append, List.length_cons] at hshort
      rw [List.length_map]
      omega
    have hheld₀ : Held symbol (r.put symbol b') ((pre ++ [e]).map (·.value)) := by
      refine ⟨fun b₁ hb₁ => ?_, fun hnone => ?_⟩
      · obtain rfl : b' = b₁ := Option.some.inj ((Registry.put_self ..).symm.trans hb₁)
        exact hb'
      · rw [Registry.put_self] at hnone
        cases hnone
    have hall : (pre ++ [e]).map (·.value) ++ post.map (·.value) = (s.symbol symbol).commands := by
      rw [SymbolState.commands, hlog, ← List.map_append, List.append_assoc, List.singleton_append]
    obtain ⟨id, r', hrun, hheld⟩ := replayEntries_held hblank hn
      (fun f hf => h.own f (by rw [hlog]; exact List.mem_append_right _ (List.mem_cons_of_mem _ hf)))
      (hall.symm ▸ h.accepted) hheld₀ e.id
    refine ⟨⟨symbol, .snapshotPlusIncrementalReplay, id, post.length⟩, r', ?_, hall ▸ hheld⟩
    rw [hsnap, run_lift_bind]
    show (restoreBook now symbol (b.recoverySnapshot (some e.id)) >>= _).run r = _
    rw [run_bind_ok hbook]
    rw [hread, run_lift_bind]
    dsimp only
    rw [run_bind_ok hrun]
    rfl

/-- The books of the partition `p` have executed the commands of their streams. -/
def Books (p n : Int) (r : Registry) (s : State) : Prop :=
  ∀ k, Store.Own p n k → Held k r (s.symbol k).commands

/-- A recovery of the partition succeeds, and rebuilds its books. -/
theorem recoverPartition_held {p n : Int} (h : Consistent s) (hshort : s.Short) (hcount : 1 ≤ n) (hn : ∀ n, 0 ≤ now n) :
    ∃ results r', (recoverPartition now s.contents p n).run Registry.empty = (.ok results, r') ∧ Books p n r' s := by
  set own := s.symbols.filter fun symbol => Store.Own p n symbol with hownDef
  have hmem : ∀ k ∈ own, k ∈ s.symbols := fun k hk => (List.mem_filter.mp hk).1
  have hcontent : ∀ k, (s.content k).Own k := by
    intro k e he d hd
    obtain ⟨f, hf, rfl⟩ := List.mem_map.mp he
    cases hd
    exact (h.logs k).own f (List.mem_of_mem_drop hf)
  have hlocal : ∀ k ∈ own, Local Registry.books k (recoverSymbol now (s.contents.content k) k) := fun k _ =>
    recoverSymbol_local (hcontent k)
  have hall : ∀ k ∈ own, ∃ result r', (recoverSymbol now (s.contents.content k) k).run Registry.empty =
      (.ok result, r') ∧ Held k r' (s.symbol k).commands := fun k hk =>
    recoverSymbol_held (h.logs k) (h.valid k (hmem k hk)) (hshort k) hn rfl
  have heq : recoverPartition now s.contents p n =
      forEach (fun symbol => recoverSymbol now (s.contents.content symbol) symbol) own :=
    recoverSymbols_eq hcount h.valid
  obtain ⟨results, r', hrun⟩ := (forEach_returns hlocal (h.symbols.filter _)).mpr fun k hk =>
    let ⟨result, r', hrun, _⟩ := hall k hk
    ⟨result, r', hrun⟩
  refine ⟨results, r', by rw [heq]; exact hrun, fun k hk => ?_⟩
  have hview := forEach_view hlocal (h.symbols.filter _) hrun k
  by_cases hlisted : k ∈ own
  · obtain ⟨result, r₁, hrun₁, hheld⟩ := hall k hlisted
    rw [if_pos hlisted, hrun₁] at hview
    have hbook : r' k = r₁ k := hview
    exact ⟨fun b hb => hheld.1 b (hbook ▸ hb), fun hnone => hheld.2 (hbook ▸ hnone)⟩
  · rw [if_neg hlisted] at hview
    have hbook : r' k = none := hview
    refine ⟨fun b hb => (by rw [hbook] at hb; cases hb), fun _ => ?_⟩
    by_contra hne
    have hlog : (s.symbol k).log ≠ [] := fun hlog => hne (by rw [SymbolState.commands, hlog]; rfl)
    exact hlisted (List.mem_filter.mpr ⟨h.listed k hlog, decide_eq_true hk⟩)

end

end Lob.Worker
