import LobEngine.Node.Command
import LobEngine.Lib.Local
import LobEngine.Lib.Streams
import LobEngine.Partition

/-!
# Recovery of the reference worker

`replayCommand.js` and `StandbyReplica.js`: a standby first replays the streams of all listed symbols, and keeps the
ids up to which it replayed those of its partition. Then it reads on from there.

* `recoverSymbolFromCommandLog_local`, `replayAvailableCommands_local`: the replay of a symbol changes nothing that
  belongs to another, and reads nothing of it.
-/

namespace Lob.Node

open Exc OrderBook

inductive StoreError where
  /-- What is stored is not JSON. -/
  | snapshot
  /-- The checkpoint is not the id of a stream entry. -/
  | range (start : String)
  /-- The entry holds no command in JSON. -/
  | entry (id : String)
  | engine (e : JsError)

/-- What the store has of a symbol: an inner `none` cannot be parsed. -/
structure Content where
  recoverySnapshot : Option (Option RecoverySnapshot)
  commands : Stream (Option Command)

inductive RecoveryMode where
  | fullReplay
  | snapshotPlusIncrementalReplay
  deriving DecidableEq

structure RecoveryResult where
  symbol : String
  mode : RecoveryMode
  checkpointStreamId : Option String
  replayedCommandCount : Nat
  lastCommandStreamId : String

/-! ## `replayCommand.js` -/

/-- `getSnapshot`. -/
def Content.getSnapshot (c : Content) : Except StoreError (Option RecoverySnapshot) :=
  match c.recoverySnapshot with
  | none => .ok none
  | some none => .error .snapshot
  | some (some s) => .ok (some s)

def parseCommands : Stream (Option Command) → Except StoreError (Stream Command)
  | [] => .ok []
  | e :: es =>
    match e.value with
    | none => .error (.entry e.id)
    | some c => (parseCommands es).map (⟨e.id, c⟩ :: ·)

/-- `getProcessedCommands` to the end, `getProcessedCommandsAfter` and `readNextProcessedCommands`. -/
def Content.readCommands (c : Content) (start : Option String) (count : Nat) :
    Except StoreError (Stream Command) :=
  match c.commands.range start count with
  | none => .error (.range (start.getD "-"))
  | some entries => parseCommands entries

abbrev RegistryProgram := Exc StoreError BookRegistry

/-- `executeOrderCommand`, without its result. -/
def executeEntry (clock : Clock) (c : Command) : RegistryProgram Unit := fun r =>
  (((r.executeOrderCommand clock c).1.mapError .engine).map fun _ => (), (r.executeOrderCommand clock c).2)

/-- The loop over the entries. -/
def replayEntries (clock : Clock) : Stream Command → RegistryProgram Unit
  | [] => return ()
  | e :: es => do
    executeEntry clock e.value
    replayEntries clock es

/-- The id of the last entry. -/
def lastId (es : Stream Command) (default : String) : String := (es.getLast?.map (·.id)).getD default

def maxReplayed : Nat := 100000

def replaySymbolFromCommandLog (clock : Clock) (c : Content) (symbol : String) :
    RegistryProgram RecoveryResult := do
  let commands ← lift (c.readCommands none maxReplayed)
  replayEntries clock commands
  return ⟨symbol, .fullReplay, none, commands.length, lastId commands "0-0"⟩

/-- The restored book, and `setBook`. -/
def restoreBook (clock : Clock) (symbol : String) (s : RecoverySnapshot) : RegistryProgram Unit := fun r =>
  match fromRecoverySnapshot s clock with
  | (.error e, _) => (.error (.engine e), r)
  | (.ok _, b) =>
    match assertNonEmptyString "symbol" (.str symbol) with
    | .error e => (.error (.engine e), r)
    | .ok symbol => (.ok (), r.put symbol b)

/-- The snapshot that a recovery starts from, and its checkpoint. -/
def checkpointOf (s : Option RecoverySnapshot) : Option (RecoverySnapshot × String) :=
  s.bind fun s => (s.lastCommandStreamId.filter (· ≠ "")).map (s, ·)

def recoverSymbolFromCommandLog (clock : Clock) (c : Content) (symbol : String) :
    RegistryProgram RecoveryResult := do
  let snapshot ← lift c.getSnapshot
  (match checkpointOf snapshot with
  | none => replaySymbolFromCommandLog clock c symbol
  | some (s, checkpoint) => do
    restoreBook clock symbol s
    let commands ← lift (c.readCommands (some checkpoint) maxReplayed)
    replayEntries clock commands
    return ⟨symbol, .snapshotPlusIncrementalReplay, some checkpoint, commands.length,
      lastId commands checkpoint⟩)

def replayAllSymbolsFromCommandLog (clock : Clock) (S : Store Content) (reset : Bool) :
    RegistryProgram (List RecoveryResult) := do
  (if reset then modify fun _ => BookRegistry.empty else pure ())
  forEach (fun symbol => recoverSymbolFromCommandLog clock (S.content symbol) symbol) S.symbols

/-! ## `StandbyReplica.js` -/

/-- The registry, and the standby. -/
structure Replica where
  bookRegistry : BookRegistry
  lastReplayedStreamIds : OMap String String

abbrev ReplicaProgram := Exc StoreError Replica

def onRegistry {α : Type} (m : RegistryProgram α) : ReplicaProgram α := fun r =>
  ((m.run r.bookRegistry).1, { r with bookRegistry := (m.run r.bookRegistry).2 })

def isAssigned (symbol : String) (p n : Int) : Except StoreError Bool :=
  (isSymbolAssignedToPartition (.str symbol) p (.num (.int n))).mapError .engine

/-- `lastReplayedStreamIds.set(symbol, id)`. -/
def track (symbol id : String) : ReplicaProgram Unit := modify fun r =>
  { r with lastReplayedStreamIds := r.lastReplayedStreamIds.set symbol id }

/-- The loop of `initialize` over the results. -/
def trackResults (p n : Int) : List RecoveryResult → ReplicaProgram Unit
  | [] => return ()
  | result :: results => do
    let assigned ← lift (isAssigned result.symbol p n)
    (if assigned then track result.symbol result.lastCommandStreamId else pure ())
    trackResults p n results

/-- `initialize`. -/
def initializeReplica (clock : Clock) (S : Store Content) (p n : Int) : ReplicaProgram (List RecoveryResult) := do
  let recoveryResults ← onRegistry (replayAllSymbolsFromCommandLog clock S true)
  modify fun r => { r with lastReplayedStreamIds := .empty }
  trackResults p n recoveryResults
  return recoveryResults

/-- The loop of `discoverSymbols`. -/
def discoverEach (clock : Clock) (S : Store Content) (p n : Int) : List String → ReplicaProgram Unit
  | [] => return ()
  | symbol :: symbols => do
    let r ← get
    if r.lastReplayedStreamIds.has symbol then discoverEach clock S p n symbols else do
    let assigned ← lift (isAssigned symbol p n)
    if assigned = false then discoverEach clock S p n symbols else do
    let result ← onRegistry (recoverSymbolFromCommandLog clock (S.content symbol) symbol)
    track symbol result.lastCommandStreamId
    discoverEach clock S p n symbols

def discoverSymbols (clock : Clock) (S : Store Content) (p n : Int) : ReplicaProgram Unit :=
  discoverEach clock S p n S.symbols

/-- The loop of `replayAvailableCommands` over the entries it read. -/
def replayBatch (clock : Clock) (symbol : String) : Stream Command → ReplicaProgram Unit
  | [] => return ()
  | e :: es => do
    onRegistry (executeEntry clock e.value)
    track symbol e.id
    replayBatch clock symbol es

/-- The id after which the symbol is read on. -/
def Replica.lastStreamId (r : Replica) (symbol : String) : String :=
  (r.lastReplayedStreamIds.get? symbol).getD "0-0"

/-- What the stream still has of the symbol. -/
def Replica.unread (r : Replica) (c : Content) (symbol : String) : Nat :=
  ((c.commands.after (some (r.lastStreamId symbol))).getD []).length

theorem parseCommands_ok {es : Stream (Option Command)} {ds : Stream Command} (h : parseCommands es = .ok ds) :
    es = ds.map fun d => ⟨d.id, some d.value⟩ := by
  induction es generalizing ds with
  | nil =>
    cases h
    rfl
  | cons e es ih =>
    unfold parseCommands at h
    cases he : e.value with
    | none =>
      rw [he] at h
      cases h
    | some v =>
      rw [he] at h
      dsimp only at h
      cases hd : parseCommands es with
      | error e' =>
        rw [hd] at h
        cases h
      | ok ds' =>
        rw [hd] at h
        cases h
        rw [ih hd, List.map_cons, ← he]

/-- What was read is in the stream. -/
theorem readCommands_mem {c : Content} {start : Option String} {count : Nat} {es : Stream Command}
    (h : c.readCommands start count = .ok es) {e : StreamEntry Command} (he : e ∈ es) :
    ∃ after, c.commands.after start = some after ∧ ⟨e.id, some e.value⟩ ∈ after := by
  unfold Content.readCommands Stream.range at h
  cases ha : c.commands.after start with
  | none =>
    rw [ha] at h
    cases h
  | some after =>
    rw [ha] at h
    have htake : after.take count = es.map fun d => ⟨d.id, some d.value⟩ := parseCommands_ok h
    refine ⟨after, rfl, List.mem_of_mem_take (i := count) ?_⟩
    rw [htake]
    exact List.mem_map_of_mem he

/-- After a batch, the symbol is read on after its last entry. -/
theorem replayBatch_last {clock : Clock} {symbol : String} {es : Stream Command} {r r' : Replica}
    (h : (replayBatch clock symbol es).run r = (.ok (), r')) :
    r'.lastStreamId symbol = lastId es (r.lastStreamId symbol) := by
  induction es generalizing r with
  | nil =>
    cases h
    rfl
  | cons e es ih =>
    obtain ⟨_, r₁, -, h⟩ := bind_ok h
    obtain ⟨_, r₂, htrack, h⟩ := bind_ok h
    have hid : r₂.lastStreamId symbol = e.id := by
      rw [← (Prod.mk.inj htrack).2]
      simp [Replica.lastStreamId]
    rw [ih h, hid]
    cases es with
    | nil => rfl
    | cons f es => rfl

theorem unread_lt {clock : Clock} {c : Content} {symbol : String} {es : Stream Command} {r r' : Replica}
    {count : Nat} (hread : c.readCommands (some (r.lastStreamId symbol)) count = .ok es) (hes : es ≠ [])
    (h : (replayBatch clock symbol es).run r = (.ok (), r')) : r'.unread c symbol < r.unread c symbol := by
  obtain ⟨after, hafter, hmem⟩ := readCommands_mem hread (List.getLast_mem hes)
  have hlast : r'.lastStreamId symbol = (es.getLast hes).id := by
    rw [replayBatch_last h, lastId, List.getLast?_eq_some_getLast hes]
    rfl
  have hlt := Stream.after_length_lt hafter hmem
  rw [Replica.unread, Replica.unread, hlast, hafter, Option.getD_some]
  exact hlt

/-- The loop of `replayAvailableCommands`. It ends, as every batch reads on. -/
def replayLoop (clock : Clock) (c : Content) (symbol : String) (r : Replica) :
    Except StoreError Nat × Replica :=
  match hread : c.readCommands (some (r.lastStreamId symbol)) 100 with
  | .error e => (.error e, r)
  | .ok entries =>
    if hes : entries = [] then (.ok 0, r)
    else match hrun : (replayBatch clock symbol entries).run r with
    | (.error e, r) => (.error e, r)
    | (.ok _, r') =>
      match replayLoop clock c symbol r' with
      | (.error e, r) => (.error e, r)
      | (.ok replayed, r) => (.ok (entries.length + replayed), r)
termination_by r.unread c symbol
decreasing_by exact unread_lt hread hes hrun

def replayAvailableCommands (clock : Clock) (c : Content) (symbol : String) : ReplicaProgram Nat :=
  fun r => replayLoop clock c symbol r

/-- The loop of `catchUp`. -/
def replayEach (clock : Clock) (S : Store Content) : List String → ReplicaProgram Nat := fun symbols => do
  let replayed ← forEach (fun symbol => replayAvailableCommands clock (S.content symbol) symbol) symbols
  return replayed.sum

def catchUp (clock : Clock) (S : Store Content) (p n : Int) : ReplicaProgram Nat := do
  discoverSymbols clock S p n
  let r ← get
  replayEach clock S r.lastReplayedStreamIds.keys

/-- `initialize`, and then `catchUp`. -/
def startUp (clock : Clock) (S : Store Content) (p n : Int) : ReplicaProgram Nat := do
  let _ ← initializeReplica clock S p n
  catchUp clock S p n

/-! ## What a recovery touches -/

/-- The books of a registry, by their symbols. -/
def BookRegistry.books (r : BookRegistry) : String → Option OrderBook := r

/-- What a standby has of a symbol. -/
def Replica.view (r : Replica) (symbol : String) : Option OrderBook × Option String :=
  (r.bookRegistry symbol, r.lastReplayedStreamIds.get? symbol)

/-- The commands of the stream are commands of the symbol. -/
def Content.Own (symbol : String) (c : Content) : Prop :=
  ∀ e ∈ c.commands, ∀ d : Command, e.value = some d → d.symbol = .str symbol

section

variable {clock : Clock} {c : Content} {S : Store Content} {symbol : String} {p n : Int} {r r' : Replica}
  {b b' : BookRegistry}

theorem getOrCreateBook_local (r : BookRegistry) (symbol : String) (clock : Clock) :
    (∃ e, ∀ s : BookRegistry, s symbol = r symbol → s.getOrCreateBook (.str symbol) clock = .error e) ∨
      ∃ b, ∀ s : BookRegistry, s symbol = r symbol →
        ∃ s', s.getOrCreateBook (.str symbol) clock = .ok (symbol, b, s') ∧ ∀ k, k ≠ symbol → s' k = s k := by
  unfold BookRegistry.getOrCreateBook
  cases hs : assertNonEmptyString "symbol" (.str symbol) with
  | error e => exact .inl ⟨e, fun _ _ => rfl⟩
  | ok symbol' =>
    obtain ⟨hsym, -⟩ := assertNonEmptyString_ok.mp hs
    cases hsym
    refine .inr ?_
    cases hr : r symbol with
    | some b => exact ⟨b, fun s hs => ⟨s, by dsimp only; rw [hs], fun _ _ => rfl⟩⟩
    | none =>
      exact ⟨OrderBook.new symbol clock, fun s hs => ⟨s.put symbol (OrderBook.new symbol clock), by
        dsimp only; rw [hs], fun k hk => s.put_ne _ hk⟩⟩

theorem executeEntry_local {d : Command} (hd : d.symbol = .str symbol) :
    Local BookRegistry.books symbol (executeEntry clock d) := by
  have hrun : ∀ s : BookRegistry, (executeEntry clock d).run s =
      (((s.executeOrderCommand clock d).1.mapError .engine).map fun _ => (),
        (s.executeOrderCommand clock d).2) := fun _ => rfl
  refine ⟨fun s k hk => ?_, fun s t hst => ?_⟩
  · rw [hrun]
    unfold BookRegistry.executeOrderCommand
    rw [hd]
    rcases getOrCreateBook_local s symbol clock with ⟨e, he⟩ | ⟨b, hb⟩
    · rw [he s rfl]
    · obtain ⟨s', hs', hframe⟩ := hb s rfl
      rw [hs']
      exact (s'.put_ne _ hk).trans (hframe k hk)
  · rw [hrun, hrun]
    unfold BookRegistry.executeOrderCommand
    rw [hd]
    rcases getOrCreateBook_local t symbol clock with ⟨e, he⟩ | ⟨b, hb⟩
    · rw [he s hst, he t rfl]
      exact ⟨rfl, hst⟩
    · obtain ⟨s', hs', -⟩ := hb s hst
      obtain ⟨t', ht', -⟩ := hb t rfl
      rw [hs', ht']
      exact ⟨rfl, (s'.put_self ..).trans (t'.put_self ..).symm⟩

theorem replayEntries_local {es : Stream Command} (h : ∀ e ∈ es, e.value.symbol = .str symbol) :
    Local BookRegistry.books symbol (replayEntries clock es) := by
  induction es with
  | nil => exact .pure _
  | cons e es ih =>
    exact (executeEntry_local (h e List.mem_cons_self)).bind fun _ =>
      ih fun x hx => h x (List.mem_cons_of_mem _ hx)

theorem restoreBook_local (s : RecoverySnapshot) : Local BookRegistry.books symbol (restoreBook clock symbol s) := by
  have hfails : ∀ {e}, (∀ r : BookRegistry, (restoreBook clock symbol s).run r = (.error e, r)) →
      Local BookRegistry.books symbol (restoreBook clock symbol s) := fun h =>
    ⟨fun r k _ => by rw [h], fun r t hrt => by rw [h, h]; exact ⟨rfl, hrt⟩⟩
  rcases hb : fromRecoverySnapshot s clock with ⟨e | _, b⟩
  · refine hfails (e := .engine e) fun r => ?_
    show restoreBook clock symbol s r = _
    rw [restoreBook, hb]
  · cases hs : assertNonEmptyString "symbol" (.str symbol) with
    | error e =>
      refine hfails (e := .engine e) fun r => ?_
      show restoreBook clock symbol s r = _
      rw [restoreBook, hb]
      dsimp only
      rw [hs]
    | ok symbol' =>
      obtain ⟨hsym, -⟩ := assertNonEmptyString_ok.mp hs
      cases hsym
      have hrun : ∀ r : BookRegistry, (restoreBook clock symbol s).run r = (.ok (), r.put symbol b) := by
        intro r
        show restoreBook clock symbol s r = _
        rw [restoreBook, hb]
        dsimp only
        rw [hs]
      exact ⟨fun r k hk => by rw [hrun]; exact r.put_ne b hk,
        fun r t _ => by rw [hrun, hrun]; exact ⟨rfl, (r.put_self ..).trans (t.put_self ..).symm⟩⟩

theorem readCommands_own (h : c.Own symbol) {start : Option String} {count : Nat} {es : Stream Command}
    (hes : c.readCommands start count = .ok es) : ∀ e ∈ es, e.value.symbol = .str symbol := by
  intro e he
  obtain ⟨after, ha, hmem⟩ := readCommands_mem hes he
  exact h _ (Stream.mem_of_after ha hmem) e.value rfl

/-- The recovery of a symbol changes no other book, and reads none. -/
theorem recoverSymbolFromCommandLog_local (h : c.Own symbol) :
    Local BookRegistry.books symbol (recoverSymbolFromCommandLog clock c symbol) := by
  refine .lift_bind fun snapshot _ => ?_
  cases checkpointOf snapshot with
  | none =>
    exact .lift_bind fun es hes => (replayEntries_local (readCommands_own h hes)).bind fun _ => .pure _
  | some x =>
    exact (restoreBook_local x.1).bind fun _ => .lift_bind fun es hes =>
      (replayEntries_local (readCommands_own h hes)).bind fun _ => .pure _

theorem recoverSymbol_symbol {result : RecoveryResult}
    (h : (recoverSymbolFromCommandLog clock c symbol).run b = (.ok result, b')) : result.symbol = symbol := by
  obtain ⟨snapshot, b₀, -, h⟩ := bind_ok h
  cases hc : checkpointOf snapshot with
  | none =>
    rw [hc] at h
    obtain ⟨_, _, -, h⟩ := bind_ok h
    obtain ⟨_, _, -, h⟩ := bind_ok h
    cases h
    rfl
  | some x =>
    rw [hc] at h
    obtain ⟨_, _, -, h⟩ := bind_ok h
    obtain ⟨_, _, -, h⟩ := bind_ok h
    obtain ⟨_, _, -, h⟩ := bind_ok h
    cases h
    rfl

theorem onRegistry_ok {α : Type} {m : RegistryProgram α} {a : α} (h : m.run r.bookRegistry = (.ok a, b)) :
    (onRegistry m).run r = (.ok a, { r with bookRegistry := b }) := by
  show ((m.run r.bookRegistry).1, ({ r with bookRegistry := (m.run r.bookRegistry).2 } : Replica)) = _
  rw [h]

theorem onRegistry_returns {α : Type} {m : RegistryProgram α} :
    (onRegistry m).Returns r ↔ m.Returns r.bookRegistry := by
  refine ⟨fun ⟨a, r', h⟩ => ?_, fun ⟨a, b, h⟩ => ⟨a, _, onRegistry_ok h⟩⟩
  have hout : (m.run r.bookRegistry).1 = .ok a := congrArg Prod.fst h
  exact ⟨a, _, Prod.ext hout rfl⟩

theorem onRegistry_local {α : Type} {m : RegistryProgram α} (h : Local BookRegistry.books symbol m) :
    Local Replica.view symbol (onRegistry m) := by
  refine ⟨fun r k hk => ?_, fun r t hrt => ?_⟩
  · exact congrArg (·, r.lastReplayedStreamIds.get? k) (h.frame r.bookRegistry k hk)
  · obtain ⟨hbook, hid⟩ := Prod.mk.inj hrt
    obtain ⟨hout, hview⟩ := h.same r.bookRegistry t.bookRegistry hbook
    exact ⟨hout, Prod.ext hview hid⟩

theorem track_local (id : String) : Local Replica.view symbol (track symbol id) := by
  refine ⟨fun r k hk => ?_, fun r t hrt => ?_⟩
  · exact Prod.ext rfl (OMap.get?_set_ne _ _ hk)
  · exact ⟨rfl, Prod.ext (Prod.mk.inj hrt).1 ((OMap.get?_set_self ..).trans (OMap.get?_set_self ..).symm)⟩

theorem replayBatch_local {es : Stream Command} (h : ∀ e ∈ es, e.value.symbol = .str symbol) :
    Local Replica.view symbol (replayBatch clock symbol es) := by
  induction es with
  | nil => exact .pure _
  | cons e es ih =>
    exact (onRegistry_local (executeEntry_local (h e List.mem_cons_self))).bind fun _ =>
      (track_local e.id).bind fun _ => ih fun x hx => h x (List.mem_cons_of_mem _ hx)

theorem replayAvailableCommands_run (clock : Clock) (c : Content) (symbol : String) (r : Replica) :
    (replayAvailableCommands clock c symbol).run r =
      (do
        let entries ← lift (c.readCommands (some (r.lastStreamId symbol)) 100)
        if entries = [] then return 0 else do
        replayBatch clock symbol entries
        let replayed ← replayAvailableCommands clock c symbol
        return entries.length + replayed : ReplicaProgram Nat).run r := by
  show replayLoop clock c symbol r = _
  rw [replayLoop]
  split
  · next e he => rw [run_lift_bind, he]
  · next entries he =>
    rw [run_lift_bind, he]
    dsimp only
    split
    · rfl
    · split
      · next hrun => rw [run_bind_error hrun]
      · next r₁ hrun =>
        rw [run_bind_ok hrun, run_bind, show (replayAvailableCommands clock c symbol).run r₁ =
          replayLoop clock c symbol r₁ from rfl]
        rcases replayLoop clock c symbol r₁ with ⟨_ | _, _⟩ <;> rfl

/-- To read on for a symbol changes nothing that belongs to another, and reads nothing of it. -/
theorem replayAvailableCommands_local (h : c.Own symbol) :
    Local Replica.view symbol (replayAvailableCommands clock c symbol) := by
  suffices hall : ∀ m (r : Replica), r.unread c symbol = m →
      (∀ k, k ≠ symbol → ((replayAvailableCommands clock c symbol).run r).2.view k = r.view k) ∧
      ∀ t : Replica, r.view symbol = t.view symbol →
        ((replayAvailableCommands clock c symbol).run r).1 = ((replayAvailableCommands clock c symbol).run t).1 ∧
        ((replayAvailableCommands clock c symbol).run r).2.view symbol =
          ((replayAvailableCommands clock c symbol).run t).2.view symbol from
    ⟨fun r => (hall _ r rfl).1, fun r t => (hall _ r rfl).2 t⟩
  intro m
  induction m using Nat.strong_induction_on with
  | _ m ih =>
    intro r hm
    have hlast : ∀ t : Replica, r.view symbol = t.view symbol → t.lastStreamId symbol = r.lastStreamId symbol :=
      fun t ht => congrArg (Option.getD · "0-0") (Prod.mk.inj ht).2.symm
    rw [replayAvailableCommands_run]
    cases hread : c.readCommands (some (r.lastStreamId symbol)) 100 with
    | error e =>
      refine ⟨fun _ _ => rfl, fun t ht => ?_⟩
      rw [replayAvailableCommands_run, hlast t ht, hread]
      exact ⟨rfl, ht⟩
    | ok es =>
      rw [run_lift_bind]
      dsimp only
      by_cases hes : es = []
      · rw [if_pos hes]
        refine ⟨fun _ _ => rfl, fun t ht => ?_⟩
        rw [replayAvailableCommands_run, hlast t ht, hread, run_lift_bind]
        dsimp only
        rw [if_pos hes]
        exact ⟨rfl, ht⟩
      · have hbatch : Local Replica.view symbol (replayBatch clock symbol es) :=
          replayBatch_local (readCommands_own h hread)
        rw [if_neg hes, run_bind]
        have hstep : ∀ t : Replica, r.view symbol = t.view symbol → (replayAvailableCommands clock c symbol).run t =
            (replayBatch clock symbol es >>= fun _ => replayAvailableCommands clock c symbol >>= fun replayed =>
              pure (es.length + replayed)).run t := by
          intro t ht
          rw [replayAvailableCommands_run, hlast t ht, hread, run_lift_bind]
          dsimp only
          rw [if_neg hes]
        rcases hrun : (replayBatch clock symbol es).run r with ⟨e | _, r₁⟩
        · refine ⟨fun k hk => ?_, fun t ht => ?_⟩
          · have hframe := hbatch.frame r k hk
            rwa [hrun] at hframe
          · obtain ⟨hout, hview⟩ := hbatch.same r t ht
            rw [hstep t ht, run_bind]
            rcases hrun' : (replayBatch clock symbol es).run t with ⟨e' | _, t₁⟩ <;> rw [hrun, hrun'] at hout hview
            · cases hout
              exact ⟨rfl, hview⟩
            · cases hout
        · obtain ⟨hframe₁, hsame₁⟩ := ih _ (hm ▸ unread_lt hread hes hrun) r₁ rfl
          have hrest : ∀ s : Replica, ((replayAvailableCommands clock c symbol >>= fun replayed =>
              pure (es.length + replayed)).run s) = (((replayAvailableCommands clock c symbol).run s).1.map
                (es.length + ·), ((replayAvailableCommands clock c symbol).run s).2) := by
            intro s
            rw [run_bind]
            rcases (replayAvailableCommands clock c symbol).run s with ⟨e | a, s'⟩ <;> rfl
          dsimp only
          rw [hrest]
          refine ⟨fun k hk => ?_, fun t ht => ?_⟩
          · have hframe := hbatch.frame r k hk
            rw [hrun] at hframe
            exact (hframe₁ k hk).trans hframe
          · obtain ⟨hout, hview⟩ := hbatch.same r t ht
            rw [hstep t ht, run_bind]
            rcases hrun' : (replayBatch clock symbol es).run t with ⟨e' | _, t₁⟩ <;> rw [hrun, hrun'] at hout hview
            · cases hout
            · obtain ⟨hout₁, hview₁⟩ := hsame₁ t₁ hview
              dsimp only
              rw [hrest, hout₁]
              exact ⟨rfl, hview₁⟩

end

end Lob.Node
