import LobEngine.Go.Command
import LobEngine.Lib.Streams

/-!
# Recovery of a symbol

`recoverSymbol` of `storage/redis.go`: the book of the recovery snapshot, if there is one with a
checkpoint, and then the entries of the command stream after the checkpoint, executed in order.

* `recoverSymbol_run`: what a recovery that succeeds did.
* `replayEntries_book`: the book of the symbol after a replay.
* `recovers_tail_iff`: the recovery replays the whole tail exactly if it is not longer than one read.
* `tail_cut_off`: a stream with one entry more.
-/

namespace Lob.Go

open Exc

inductive StoreError where
  /-- What is stored is not the JSON of a recovery snapshot. -/
  | snapshot
  /-- The checkpoint is not the id of a stream entry. -/
  | range (start : String)
  /-- The entry holds no command, or it is not the JSON of a command. -/
  | entry (id : String)
  | command (e : CommandError)
  | partition (e : GoError)

/-- What the store has of a symbol: an inner `none` cannot be decoded. -/
structure Content where
  recoverySnapshot : Option (Option RecoverySnapshot)
  commands : Stream (Option Command)

inductive RecoveryMode where
  | fullReplay
  | snapshotPlusIncrementalReplay
  deriving DecidableEq

structure RecoveryResult where
  symbol : String
  mode : RecoveryMode
  lastCommandStreamID : String
  replayedCommandCount : Nat

/-- The greatest number of entries that `recoverSymbol` reads. -/
def maxReplayed : Nat := 100000

/-- `RecoverySnapshot`. -/
def Content.readSnapshot (c : Content) : Except StoreError (Option RecoverySnapshot) :=
  match c.recoverySnapshot with
  | none => .ok none
  | some none => .error .snapshot
  | some (some s) => .ok (some s)

def decodeCommands : Stream (Option Command) → Except StoreError (Stream Command)
  | [] => .ok []
  | e :: es =>
    match e.value with
    | none => .error (.entry e.id)
    | some c => (decodeCommands es).map (⟨e.id, c⟩ :: ·)

/-- `Commands`, from after `start` to the end. -/
def Content.readCommands (c : Content) (start : Option String) (count : Nat) :
    Except StoreError (Stream Command) :=
  match c.commands.range start count with
  | none => .error (.range (start.getD "-"))
  | some entries => decodeCommands entries

abbrev RegistryProgram := Exc StoreError Registry

/-- `registry.Execute`, without its result. -/
def executeEntry (now : Clock) (c : Command) : RegistryProgram Unit := fun r =>
  (((r.execute now c).1.mapError .command).map fun _ => (), (r.execute now c).2)

/-- The loop over the entries; returns the id of the last one. -/
def replayEntries (now : Clock) : Stream Command → String → RegistryProgram String
  | [], lastID => return lastID
  | e :: es, _ => do
    executeEntry now e.value
    replayEntries now es e.id

/-- The snapshot that a recovery starts from, and its checkpoint. -/
def checkpointOf (s : Option RecoverySnapshot) : Option (RecoverySnapshot × String) :=
  s.bind fun s => s.lastCommandStreamId.map (s, ·)

/-- The first part of `recoverSymbol`: the book of the snapshot. -/
def restoreBook (now : Clock) (symbol : String) (s : RecoverySnapshot) : RegistryProgram Unit := fun r =>
  match fromRecoverySnapshot s now with
  | .error e => (.error (.command (.engine e)), r)
  | .ok b =>
    match r.set symbol b with
    | .error e => (.error (.command e), r)
    | .ok r => (.ok (), r)

def recoverSymbol (now : Clock) (c : Content) (symbol : String) : RegistryProgram RecoveryResult := do
  let snapshot ← lift c.readSnapshot
  (match checkpointOf snapshot with
  | some (s, checkpoint) => do
    restoreBook now symbol s
    let entries ← lift (c.readCommands (some checkpoint) maxReplayed)
    let lastID ← replayEntries now entries checkpoint
    return ⟨symbol, .snapshotPlusIncrementalReplay, lastID, entries.length⟩
  | none => do
    let entries ← lift (c.readCommands none maxReplayed)
    let lastID ← replayEntries now entries "0-0"
    return ⟨symbol, .fullReplay, lastID, entries.length⟩)

/-! ## What a recovery does -/

/-- The snapshot with a checkpoint. -/
def Content.checkpoint (c : Content) : Option (RecoverySnapshot × String) :=
  c.readSnapshot.toOption.bind checkpointOf

/-- The entries after the checkpoint, or all entries. -/
def Content.tail (c : Content) : Stream (Option Command) :=
  (c.commands.after (c.checkpoint.map (·.2))).getD []

/-- The registry after the commands `cs`. -/
def Registry.replay (r : Registry) (now : Clock) (cs : List Command) : Registry :=
  cs.foldl (fun r c => (r.execute now c).2) r

/-- The registry that the replay starts from. -/
def Content.base (c : Content) (now : Clock) (symbol : String) (r : Registry) : Registry :=
  match c.checkpoint with
  | some (s, _) => ((restoreBook now symbol s).run r).2
  | none => r

/-- The book of the symbol that the replay starts from: that of the snapshot, or an empty book. -/
def Content.baseBook (c : Content) (now : Clock) (symbol : String) : Book :=
  (c.checkpoint.bind fun s => (fromRecoverySnapshot s.1 now).toOption).getD (Book.empty symbol now)

/-- The recovery replayed the whole tail: every entry after the checkpoint was executed in order, they
were counted, and the newest of them is the new checkpoint. -/
structure ReplayedTail (now : Clock) (c : Content) (symbol : String) (r r' : Registry)
    (result : RecoveryResult) : Prop where
  executed : ∃ cs : List Command, c.tail.map (·.value) = cs.map some ∧
    r' = (c.base now symbol r).replay now cs ∧
    -- In a stream of the symbol's own commands: its book.
    (r symbol = none → (∀ d ∈ cs, d.symbol = symbol) →
      (r' symbol).getD (Book.empty symbol now) = (c.baseBook now symbol).replay cs)
  count : result.replayedCommandCount = c.tail.length
  last : result.lastCommandStreamID =
    (c.tail.getLast?.map (·.id)).getD ((c.checkpoint.map (·.2)).getD "0-0")

section

variable {now : Clock} {c : Content} {symbol : String} {r r' : Registry} {result : RecoveryResult}

theorem decodeCommands_ok {es : Stream (Option Command)} {ds : Stream Command}
    (h : decodeCommands es = .ok ds) : es = ds.map fun d => ⟨d.id, some d.value⟩ := by
  induction es generalizing ds with
  | nil =>
    cases h
    rfl
  | cons e es ih =>
    unfold decodeCommands at h
    cases he : e.value with
    | none =>
      rw [he] at h
      cases h
    | some v =>
      rw [he] at h
      dsimp only at h
      cases hd : decodeCommands es with
      | error e' =>
        rw [hd] at h
        cases h
      | ok ds' =>
        rw [hd] at h
        cases h
        rw [ih hd, List.map_cons, ← he]

theorem replayEntries_ok {es : Stream Command} {lastID id : String}
    (h : (replayEntries now es lastID).run r = (.ok id, r')) :
    r' = r.replay now (es.map (·.value)) ∧ id = (es.getLast?.map (·.id)).getD lastID := by
  induction es generalizing r lastID with
  | nil =>
    cases h
    exact ⟨rfl, rfl⟩
  | cons e es ih =>
    obtain ⟨_, r₁, he, h⟩ := bind_ok h
    obtain ⟨hr, hid⟩ := ih h
    have hr₁ : r₁ = (r.execute now e.value).2 := (congrArg Prod.snd he).symm
    refine ⟨by rw [hr, hr₁]; rfl, hid.trans ?_⟩
    cases es with
    | nil => rfl
    | cons f es => rfl

/-- What a recovery that succeeds did: it replayed the first entries of the tail. -/
theorem recoverSymbol_run (h : (recoverSymbol now c symbol).run r = (.ok result, r')) :
    ∃ es : Stream Command, (c.tail.take maxReplayed) = es.map (fun d => ⟨d.id, some d.value⟩) ∧
      (replayEntries now es ((c.checkpoint.map (·.2)).getD "0-0")).run (c.base now symbol r) =
        (.ok result.lastCommandStreamID, r') ∧
      result.replayedCommandCount = es.length ∧
      ∀ x, c.checkpoint = some x → (restoreBook now symbol x.1).run r = (.ok (), c.base now symbol r) := by
  obtain ⟨snapshot, r₀, hlift, h⟩ := bind_ok h
  obtain ⟨hs, rfl⟩ := Prod.mk.inj hlift
  have hcheck : c.checkpoint = checkpointOf snapshot := by rw [Content.checkpoint, hs]; rfl
  have hread : ∀ {start es}, c.readCommands start maxReplayed = .ok es → start = c.checkpoint.map (·.2) →
      c.tail.take maxReplayed = es.map fun d => ⟨d.id, some d.value⟩ := by
    intro start es he hstart
    unfold Content.readCommands Stream.range at he
    rw [hstart] at he
    rw [Content.tail]
    cases ha : c.commands.after (c.checkpoint.map (·.2)) with
    | none =>
      rw [ha] at he
      cases he
    | some tail =>
      rw [ha] at he
      exact decodeCommands_ok he
  cases hc : checkpointOf snapshot with
  | none =>
    rw [hc] at h hcheck
    obtain ⟨es, _, hlift, h⟩ := bind_ok h
    obtain ⟨he, rfl⟩ := Prod.mk.inj hlift
    obtain ⟨id, r₁, hrun, h⟩ := bind_ok h
    cases h
    refine ⟨es, hread he (by rw [hcheck]; rfl), ?_, rfl, fun x hx => ?_⟩
    · rw [Content.base, hcheck]
      exact hrun
    · rw [hcheck] at hx
      cases hx
  | some x =>
    obtain ⟨s, checkpoint⟩ := x
    rw [hc] at h hcheck
    obtain ⟨_, r₀, hbook, h⟩ := bind_ok h
    obtain ⟨es, _, hlift, h⟩ := bind_ok h
    obtain ⟨he, rfl⟩ := Prod.mk.inj hlift
    obtain ⟨id, r₁, hrun, h⟩ := bind_ok h
    cases h
    have hbase : c.base now symbol r = r₀ := by rw [Content.base, hcheck]; exact congrArg Prod.snd hbook
    refine ⟨es, hread he (by rw [hcheck]; rfl), ?_, rfl, fun x hx => ?_⟩
    · rw [hbase, hcheck]
      exact hrun
    · rw [hcheck] at hx
      cases hx
      rw [hbase]
      exact hbook

/-! ## The book of the symbol -/

/-- A command of the symbol, that the registry executed without an error. -/
theorem execute_book {d : Command} (hd : d.symbol = symbol) {x : Book × Result}
    (h : (r.execute now d).1 = .ok x) : (r.execute now d).2 symbol =
      some (((r symbol).getD (Book.empty symbol now)).execute d).2 := by
  unfold Registry.execute Registry.getOrCreate at h ⊢
  rw [hd] at h ⊢
  cases hb : r symbol with
  | some b => exact Function.update_self ..
  | none =>
    rw [hb] at h
    dsimp only at h ⊢
    by_cases hblank : isBlank symbol = true
    · rw [if_pos hblank] at h
      cases h
    · rw [if_neg hblank]
      exact Function.update_self ..

/-- A replay without errors of commands of the symbol. -/
theorem replayEntries_book {es : Stream Command} {lastID id : String}
    (h : (replayEntries now es lastID).run r = (.ok id, r')) (hes : ∀ e ∈ es, e.value.symbol = symbol) :
    (r' symbol).getD (Book.empty symbol now) =
      ((r symbol).getD (Book.empty symbol now)).replay (es.map (·.value)) := by
  induction es generalizing r lastID with
  | nil =>
    cases h
    rfl
  | cons e es ih =>
    obtain ⟨_, r₁, he, h⟩ := bind_ok h
    rw [ih h fun e he => hes e (List.mem_cons_of_mem _ he), List.map_cons]
    cases hx : (r.execute now e.value).1 with
    | error err =>
      have := congrArg Prod.fst he
      simp only [executeEntry, run, hx] at this
      cases this
    | ok x =>
      have hr₁ : r₁ = (r.execute now e.value).2 := (congrArg Prod.snd he).symm
      rw [hr₁, execute_book (hes e List.mem_cons_self) hx]
      rfl

/-- The book that the replay starts from. -/
theorem base_book (hr : r symbol = none)
    (hrun : ∀ x, c.checkpoint = some x → (restoreBook now symbol x.1).run r = (.ok (), c.base now symbol r)) :
    (c.base now symbol r symbol).getD (Book.empty symbol now) = c.baseBook now symbol := by
  unfold Content.baseBook
  cases hc : c.checkpoint with
  | none =>
    rw [Content.base, hc]
    dsimp only
    rw [hr]
    rfl
  | some x =>
    have hrun := hrun x hc
    simp only [restoreBook, run] at hrun
    cases hb : fromRecoverySnapshot x.1 now with
    | error e =>
      rw [hb] at hrun
      cases hrun
    | ok b =>
      rw [hb] at hrun
      dsimp only at hrun
      unfold Registry.set at hrun
      split at hrun
      · next hset =>
        split at hset <;> cases hset
        cases hrun
      · next hset =>
        split at hset <;> cases hset
        rw [show c.base now symbol r = r.put symbol b from (congrArg Prod.snd hrun).symm]
        simp only [Option.bind_some, hb]
        exact congrArg (Option.getD · _) (Function.update_self ..)

/-- The recovery replayed the whole tail, exactly if the tail is not longer than what one call reads. -/
theorem recovers_tail_iff (h : (recoverSymbol now c symbol).run r = (.ok result, r')) :
    ReplayedTail now c symbol r r' result ↔ c.tail.length ≤ maxReplayed := by
  obtain ⟨es, htail, hrun, hcount, hbase⟩ := recoverSymbol_run h
  have hlen : es.length = min maxReplayed c.tail.length := by
    rw [← List.length_take, htail, List.length_map]
  constructor
  · intro hall
    have hcount' := hall.count
    omega
  · intro hle
    rw [List.take_of_length_le hle] at htail
    obtain ⟨hr', hid⟩ := replayEntries_ok hrun
    refine ⟨⟨es.map (·.value), ?_, hr', fun hr hsym => ?_⟩, by rw [hcount, htail, List.length_map], ?_⟩
    · rw [htail, List.map_map, List.map_map]
      rfl
    · rw [replayEntries_book hrun fun e he => hsym _ (List.mem_map_of_mem he), base_book hr hbase]
    · rw [hid, htail, List.getLast?_map, Option.map_map]
      rfl

/-- A command of user `u`; `prices` has the fields of the payload that are prices. -/
def orderCommand (type orderId : String) (side : Side) (quantity : Int) (prices : List (String × Int)) : Command where
  commandId := orderId
  type := type
  symbol := "BTC-USD"
  payload := some (.obj ([("orderId", .str orderId), ("userId", .str "u"), ("side", .str (sideText side)),
    ("quantity", .num (.int quantity)), ("timestamp", .num (.int 0))] ++ prices.map fun p => (p.1, .num (.int p.2))))
  createdAt := 0
  processedAt := some 0

def limitCommand (orderId : String) (side : Side) (priceTicks quantity : Int) : Command :=
  orderCommand "PLACE_LIMIT_ORDER" orderId side quantity [("priceTicks", priceTicks)]

/-- The log of the calls of `mixed`, of `sweep` and of another limit order, with a snapshot before the last two. -/
def mixedLog : Content where
  recoverySnapshot := some (some (mixed.recoverySnapshot (some "5-0")))
  commands := [⟨"1-0", some (limitCommand "a" .sell 1 2)⟩, ⟨"2-0", some (limitCommand "b" .sell 1 1)⟩,
    ⟨"3-0", some (limitCommand "c" .sell 2 3)⟩, ⟨"4-0", some (limitCommand "d" .buy 1 1)⟩,
    ⟨"5-0", some (orderCommand "PLACE_TRAILING_STOP_MARKET_ORDER" "t" .buy 1 [("trailingAmountTicks", 1)])⟩,
    ⟨"6-0", some (limitCommand "e" .buy 2 3)⟩, ⟨"7-0", some (limitCommand "f" .sell 3 1)⟩]

/-- The first of the two replayed commands triggers the stop order of the snapshot. -/
theorem recovers_tail_iff_mixed : ∃ result r',
    (recoverSymbol (fun _ => 0) mixedLog "BTC-USD").run .empty = (.ok result, r') ∧
      result.replayedCommandCount = 2 ∧ result.lastCommandStreamID = "7-0" ∧
      (ReplayedTail (fun _ => 0) mixedLog "BTC-USD" .empty r' result ↔ mixedLog.tail.length ≤ maxReplayed) := by
  have h : ((recoverSymbol (fun _ => 0) mixedLog "BTC-USD").run .empty).1.toOption.map
      (fun x => (x.replayedCommandCount, x.lastCommandStreamID)) = some (2, "7-0") := by decide +kernel
  rcases hrun : (recoverSymbol (fun _ => 0) mixedLog "BTC-USD").run .empty with ⟨e | result, r'⟩
  · rw [hrun] at h
    cases h
  · rw [hrun] at h
    obtain ⟨hcount, hlast⟩ := Prod.mk.inj (Option.some.inj h)
    exact ⟨result, r', rfl, hcount, hlast, recovers_tail_iff hrun⟩

/-! ## A stream that is too long -/

/-- The payload of a market order for one. -/
def marketPayload : Json := .obj [("orderId", .str "m"), ("userId", .str "u"), ("side", .str "BUY"),
  ("quantity", .num (.int 1)), ("timestamp", .num (.int 0))]

def marketCommand : Command where
  commandId := "c"
  type := "PLACE_MARKET_ORDER"
  symbol := "BTC-USD"
  payload := some marketPayload
  createdAt := 0
  processedAt := some 0

def marketInput : OrderInput := ⟨"m", "u", "BUY", none, none, none, 1, 0⟩

/-- The book of the view has no orders. -/
def Idle (v : View) : Prop := v.symbol = "BTC-USD" ∧ v.toDepth = Depth.empty ∧ v.stops = .empty

/-- A market order finds nothing, and the book has no orders after it either. -/
theorem market_idle {v : View} (h : Idle v) :
    ∃ r v', (Spec.program (.placeMarket marketInput)).run v = (.ok r, v') ∧ Idle v' := by
  obtain ⟨⟨bids, asks⟩, name, stops, trades, last, sequence, clock⟩ := v
  obtain ⟨hname, hdepth, hstops⟩ := h
  cases hname
  cases hdepth
  cases hstops
  exact ⟨_, _, rfl, rfl, rfl, rfl⟩

theorem market_ok {b : Book} {v : View} (h : Good b v) (hi : Idle v) :
    ∃ result, (b.execute marketCommand).1 = .ok result ∧
      ∃ v', Good (b.execute marketCommand).2 v' ∧ Idle v' := by
  have hcall : marketCommand.call = .ok (.placeMarket marketInput) := by rfl
  obtain ⟨result, v', hrun, hi'⟩ := market_idle hi
  obtain ⟨hout, hgood⟩ := call_refines (.placeMarket marketInput) h
  rw [hrun] at hout hgood
  refine ⟨result, ?_, v', ?_, hi'⟩
  · simp only [Book.execute, hcall, hout]
    rfl
  · simpa only [Book.execute, hcall] using hgood

/-- The book of the symbol has no orders, if there is one. -/
def IdleIn (now : Clock) (r : Registry) : Prop :=
  ∃ v, Good ((r "BTC-USD").getD (Book.empty "BTC-USD" now)) v ∧ Idle v

theorem executeEntry_idle (h : IdleIn now r) :
    ∃ r', (executeEntry now marketCommand).run r = (.ok (), r') ∧ IdleIn now r' := by
  obtain ⟨v, hgood, hi⟩ := h
  obtain ⟨result, hout, v', hgood', hi'⟩ := market_ok hgood hi
  have hcreate : ∃ r₀, r.getOrCreate "BTC-USD" now =
      .ok ((r "BTC-USD").getD (Book.empty "BTC-USD" now), r₀) := by
    unfold Registry.getOrCreate
    cases r "BTC-USD" with
    | some b => exact ⟨_, rfl⟩
    | none => exact ⟨_, rfl⟩
  obtain ⟨r₀, hcreate⟩ := hcreate
  set b := (r "BTC-USD").getD (Book.empty "BTC-USD" now)
  have hrun : r.execute now marketCommand =
      (.ok ((b.execute marketCommand).2, result), r₀.put "BTC-USD" (b.execute marketCommand).2) := by
    unfold Registry.execute
    rw [show marketCommand.symbol = "BTC-USD" from rfl, hcreate]
    dsimp only
    rw [hout]
    rfl
  refine ⟨r₀.put "BTC-USD" (b.execute marketCommand).2, ?_, v', ?_, hi'⟩
  · simp only [executeEntry, run, hrun]
    rfl
  · rw [show r₀.put "BTC-USD" (b.execute marketCommand).2 "BTC-USD" = some (b.execute marketCommand).2
      from Function.update_self ..]
    exact hgood'

theorem replayEntries_idle {es : Stream Command} (h : IdleIn now r)
    (hes : ∀ e ∈ es, e.value = marketCommand) (lastID : String) :
    ∃ id r', (replayEntries now es lastID).run r = (.ok id, r') := by
  induction es generalizing r lastID with
  | nil => exact ⟨_, _, rfl⟩
  | cons e es ih =>
    obtain ⟨r₁, hrun, h₁⟩ := executeEntry_idle h
    obtain ⟨id, r', hrest⟩ := ih h₁ (fun x hx => hes x (List.mem_cons_of_mem _ hx)) e.id
    refine ⟨id, r', ?_⟩
    unfold replayEntries
    rw [hes e List.mem_cons_self, run_bind_ok hrun]
    exact hrest

/-- A stream of `n` market orders, and no snapshot. -/
def marketLog (n : Nat) : Content where
  recoverySnapshot := none
  commands := (List.range n).map fun k => ⟨toString (k + 1) ++ "-0", some marketCommand⟩

theorem decodeCommands_some (es : Stream Command) :
    decodeCommands (es.map fun d => ⟨d.id, some d.value⟩) = .ok es := by
  induction es with
  | nil => rfl
  | cons e es ih =>
    rw [List.map_cons, decodeCommands]
    dsimp only
    rw [ih]
    rfl

theorem marketLog_tail (n : Nat) : (marketLog n).tail.length = n := by
  rw [show (marketLog n).tail = (marketLog n).commands from rfl, marketLog, List.length_map,
    List.length_range]

/-- A stream of market orders is recovered without an error, whatever its length is. -/
theorem marketLog_recovers (n : Nat) : ∃ result r',
    (recoverSymbol (fun _ => 0) (marketLog n) "BTC-USD").run .empty = (.ok result, r') := by
  set es : Stream Command :=
    ((List.range n).map fun k => ⟨toString (k + 1) ++ "-0", marketCommand⟩).take maxReplayed with hes
  have hread : (marketLog n).readCommands none maxReplayed = .ok es := by
    rw [← decodeCommands_some]
    simp only [marketLog, Content.readCommands, Stream.range, Stream.after, Option.map_some, hes,
      List.map_take, List.map_map]
    rfl
  have hidle : IdleIn (fun _ => 0) Registry.empty :=
    ⟨_, good_empty (fun _ => 0) (by decide), rfl, rfl, rfl⟩
  have hmarket : ∀ e ∈ es, e.value = marketCommand := fun e he => by
    obtain ⟨k, -, rfl⟩ := List.mem_map.mp (List.mem_of_mem_take he)
    rfl
  obtain ⟨id, r', hrun⟩ := replayEntries_idle hidle hmarket "0-0"
  refine ⟨⟨"BTC-USD", .fullReplay, id, es.length⟩, r', ?_⟩
  have hnone : (marketLog n).readSnapshot = .ok none := rfl
  unfold recoverSymbol
  rw [run_lift_bind, hnone]
  dsimp only [checkpointOf, Option.bind_none]
  rw [run_lift_bind, hread]
  dsimp only
  rw [run_bind_ok hrun]
  rfl

/-- Of a stream of 100001 market orders the last one is not replayed. -/
theorem tail_cut_off : ∃ result r',
    (recoverSymbol (fun _ => 0) (marketLog 100001) "BTC-USD").run .empty = (.ok result, r') ∧
      ¬ ReplayedTail (fun _ => 0) (marketLog 100001) "BTC-USD" .empty r' result := by
  obtain ⟨result, r', hrun⟩ := marketLog_recovers 100001
  refine ⟨result, r', hrun, fun hall => ?_⟩
  obtain ⟨es, htail, -, hcount, -⟩ := recoverSymbol_run hrun
  have hlen := marketLog_tail 100001
  have hes : es.length ≤ maxReplayed := by
    rw [← List.length_map, ← htail]
    exact List.length_take_le ..
  have hcount' := hall.count
  unfold maxReplayed at hes
  omega

end

end Lob.Go
