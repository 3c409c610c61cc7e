import LobEngine.Worker.Handling

/-!
# Calls that complete

The runs of the parts of `Handle`, alone, when the calls complete.

* `handle_new`, `handle_again`: `Handle` of a command that is not in the stream, and of one that is.
* `persist_run`: the writes of an executed command.
* `market_steps`: a market order, up to its execution.
-/

namespace Lob.Worker

open Exc Go Prog

section

variable {p : Processor} {P : Policy} {s t : State}

theorem readNow_run : Run (act P) readNow s 0 s :=
  have h : act P .now s (0 : Int) s := rfl
  .call h (.ret _ _)

theorem checkLeader_run (h : P.leads s p.workerID (.ok true)) : Run (act P) (checkLeader p) s (.ok ()) s :=
  have hact : act P (.hasLeadership p.workerID) s (Except.ok true : Except Failure Bool) s := ⟨rfl, h⟩
  .call hact (.ret _ _)

theorem lookup_new {symbol commandId : String} (h : commandId ∉ (s.symbol symbol).processedIds) :
    Run (act P) (isCommandProcessed symbol commandId) s (.ok false) s :=
  have hact : act P (.isCommandProcessed symbol commandId) s (Except.ok false : Except Failure Bool) s :=
    ⟨rfl, (decide_eq_false h).symm⟩
  .call hact (.ret _ _)

theorem lookup_old {symbol commandId : String} (h : commandId ∈ (s.symbol symbol).processedIds) :
    Run (act P) (isCommandProcessed symbol commandId) s (.ok true) s :=
  have hact : act P (.isCommandProcessed symbol commandId) s (Except.ok true : Except Failure Bool) s :=
    ⟨rfl, (decide_eq_true h).symm⟩
  .call hact (.ret _ _)

theorem saveStatus_run (c : Go.Command) (status : Status) (reason : Option Cause) :
    Run (act P) (saveStatus c status reason) s (.ok ()) { s with
      statuses := ⟨c.commandId, c.symbol, c.type, status, reason, c.createdAt, 0⟩ :: s.statuses } :=
  have h : act P (.saveCommandStatus ⟨c.commandId, c.symbol, c.type, status, reason, c.createdAt, 0⟩) s
    (Except.ok () : Except Failure Unit) { s with
      statuses := ⟨c.commandId, c.symbol, c.type, status, reason, c.createdAt, 0⟩ :: s.statuses } := rfl
  readNow_run.bind (.call h (.ret _ _))

theorem reject_run (c : Go.Command) (cause : Cause) : ∃ outcome, outcome.disposition = .ack ∧
    outcome.leadershipLost = false ∧ Run (act P) (reject c cause) s outcome { s with
      statuses := ⟨c.commandId, c.symbol, c.type, .rejected, some cause, c.createdAt, 0⟩ :: s.statuses } :=
  ⟨_, rfl, rfl, (saveStatus_run c .rejected (some cause)).bind (readNow_run.bind (.ret _ _))⟩

/-- `Handle` of a new command, up to its execution. -/
theorem handle_new {A : (c : Call) → State → c.Answer → State → Prop} {now : Clock} {r : Registry} {c : Go.Command}
    {m : Handler (Outcome × Registry)} (hcheck : checkPartition c.symbol p.partitionID p.partitionCount = .ok ())
    (hlead : Run A (checkLeader p) s (.ok ()) s)
    (hnew : Run A (isCommandProcessed c.symbol c.commandId) s (.ok false) s)
    (h : Steps A (do
      let outcome ← (match (r.execute now c).1 with
        | .error e => reject c (.command e)
        | .ok (book, result) => commit p c book result)
      return (outcome, (r.execute now c).2)) s m t) : Steps A (handle p now r (some c)) s m t := by
  rw [handle_command hcheck]
  exact .after hlead (.after hnew h)

theorem appendProcessedCommand_run (c : Go.Command) {id : String} (hid : Later id (s.symbol c.symbol).log)
    (processedAt : Int) : Run (act P) (appendProcessedCommand c) s (.ok id)
      (s.append c id processedAt (s.symbol c.symbol).trimmed) :=
  have h : act P (.appendProcessedCommand c) s (Except.ok id : Except Failure String)
      (s.append c id processedAt (s.symbol c.symbol).trimmed) :=
    ⟨processedAt, _, hid, le_rfl, le_max_left .., rfl⟩
  .call h (.ret _ _)

theorem appendEvents_run (symbol : String) (events : List Event) : ∃ t, SameLogs s t ∧
    (∀ k ≠ symbol, (t.symbol k).events = (s.symbol k).events) ∧
    (t.symbol symbol).events = (s.symbol symbol).events ++ events ∧ t.leader = s.leader ∧
    Run (act P) (appendEvents symbol events) s (.ok ()) t := by
  unfold appendEvents
  split
  · next h =>
    rw [h]
    exact ⟨s, .refl s, fun _ _ => rfl, (List.append_nil _).symm, rfl, .ret _ _⟩
  · have h : act P (.appendEvents symbol events) s (Except.ok () : Except Failure Unit) (s.update symbol fun x =>
        { x with events := x.events ++ events, eventsTrimmed := x.eventsTrimmed }) :=
      ⟨_, le_rfl, le_max_left .., rfl⟩
    refine ⟨_, act_sameLogs h not_false, fun k hk => ?_, ?_, rfl, .call h (.ret _ _)⟩
    · rw [State.update_ne _ _ hk]
    · rw [State.update_self]

/-- `Handle` of a command of the stream. -/
theorem handle_again (now : Clock) {r : Registry} {c : Go.Command}
    (hcheck : checkPartition c.symbol p.partitionID p.partitionCount = .ok ())
    (hlead : P.leads s p.workerID (.ok true)) (hold : c.commandId ∈ (s.symbol c.symbol).processedIds) :
    Run (act P) (handle p now r (some c)) s (⟨.ack, c.symbol, .none, false, none⟩, r) { s with
      statuses := ⟨c.commandId, c.symbol, c.type, .processed, none, c.createdAt, 0⟩ :: s.statuses } := by
  rw [handle_command hcheck]
  exact (checkLeader_run hlead).bind ((lookup_old hold).bind ((saveStatus_run c .processed none).bind (.ret _ _)))

/-- The writes of an executed command. -/
theorem persist_run (c : Go.Command) {id : String} (hid : Later id (s.symbol c.symbol).log) (book : Book)
    (result : Result) : ∃ t, (∀ k, (t.symbol k).log = ((s.append c id 0 (s.symbol c.symbol).trimmed).symbol k).log) ∧
      (∀ k, (t.symbol k).events = if k = c.symbol then (s.symbol k).events ++ result.events else (s.symbol k).events) ∧
      (t.symbol c.symbol).recoverySnapshot = some (book.recoverySnapshot (some id)) ∧
      (∀ k, (t.symbol k).trimmed = (s.symbol k).trimmed) ∧
      (∃ st ∈ t.statuses, st.symbol = c.symbol ∧ st.status = .processed) ∧ t.leader = s.leader ∧
      Run (act P) (persist c book result) s (.ok ()) t := by
  obtain ⟨u, hsame, hother, hself, hleader, hevents⟩ := appendEvents_run (P := P)
    (s := s.append c id 0 (s.symbol c.symbol).trimmed) c.symbol result.events
  have hread : act P (.saveReadModel c.symbol book.snapshot result.trades) u (Except.ok () : Except Failure Unit)
      (u.update c.symbol fun x => { x with
        readModel := some book.snapshot
        recentTrades := if result.trades = [] then x.recentTrades
          else (result.trades.reverse ++ x.recentTrades).take recentTradesLimit }) := rfl
  set v := u.update c.symbol fun x => { x with
    readModel := some book.snapshot
    recentTrades := if result.trades = [] then x.recentTrades
      else (result.trades.reverse ++ x.recentTrades).take recentTradesLimit }
  have hsave : act P (.saveRecoverySnapshot c.symbol (book.recoverySnapshot (some id))) v
      (Except.ok () : Except Failure Unit) (v.update c.symbol fun x => { x with
        recoverySnapshot := some (book.recoverySnapshot (some id)) }) := rfl
  refine ⟨_, fun k => ?_, fun k => ?_, ?_, fun k => ?_, ⟨_, List.mem_cons_self, rfl, rfl⟩, ?_,
    (appendProcessedCommand_run c hid 0).bind (hevents.bind
    (.call hread (.call hsave (saveStatus_run c .processed none))))⟩
  · rw [← hsame.log k]
    rcases eq_or_ne k c.symbol with rfl | hne
    · rw [State.update_self, State.update_self]
    · rw [State.update_ne _ _ hne, State.update_ne _ _ hne]
  · rcases eq_or_ne k c.symbol with rfl | hne
    · rw [State.update_self, State.update_self, if_pos rfl]
      show (u.symbol c.symbol).events = _
      rw [hself, State.append_self]
    · rw [State.update_ne _ _ hne, State.update_ne _ _ hne, if_neg hne, hother k hne, State.append_ne _ hne]
  · rw [State.update_self]
  · have htrimmed := hsame.trimmed k
    rcases eq_or_ne k c.symbol with rfl | hne
    · rw [State.update_self, State.update_self]
      exact htrimmed.trans (by rw [State.append_self])
    · rw [State.update_ne _ _ hne, State.update_ne _ _ hne, htrimmed, State.append_ne _ hne]
  · exact hleader

end

/-- The only worker of the only partition. -/
def soleWorker : Processor := ⟨"w", 0, 1⟩

/-- No call fails, and the worker leads. -/
def reliable : Policy := ⟨fun _ => False, fun _ _ answer => answer = .ok true⟩

/-- `AppendProcessedCommand` can fail. -/
def appendFails : Policy := ⟨fun c => c = .appendProcessedCommand marketCommand, fun _ _ answer => answer = .ok true⟩

/-- Every call but `AppendProcessedCommand` can fail. -/
def flaky : Policy := ⟨fun c => ∀ d, c ≠ .appendProcessedCommand d, fun _ _ answer => answer = .ok true⟩

/-- The book of the only symbol, after a market order. -/
def marketBook : Book := ((Book.empty "BTC-USD" fun _ => 0).execute marketCommand).2

theorem market_executes : ∃ result, (Registry.empty.execute (fun _ => 0) marketCommand).1 = .ok (marketBook, result) ∧
    (Registry.empty.execute (fun _ => 0) marketCommand).2 "BTC-USD" = some marketBook := by
  have hheld : Held "BTC-USD" Registry.empty [] := ⟨fun _ h => (by cases h), fun _ => rfl⟩
  obtain ⟨b, -, hb, hout, hbook, -⟩ := hheld.execute (c := marketCommand) (by decide) fun _ => le_refl (0 : Int)
  obtain ⟨result, hresult, -⟩ := market_ok (good_empty (fun _ => 0) (by decide)) ⟨rfl, rfl, rfl⟩
  cases hb
  refine ⟨result, ?_, hbook⟩
  rw [hout, show ((Registry.empty marketCommand.symbol).getD (Book.empty marketCommand.symbol fun _ => 0)) =
    Book.empty "BTC-USD" fun _ => 0 from rfl, hresult]
  rfl

theorem not_failsLate {b : Book} {c : Go.Command} {result : Result} (h : (b.execute c).1 = .ok result) :
    ¬ b.FailsLate c := by
  rintro ⟨call, e, hcall, -, he⟩
  rw [Book.execute, hcall] at h
  dsimp only at h
  rw [he] at h
  cases h

theorem market_not_late :
    ¬ ((Registry.empty marketCommand.symbol).getD
      (Book.empty marketCommand.symbol fun _ => 0)).FailsLate marketCommand :=
  let ⟨_, hresult, _⟩ := market_ok (good_empty (fun _ => 0) (by decide)) ⟨rfl, rfl, rfl⟩
  not_failsLate hresult

theorem market_events {result : Result}
    (h : (Registry.empty.execute (fun _ => 0) marketCommand).1 = .ok (marketBook, result)) :
    result.events.length = 3 := by
  have hlength : (Registry.empty.execute (fun _ => 0) marketCommand).1.toOption.map (fun x => x.2.events.length) =
      some 3 := by decide +kernel
  rw [h] at hlength
  exact Option.some.inj hlength

/-- `Handle` of the market order, up to its execution. -/
theorem market_steps {P : Policy} {p : Processor} {s : State}
    (hp : checkPartition "BTC-USD" p.partitionID p.partitionCount = .ok ()) (hlead : P.leads s p.workerID (.ok true))
    (hnew : "c" ∉ (s.symbol "BTC-USD").processedIds) :
    ∃ result, result.events.length = 3 ∧
      Steps (act P) (handle p (fun _ => 0) Registry.empty (some marketCommand)) s (do
        let outcome ← commit p marketCommand marketBook result
        return (outcome, (Registry.empty.execute (fun _ => 0) marketCommand).2)) s := by
  obtain ⟨result, hexecute, -⟩ := market_executes
  refine ⟨result, market_events hexecute, handle_new hp (checkLeader_run hlead) (lookup_new hnew) ?_⟩
  rw [hexecute]
  exact .refl _ _

/-- The store once the market order has joined its stream. -/
def marketStore : State := State.empty.append marketCommand "1-0" 0 0

theorem market_short : marketStore.Short := by
  intro k
  rcases eq_or_ne k "BTC-USD" with rfl | hne
  · exact Nat.one_le_ofNat
  · rw [marketStore, State.append_ne _ hne]
    exact Nat.zero_le _

theorem market_later : Later "1-0" (State.empty.symbol marketCommand.symbol).log :=
  ⟨2 ^ 64, by decide +kernel, by decide, fun _ h => (by cases h)⟩

end Lob.Worker
