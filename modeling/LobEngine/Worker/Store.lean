import LobEngine.Go.Partitioned
import LobEngine.Lib.Prog

/-!
# The store of the worker

What `Handle` calls of `storage/redis.go`. A call is one step: it completes, or it fails and changes nothing. The
store gives the entries of a stream their ids, each later than those before it, and drops the oldest entries of a
stream that has become too long.

* `State.symbol`: what is stored of a symbol, with every command that was ever appended to its stream.
* `act`: what a call does, and what it answers. The calls that can fail, and who leads, are a `Policy`.
* `SameLogs`: the command streams, the processed ids and the recovery snapshots are the same.
-/

namespace Lob.Worker

open Go (BookSnapshot CommandError Content Event GoError RecoverySnapshot maxReplayed)

/-- The message of an error of the store. -/
abbrev Failure := String

/-- Why `Handle` does not execute a command. -/
inductive Cause where
  /-- The body is not the JSON of a command. -/
  | body
  | partition (e : GoError)
  | command (e : CommandError)
  | store (e : Failure)

inductive Status where
  | processed
  | rejected
  deriving DecidableEq

structure CommandStatus where
  commandId : String
  symbol : String
  type : String
  status : Status
  /-- The text of the error. -/
  reason : Option Cause
  createdAt : Int
  updatedAt : Int

/-- What is stored of a symbol. -/
structure SymbolState where
  /-- Every command that was appended to the stream, the oldest first. -/
  log : Stream Go.Command
  /-- How many of them the stream has dropped. -/
  trimmed : Nat
  processedIds : List String
  recoverySnapshot : Option RecoverySnapshot
  /-- Every event that was appended to the event stream, the oldest first. -/
  events : List Event
  /-- How many of them the stream has dropped. -/
  eventsTrimmed : Nat
  readModel : Option BookSnapshot
  recentTrades : List Trade

structure State where
  /-- The symbols with commands. -/
  symbols : List String
  symbol : String → SymbolState
  /-- The statuses as they were saved, the last one first. -/
  statuses : List CommandStatus
  /-- Who holds the lock of the partition. -/
  leader : Option String

def SymbolState.empty : SymbolState := ⟨[], 0, [], none, [], 0, none, []⟩

def State.empty : State := ⟨[], fun _ => .empty, [], none⟩

/-- The command stream. -/
def SymbolState.stream (s : SymbolState) : Stream Go.Command := s.log.drop s.trimmed

/-- The event stream. -/
def SymbolState.eventStream (s : SymbolState) : List Event := s.events.drop s.eventsTrimmed

def SymbolState.commands (s : SymbolState) : List Go.Command := s.log.map (·.value)

/-- What a recovery reads of a symbol. -/
def State.content (s : State) (symbol : String) : Content where
  recoverySnapshot := (s.symbol symbol).recoverySnapshot.map some
  commands := (s.symbol symbol).stream.map fun e => ⟨e.id, some e.value⟩

/-- What a recovery of the partition reads. -/
def State.contents (s : State) : Store Content := ⟨s.symbols, s.content⟩

/-- A change of what is stored of one symbol. -/
def State.update (s : State) (symbol : String) (f : SymbolState → SymbolState) : State :=
  { s with symbol := Function.update s.symbol symbol (f (s.symbol symbol)) }

@[simp] theorem State.update_self (s : State) (symbol : String) (f : SymbolState → SymbolState) :
    (s.update symbol f).symbol symbol = f (s.symbol symbol) := Function.update_self ..

theorem State.update_ne (s : State) {symbol k : String} (f : SymbolState → SymbolState) (h : k ≠ symbol) :
    (s.update symbol f).symbol k = s.symbol k := Function.update_of_ne h ..

/-- `SADD`. -/
def setAdd (x : String) (xs : List String) : List String := if x ∈ xs then xs else x :: xs

/-- `AppendProcessedCommand`: the command joins its stream under the id, and the stream drops down to `trimmed`. -/
def State.append (s : State) (c : Go.Command) (id : String) (processedAt : Int) (trimmed : Nat) : State :=
  { s.update c.symbol fun x => { x with
      log := x.log ++ [⟨id, { c with processedAt := some processedAt }⟩]
      trimmed := trimmed
      processedIds := setAdd c.commandId x.processedIds } with
    symbols := setAdd c.symbol s.symbols }

theorem State.append_self (s : State) (c : Go.Command) (id : String) (processedAt : Int) (trimmed : Nat) :
    (s.append c id processedAt trimmed).symbol c.symbol = { s.symbol c.symbol with
      log := (s.symbol c.symbol).log ++ [⟨id, { c with processedAt := some processedAt }⟩]
      trimmed := trimmed
      processedIds := setAdd c.commandId (s.symbol c.symbol).processedIds } := Function.update_self ..

theorem State.append_ne (s : State) {c : Go.Command} {k : String} (h : k ≠ c.symbol) (id : String)
    (processedAt : Int) (trimmed : Nat) : (s.append c id processedAt trimmed).symbol k = s.symbol k :=
  Function.update_of_ne h ..

/-- The id is later than all ids of the stream. -/
def Later (id : String) (log : Stream Go.Command) : Prop :=
  ∃ k, streamRank id = some k ∧ 0 < k ∧ ∀ e ∈ log, (streamRank e.id).getD 0 < k

/-- `maxCommandsPerSymbol`: the stream keeps at least so many entries. -/
def maxCommands : Nat := 100000

inductive Call where
  | now
  | hasLeadership (workerID : String)
  | isCommandProcessed (symbol commandId : String)
  | appendProcessedCommand (c : Go.Command)
  | appendEvents (symbol : String) (events : List Event)
  | saveReadModel (symbol : String) (snapshot : BookSnapshot) (trades : List Trade)
  | saveRecoverySnapshot (symbol : String) (snapshot : RecoverySnapshot)
  | saveCommandStatus (status : CommandStatus)

def Call.Answer : Call → Type
  | .now => Int
  | .hasLeadership _ => Except Failure Bool
  | .isCommandProcessed _ _ => Except Failure Bool
  | .appendProcessedCommand _ => Except Failure String
  | .appendEvents _ _ => Except Failure Unit
  | .saveReadModel _ _ _ => Except Failure Unit
  | .saveRecoverySnapshot _ _ => Except Failure Unit
  | .saveCommandStatus _ => Except Failure Unit

/-- The answer is an error. -/
def Call.fails : (c : Call) → c.Answer → Bool
  | .now, _ => false
  | .hasLeadership _, r => !Except.isOk r
  | .isCommandProcessed _ _, r => !Except.isOk r
  | .appendProcessedCommand _, r => !Except.isOk r
  | .appendEvents _ _, r => !Except.isOk r
  | .saveReadModel _ _ _, r => !Except.isOk r
  | .saveRecoverySnapshot _ _, r => !Except.isOk r
  | .saveCommandStatus _, r => !Except.isOk r

/-- The environment of the workers. -/
structure Policy where
  /-- The call can fail. -/
  fails : Call → Prop
  /-- The answer of a check of leadership. -/
  leads : State → String → Except Failure Bool → Prop

/-- The call fails, or it does what `ok` says. -/
def orFails {α : Type} (fails : Prop) (s : State) (r : Except Failure α) (t : State) (ok : α → Prop) : Prop :=
  match r with
  | .ok a => ok a
  | .error _ => fails ∧ t = s

/-- `maxEventsPerSymbol`. -/
def maxEvents : Nat := 10000

def recentTradesLimit : Nat := 1000

/-- From the state `s`, the call answers `r` and leaves the state `t`. -/
def act (P : Policy) : (c : Call) → State → c.Answer → State → Prop
  | .now, s, _, t => t = s
  | .hasLeadership w, s, r, t => t = s ∧ P.leads s w r
  | .isCommandProcessed symbol id, s, r, t => orFails (P.fails (.isCommandProcessed symbol id)) s r t fun processed =>
      t = s ∧ processed = decide (id ∈ (s.symbol symbol).processedIds)
  | .appendProcessedCommand c, s, r, t => orFails (P.fails (.appendProcessedCommand c)) s r t fun id =>
      ∃ processedAt trimmed, Later id (s.symbol c.symbol).log ∧ (s.symbol c.symbol).trimmed ≤ trimmed ∧
        trimmed ≤ max (s.symbol c.symbol).trimmed ((s.symbol c.symbol).log.length + 1 - maxCommands) ∧
        t = s.append c id processedAt trimmed
  | .appendEvents symbol events, s, r, t => orFails (P.fails (.appendEvents symbol events)) s r t fun _ =>
      ∃ trimmed, (s.symbol symbol).eventsTrimmed ≤ trimmed ∧ trimmed ≤ max (s.symbol symbol).eventsTrimmed
          ((s.symbol symbol).events.length + events.length - maxEvents) ∧
        t = s.update symbol fun x => { x with events := x.events ++ events, eventsTrimmed := trimmed }
  | .saveReadModel symbol snapshot trades, s, r, t =>
      orFails (P.fails (.saveReadModel symbol snapshot trades)) s r t fun _ => t = s.update symbol fun x => { x with
        readModel := some snapshot
        recentTrades := if trades = [] then x.recentTrades
          else (trades.reverse ++ x.recentTrades).take recentTradesLimit }
  | .saveRecoverySnapshot symbol snapshot, s, r, t =>
      orFails (P.fails (.saveRecoverySnapshot symbol snapshot)) s r t fun _ =>
        t = s.update symbol fun x => { x with recoverySnapshot := some snapshot }
  | .saveCommandStatus status, s, r, t => orFails (P.fails (.saveCommandStatus status)) s r t fun _ =>
      t = { s with statuses := status :: s.statuses }

/-- A call does the same where other calls can fail, if it does not fail, or can fail there too. -/
theorem act_fails {P : Policy} {F : Call → Prop} {c : Call} {s t : State} {r : c.Answer} (h : act P c s r t)
    (hF : c.fails r = true → F c) : act { P with fails := F } c s r t := by
  have horFails : ∀ {α : Type} {p q : Prop} {r : Except Failure α} {ok : α → Prop}, orFails p s r t ok →
      ((!r.isOk) = true → q) → orFails q s r t ok := by
    intro α p q r ok h hq
    cases r with
    | ok a => exact h
    | error e => exact ⟨hq rfl, h.2⟩
  cases c with
  | now => exact h
  | hasLeadership w => exact h
  | _ => exact horFails h hF

/-! ## What is the same -/

/-- The command streams, the processed ids and the recovery snapshots are the same. -/
structure SameLogs (s t : State) : Prop where
  symbols : t.symbols = s.symbols
  log : ∀ k, (t.symbol k).log = (s.symbol k).log
  trimmed : ∀ k, (t.symbol k).trimmed = (s.symbol k).trimmed
  processedIds : ∀ k, (t.symbol k).processedIds = (s.symbol k).processedIds
  recoverySnapshot : ∀ k, (t.symbol k).recoverySnapshot = (s.symbol k).recoverySnapshot

namespace SameLogs

variable {s t u : State}

theorem refl (s : State) : SameLogs s s := ⟨rfl, fun _ => rfl, fun _ => rfl, fun _ => rfl, fun _ => rfl⟩

theorem trans (h : SameLogs s t) (h' : SameLogs t u) : SameLogs s u :=
  ⟨h'.symbols.trans h.symbols, fun k => (h'.log k).trans (h.log k), fun k => (h'.trimmed k).trans (h.trimmed k),
    fun k => (h'.processedIds k).trans (h.processedIds k),
    fun k => (h'.recoverySnapshot k).trans (h.recoverySnapshot k)⟩

theorem of_eq (h : t = s) : SameLogs s t := h ▸ .refl s

/-- An update of something else. -/
theorem update {symbol : String} {f : SymbolState → SymbolState} (h : ∀ x, (f x).log = x.log ∧
    (f x).trimmed = x.trimmed ∧ (f x).processedIds = x.processedIds ∧ (f x).recoverySnapshot = x.recoverySnapshot) :
    SameLogs s (s.update symbol f) := by
  have hk : ∀ k, ((s.update symbol f).symbol k).log = (s.symbol k).log ∧
      ((s.update symbol f).symbol k).trimmed = (s.symbol k).trimmed ∧
      ((s.update symbol f).symbol k).processedIds = (s.symbol k).processedIds ∧
      ((s.update symbol f).symbol k).recoverySnapshot = (s.symbol k).recoverySnapshot := by
    intro k
    rcases eq_or_ne k symbol with rfl | hne
    · rw [State.update_self]
      exact h _
    · rw [State.update_ne s f hne]
      exact ⟨rfl, rfl, rfl, rfl⟩
  exact ⟨rfl, fun k => (hk k).1, fun k => (hk k).2.1, fun k => (hk k).2.2.1, fun k => (hk k).2.2.2⟩

end SameLogs

/-- The call writes to what a recovery reads. -/
def Call.Logs : Call → Prop
  | .appendProcessedCommand _ => True
  | .saveRecoverySnapshot _ _ => True
  | _ => False

/-- The call writes to the event stream or to the read model. -/
def Call.Records : Call → Prop
  | .appendEvents _ _ => True
  | .saveReadModel _ _ _ => True
  | _ => False

/-- The call writes nothing but the status of a command. -/
def Call.Plain : Call → Prop
  | .now => True
  | .hasLeadership _ => True
  | .isCommandProcessed _ _ => True
  | .saveCommandStatus _ => True
  | _ => False

theorem Call.Plain.not_logs {c : Call} (h : c.Plain) : ¬ c.Logs := by
  cases c with
  | appendProcessedCommand c => exact h.elim
  | saveRecoverySnapshot symbol snapshot => exact h.elim
  | _ => exact not_false

/-- The other calls change nothing that a recovery reads. -/
theorem act_sameLogs {P : Policy} {c : Call} {s t : State} {r : c.Answer} (h : act P c s r t) (hc : ¬ c.Logs) :
    SameLogs s t := by
  cases c with
  | now => exact .of_eq h
  | hasLeadership w => exact .of_eq h.1
  | isCommandProcessed symbol id =>
    cases r with
    | error e => exact .of_eq h.2
    | ok b => exact .of_eq h.1
  | appendProcessedCommand c => exact absurd trivial hc
  | appendEvents symbol events =>
    cases r with
    | error e => exact .of_eq h.2
    | ok b =>
      obtain ⟨trimmed, -, -, rfl⟩ := h
      exact .update fun _ => ⟨rfl, rfl, rfl, rfl⟩
  | saveReadModel symbol snapshot trades =>
    cases r with
    | error e => exact .of_eq h.2
    | ok b =>
      cases h
      exact .update fun _ => ⟨rfl, rfl, rfl, rfl⟩
  | saveRecoverySnapshot symbol snapshot => exact absurd trivial hc
  | saveCommandStatus status =>
    cases r with
    | error e => exact .of_eq h.2
    | ok b =>
      cases h
      exact ⟨rfl, fun _ => rfl, fun _ => rfl, fun _ => rfl, fun _ => rfl⟩

/-- A plain call changes nothing of a symbol. -/
theorem act_plain {P : Policy} {c : Call} {s t : State} {r : c.Answer} (h : act P c s r t) (hc : c.Plain) :
    t.symbol = s.symbol := by
  cases c with
  | now => exact congrArg _ (show t = s from h)
  | hasLeadership w => exact congrArg _ h.1
  | isCommandProcessed symbol id =>
    cases r with
    | error e => exact congrArg _ h.2
    | ok b => exact congrArg _ h.1
  | saveCommandStatus status =>
    cases r with
    | error e => exact congrArg _ h.2
    | ok b =>
      cases h
      rfl
  | _ => exact hc.elim

end Lob.Worker
