import LobEngine.Worker.Store

/-!
# The processor of the worker

`Processor.Handle` of `worker/processor.go`, as a program that calls the store. The processor also has the registry
of the books, in its memory.
-/

namespace Lob.Worker

open Go (Book Event Registry Result checkPartition)
open Prog

inductive Disposition where
  | ack
  | nackRequeue
  | reject
  deriving DecidableEq

/-- `RejectedEvent`. -/
structure RejectedEvent where
  symbol : String
  commandId : String
  /-- `none` is `nil`. -/
  orderId : Option String
  commandType : String
  reason : Cause
  timestamp : Int

def rejectedEvent (symbol commandId orderId commandType : String) (reason : Cause) (now : Int) : RejectedEvent :=
  ⟨symbol, commandId, if orderId = "" then none else some orderId, commandType, reason, now⟩

/-- The events that are published. -/
inductive Published where
  | none
  | events (es : List Event)
  | rejected (e : RejectedEvent)

structure Outcome where
  disposition : Disposition
  symbol : String
  publishEvents : Published
  leadershipLost : Bool
  /-- The error beside the outcome. -/
  error : Option Cause

structure Processor where
  workerID : String
  partitionID : Int
  partitionCount : Int

abbrev Handler := Prog Call Call.Answer

/-! ## The calls -/

def readNow : Handler Int := .call .now .ret

def hasLeadership (workerID : String) : Handler (Except Failure Bool) := .call (.hasLeadership workerID) .ret

def isCommandProcessed (symbol commandId : String) : Handler (Except Failure Bool) :=
  .call (.isCommandProcessed symbol commandId) .ret

def appendProcessedCommand (c : Go.Command) : Handler (Except Failure String) :=
  .call (.appendProcessedCommand c) .ret

def appendEvents (symbol : String) (events : List Event) : Handler (Except Failure Unit) :=
  if events = [] then .ret (.ok ()) else .call (.appendEvents symbol events) .ret

def saveReadModel (symbol : String) (snapshot : Go.BookSnapshot) (trades : List Trade) :
    Handler (Except Failure Unit) := .call (.saveReadModel symbol snapshot trades) .ret

def saveRecoverySnapshot (symbol : String) (snapshot : Go.RecoverySnapshot) : Handler (Except Failure Unit) :=
  .call (.saveRecoverySnapshot symbol snapshot) .ret

def saveCommandStatus (status : CommandStatus) : Handler (Except Failure Unit) :=
  .call (.saveCommandStatus status) .ret

/-! ## `processor.go` -/

def saveStatus (c : Go.Command) (status : Status) (reason : Option Cause) : Handler (Except Failure Unit) := do
  let now ← readNow
  saveCommandStatus ⟨c.commandId, c.symbol, c.type, status, reason, c.createdAt, now⟩

def reject (c : Go.Command) (cause : Cause) : Handler Outcome := do
  match ← saveStatus c .rejected (some cause) with
  | .error e => return ⟨.reject, "", .none, false, some (.store e)⟩
  | .ok _ => do
    let now ← readNow
    let event := rejectedEvent c.symbol c.commandId (Go.Unmarshal.orderIdOf c.payload) c.type cause now
    return ⟨.ack, c.symbol, .rejected event, false, none⟩

/-- The writes of a command that was executed, as long as none fails. -/
def persist (c : Go.Command) (book : Book) (result : Result) : Handler (Except Failure Unit) := do
  match ← appendProcessedCommand c with
  | .error e => return .error e
  | .ok streamID => do
    match ← appendEvents c.symbol result.events with
    | .error e => return .error e
    | .ok _ => do
      match ← saveReadModel c.symbol book.snapshot result.trades with
      | .error e => return .error e
      | .ok _ => do
        match ← saveRecoverySnapshot c.symbol (book.recoverySnapshot (some streamID)) with
        | .error e => return .error e
        | .ok _ => saveStatus c .processed none

/-- A check of leadership: the error, or whether the worker leads. -/
def checkLeader (p : Processor) : Handler (Except (Option Cause) Unit) := do
  match ← hasLeadership p.workerID with
  | .error e => return .error (some (.store e))
  | .ok false => return .error none
  | .ok true => return .ok ()

/-- The outcome when the worker does not lead. -/
def lost (e : Option Cause) : Outcome := ⟨.nackRequeue, "", .none, true, e⟩

/-- The rest of `Handle`, after the command was executed. -/
def commit (p : Processor) (c : Go.Command) (book : Book) (result : Result) : Handler Outcome := do
  match ← checkLeader p with
  | .error e => return lost e
  | .ok _ => do
    match ← persist c book result with
    | .error e => reject c (.store e)
    | .ok _ => do
      let stillLeader ← checkLeader p
      return ⟨.ack, c.symbol, .events result.events, !stillLeader.isOk, none⟩

/-- `Handle` of a command of the partition, from the first check of leadership on. -/
def handleCommand (p : Processor) (now : Clock) (r : Registry) (c : Go.Command) : Handler (Outcome × Registry) := do
  match ← checkLeader p with
  | .error e => return (lost e, r)
  | .ok _ => do
    match ← isCommandProcessed c.symbol c.commandId with
    | .error e => do
      let outcome ← reject c (.store e)
      return (outcome, r)
    | .ok true => do
      let saved ← saveStatus c .processed none
      return (⟨.ack, c.symbol, .none, false, (match saved with | .error e => some (.store e) | .ok _ => none)⟩, r)
    | .ok false => do
      let executed := r.execute now c
      let outcome ← (match executed.1 with
        | .error e => reject c (.command e)
        | .ok (book, result) => commit p c book result)
      return (outcome, executed.2)

/-- `Handle`: the outcome, and the registry after it. `none` is a body that is not a command; `now` is the clock of
a new book. -/
def handle (p : Processor) (now : Clock) (r : Registry) : Option Go.Command → Handler (Outcome × Registry)
  | none => return (⟨.reject, "", .none, false, some .body⟩, r)
  | some c =>
    match checkPartition c.symbol p.partitionID p.partitionCount with
    | .error e => return (⟨.reject, "", .none, false, some (.partition e)⟩, r)
    | .ok _ => handleCommand p now r c

theorem handle_mismatch {p : Processor} {c : Go.Command} {e : Go.GoError}
    (h : checkPartition c.symbol p.partitionID p.partitionCount = .error e) (now : Clock) (r : Registry) :
    handle p now r (some c) = .ret (⟨.reject, "", .none, false, some (.partition e)⟩, r) := by
  rw [handle, h]
  rfl

theorem handle_command {p : Processor} {c : Go.Command}
    (h : checkPartition c.symbol p.partitionID p.partitionCount = .ok ()) (now : Clock) (r : Registry) :
    handle p now r (some c) = handleCommand p now r c := by
  rw [handle, h]

/-! ## Programs of plain calls -/

theorem readNow_plain : readNow.Only Call.Plain := ⟨trivial, fun _ => trivial⟩

theorem hasLeadership_plain (workerID : String) : (hasLeadership workerID).Only Call.Plain :=
  ⟨trivial, fun _ => trivial⟩

theorem saveStatus_plain (c : Go.Command) (status : Status) (reason : Option Cause) :
    (saveStatus c status reason).Only Call.Plain := ⟨trivial, fun _ => ⟨trivial, fun _ => trivial⟩⟩

theorem reject_plain (c : Go.Command) (cause : Cause) : (reject c cause).Only Call.Plain := by
  refine (saveStatus_plain c .rejected (some cause)).bind fun r => ?_
  cases r with
  | error e => exact .pure _
  | ok _ => exact readNow_plain.bind fun _ => .pure _

theorem checkLeader_plain (p : Processor) : (checkLeader p).Only Call.Plain := by
  refine (hasLeadership_plain p.workerID).bind fun r => ?_
  match r with
  | .error e => exact .pure _
  | .ok false => exact .pure _
  | .ok true => exact .pure _

end Lob.Worker
