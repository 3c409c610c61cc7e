import LobEngine.Worker.Completing

/-!
# What the statuses say

`Handle` on any delivery, by a process with any books in its memory, when some of the calls fail.

* `Fault`: what fails. `exactly`: the calls of these kinds fail, and no other.
* `Effect`: what `Handle` does to the streams and to the statuses (`handle_effect`).
* `Truthful`: the deliveries after which the statuses still tell the truth.
* `status_true`: after any deliveries that all are, a command with the status `PROCESSED` is in its stream, one with the
  status `REJECTED` is not, and no command gets both. `status_false`: after others it is not so.
-/

namespace Lob.Worker

open Go Prog

/-- The calls of `Handle` that can fail. -/
inductive Fault where
  | lookup
  | command
  | events
  | readModel
  | recovery
  | status (status : Status)

def Call.Fails (F : Fault → Prop) : Call → Prop
  | .now => False
  | .hasLeadership _ => False
  | .isCommandProcessed _ _ => F .lookup
  | .appendProcessedCommand _ => F .command
  | .appendEvents _ _ => F .events
  | .saveReadModel _ _ _ => F .readModel
  | .saveRecoverySnapshot _ _ => F .recovery
  | .saveCommandStatus status => F (.status status.status)

/-- The calls of `F` fail, and no other. -/
def exactly (F : Fault → Prop) (leads : State → String → Except Failure Bool → Prop) (c : Call) (s : State)
    (a : c.Answer) (t : State) : Prop :=
  act ⟨Call.Fails F, leads⟩ c s a t ∧ (c.fails a = false → ¬ c.Fails F)

/-- The command streams and the processed ids are the same. -/
structure SameStreams (s t : State) : Prop where
  log : ∀ k, (t.symbol k).log = (s.symbol k).log
  trimmed : ∀ k, (t.symbol k).trimmed = (s.symbol k).trimmed
  processedIds : ∀ k, (t.symbol k).processedIds = (s.symbol k).processedIds

/-- The command joined its stream. -/
structure Joined (c : Go.Command) (s t : State) : Prop where
  other : ∀ k ≠ c.symbol, (t.symbol k).log = (s.symbol k).log ∧ (t.symbol k).trimmed = (s.symbol k).trimmed ∧
    (t.symbol k).processedIds = (s.symbol k).processedIds
  log : ∃ e, e.value.commandId = c.commandId ∧ (t.symbol c.symbol).log = (s.symbol c.symbol).log ++ [e]
  trimmed : (t.symbol c.symbol).trimmed ≤
    max (s.symbol c.symbol).trimmed ((s.symbol c.symbol).log.length + 1 - maxCommands)
  processedIds : (t.symbol c.symbol).processedIds = setAdd c.commandId (s.symbol c.symbol).processedIds

/-- A status of the command was saved. -/
def Saved (c : Go.Command) (status : Status) (s t : State) : Prop :=
  ∃ st, st.commandId = c.commandId ∧ st.symbol = c.symbol ∧ st.status = status ∧ t.statuses = st :: s.statuses

/-- One of the writes after `AppendProcessedCommand` fails. -/
def LateFault (F : Fault → Prop) : Prop := F .events ∨ F .readModel ∨ F .recovery ∨ F (.status .processed)

/-- What `Handle` of a command that is in its stream, or not, does. -/
inductive Effect (F : Fault → Prop) (c : Go.Command) (leads logged executes : Prop) (s t : State) : Prop
  | nothing (hstreams : SameStreams s t) (hstatuses : t.statuses = s.statuses)
  | rejected (hleads : leads) (hstreams : SameStreams s t) (hlogged : logged → F .lookup)
    (hsave : ¬ F (.status .rejected))
      (hsaved : Saved c .rejected s t)
  | again (hstreams : SameStreams s t) (hlogged : logged) (hsaved : Saved c .processed s t)
  | joined (hleads : leads) (hlogged : ¬ logged) (hexecutes : executes) (hlookup : ¬ F .lookup)
    (hcommand : ¬ F .command)
      (hjoined : Joined c s t) (hsaved : Saved c .processed s t ∨ LateFault F ∧ (t.statuses = s.statuses ∨
        ¬ F (.status .rejected) ∧ Saved c .rejected s t))

section

variable {F : Fault → Prop} {leads : State → String → Except Failure Bool → Prop} {p : Processor} {now : Clock}
  {r : Registry} {s t u : State} {c : Go.Command} {book : Book} {result : Result} {α : Type} {status : Status}

namespace SameStreams

theorem refl (s : State) : SameStreams s s := ⟨fun _ => rfl, fun _ => rfl, fun _ => rfl⟩

theorem trans (h : SameStreams s t) (h' : SameStreams t u) : SameStreams s u :=
  ⟨fun k => (h'.log k).trans (h.log k), fun k => (h'.trimmed k).trans (h.trimmed k),
    fun k => (h'.processedIds k).trans (h.processedIds k)⟩

theorem of_symbol (h : t.symbol = s.symbol) : SameStreams s t := by
  refine ⟨fun k => ?_, fun k => ?_, fun k => ?_⟩ <;> rw [h]

theorem update {symbol : String} {f : SymbolState → SymbolState} (h : ∀ x, (f x).log = x.log ∧
    (f x).trimmed = x.trimmed ∧ (f x).processedIds = x.processedIds) : SameStreams s (s.update symbol f) := by
  have hk : ∀ k, ((s.update symbol f).symbol k).log = (s.symbol k).log ∧
      ((s.update symbol f).symbol k).trimmed = (s.symbol k).trimmed ∧
      ((s.update symbol f).symbol k).processedIds = (s.symbol k).processedIds := by
    intro k
    rcases eq_or_ne k symbol with rfl | hne
    · rw [State.update_self]
      exact h _
    · rw [State.update_ne s f hne]
      exact ⟨rfl, rfl, rfl⟩
  exact ⟨fun k => (hk k).1, fun k => (hk k).2.1, fun k => (hk k).2.2⟩

end SameStreams

theorem Joined.same (h : Joined c s t) (htu : SameStreams t u) : Joined c s u where
  other := fun k hk => ⟨(htu.log k).trans (h.other k hk).1, (htu.trimmed k).trans (h.other k hk).2.1,
    (htu.processedIds k).trans (h.other k hk).2.2⟩
  log := by
    obtain ⟨e, he, hlog⟩ := h.log
    exact ⟨e, he, (htu.log _).trans hlog⟩
  trimmed := (htu.trimmed _).le.trans h.trimmed
  processedIds := (htu.processedIds _).trans h.processedIds

/-! ## The calls -/

/-- Nothing is asked before a call. -/
abbrev Ends (F : Fault → Prop) (leads : State → String → Except Failure Bool → Prop) (Q : α → State → Prop)
    (m : Handler α) (s : State) : Prop := m.Guarded (exactly F leads) (fun _ _ => True) Q s

theorem checkLeader_ends : Ends F leads (fun x t => t = s ∧ (x = .ok () → leads s p.workerID (.ok true)))
    (checkLeader p) s := by
  refine ⟨trivial, fun x t ⟨⟨ht, hx⟩, _⟩ => ?_⟩
  match x, hx with
  | .error e, hx => exact ⟨ht, nofun⟩
  | .ok false, hx => exact ⟨ht, nofun⟩
  | .ok true, hx => exact ⟨ht, fun _ => hx⟩

theorem saveStatus_ends (status : Status) (reason : Option Cause) : Ends F leads (fun x t => t.symbol = s.symbol ∧
    ((∃ e, x = .error e) ∧ F (.status status) ∧ t.statuses = s.statuses ∨
      x = .ok () ∧ ¬ F (.status status) ∧ Saved c status s t)) (saveStatus c status reason) s := by
  refine ⟨trivial, fun n t ht => ?_⟩
  rw [show t = s from ht.1]
  refine ⟨trivial, fun x u ⟨hact, hdone⟩ => ?_⟩
  match x, hact with
  | .error e, hact => exact ⟨congrArg _ hact.2, .inl ⟨⟨e, rfl⟩, hact.1, congrArg _ hact.2⟩⟩
  | .ok _, hu =>
    rw [show u = _ from hu]
    exact ⟨rfl, .inr ⟨rfl, hdone rfl, _, rfl, rfl, rfl, rfl⟩⟩

theorem reject_ends (cause : Cause) : Ends F leads (fun _ t => t.symbol = s.symbol ∧
    (t.statuses = s.statuses ∨ ¬ F (.status .rejected) ∧ Saved c .rejected s t)) (reject c cause) s := by
  refine (saveStatus_ends .rejected (some cause)).bind fun x t ⟨ht, hx⟩ => ?_
  rcases hx with ⟨⟨e, rfl⟩, -, hst⟩ | ⟨rfl, hF, hsaved⟩
  · exact ⟨ht, .inl hst⟩
  · refine ⟨trivial, fun n u hu => ?_⟩
    rw [show u = t from hu.1]
    exact ⟨ht, .inr ⟨hF, hsaved⟩⟩

theorem lookup_ends (symbol commandId : String) : Ends F leads (fun x t => t = s ∧
    (x = .ok (decide (commandId ∈ (s.symbol symbol).processedIds)) ∧ ¬ F .lookup ∨ (∃ e, x = .error e) ∧ F .lookup))
    (isCommandProcessed symbol commandId) s := by
  refine ⟨trivial, fun x t ⟨hact, hdone⟩ => ?_⟩
  match x, hact with
  | .error e, hact => exact ⟨hact.2, .inr ⟨⟨e, rfl⟩, hact.1⟩⟩
  | .ok b, ⟨ht, hb⟩ => exact ⟨ht, .inl ⟨congrArg _ hb, hdone rfl⟩⟩

/-- A call that writes neither a command nor a status. -/
theorem orFails_write {x : Except Failure Unit} {fails : Prop} {ok : Unit → Prop} (h : orFails fails s x t ok)
    (hok : ok () → SameStreams s t ∧ t.statuses = s.statuses) :
    SameStreams s t ∧ t.statuses = s.statuses ∧ (x = .ok () ∨ (∃ e, x = .error e) ∧ fails) := by
  match x, h with
  | .error e, h =>
    rw [show t = s from h.2]
    exact ⟨.refl s, rfl, .inr ⟨⟨e, rfl⟩, h.1⟩⟩
  | .ok _, h => exact ⟨(hok h).1, (hok h).2, .inl rfl⟩

/-- What such a call leaves. -/
abbrev Left (F : Fault → Prop) (f : Fault) (s : State) (x : Except Failure Unit) (t : State) : Prop :=
  SameStreams s t ∧ t.statuses = s.statuses ∧ (x = .ok () ∨ (∃ e, x = .error e) ∧ F f)

theorem appendEvents_ends (symbol : String) (events : List Event) :
    Ends F leads (Left F .events s) (appendEvents symbol events) s := by
  unfold appendEvents
  split
  · exact ⟨.refl s, rfl, .inl rfl⟩
  · refine ⟨trivial, fun x t hact => orFails_write hact.1 ?_⟩
    rintro ⟨trimmed, -, -, rfl⟩
    exact ⟨.update fun _ => ⟨rfl, rfl, rfl⟩, rfl⟩

theorem saveReadModel_ends (symbol : String) (snapshot : BookSnapshot) (trades : List Trade) :
    Ends F leads (Left F .readModel s) (saveReadModel symbol snapshot trades) s := by
  refine ⟨trivial, fun x t hact => orFails_write hact.1 ?_⟩
  rintro rfl
  exact ⟨.update fun _ => ⟨rfl, rfl, rfl⟩, rfl⟩

theorem saveRecoverySnapshot_ends (symbol : String) (snapshot : RecoverySnapshot) :
    Ends F leads (Left F .recovery s) (saveRecoverySnapshot symbol snapshot) s := by
  refine ⟨trivial, fun x t hact => orFails_write hact.1 ?_⟩
  rintro rfl
  exact ⟨.update fun _ => ⟨rfl, rfl, rfl⟩, rfl⟩

theorem appendProcessedCommand_ends : Ends F leads (fun x t => (∃ e, x = .error e) ∧ F .command ∧ t = s ∨
    (∃ id, x = .ok id) ∧ ¬ F .command ∧ Joined c s t ∧ t.statuses = s.statuses) (appendProcessedCommand c) s := by
  refine ⟨trivial, fun x t ⟨hact, hdone⟩ => ?_⟩
  match x, hact with
  | .error e, hact => exact .inl ⟨⟨e, rfl⟩, hact.1, hact.2⟩
  | .ok id, ⟨processedAt, trimmed, _, _, htrimmed, ht⟩ =>
    refine .inr ⟨⟨id, rfl⟩, hdone rfl, ?_, by rw [ht]; rfl⟩
    rw [ht]
    refine ⟨fun k hk => ?_, ⟨_, rfl, by rw [State.append_self]⟩, ?_, by rw [State.append_self]⟩
    · rw [State.append_ne _ hk]
      exact ⟨rfl, rfl, rfl⟩
    · rw [State.append_self]
      exact htrimmed

/-! ## `Handle` -/

theorem Saved.from (h : Saved c status t u) (hst : t.statuses = s.statuses) : Saved c status s u := by
  obtain ⟨st, hid, hsymbol, hstatus, hsaved⟩ := h
  exact ⟨st, hid, hsymbol, hstatus, hst ▸ hsaved⟩

/-- The writes of an executed command. -/
theorem persist_ends : Ends F leads (fun x t => (∃ e, x = .error e) ∧ F .command ∧ t = s ∨
    ¬ F .command ∧ Joined c s t ∧ (x = .ok () ∧ Saved c .processed s t ∨
      (∃ e, x = .error e) ∧ LateFault F ∧ t.statuses = s.statuses)) (persist c book result) s := by
  refine appendProcessedCommand_ends.bind fun x t hx => ?_
  rcases hx with ⟨⟨e, rfl⟩, hF, rfl⟩ | ⟨⟨id, rfl⟩, hF, hjoined, hst⟩
  · exact .inl ⟨⟨e, rfl⟩, hF, rfl⟩
  refine (appendEvents_ends _ _).bind fun x u ⟨hstreams, hst', hx⟩ => ?_
  replace hjoined := hjoined.same hstreams
  rw [hst] at hst'
  rcases hx with rfl | ⟨⟨e, rfl⟩, hlate⟩
  swap
  · exact .inr ⟨hF, hjoined, .inr ⟨⟨e, rfl⟩, .inl hlate, hst'⟩⟩
  refine (saveReadModel_ends _ _ _).bind fun x v ⟨hstreams, hst'', hx⟩ => ?_
  replace hjoined := hjoined.same hstreams
  rw [hst'] at hst''
  rcases hx with rfl | ⟨⟨e, rfl⟩, hlate⟩
  swap
  · exact .inr ⟨hF, hjoined, .inr ⟨⟨e, rfl⟩, .inr (.inl hlate), hst''⟩⟩
  refine (saveRecoverySnapshot_ends _ _).bind fun x w ⟨hstreams, hst₃, hx⟩ => ?_
  replace hjoined := hjoined.same hstreams
  rw [hst''] at hst₃
  rcases hx with rfl | ⟨⟨e, rfl⟩, hlate⟩
  swap
  · exact .inr ⟨hF, hjoined, .inr ⟨⟨e, rfl⟩, .inr (.inr (.inl hlate)), hst₃⟩⟩
  refine (saveStatus_ends .processed none).mono fun x z ⟨hz, hx⟩ => ?_
  replace hjoined := hjoined.same (.of_symbol hz)
  rcases hx with ⟨⟨e, rfl⟩, hlate, hst₄⟩ | ⟨rfl, -, hsaved⟩
  · exact .inr ⟨hF, hjoined, .inr ⟨⟨e, rfl⟩, .inr (.inr (.inr hlate)), hst₄.trans hst₃⟩⟩
  · exact .inr ⟨hF, hjoined, .inl ⟨rfl, hsaved.from hst₃⟩⟩

/-- The rest of `Handle`, after a command was executed. -/
theorem commit_ends {led logged executes : Prop} (hled : led) (hlogged : ¬ logged) (hexecutes : executes)
    (hlookup : ¬ F .lookup) :
    Ends F leads (fun _ t => Effect F c led logged executes s t) (commit p c book result) s := by
  refine checkLeader_ends.bind fun x t ⟨ht, _⟩ => ?_
  subst ht
  cases x with
  | error e => exact .nothing (.refl _) rfl
  | ok _ =>
    refine persist_ends.bind fun x u hx => ?_
    rcases hx with ⟨⟨e, rfl⟩, -, rfl⟩ | ⟨hcommand, hjoined, ⟨rfl, hsaved⟩ | ⟨⟨e, rfl⟩, hlate, hst⟩⟩
    · refine (reject_ends _).mono fun _ v ⟨hv, hx⟩ => ?_
      rcases hx with hst | ⟨hF, hsaved⟩
      · exact .nothing (.of_symbol hv) hst
      · exact .rejected hled (.of_symbol hv) (fun h => absurd h hlogged) hF hsaved
    · refine checkLeader_ends.bind fun _ v ⟨hv, _⟩ => ?_
      subst hv
      exact .joined hled hlogged hexecutes hlookup hcommand hjoined (.inl hsaved)
    · refine (reject_ends _).mono fun _ v ⟨hv, hx⟩ => ?_
      refine .joined hled hlogged hexecutes hlookup hcommand (hjoined.same (.of_symbol hv)) (.inr ⟨hlate, ?_⟩)
      exact hx.imp (fun hst' => hst'.trans hst) fun ⟨hF, hsaved⟩ => ⟨hF, hsaved.from hst⟩

/-- The command executes on its book. -/
def Executes (r : Registry) (now : Clock) (c : Go.Command) : Prop := ∃ x, (r.execute now c).1 = .ok x

/-- What `Handle` of a command of the partition does to the streams and the statuses. -/
theorem handle_effect : Ends F leads (fun _ t =>
    Effect F c (leads s p.workerID (.ok true)) (c.commandId ∈ (s.symbol c.symbol).processedIds) (Executes r now c) s t)
      (handleCommand p now r c) s := by
  refine checkLeader_ends.bind fun x t ⟨ht, hled⟩ => ?_
  subst ht
  cases x with
  | error e => exact .nothing (.refl _) rfl
  | ok _ =>
    replace hled := hled rfl
    refine (lookup_ends _ _).bind fun x u ⟨hu, hx⟩ => ?_
    subst hu
    rcases hx with ⟨rfl, hlookup⟩ | ⟨⟨e, rfl⟩, hlookup⟩
    swap
    · refine Guarded.bind ((reject_ends _).mono fun _ v ⟨hv, hx⟩ => ?_) fun _ _ hv => hv
      rcases hx with hst | ⟨hF, hsaved⟩
      · exact .nothing (.of_symbol hv) hst
      · exact .rejected hled (.of_symbol hv) (fun _ => hlookup) hF hsaved
    by_cases hlogged : c.commandId ∈ (u.symbol c.symbol).processedIds
    · rw [decide_eq_true hlogged]
      refine (saveStatus_ends _ _).bind fun x v ⟨hv, hx⟩ => ?_
      rcases hx with ⟨-, -, hst⟩ | ⟨-, -, hsaved⟩
      · exact .nothing (.of_symbol hv) hst
      · exact .again (.of_symbol hv) hlogged hsaved
    · rw [decide_eq_false hlogged]
      refine Guarded.bind ?_ fun _ _ hv => hv
      cases hexecute : (r.execute now c).1 with
      | error e =>
        refine (reject_ends _).mono fun _ v ⟨hv, hx⟩ => ?_
        rcases hx with hst | ⟨hF, hsaved⟩
        · exact .nothing (.of_symbol hv) hst
        · exact .rejected hled (.of_symbol hv) (fun h => absurd h hlogged) hF hsaved
      | ok x => exact commit_ends hled hlogged ⟨x, hexecute⟩ hlookup

/-! ## Deliveries -/

/-- What makes the statuses tell the truth after the delivery, by a process that leads. -/
structure Truthful (F : Fault → Prop) (c : Go.Command) (logged executes : Prop) (s : State) : Prop where
  /-- If the lookup of a command of the stream fails, nothing is saved. -/
  lookup : logged → F .lookup → F (.status .rejected)
  /-- If a write after `AppendProcessedCommand` fails, nothing is saved. -/
  late : ¬ logged → executes → ¬ F .lookup → ¬ F .command → LateFault F → F (.status .rejected)
  /-- A command that was rejected before does not join the stream. -/
  once : ∀ st ∈ s.statuses, st.commandId = c.commandId → st.symbol = c.symbol → st.status = .rejected →
    F .lookup ∨ F .command ∨ ¬ executes

/-- A delivery that is not good is one that may break the statuses. -/
abbrev Condition := (F : Fault → Prop) → Go.Command → (logged executes : Prop) → State → Prop

/-- The stores after some deliveries, of any bodies at any time, to processes with any books in their memory. -/
inductive Delivered (p : Processor) (good : Condition) : State → Prop
  | init : Delivered p good .empty
  | deliver {s t : State} {x : Outcome × Registry} (h : Delivered p good s) (F : Fault → Prop)
      (leads : State → String → Except Failure Bool → Prop) (now : Clock) (r : Registry) (body : Option Go.Command)
      (hgood : ∀ c, body = some c → checkPartition c.symbol p.partitionID p.partitionCount = .ok () →
        leads s p.workerID (.ok true) → good F c (c.commandId ∈ (s.symbol c.symbol).processedIds) (Executes r now c) s)
      (hrun : Run (exactly F leads) (handle p now r body) s x t) : Delivered p good t

/-- Every status that was saved tells the truth. -/
structure Truth (s : State) : Prop where
  processed : ∀ st ∈ s.statuses, st.status = .processed → st.commandId ∈ (s.symbol st.symbol).processedIds
  rejected : ∀ st ∈ s.statuses, st.status = .rejected → st.commandId ∉ (s.symbol st.symbol).processedIds
  ids : ∀ k id, id ∈ (s.symbol k).processedIds ↔ id ∈ (s.symbol k).log.map (·.value.commandId)
  trimmed : ∀ k, (s.symbol k).trimmed ≤ (s.symbol k).log.length - maxCommands

theorem Truth.same (h : Truth s) (hst : SameStreams s t) (hstatuses : t.statuses = s.statuses) : Truth t where
  processed := fun st hmem => by
    rw [hst.processedIds]
    exact h.processed st (hstatuses ▸ hmem)
  rejected := fun st hmem => by
    rw [hst.processedIds]
    exact h.rejected st (hstatuses ▸ hmem)
  ids := fun k id => by
    rw [hst.processedIds, hst.log]
    exact h.ids k id
  trimmed := fun k => by
    rw [hst.trimmed, hst.log]
    exact h.trimmed k

/-- A status that tells the truth is saved. -/
theorem Truth.save (h : Truth s) {st : CommandStatus} (hstatuses : t.statuses = st :: s.statuses)
    (hst : SameStreams s t) (hp : st.status = .processed → st.commandId ∈ (s.symbol st.symbol).processedIds)
    (hr : st.status = .rejected → st.commandId ∉ (s.symbol st.symbol).processedIds) : Truth t where
  processed := fun st' hmem => by
    rw [hst.processedIds]
    rw [hstatuses] at hmem
    rcases List.mem_cons.mp hmem with rfl | hmem
    · exact hp
    · exact h.processed st' hmem
  rejected := fun st' hmem => by
    rw [hst.processedIds]
    rw [hstatuses] at hmem
    rcases List.mem_cons.mp hmem with rfl | hmem
    · exact hr
    · exact h.rejected st' hmem
  ids := fun k id => by
    rw [hst.processedIds, hst.log]
    exact h.ids k id
  trimmed := fun k => by
    rw [hst.trimmed, hst.log]
    exact h.trimmed k

/-- A command that was not rejected before joins its stream. -/
theorem Truth.join (h : Truth s) (hjoined : Joined c s t) (hstatuses : t.statuses = s.statuses)
    (hnot : ∀ st ∈ s.statuses, st.commandId = c.commandId → st.symbol = c.symbol → st.status ≠ .rejected) :
    Truth t := by
  have hids : ∀ k id, id ∈ (t.symbol k).processedIds ↔
      id ∈ (s.symbol k).processedIds ∨ k = c.symbol ∧ id = c.commandId := by
    intro k id
    rcases eq_or_ne k c.symbol with rfl | hne
    · rw [hjoined.processedIds, mem_setAdd, or_comm, and_iff_right rfl]
    · rw [(hjoined.other k hne).2.2, iff_comm, or_iff_left fun h => hne h.1]
  refine ⟨fun st hmem hst => ?_, fun st hmem hst hin => ?_, fun k id => ?_, fun k => ?_⟩
  · exact (hids _ _).mpr (.inl (h.processed st (hstatuses ▸ hmem) hst))
  · rw [hstatuses] at hmem
    rcases (hids _ _).mp hin with hin | ⟨hsymbol, hid⟩
    · exact h.rejected st hmem hst hin
    · exact hnot st hmem hid hsymbol hst
  · rw [hids, h.ids]
    obtain ⟨e, he, hlog⟩ := hjoined.log
    rcases eq_or_ne k c.symbol with rfl | hne
    · rw [hlog, List.map_append, List.mem_append, and_iff_right rfl, List.map_singleton, List.mem_singleton, he]
    · rw [(hjoined.other k hne).1, or_iff_left fun h => hne h.1]
  · have htrimmed := h.trimmed k
    obtain ⟨e, -, hlog⟩ := hjoined.log
    rcases eq_or_ne k c.symbol with rfl | hne
    · have := hjoined.trimmed
      rw [hlog, List.length_append, List.length_singleton]
      omega
    · rw [(hjoined.other k hne).2.1, (hjoined.other k hne).1]
      exact htrimmed

theorem Truth.effect {led executes : Prop} (h : Truth s)
    (heffect : Effect F c led (c.commandId ∈ (s.symbol c.symbol).processedIds) executes s t)
    (hgood : led → Truthful F c (c.commandId ∈ (s.symbol c.symbol).processedIds) executes s) : Truth t := by
  cases heffect with
  | nothing hstreams hstatuses => exact h.same hstreams hstatuses
  | rejected hled hstreams hlogged hsave hsaved =>
    obtain ⟨st, hid, hsymbol, hstatus, hstatuses⟩ := hsaved
    refine h.save hstatuses hstreams (fun hp => ?_) fun _ hin => ?_
    · rw [hstatus] at hp
      cases hp
    · rw [hid, hsymbol] at hin
      exact hsave ((hgood hled).lookup hin (hlogged hin))
  | again hstreams hlogged hsaved =>
    obtain ⟨st, hid, hsymbol, hstatus, hstatuses⟩ := hsaved
    refine h.save hstatuses hstreams (fun _ => by rw [hid, hsymbol]; exact hlogged) fun hr => ?_
    rw [hstatus] at hr
    cases hr
  | joined hled hlogged hexecutes hlookup hcommand hjoined hsaved =>
    have hnot : ∀ st ∈ s.statuses, st.commandId = c.commandId → st.symbol = c.symbol → st.status ≠ .rejected :=
      fun st hmem hid hsymbol hst =>
        ((hgood hled).once st hmem hid hsymbol hst).elim hlookup fun h => h.elim hcommand fun h => h hexecutes
    rcases hsaved with ⟨st, hid, hsymbol, hstatus, hstatuses⟩ | ⟨hlate, hstatuses | ⟨hsave, -⟩⟩
    · -- the store before the status is saved
      have hbefore : Truth { t with statuses := s.statuses } :=
        h.join ⟨hjoined.other, hjoined.log, hjoined.trimmed, hjoined.processedIds⟩ rfl hnot
      refine hbefore.save hstatuses ⟨fun _ => rfl, fun _ => rfl, fun _ => rfl⟩ (fun _ => ?_) fun hr => ?_
      · show st.commandId ∈ (t.symbol st.symbol).processedIds
        rw [hsymbol, hjoined.processedIds, mem_setAdd]
        exact .inl hid
      · rw [hstatus] at hr
        cases hr
    · exact h.join hjoined hstatuses hnot
    · exact absurd ((hgood hled).late hlogged hexecutes hlookup hcommand hlate) hsave

theorem Delivered.truth (h : Delivered p Truthful s) : Truth s := by
  induction h with
  | init => exact ⟨nofun, nofun, fun _ _ => Iff.rfl, fun _ => Nat.zero_le _⟩
  | @deliver s t x h F leads now r body hgood hrun ih =>
    cases body with
    | none =>
      cases hrun
      exact ih
    | some c =>
      cases hcheck : checkPartition c.symbol p.partitionID p.partitionCount with
      | error e =>
        rw [handle_mismatch hcheck] at hrun
        cases hrun
        exact ih
      | ok _ =>
        rw [handle_command hcheck] at hrun
        exact ih.effect (hrun.guarded handle_effect) (hgood c rfl hcheck)

/-- After any deliveries that are truthful: a command that was ever saved as `PROCESSED` is in its stream, one that was
ever saved as `REJECTED` is not, and no command was saved as both. -/
theorem status_true (h : Delivered p Truthful s) (hshort : s.Short) {st : CommandStatus} (hst : st ∈ s.statuses) :
    (st.status = .processed → ∃ e ∈ (s.symbol st.symbol).stream, e.value.commandId = st.commandId) ∧
      (st.status = .rejected → ∀ e ∈ (s.symbol st.symbol).stream, e.value.commandId ≠ st.commandId) ∧
      ∀ st' ∈ s.statuses, st'.commandId = st.commandId → st'.symbol = st.symbol → st'.status = st.status := by
  have htruth := h.truth
  have hstream : ∀ k, (s.symbol k).stream = (s.symbol k).log := by
    intro k
    have := htruth.trimmed k
    have := hshort k
    rw [SymbolState.stream, show (s.symbol k).trimmed = 0 by unfold maxReplayed maxCommands at *; omega, List.drop_zero]
  rw [hstream]
  refine ⟨fun hp => ?_, fun hr e he hid => ?_, fun st' hst' hid hsymbol => ?_⟩
  · exact List.mem_map.mp ((htruth.ids _ _).mp (htruth.processed st hst hp))
  · exact htruth.rejected st hst hr ((htruth.ids _ _).mpr (List.mem_map.mpr ⟨e, he, hid⟩))
  · have hp := htruth.processed st hst
    have hr := htruth.rejected st hst
    have hp' := htruth.processed st' hst'
    have hr' := htruth.rejected st' hst'
    rw [hid, hsymbol] at hp' hr'
    cases hs : st.status <;> cases hs' : st'.status
    · rfl
    · exact absurd (hp hs) (hr' hs')
    · exact absurd (hp' hs') (hr hs)
    · rfl

/-- A run whose calls all complete, and should. -/
theorem run_exactly {m : Handler α} {a : α} (hm : m.Only fun c => ¬ c.Fails F)
    (h : Run (act ⟨Call.Fails F, leads⟩) m s a t) : Run (exactly F leads) m s a t :=
  hm.run h fun _ _ _ _ hc hact => ⟨hact, fun _ => hc⟩

theorem only_faultless (m : Handler α) : m.Only fun c => ¬ c.Fails fun _ => False := by
  induction m with
  | ret a => trivial
  | call c k ih => exact ⟨by cases c <;> exact not_false, ih⟩

/-- The worker leads. -/
def always (_ : State) (_ : String) (answer : Except Failure Bool) : Prop := answer = .ok true

end

/-- `IsCommandProcessed` fails, and nothing else. -/
abbrev lookupFails (f : Fault) : Prop := f = .lookup

/-- `Handle` of a command that is not in its stream, when the lookup fails: it gets the status `REJECTED`. -/
theorem lookup_rejected {p : Processor} {s : State} {c : Go.Command} (good : Condition) (h : Delivered p good s)
    (now : Clock) (r : Registry) (hcheck : checkPartition c.symbol p.partitionID p.partitionCount = .ok ())
    (hgood : good lookupFails c (c.commandId ∈ (s.symbol c.symbol).processedIds) (Executes r now c) s) :
    Delivered p good { s with
      statuses := ⟨c.commandId, c.symbol, c.type, .rejected, some (.store "down"), c.createdAt, 0⟩ :: s.statuses } := by
  have hled : exactly lookupFails always (.hasLeadership p.workerID) s (Except.ok true : Except Failure Bool) s :=
    ⟨⟨rfl, rfl⟩, fun _ => not_false⟩
  have hfails : exactly lookupFails always (.isCommandProcessed c.symbol c.commandId) s
      (Except.error "down" : Except Failure Bool) s := ⟨⟨rfl, rfl⟩, nofun⟩
  have hcompletes : (reject c (.store "down")).Only fun c => ¬ c.Fails lookupFails := by
    refine ⟨not_false, fun _ => ⟨nofun, fun x => ?_⟩⟩
    cases x with
    | error e => trivial
    | ok _ => exact ⟨not_false, fun _ => trivial⟩
  obtain ⟨outcome, -, -, hreject⟩ := reject_run (P := ⟨Call.Fails lookupFails, always⟩) (s := s) c (.store "down")
  refine .deliver h lookupFails always now r (some c) (fun d hd _ _ => ?_) (x := (outcome, r)) ?_
  · cases hd
    exact hgood
  · rw [handle_command hcheck]
    exact .call hled (.call hfails ((run_exactly hcompletes hreject).bind (.ret _ _)))

/-- The market order, sent again under another id. -/
def marketAgain : Go.Command := { marketCommand with commandId := "d" }

/-- A market order is handled; then, for another one, the lookup fails. -/
theorem status_true_market : ∃ s, Delivered soleWorker Truthful s ∧
    (∃ st ∈ s.statuses, st.status = .processed ∧ ∃ e ∈ (s.symbol st.symbol).stream, e.value.commandId = st.commandId) ∧
    ∃ st ∈ s.statuses, st.status = .rejected ∧
      ∀ e ∈ (s.symbol st.symbol).stream, e.value.commandId ≠ st.commandId := by
  obtain ⟨result, hexecute, -⟩ := market_executes
  obtain ⟨t, hlog, -, -, -, ⟨st, hmem, -, hst⟩, -, hpersist⟩ := persist_run (P := ⟨Call.Fails fun _ => False, always⟩)
    (s := .empty) marketCommand market_later marketBook result
  have hcommit : Run (act ⟨Call.Fails fun _ => False, always⟩)
    (commit soleWorker marketCommand marketBook result) .empty
      _ t := (checkLeader_run rfl).bind (hpersist.bind ((checkLeader_run rfl).bind (.ret _ _)))
  have hdelivered : Delivered soleWorker Truthful t := .deliver .init (fun _ => False) always
    (fun _ => 0) Registry.empty
    (some marketCommand) (fun c _ _ _ => ⟨fun _ h => h, fun _ _ _ _ h => by
      rcases h with h | h | h | h <;> exact h, nofun⟩)
    (run_exactly (only_faultless _) (handle_new (by decide +kernel) (checkLeader_run rfl)
      (lookup_new (fun h => (by cases h)))
      (by
        rw [hexecute]
        exact Run.steps (.bind hcommit (.ret _ _)))).run)
  have hshort : t.Short := fun k => (congrArg List.length (hlog k)).le.trans (market_short k)
  have hnew : marketAgain.commandId ∉ (t.symbol marketAgain.symbol).processedIds := by
    rw [hdelivered.truth.ids, hlog]
    decide
  have hagain := lookup_rejected Truthful hdelivered (fun _ => 0) Registry.empty
    (by decide +kernel : checkPartition marketAgain.symbol 0 1 = .ok ())
    ⟨fun h => absurd h hnew, fun _ _ h => absurd rfl h, fun _ _ _ _ _ => .inl rfl⟩
  refine ⟨_, hagain, ⟨st, List.mem_cons_of_mem _ hmem, hst, ?_⟩, _, List.mem_cons_self, rfl, ?_⟩
  · exact (status_true hagain hshort (List.mem_cons_of_mem _ hmem)).1 hst
  · exact (status_true hagain hshort List.mem_cons_self).2.1 rfl

/-- `SaveReadModel` fails, and nothing else. -/
abbrev readModelFails (f : Fault) : Prop := f = .readModel

theorem plain_completes {c : Call} (h : c.Plain) : ¬ c.Fails readModelFails := by
  cases c <;> first | exact h.elim | exact not_false | exact nofun

/-- The read model of a market order is not saved: the order has the status `REJECTED`, and is in the stream. -/
theorem status_false : ∃ s, Delivered soleWorker (fun _ _ _ _ _ => True) s ∧ s.Short ∧
    ∃ st, s.statuses.head? = some st ∧ st.status = .rejected ∧
      ∃ e ∈ (s.symbol st.symbol).stream, e.value.commandId = st.commandId := by
  obtain ⟨result, hexecute, -⟩ := market_executes
  have hled : ∀ s, Run (exactly readModelFails always) (checkLeader soleWorker) s (.ok ()) s := fun s =>
    run_exactly ((checkLeader_plain _).mono fun _ => plain_completes) (checkLeader_run rfl)
  have hlookup : Run (exactly readModelFails always) (isCommandProcessed "BTC-USD" "c") .empty (.ok false) .empty :=
    run_exactly ⟨nofun, fun _ => trivial⟩ (lookup_new fun h => (by cases h))
  have happend : Run (exactly readModelFails always) (appendProcessedCommand marketCommand) .empty
    (.ok "1-0") marketStore :=
    run_exactly ⟨nofun, fun _ => trivial⟩ (appendProcessedCommand_run marketCommand market_later 0)
  obtain ⟨t, hsame, -, -, -, hevents⟩ := appendEvents_run (P := ⟨Call.Fails readModelFails, always⟩) (s := marketStore)
    "BTC-USD" result.events
  have hevents' : (appendEvents "BTC-USD" result.events).Only fun c => ¬ c.Fails readModelFails := by
    unfold appendEvents
    split
    · exact .pure _
    · exact ⟨nofun, fun _ => trivial⟩
  have hfails : exactly readModelFails always (.saveReadModel "BTC-USD" marketBook.snapshot result.trades) t
      (Except.error "down" : Except Failure Unit) t := ⟨⟨rfl, rfl⟩, nofun⟩
  obtain ⟨outcome, -, -, hreject⟩ := reject_run (P := ⟨Call.Fails readModelFails, always⟩) (s := t) marketCommand
    (.store "down")
  have hpersist : Run (exactly readModelFails always) (persist marketCommand marketBook result) .empty
    (.error "down") t :=
    happend.bind ((run_exactly hevents' hevents).bind (.call hfails (.ret _ _)))
  have hcommit : Run (exactly readModelFails always)
    (commit soleWorker marketCommand marketBook result) .empty outcome _ :=
    (hled .empty).bind (hpersist.bind (run_exactly ((reject_plain _ _).mono fun _ => plain_completes) hreject))
  refine ⟨_, .deliver .init readModelFails always (fun _ => 0) Registry.empty (some marketCommand)
    (fun _ _ _ _ => trivial)
    (handle_new (by decide +kernel) (hled .empty) hlookup (by
      rw [hexecute]
      exact Run.steps (.bind hcommit (.ret _ _)))).run, fun k => ?_, _, rfl, rfl, ?_⟩
  · exact (congrArg List.length (hsame.log k)).le.trans (market_short k)
  · show ∃ e ∈ (t.symbol "BTC-USD").stream, _
    rw [SymbolState.stream, hsame.log, hsame.trimmed]
    exact ⟨_, List.mem_singleton_self _, rfl⟩

end Lob.Worker
