import LobEngine.Worker.Runs

/-!
# The events and the read model of the worker

`Handle` appends a command first, and then its events and the read model; a recovery executes the command again but
writes neither, and a redelivery only saves a status.

* `Book.emits`: the events of the commands of a log.
* `Recorded`: the event stream has the events of the commands, and the read model is the snapshot of their book.
* `handle_guarded`: alone, `Handle` keeps this but between `AppendProcessedCommand` and `SaveReadModel`.
* `events_recorded`: in every run in which no process dies there, the events and the read model are those of the
  stream. `events_lost`: a run in which one does.
-/

namespace Lob

namespace Go

/-- The events of a command that is executed. -/
def Book.emitted (b : Book) (c : Command) : List Event :=
  match (b.execute c).1 with
  | .ok result => result.events
  | .error _ => []

/-- The events of the commands of a log. -/
def Book.emits : Book → List Command → List Event
  | _, [] => []
  | b, c :: cs => b.emitted c ++ (b.execute c).2.emits cs

theorem emits_append (b : Book) (cs ds : List Command) :
    b.emits (cs ++ ds) = b.emits cs ++ (b.replay cs).emits ds := by
  induction cs generalizing b with
  | nil => rfl
  | cons c cs ih =>
    rw [List.cons_append, Book.emits, Book.emits, ih, List.append_assoc]
    rfl

/-- The events are the same, up to the timestamps of what stop orders triggered. -/
def SameEvents (es es' : List Event) : Prop := es.map (·.restamp Stamp.erase) = es'.map (·.restamp Stamp.erase)

theorem SameEvents.append {es es' fs fs' : List Event} (h : SameEvents es es') (h' : SameEvents fs fs') :
    SameEvents (es ++ fs) (es' ++ fs') := by
  unfold SameEvents at *
  rw [List.map_append, List.map_append, h, h']

theorem emitted_together {n : Nat} {b b' : Book} (h : (stampPairing Stamp.erase).Together n b b') (c : Command) :
    SameEvents (b.emitted c) (b'.emitted c) := by
  have hout := (together_execute h c).1
  unfold Book.emitted
  cases hb : (b.execute c).1 with
  | error e =>
    rw [hb] at hout
    cases hb' : (b'.execute c).1 with
    | error e' => rfl
    | ok result' =>
      rw [hb'] at hout
      cases hout
  | ok result =>
    rw [hb] at hout
    cases hb' : (b'.execute c).1 with
    | error e' =>
      rw [hb'] at hout
      cases hout
    | ok result' =>
      rw [hb'] at hout
      exact congrArg Result.events (Except.ok.inj hout)

end Go

namespace Worker

open Exc Go Prog

/-- The event stream has the events of the commands of the stream, and the read model is the snapshot of their book. -/
structure Recorded (symbol : String) (x : SymbolState) : Prop where
  events : ∀ now : Clock, (∀ n, 0 ≤ now n) → SameEvents x.events ((Book.empty symbol now).emits x.commands)
  readModel : ∀ now : Clock, (∀ n, 0 ≤ now n) →
    x.readModel = if x.commands = [] then none else some ((Book.empty symbol now).replay x.commands).snapshot
  trimmed : x.eventsTrimmed ≤ x.events.length - maxEvents

/-- All symbols are recorded, or the call writes what is not recorded yet. -/
def Recording (c : Call) (s : State) : Prop := c.Records ∨ ∀ k, Recorded k (s.symbol k)

section

variable {P : Policy} {p : Processor} {now : Clock} {r : Registry} {s t : State} {c : Go.Command} {symbol : String}
  {x y : SymbolState} {b : Book} {result : Result}

theorem recorded_empty (k : String) : Recorded k .empty := ⟨fun _ _ => rfl, fun _ _ => rfl, Nat.zero_le _⟩

theorem Recorded.append (h : Recorded symbol x) (hb : Logged symbol b x.commands)
    (hresult : (b.execute c).1 = .ok result) (processedAt : Int)
    (hcommands : y.commands = x.commands ++ [{ c with processedAt := some processedAt }])
    (hevents : y.events = x.events ++ result.events) (hread : y.readModel = some (b.execute c).2.snapshot)
    (htrimmed : y.eventsTrimmed ≤ max x.eventsTrimmed (y.events.length - maxEvents)) : Recorded symbol y := by
  refine ⟨fun now hn => ?_, fun now hn => ?_, ?_⟩
  · rw [hevents, hcommands, emits_append]
    refine (h.events now hn).append ?_
    have hemitted := emitted_together (hb.replay now hn) c
    rw [Book.emitted, hresult] at hemitted
    rw [Book.emits, Book.emits, List.append_nil]
    exact hemitted
  · rw [hcommands, if_neg (List.append_ne_nil_of_right_ne_nil _ (List.cons_ne_nil _ _)), hread]
    exact congrArg some ((logged_processedAt (hb.execute c) processedAt).alike hn).snapshot
  · have := h.trimmed
    rw [hevents, List.length_append] at *
    omega

/-- Calls that write neither a stream nor the read model. -/
theorem Recorded.same (h : Recorded symbol x) (hlog : y.log = x.log) (hevents : y.events = x.events)
    (htrimmed : y.eventsTrimmed = x.eventsTrimmed) (hread : y.readModel = x.readModel) : Recorded symbol y := by
  obtain ⟨log, trimmed, processedIds, recoverySnapshot, events, eventsTrimmed, readModel, recentTrades⟩ := y
  cases hlog
  cases hevents
  cases htrimmed
  cases hread
  exact ⟨h.events, h.readModel, h.trimmed⟩

theorem plain_recording {α : Type} {m : Handler α} (hm : m.Only Call.Plain) (hs : ∀ k, Recorded k (s.symbol k)) :
    m.Guarded (act P) Recording (fun _ t => t.symbol = s.symbol) s := by
  refine .only hm (fun _ t _ ht => .inr fun k => ?_) (fun _ _ _ _ hc hact ht => (act_plain hact hc).trans ht) rfl
  rw [show t.symbol = s.symbol from ht]
  exact hs k

theorem saveStatus_guarded (hP : ∀ c, ¬ P.fails c) (hs : ∀ k, Recorded k (s.symbol k)) (status : Status)
    (reason : Option Cause) : (saveStatus c status reason).Guarded (act P) Recording
      (fun x t => x = .ok () ∧ t.symbol = s.symbol) s := by
  refine ⟨.inr hs, fun _ t ht => ?_⟩
  rw [show t = s from ht]
  refine ⟨.inr hs, fun x u hact => ?_⟩
  cases x with
  | error e => exact absurd hact.1 (hP _)
  | ok _ =>
    rw [show u = _ from hact]
    exact ⟨rfl, rfl⟩

theorem append_guarded (hP : ∀ c, ¬ P.fails c) (hs : ∀ k, Recorded k (s.symbol k)) :
    (appendProcessedCommand c).Guarded (act P) Recording
      (fun x t => ∃ id processedAt trimmed, x = .ok id ∧ t = s.append c id processedAt trimmed) s := by
  refine ⟨.inr hs, fun x t hact => ?_⟩
  cases x with
  | error e => exact absurd hact.1 (hP _)
  | ok id =>
    obtain ⟨processedAt, trimmed, -, -, -, ht⟩ := hact
    exact ⟨id, processedAt, trimmed, rfl, ht⟩

theorem appendEvents_guarded (hP : ∀ c, ¬ P.fails c) (symbol : String) (events : List Event) :
    (appendEvents symbol events).Guarded (act P) Recording (fun x t => x = .ok () ∧
      (∀ k ≠ symbol, t.symbol k = s.symbol k) ∧ (t.symbol symbol).log = (s.symbol symbol).log ∧
      (t.symbol symbol).events = (s.symbol symbol).events ++ events ∧ (t.symbol symbol).eventsTrimmed ≤
        max (s.symbol symbol).eventsTrimmed ((t.symbol symbol).events.length - maxEvents)) s := by
  unfold appendEvents
  split
  · next hnil =>
    rw [hnil]
    exact ⟨rfl, fun _ _ => rfl, rfl, (List.append_nil _).symm, le_max_left ..⟩
  · refine ⟨.inl trivial, fun x t hact => ?_⟩
    cases x with
    | error e => exact absurd hact.1 (hP _)
    | ok _ =>
      obtain ⟨n, -, hn, rfl⟩ := hact
      refine ⟨rfl, fun k hk => State.update_ne _ _ hk, ?_, ?_, ?_⟩
      all_goals rw [State.update_self]
      rw [List.length_append]
      exact hn

theorem saveReadModel_guarded (hP : ∀ c, ¬ P.fails c) (symbol : String) (snapshot : BookSnapshot)
    (trades : List Trade) :
    (saveReadModel symbol snapshot trades).Guarded (act P) Recording (fun x t => x = .ok () ∧
      (∀ k ≠ symbol, t.symbol k = s.symbol k) ∧ (t.symbol symbol).log = (s.symbol symbol).log ∧
      (t.symbol symbol).events = (s.symbol symbol).events ∧
      (t.symbol symbol).eventsTrimmed = (s.symbol symbol).eventsTrimmed ∧
      (t.symbol symbol).readModel = some snapshot) s := by
  refine ⟨.inl trivial, fun x t hact => ?_⟩
  cases x with
  | error e => exact absurd hact.1 (hP _)
  | ok _ =>
    rw [show t = _ from hact]
    refine ⟨rfl, fun k hk => State.update_ne _ _ hk, ?_, ?_, ?_, ?_⟩
    all_goals rw [State.update_self]

theorem saveRecoverySnapshot_guarded (hP : ∀ c, ¬ P.fails c) (hs : ∀ k, Recorded k (s.symbol k)) (symbol : String)
    (snapshot : RecoverySnapshot) : (saveRecoverySnapshot symbol snapshot).Guarded (act P) Recording
      (fun x t => x = .ok () ∧ ∀ k, Recorded k (t.symbol k)) s := by
  refine ⟨.inr hs, fun x t hact => ?_⟩
  cases x with
  | error e => exact absurd hact.1 (hP _)
  | ok _ =>
    refine ⟨rfl, fun k => ?_⟩
    rw [show t = _ from hact]
    rcases eq_or_ne k symbol with rfl | hne
    · rw [State.update_self]
      exact (hs _).same rfl rfl rfl rfl
    · rw [State.update_ne _ _ hne]
      exact hs k

/-- The writes of an executed command. -/
theorem persist_guarded (hP : ∀ c, ¬ P.fails c) (hs : ∀ k, Recorded k (s.symbol k))
    (hb : Logged c.symbol b (s.symbol c.symbol).commands) (hresult : (b.execute c).1 = .ok result) :
    (persist c (b.execute c).2 result).Guarded (act P) Recording
      (fun x t => x = .ok () ∧ ∀ k, Recorded k (t.symbol k)) s := by
  refine (append_guarded hP hs).bind fun x t hx => ?_
  obtain ⟨id, processedAt, trimmed, rfl, rfl⟩ := hx
  refine (appendEvents_guarded hP _ _).bind fun x u hx => ?_
  obtain ⟨rfl, hother, hlog, hevents, htrimmed⟩ := hx
  refine (saveReadModel_guarded hP _ _ _).bind fun x v hx => ?_
  obtain ⟨rfl, hother', hlog', hevents', htrimmed', hread⟩ := hx
  rw [hlog] at hlog'
  rw [hevents] at hevents' htrimmed
  rw [← htrimmed'] at htrimmed
  rw [State.append_self] at hlog' hevents' htrimmed
  have hrecorded : ∀ k, Recorded k (v.symbol k) := by
    intro k
    rcases eq_or_ne k c.symbol with rfl | hne
    · refine (hs c.symbol).append hb hresult processedAt ?_ hevents' hread (hevents' ▸ htrimmed)
      rw [SymbolState.commands, hlog', List.map_append]
      rfl
    · rw [hother' k hne, hother k hne, State.append_ne _ hne]
      exact hs k
  refine (saveRecoverySnapshot_guarded hP hrecorded _ _).bind fun x w hx => ?_
  obtain ⟨rfl, hw⟩ := hx
  refine (saveStatus_guarded hP hw .processed none).mono fun x z hx => ?_
  exact ⟨hx.1, fun k => hx.2 ▸ hw k⟩

theorem reject_guarded (hs : ∀ k, Recorded k (s.symbol k)) (cause : Cause) : (reject c cause).Guarded (act P) Recording
    (fun _ t => ∀ k, Recorded k (t.symbol k)) s :=
  (plain_recording (reject_plain c cause) hs).mono fun _ _ ht k => ht ▸ hs k

/-- The rest of `Handle`, after a command was executed. -/
theorem commit_guarded (hP : ∀ c, ¬ P.fails c) (hs : ∀ k, Recorded k (s.symbol k))
    (hb : Logged c.symbol b (s.symbol c.symbol).commands) (hresult : (b.execute c).1 = .ok result) :
    (commit p c (b.execute c).2 result).Guarded (act P) Recording (fun _ t => ∀ k, Recorded k (t.symbol k)) s := by
  refine (plain_recording (checkLeader_plain p) hs).bind fun x t ht => ?_
  have ht' : ∀ k, Recorded k (t.symbol k) := fun k => ht ▸ hs k
  cases x with
  | error e => exact ht'
  | ok _ =>
    refine (persist_guarded hP ht' (ht ▸ hb) hresult).bind fun x u hx => ?_
    obtain ⟨rfl, hu⟩ := hx
    exact ((plain_recording (checkLeader_plain p) hu).bind fun x v hv => (fun k => hv ▸ hu k : ∀ k, Recorded k _))

/-- Alone, `Handle` leaves all symbols recorded, and so it does before every call but those that write the events and
the read model. -/
theorem handle_guarded {body : Option Go.Command} (hP : ∀ c, ¬ P.fails c) (h : Live p r s) (hn : ∀ n, 0 ≤ now n)
    (hs : ∀ k, Recorded k (s.symbol k)) :
    (handle p now r body).Guarded (act P) Recording (fun _ t => ∀ k, Recorded k (t.symbol k)) s := by
  cases body with
  | none => exact hs
  | some c =>
    cases hcheck : checkPartition c.symbol p.partitionID p.partitionCount with
    | error e =>
      rw [handle_mismatch hcheck]
      exact hs
    | ok _ =>
      rw [handle_command hcheck]
      obtain ⟨hown, hblank⟩ := checkPartition_own hcheck
      refine (plain_recording (checkLeader_plain p) hs).bind fun x t ht => ?_
      have ht' : ∀ k, Recorded k (t.symbol k) := fun k => ht ▸ hs k
      cases x with
      | error e => exact ht'
      | ok _ =>
        have hlookup : (isCommandProcessed c.symbol c.commandId).Only Call.Plain := ⟨trivial, fun _ => trivial⟩
        refine (plain_recording hlookup ht').bind fun x u hu => ?_
        have hu' : ∀ k, Recorded k (u.symbol k) := fun k => hu ▸ ht' k
        match x with
        | .error e => exact (reject_guarded hu' _).bind fun _ _ hv => hv
        | .ok true => exact (saveStatus_guarded hP hu' _ _).bind fun _ _ hv =>
          (fun k => hv.2 ▸ hu' k : ∀ k, Recorded k _)
        | .ok false =>
          refine Guarded.bind ?_ fun _ _ hv => hv
          obtain ⟨b, hb, -, hout, -, -⟩ := (h.books c.symbol hown).execute hblank hn
          rw [hout]
          rw [← ht, ← hu] at hb
          cases hresult : (b.execute c).1 with
          | error e => exact reject_guarded hu' _
          | ok result => exact commit_guarded hP hu' hb hresult

/-! ## Runs -/

variable {z w : Sys}

/-- All symbols are recorded, or the process is about to write what is not. -/
def Sys.Recording (P : Policy) (x : Sys) : Prop :=
  match x.mode with
  | .busy m => m.Guarded (act P) Worker.Recording (fun _ t => ∀ k, Recorded k (t.symbol k)) x.store
  | _ => ∀ k, Recorded k (x.store.symbol k)

theorem Sys.Recording.recorded (h : z.Recording P) (hb : ¬ z.Behind) (k : String) : Recorded k (z.store.symbol k) := by
  obtain ⟨s, mode⟩ := z
  match mode, h with
  | .down, h => exact h k
  | .idle r, h => exact h k
  | .busy (.ret a), h => exact h k
  | .busy (.call c f), h => exact h.1.elim (fun hc => absurd hc hb) fun h => h k

theorem Step.recording (hP : ∀ c, ¬ P.fails c) (hok : z.Ok p P) (hz : z.Recording P) (h : Step p P z w)
    (hdie : z.Behind → w.mode ≠ .down) : w.Recording P := by
  cases h with
  | restart now hn hrun => exact hz
  | deliver now hn body hprompt => exact handle_guarded hP hok.2 hn hz
  | call hact => exact hz.2 _ _ hact
  | @done s outcome r =>
    cases hl : outcome.leadershipLost with
    | true => exact hz
    | false => exact hz
  | die => exact fun k => hz.recorded (fun hb => hdie hb rfl) k

theorem Undisturbed.recording (hcount : 1 ≤ p.partitionCount) (hP : ∀ c, ¬ P.fails c) (h : Undisturbed p P z)
    (hshort : z.store.Short) : z.Recording P := by
  induction h with
  | init => exact fun k => recorded_empty k
  | step h hxy hdie ih =>
    exact hxy.recording hP (reach_ok hcount (fun c => hP _) h.reach (hxy.short hshort)) (ih (hxy.short hshort)) hdie

/-- In every run in which no process dies between the write of a command and that of its events and the read model,
whenever a process is between two deliveries: the event stream, if it has not become too long, has exactly the events of
the commands of the stream, and the read model is the snapshot of the book. -/
theorem events_recorded (hp : validate p.partitionID p.partitionCount = .ok ()) (hP : ∀ c, ¬ P.fails c)
    (h : Undisturbed p P z) (hshort : z.store.Short) {r : Registry} (hr : z.Settled r) {k : String}
    (hk : Store.Own p.partitionID p.partitionCount k) :
    ((z.store.symbol k).events.length ≤ maxEvents → ∀ now : Clock, (∀ n, 0 ≤ now n) →
        SameEvents (z.store.symbol k).eventStream ((Book.empty k now).emits (z.store.symbol k).commands)) ∧
      (z.store.symbol k).readModel =
        if (z.store.symbol k).commands = [] then none else (r k).map Book.snapshot := by
  have hcount : 1 ≤ p.partitionCount := by
    by_contra hlt
    rw [validate, if_pos (by omega)] at hp
    cases hp
  have hlive := (reach_ok hcount (fun c => hP _) h.reach hshort).live hr
  have hbehind : ¬ z.Behind := by
    obtain ⟨s, mode⟩ := z
    rcases hr with rfl | ⟨outcome, rfl, -⟩ <;> exact not_false
  have hrecorded := (h.recording hcount hP hshort).recorded hbehind k
  refine ⟨fun hevents now hn => ?_, ?_⟩
  · have htrimmed := hrecorded.trimmed
    rw [SymbolState.eventStream, show (z.store.symbol k).eventsTrimmed = 0 by omega, List.drop_zero]
    exact hrecorded.events now hn
  · rw [hrecorded.readModel (fun _ => 0) fun _ => le_rfl]
    split
    · rfl
    · next hne =>
      obtain ⟨hsome, hnone⟩ := hlive.books k hk
      cases hb : r k with
      | none => exact absurd (hnone hb) hne
      | some b => exact congrArg some ((hsome b hb).alike fun _ => le_refl (0 : Int)).snapshot.symm

end

/-- A market order is handled, and then the process dies; the next one recovers. -/
theorem events_recorded_market : ∃ t r, Undisturbed soleWorker reliable ⟨t, .down⟩ ∧
    Undisturbed soleWorker reliable ⟨t, .idle r⟩ ∧ (t.symbol "BTC-USD").commands ≠ [] ∧
    SameEvents (t.symbol "BTC-USD").eventStream
      ((Book.empty "BTC-USD" fun _ => 0).emits (t.symbol "BTC-USD").commands) ∧
    (t.symbol "BTC-USD").readModel = (r "BTC-USD").map Book.snapshot := by
  obtain ⟨result, hlength, h⟩ := market_delivered (P := reliable) rfl
  obtain ⟨t, hlog, hevents, -, -, -, -, hpersist⟩ := persist_run (P := reliable) marketCommand market_later marketBook
    result
  have hrun := h.run (.bind ((checkLeader_run rfl).bind (hpersist.bind ((checkLeader_run rfl).bind (.ret _ _))))
    (.ret _ _))
  have hdown : Undisturbed soleWorker reliable ⟨t, .down⟩ := hrun.step .die not_false.elim
  have hcommands : (t.symbol "BTC-USD").commands ≠ [] := by
    rw [SymbolState.commands, hlog]
    exact List.cons_ne_nil _ _
  have hshort : t.Short := fun k => (congrArg List.length (hlog k)).le.trans (market_short k)
  have hconsistent := (reach_ok (by decide) (fun _ => not_false) hrun.reach hshort).1
  obtain ⟨results, r, hrecover, -⟩ := recoverPartition_held hconsistent hshort (p := 0) (n := 1) (by decide)
    fun _ => le_refl (0 : Int)
  have hidle := hdown.step (.restart (fun _ => 0) (fun _ => le_rfl) hrecover) fun _ h => (by cases h)
  have hrecorded := events_recorded rfl (fun _ => not_false) hidle hshort (.inl rfl) (k := "BTC-USD")
    (by decide +kernel)
  refine ⟨t, r, hdown, hidle, hcommands, hrecorded.1 ?_ (fun _ => 0) fun _ => le_rfl, ?_⟩
  · show (t.symbol "BTC-USD").events.length ≤ maxEvents
    rw [hevents, if_pos (show "BTC-USD" = marketCommand.symbol from rfl), List.length_append, hlength]
    decide
  · rw [hrecorded.2, if_neg hcommands]

/-- The process dies after `AppendProcessedCommand`, the next one recovers and gets the command again, and acknowledges
it: its events are in no stream, and there is no read model. -/
theorem events_lost : ∃ t r outcome, Reach soleWorker reliable ⟨t, .busy (.ret (outcome, r))⟩ ∧ t.Short ∧
    outcome.disposition = .ack ∧
    ¬ SameEvents (t.symbol "BTC-USD").eventStream
      ((Book.empty "BTC-USD" fun _ => 0).emits (t.symbol "BTC-USD").commands) ∧
    (t.symbol "BTC-USD").readModel ≠ (r "BTC-USD").map Book.snapshot := by
  obtain ⟨r, h⟩ := market_restarted
  have hheld := ((reach_ok (by decide) (fun _ => not_false) h market_short).live (.inl rfl)).books "BTC-USD"
    (by decide +kernel)
  cases hb : r "BTC-USD" with
  | none => cases hheld.2 hb
  | some b =>
    -- the command is processed already, so that it is not executed again
    have hrun := (h.step (.deliver (fun _ => 0) (fun _ => le_rfl) (some marketCommand) fun c hc hnew => by
      cases hc
      exact absurd (by decide) hnew)).run (handle_again _ (by decide +kernel) rfl (by decide))
    refine ⟨_, _, _, hrun, market_short, rfl, fun hsame => ?_, ?_⟩
    · have hlength := congrArg List.length hsame
      rw [List.length_map, List.length_map] at hlength
      exact absurd hlength (by decide +kernel)
    · rw [hb]
      exact nofun

end Worker

end Lob
