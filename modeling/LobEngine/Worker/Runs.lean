import LobEngine.Worker.Completing

/-!
# Runs of one worker

A process starts with a recovery, and then handles one delivery after the other. It can die between any two calls of
the store, and it ends when it does not lead. A delivery is any body at any time, so that a redelivery is one too.

* `Reach`: the states that a run reaches. `Undisturbed`: those of a run in which no process dies between the write of a
  command and that of its events and the read model.
* `Sys.Ok`: the store is consistent, and what the process has in its memory fits. `reach_ok`: in every state reached.
* `crash_consistent`: wherever the process dies, no command is twice in its stream, every recovery succeeds, and the
  books of a process are those of the streams.
* `no_drift`: if calls of the store can fail, this is so as long as no `AppendProcessedCommand` fails.
-/

namespace Lob.Worker

open Exc Go Prog

inductive Mode where
  /-- No process runs. -/
  | down
  /-- The process waits for a delivery. -/
  | idle (r : Registry)
  /-- The process handles a delivery. -/
  | busy (m : Handler (Outcome × Registry))

structure Sys where
  store : State
  mode : Mode

def recover (p : Processor) (now : Clock) (s : State) : Except StoreError (List RecoveryResult) × Registry :=
  (recoverPartition now s.contents p.partitionID p.partitionCount).run Registry.empty

inductive Step (p : Processor) (P : Policy) : Sys → Sys → Prop
  | restart {s : State} {results : List RecoveryResult} {r : Registry} (now : Clock) (hn : ∀ n, 0 ≤ now n)
      (h : recover p now s = (.ok results, r)) : Step p P ⟨s, .down⟩ ⟨s, .idle r⟩
  | deliver {s : State} {r : Registry} (now : Clock) (hn : ∀ n, 0 ≤ now n) (body : Option Go.Command)
      (hprompt : Prompt s r now body) :
      Step p P ⟨s, .idle r⟩ ⟨s, .busy (handle p now r body)⟩
  | call {s t : State} {c : Call} {k : c.Answer → Handler (Outcome × Registry)} {a : c.Answer}
      (h : act P c s a t) : Step p P ⟨s, .busy (.call c k)⟩ ⟨t, .busy (k a)⟩
  | done {s : State} {outcome : Outcome} {r : Registry} : Step p P ⟨s, .busy (.ret (outcome, r))⟩
      ⟨s, if outcome.leadershipLost then .down else .idle r⟩
  | die {s : State} {m : Mode} : Step p P ⟨s, m⟩ ⟨s, .down⟩

inductive Reach (p : Processor) (P : Policy) : Sys → Prop
  | init : Reach p P ⟨.empty, .down⟩
  | step {x y : Sys} (h : Reach p P x) (hxy : Step p P x y) : Reach p P y

/-- A command is in its stream, and its events or the read model are not written yet. -/
def Sys.Behind (x : Sys) : Prop :=
  match x.mode with
  | .busy (.call c _) => c.Records
  | _ => False

/-- The states of the runs in which no process dies behind. -/
inductive Undisturbed (p : Processor) (P : Policy) : Sys → Prop
  | init : Undisturbed p P ⟨.empty, .down⟩
  | step {x y : Sys} (h : Undisturbed p P x) (hxy : Step p P x y) (hdie : x.Behind → y.mode ≠ .down) :
    Undisturbed p P y

/-- The store is consistent, and what the process has in its memory fits. -/
def Sys.Ok (p : Processor) (P : Policy) (x : Sys) : Prop :=
  Consistent x.store ∧ match x.mode with
    | .down => True
    | .idle r => Live p r x.store
    | .busy m => Keeps P (fun y t => Consistent t ∧ (y.1.Stays → Live p y.2 t)) m x.store

/-- The process has the registry in its memory, and is between two deliveries, or returns from one that it does not
requeue. -/
def Sys.Settled (x : Sys) (r : Registry) : Prop :=
  x.mode = .idle r ∨ ∃ outcome, x.mode = .busy (.ret (outcome, r)) ∧ outcome.disposition ≠ .nackRequeue

section

variable {p : Processor} {P : Policy} {x y : Sys} {s t : State}

/-- Streams only grow. -/
theorem act_log {c : Call} {a : c.Answer} (h : act P c s a t) (k : String) :
    (s.symbol k).log <+: (t.symbol k).log := by
  by_cases hc : c.Logs
  · cases c with
    | appendProcessedCommand c =>
      match a, h with
      | .error e, h =>
        rw [show t = s from h.2]
      | .ok id, ⟨processedAt, trimmed, _, _, _, ht⟩ =>
        rw [ht]
        rcases eq_or_ne k c.symbol with rfl | hne
        · rw [State.append_self]
          exact List.prefix_append ..
        · rw [State.append_ne s hne]
    | saveRecoverySnapshot symbol snapshot =>
      match a, h with
      | .error e, h =>
        rw [show t = s from h.2]
      | .ok _, h =>
        rw [show t = _ from h]
        rcases eq_or_ne k symbol with rfl | hne
        · rw [State.update_self]
        · rw [State.update_ne s _ hne]
    | _ => exact absurd hc not_false
  · rw [(act_sameLogs h hc).log k]

theorem Step.log (h : Step p P x y) (k : String) : (x.store.symbol k).log <+: (y.store.symbol k).log := by
  cases h with
  | call h => exact act_log h k
  | _ => exact List.prefix_refl _

theorem Step.short (h : Step p P x y) (hy : y.store.Short) : x.store.Short :=
  fun k => (h.log k).length_le.trans (hy k)

theorem Step.ok (hcount : 1 ≤ p.partitionCount) (hP : ∀ c, ¬ P.fails (.appendProcessedCommand c))
    (hshort : x.store.Short) (hx : x.Ok p P) (h : Step p P x y) : y.Ok p P := by
  obtain ⟨hcons, hmode⟩ := hx
  cases h with
  | restart now hn hrun =>
    obtain ⟨results, r', hrun', hbooks⟩ := recoverPartition_held hcons hshort hcount hn
    rw [recover, hrun'] at hrun
    cases hrun
    exact ⟨hcons, hcons, hbooks⟩
  | deliver now hn body hprompt => exact ⟨hcons, handle_ensures hmode hn (fun c _ => hP c) hprompt⟩
  | call h =>
    obtain ⟨hcons', hrest⟩ := Ensures.next hmode (SameLogs.refl _) h
    exact ⟨hcons', hrest⟩
  | @done s outcome r =>
    obtain ⟨-, hlive⟩ : Consistent s ∧ (outcome.Stays → Live p r s) := hmode
    refine ⟨hcons, ?_⟩
    cases hl : outcome.leadershipLost with
    | true => trivial
    | false => exact hlive (.inr hl)
  | die => exact ⟨hcons, trivial⟩

/-- In every state of a run. -/
theorem reach_ok (hcount : 1 ≤ p.partitionCount) (hP : ∀ c, ¬ P.fails (.appendProcessedCommand c))
    (h : Reach p P x) (hshort : x.store.Short) : x.Ok p P := by
  induction h with
  | init => exact ⟨consistent_empty, trivial⟩
  | step h hxy ih => exact hxy.ok hcount hP (hxy.short hshort) (ih (hxy.short hshort))

/-- The process has the books of the streams in its memory. -/
theorem Sys.Ok.live (h : x.Ok p P) {r : Registry} (hr : x.Settled r) : Live p r x.store := by
  obtain ⟨store, mode⟩ := x
  obtain ⟨hcons, hmode⟩ := h
  rcases hr with rfl | ⟨outcome, rfl, hd⟩
  · exact hmode
  · exact hmode.2 (.inl hd)

/-- The book of a symbol in the registry is, up to the timestamps of what stop orders triggered, the one that the
commands of the stream lead to from an empty book. -/
def BooksReplay (p : Processor) (r : Registry) (s : State) : Prop :=
  ∀ k, Store.Own p.partitionID p.partitionCount k → ∀ now : Clock, (∀ n, 0 ≤ now n) →
    Alike ((r k).getD (Book.empty k now)) ((Book.empty k now).replay (s.symbol k).commands)

theorem own_not_blank {q n : Int} {k : String} (h : Store.Own q n k) : isBlank k = false := by
  by_contra hblank
  rw [Store.Own, partitionID, if_pos (by simpa using hblank)] at h
  cases h

theorem Live.replay {r : Registry} (h : Live p r s) : BooksReplay p r s := by
  intro k hk now hn
  cases hr : r k with
  | some b => exact ((h.books k hk).1 b hr).alike hn
  | none =>
    rw [(h.books k hk).2 hr]
    exact ⟨rfl, fun _ => rfl⟩

/-! ## A run -/

theorem Undisturbed.reach (h : Undisturbed p P x) : Reach p P x := by
  induction h with
  | init => exact .init
  | step h hxy hdie ih => exact ih.step hxy

theorem Undisturbed.steps {m m' : Handler (Outcome × Registry)} (h : Undisturbed p P ⟨s, .busy m⟩)
    (hsteps : Steps (act P) m s m' t) : Undisturbed p P ⟨t, .busy m'⟩ := by
  induction hsteps with
  | refl p s => exact h
  | call first rest ih => exact ih (h.step (.call first) fun _ => nofun)

theorem Undisturbed.run {m : Handler (Outcome × Registry)} {a : Outcome × Registry} (h : Undisturbed p P ⟨s, .busy m⟩)
    (hrun : Run (act P) m s a t) : Undisturbed p P ⟨t, .busy (.ret a)⟩ := h.steps hrun.steps

theorem Reach.run {m : Handler (Outcome × Registry)} {a : Outcome × Registry} (h : Reach p P ⟨s, .busy m⟩)
    (hrun : Run (act P) m s a t) : Reach p P ⟨t, .busy (.ret a)⟩ := by
  induction hrun with
  | ret a s => exact h
  | call first rest ih => exact ih (h.step (.call first))

end

/-- The process handles the market order, and no call of the store fails up to its execution. -/
theorem market_delivered {P : Policy} (hP : P.leads .empty "w" (.ok true)) : ∃ result,
    result.events.length = 3 ∧ Undisturbed soleWorker P ⟨.empty, .busy (do
      let outcome ← commit soleWorker marketCommand marketBook result
      return (outcome, (Registry.empty.execute (fun _ => 0) marketCommand).2))⟩ := by
  obtain ⟨result, hevents, hsteps⟩ := market_steps (p := soleWorker) (s := .empty) (by decide +kernel) hP
    (fun h => (by cases h))
  have hidle : Undisturbed soleWorker P ⟨.empty, .idle Registry.empty⟩ :=
    .step .init (.restart (fun _ => 0) (fun _ => le_rfl) rfl) fun _ => nofun
  refine ⟨result, hevents, (hidle.step (.deliver (fun _ => 0) (fun _ => le_rfl) (some marketCommand) fun c hc _ => ?_)
    fun _ => nofun).steps hsteps⟩
  cases hc
  exact market_not_late

theorem market_appended : ∃ m, Reach soleWorker reliable ⟨marketStore, .busy m⟩ := by
  obtain ⟨result, -, h⟩ := market_delivered (P := reliable) rfl
  exact ⟨_, (h.steps (.bind (.after (checkLeader_run rfl) (.bind (.after (appendProcessedCommand_run _ market_later 0)
    (.refl _ _)))))).reach⟩

section

variable {p : Processor} {P : Policy} {x : Sys}

/-- Wherever the process of a worker dies, no command is twice in its stream, every recovery succeeds, and the books
that a process has in its memory are those of the streams. -/
theorem crash_consistent (hp : validate p.partitionID p.partitionCount = .ok ()) (hP : ∀ c, ¬ P.fails c)
    (h : Reach p P x) (hshort : x.store.Short) :
    (∀ k, ((x.store.symbol k).commands.map (·.commandId)).Nodup) ∧
      (∀ now, (∀ n, 0 ≤ now n) → (∃ results r, recover p now x.store = (.ok results, r)) ∧
        ∀ k, Store.Own p.partitionID p.partitionCount k →
          (recoverSymbol now (x.store.content k) k).Returns Registry.empty) ∧
      ∀ r, x.Settled r → BooksReplay p r x.store := by
  have hcount : 1 ≤ p.partitionCount := by
    by_contra hlt
    rw [validate, if_pos (by omega)] at hp
    cases hp
  have hok := reach_ok hcount (fun c => hP _) h hshort
  refine ⟨fun k => ?_, fun now hn => ⟨?_, fun k hk => ?_⟩, fun r hr => (hok.live hr).replay⟩
  · rw [SymbolState.commands, List.map_map]
    exact (hok.1.logs k).nodup
  · obtain ⟨results, r, hrun, -⟩ := recoverPartition_held hok.1 hshort hcount hn
    exact ⟨results, r, hrun⟩
  · obtain ⟨result, r, hrun, -⟩ := recoverSymbol_held (hok.1.logs k) (own_not_blank hk) (hshort k) hn
      (show Registry.empty k = none from rfl)
    exact ⟨result, r, hrun⟩

end

theorem market_restarted : ∃ r, Reach soleWorker reliable ⟨marketStore, .idle r⟩ := by
  obtain ⟨m, h⟩ := market_appended
  have hok := reach_ok (by decide) (fun _ => not_false) h market_short
  obtain ⟨results, r, hrun, -⟩ := recoverPartition_held hok.1 market_short (p := 0) (n := 1) (by decide)
    fun _ => le_refl (0 : Int)
  exact ⟨r, (h.step .die).step (.restart (fun _ => 0) (fun _ => le_rfl) hrun)⟩

/-- The process dies after `AppendProcessedCommand`, and a new one recovers. -/
theorem crash_consistent_market : ∃ r, Reach soleWorker reliable ⟨marketStore, .idle r⟩ ∧
    BooksReplay soleWorker r marketStore := by
  obtain ⟨r, h⟩ := market_restarted
  exact ⟨r, h, (crash_consistent rfl (fun _ => not_false) h market_short).2.2 r (.inl rfl)⟩

section

variable {p : Processor} {P : Policy} {x : Sys}

/-- Whichever calls of the store fail, but for `AppendProcessedCommand`: whenever a process is between two deliveries,
or returns from one that it does not requeue, the books in its memory are those of the streams. -/
theorem no_drift (hp : validate p.partitionID p.partitionCount = .ok ())
    (hP : ∀ c, ¬ P.fails (.appendProcessedCommand c)) (h : Reach p P x) (hshort : x.store.Short) {r : Registry}
    (hr : x.Settled r) : BooksReplay p r x.store := by
  have hcount : 1 ≤ p.partitionCount := by
    by_contra hlt
    rw [validate, if_pos (by omega)] at hp
    cases hp
  exact ((reach_ok hcount hP h hshort).live hr).replay

end

/-- After `SaveReadModel` failed, the book is that of the stream: it has executed the command, which is logged. -/
theorem no_drift_flaky : ∃ t r outcome, Reach soleWorker flaky ⟨t, .busy (.ret (outcome, r))⟩ ∧
    outcome.disposition = .ack ∧ (t.symbol "BTC-USD").commands ≠ [] ∧ BooksReplay soleWorker r t := by
  obtain ⟨result, -, h⟩ := market_delivered (P := flaky) rfl
  obtain ⟨t, hsame, -, -, -, hevents⟩ := appendEvents_run (P := flaky) (s := marketStore) "BTC-USD" result.events
  obtain ⟨outcome, hack, -, hreject⟩ := reject_run (P := flaky) (s := t) marketCommand (.store "down")
  have hfails : act flaky (.saveReadModel "BTC-USD" marketBook.snapshot result.trades) t
      (Except.error "down" : Except Failure Unit) t := ⟨fun _ h => (by cases h), rfl⟩
  have hrun := h.reach.run (.bind ((checkLeader_run rfl).bind (.bind ((appendProcessedCommand_run _ market_later 0).bind
    (hevents.bind (.call hfails (.ret _ _)))) hreject)) (.ret _ _))
  have hlog : ∀ k, (t.symbol k).log = (marketStore.symbol k).log := hsame.log
  have hP : ∀ c, ¬ flaky.fails (.appendProcessedCommand c) := fun c h => h c rfl
  refine ⟨_, _, _, hrun, hack, fun hnil => ?_, no_drift rfl hP hrun (fun k => ?_)
    (.inr ⟨_, rfl, by rw [hack]; decide⟩)⟩
  · rw [SymbolState.commands] at hnil
    exact absurd (congrArg List.length hnil) (by
      show (List.map _ (t.symbol "BTC-USD").log).length ≠ _
      rw [hlog]
      decide)
  · show ((t.symbol k).log).length ≤ _
    rw [hlog]
    exact market_short k

/-- After `AppendProcessedCommand` failed, the command is acknowledged; the book has executed it, and it is in no
stream. -/
theorem drifts : ∃ t r outcome, Reach soleWorker appendFails ⟨t, .busy (.ret (outcome, r))⟩ ∧ t.Short ∧
    outcome.disposition = .ack ∧ ¬ BooksReplay soleWorker r t := by
  obtain ⟨result, -, h⟩ := market_delivered (P := appendFails) rfl
  obtain ⟨-, -, hbook⟩ := market_executes
  obtain ⟨outcome, hack, -, hreject⟩ := reject_run (P := appendFails) (s := .empty) marketCommand (.store "down")
  have hfails : act appendFails (.appendProcessedCommand marketCommand) .empty
      (Except.error "down" : Except Failure String) .empty := ⟨rfl, rfl⟩
  have hrun := h.reach.run (.bind ((checkLeader_run rfl).bind
    (.bind (.bind (.call hfails (.ret _ _)) (.ret _ _)) hreject))
    (.ret _ _))
  refine ⟨_, _, _, hrun, fun _ => Nat.zero_le _, hack, fun hreplay => ?_⟩
  have hsnap := (hreplay "BTC-USD" (by decide +kernel) (fun _ => 0) fun _ => le_rfl).snapshot
  rw [hbook] at hsnap
  have hsequence : marketBook.snapshot.sequence = 0 := congrArg (·.sequence) hsnap
  exact absurd hsequence (by decide +kernel)

end Lob.Worker
