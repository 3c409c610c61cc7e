import LobEngine.Worker.Runs
import Mathlib.Logic.Relation

/-!
# Failover

Several workers of one partition. A worker acquires the lock if nobody holds it, recovers, and then handles one delivery
after the other. The lock can expire at any time, and a worker can die at any time. Each call of the store is one step,
of any of the workers.

* `Rules`: which calls can fail, which calls and which deliveries there can be. `Reach`: the states of their runs.
* `Fenced`: the command streams and the recovery snapshots are written by the worker that holds the lock.
* `failover_safe`: in a run whose writes are fenced, no command is twice in its stream, and every recovery snapshot is
  the replay of the stream up to its checkpoint.
* `failover_twice`: in a run whose writes are not, a command is twice in its stream.
-/

namespace Lob.Worker.Failover

open Exc Go Prog

inductive Mode where
  /-- No process runs, or it waits for the lock. -/
  | down
  /-- The process has acquired the lock, and is about to recover. -/
  | starting
  | idle (r : Registry)
  | busy (m : Handler (Outcome × Registry))

structure World where
  store : State
  /-- The workers by their ids. -/
  workers : String → Mode

/-- What can happen in a run. -/
structure Rules where
  policy : Policy
  /-- The worker may make the call. -/
  allowed : String → Call → State → Prop
  /-- The worker with this registry may be delivered the body. -/
  accepts : State → Registry → Clock → Option Go.Command → Prop

/-- The rules, where only the calls `F` can fail. -/
def Rules.only (R : Rules) (F : Call → Prop) : Rules := { R with policy := { R.policy with fails := F } }

/-- No call fails, and the worker leads that holds the lock. -/
def lock : Policy := ⟨fun _ => False, fun s w answer => answer = .ok (decide (s.leader = some w))⟩

/-- What a recovery reads is written by the worker that holds the lock. -/
def Fenced (w : String) (c : Call) (s : State) : Prop := c.Logs → s.leader = some w

/-- No call fails, no command errs after it began to match, and the writes are fenced. -/
def fenced : Rules := ⟨lock, Fenced, Prompt⟩

/-- No call fails, and no command errs after it began to match. -/
def unfenced : Rules := ⟨lock, fun _ _ _ => True, Prompt⟩

/-- A step of a worker of the partition `q` of `n`. -/
inductive Step (q n : Int) (R : Rules) : World → World → Prop
  /-- `AcquireLeadership`. -/
  | acquire {s : State} {ws : String → Mode} (w : String) (hw : ws w = .down) (hs : s.leader = none) :
    Step q n R ⟨s, ws⟩ ⟨{ s with leader := some w }, Function.update ws w .starting⟩
  | recover {s : State} {ws : String → Mode} {results : List RecoveryResult} {r : Registry} (w : String)
      (hw : ws w = .starting) (now : Clock) (hn : ∀ n, 0 ≤ now n) (h : recover ⟨w, q, n⟩ now s = (.ok results, r)) :
    Step q n R ⟨s, ws⟩ ⟨s, Function.update ws w (.idle r)⟩
  | deliver {s : State} {ws : String → Mode} {r : Registry} (w : String) (hw : ws w = .idle r) (now : Clock)
      (hn : ∀ n, 0 ≤ now n) (body : Option Go.Command) (haccepts : R.accepts s r now body) :
    Step q n R ⟨s, ws⟩ ⟨s, Function.update ws w (.busy (handle ⟨w, q, n⟩ now r body))⟩
  | call {s t : State} {ws : String → Mode} {c : Call} {k : c.Answer → Handler (Outcome × Registry)} {a : c.Answer}
      (w : String) (hw : ws w = .busy (.call c k)) (hc : R.allowed w c s) (h : act R.policy c s a t) :
    Step q n R ⟨s, ws⟩ ⟨t, Function.update ws w (.busy (k a))⟩
  | done {s : State} {ws : String → Mode} {outcome : Outcome} {r : Registry} (w : String)
      (hw : ws w = .busy (.ret (outcome, r))) :
    Step q n R ⟨s, ws⟩ ⟨s, Function.update ws w (if outcome.leadershipLost then .down else .idle r)⟩
  /-- The lock expires, or is released. -/
  | expire {s : State} {ws : String → Mode} : Step q n R ⟨s, ws⟩ ⟨{ s with leader := none }, ws⟩
  | die {s : State} {ws : String → Mode} (w : String) : Step q n R ⟨s, ws⟩ ⟨s, Function.update ws w .down⟩

/-- The states that are reached from empty streams. -/
def Reach (q n : Int) (R : Rules) : World → Prop := Relation.ReflTransGen (Step q n R) ⟨.empty, fun _ => .down⟩

/-- What the worker has in its memory fits the store. -/
def Fits (p : Processor) (s : State) : Mode → Prop
  | .down => True
  | .starting => True
  | .idle r => Live p r s
  | .busy m => Keeps lock (fun y t => Consistent t ∧ (y.1.Stays → Live p y.2 t)) m s

/-- The store is consistent, and what the holder of the lock has in its memory fits. -/
structure World.Ok (q n : Int) (x : World) : Prop where
  consistent : Consistent x.store
  holder : ∀ w, x.store.leader = some w → Fits ⟨w, q, n⟩ x.store (x.workers w)

section

variable {q n : Int} {R : Rules} {x y : World} {s t : State} {w : String}
  {ws : String → Mode} {p : Processor} {mode : Mode}

theorem act_leader {P : Policy} {c : Call} {a : c.Answer} (h : act P c s a t) : t.leader = s.leader := by
  cases c with
  | now => exact congrArg _ (show t = s from h)
  | hasLeadership w => exact congrArg _ h.1
  | isCommandProcessed symbol id =>
    cases a with
    | error e => exact congrArg _ h.2
    | ok b => exact congrArg _ h.1
  | appendProcessedCommand c =>
    cases a with
    | error e => exact congrArg _ h.2
    | ok id =>
      obtain ⟨processedAt, trimmed, -, -, -, rfl⟩ := h
      rfl
  | appendEvents symbol events =>
    cases a with
    | error e => exact congrArg _ h.2
    | ok b =>
      obtain ⟨trimmed, -, -, rfl⟩ := h
      rfl
  | saveReadModel symbol snapshot trades =>
    cases a with
    | error e => exact congrArg _ h.2
    | ok b =>
      cases h
      rfl
  | saveRecoverySnapshot symbol snapshot =>
    cases a with
    | error e => exact congrArg _ h.2
    | ok b =>
      cases h
      rfl
  | saveCommandStatus status =>
    cases a with
    | error e => exact congrArg _ h.2
    | ok b =>
      cases h
      rfl

/-- What others do to the rest of the store does not matter. -/
theorem Fits.same (h : Fits p s mode) (hst : SameLogs s t) : Fits p t mode := by
  match mode, h with
  | .down, h => exact h
  | .starting, h => exact h
  | .idle r, h => exact Live.same h hst
  | .busy m, h =>
    exact Ensures.stable h (fun _ _ _ => SameLogs.trans)
      (fun _ _ _ h hst => ⟨hst.consistent h.1, fun hstays => (h.2 hstays).same hst⟩) hst

theorem holder_update {ok : String → Mode → Prop} (h : ∀ w, s.leader = some w → ok w (ws w)) (w : String)
    (hw : s.leader = some w → ok w mode) : ∀ v, s.leader = some v → ok v (Function.update ws w mode v) := by
  intro v hv
  rcases eq_or_ne v w with rfl | hne
  · rw [Function.update_self]
    exact hw hv
  · rw [Function.update_of_ne hne]
    exact h v hv

/-- Streams only grow. -/
theorem Step.log (h : Step q n R x y) (k : String) : (x.store.symbol k).log <+: (y.store.symbol k).log := by
  cases h with
  | call w hw hc h => exact act_log h k
  | _ => exact List.prefix_refl _

theorem Step.short (h : Step q n R x y) (hy : y.store.Short) : x.store.Short :=
  fun k => (h.log k).length_le.trans (hy k)

theorem Step.ok (hcount : 1 ≤ n) (hshort : x.store.Short) (hx : x.Ok q n) (h : Step q n fenced x y) : y.Ok q n := by
  obtain ⟨hcons, hholder⟩ := hx
  cases h with
  | @acquire s ws w hw hs =>
    have hsame : SameLogs s { s with leader := some w } := ⟨rfl, fun _ => rfl, fun _ => rfl, fun _ => rfl, fun _ => rfl⟩
    refine ⟨hsame.consistent hcons, fun v hv => ?_⟩
    obtain rfl : w = v := Option.some.inj hv
    show Fits _ _ (Function.update ws w .starting w)
    rw [Function.update_self]
    trivial
  | recover w hw now hn h =>
    refine ⟨hcons, holder_update hholder w fun _ => ?_⟩
    obtain ⟨results, r', hrun, hbooks⟩ := recoverPartition_held hcons hshort hcount hn
    rw [Worker.recover, hrun] at h
    cases h
    exact ⟨hcons, hbooks⟩
  | @deliver s ws r w hw now hn body haccepts =>
    refine ⟨hcons, holder_update hholder w fun hv => ?_⟩
    have hlive : Fits ⟨w, q, n⟩ s (ws w) := hholder w hv
    rw [hw] at hlive
    exact handle_ensures hlive hn (fun _ _ => not_false) haccepts
  | @call s t ws c k a w hw hc h =>
    have hleader := act_leader h
    by_cases hv : s.leader = some w
    · have hbusy : Fits ⟨w, q, n⟩ s (ws w) := hholder w hv
      rw [hw] at hbusy
      obtain ⟨hcons', hrest⟩ := Ensures.next hbusy (SameLogs.refl _) h
      refine ⟨hcons', fun v hv' => ?_⟩
      obtain rfl : w = v := Option.some.inj (hv.symm.trans (hleader.symm.trans hv'))
      show Fits _ _ (Function.update ws w (.busy (k a)) w)
      rw [Function.update_self]
      exact hrest
    · -- a worker without the lock writes nothing that a recovery reads
      have hsame := act_sameLogs h fun hlogs => hv (hc hlogs)
      refine ⟨hsame.consistent hcons, fun v hv' => ?_⟩
      have hv' : s.leader = some v := hleader ▸ hv'
      have hne : v ≠ w := fun heq => hv (heq ▸ hv')
      show Fits _ _ (Function.update ws w (.busy (k a)) v)
      rw [Function.update_of_ne hne]
      exact (hholder v hv').same hsame
  | @done s ws outcome r w hw =>
    refine ⟨hcons, holder_update hholder w fun hv => ?_⟩
    have hlive : Fits ⟨w, q, n⟩ s (ws w) := hholder w hv
    rw [hw] at hlive
    cases hl : outcome.leadershipLost with
    | true => trivial
    | false => exact hlive.2 (.inr hl)
  | @expire s ws =>
    have hsame : SameLogs s { s with leader := none } := ⟨rfl, fun _ => rfl, fun _ => rfl, fun _ => rfl, fun _ => rfl⟩
    refine ⟨hsame.consistent hcons, fun w hw => ?_⟩
    cases hw
  | die w => exact ⟨hcons, holder_update hholder w fun _ => trivial⟩

/-- In every state of a run whose writes are fenced. -/
theorem reach_ok (hcount : 1 ≤ n) (h : Reach q n fenced x) (hshort : x.store.Short) : x.Ok q n := by
  induction h with
  | refl => exact ⟨consistent_empty, fun w hw => (by cases hw)⟩
  | tail h hxy ih => exact hxy.ok hcount (hxy.short hshort) (ih (hxy.short hshort))

theorem run_log (h : Relation.ReflTransGen (Step q n R) x y) (k : String) :
    (x.store.symbol k).log <+: (y.store.symbol k).log := by
  induction h with
  | refl => exact List.prefix_refl _
  | tail h hxy ih => exact ih.trans (hxy.log k)

/-- The recovery snapshot of a book that has executed the entries of the stream up to the checkpoint. -/
def Checkpointed (symbol : String) (log : Stream Go.Command) (snapshot : RecoverySnapshot) : Prop :=
  ∃ pre e post, log = pre ++ e :: post ∧ snapshot.lastCommandStreamId = some e.id ∧
    ∀ now : Clock, (∀ n, 0 ≤ now n) → snapshot.restamp Stamp.erase =
      (((Book.empty symbol now).replay ((pre ++ [e]).map (·.value))).recoverySnapshot (some e.id)).restamp Stamp.erase

theorem Checkpointed.grow {symbol : String} {log log' : Stream Go.Command} {snapshot : RecoverySnapshot}
    (h : Checkpointed symbol log snapshot) (hlog : log <+: log') : Checkpointed symbol log' snapshot := by
  obtain ⟨pre, e, post, rfl, hid, hreplay⟩ := h
  obtain ⟨rest, rfl⟩ := hlog
  exact ⟨pre, e, post ++ rest, by rw [List.append_assoc, List.cons_append], hid, hreplay⟩

theorem checkpointed {k : String} {z : SymbolState} (h : Logs k z) {snapshot : RecoverySnapshot}
    (hs : z.recoverySnapshot = some snapshot) : Checkpointed k z.log snapshot := by
  obtain ⟨pre, e, post, b, hlog, rfl, hb⟩ := h.snapshot snapshot hs
  exact ⟨pre, e, post, hlog, rfl, fun now hn => (hb.alike hn).recoverySnapshot _⟩

/-- The worker makes some calls. -/
theorem run_steps {m m' : Handler (Outcome × Registry)} (h : Relation.ReflTransGen (Step q n R) x ⟨s, ws⟩)
    (hw : ws w = .busy m) (hsteps : Steps (act R.policy) m s m' t)
    (hallowed : ∀ c u, u.leader = s.leader → R.allowed w c u) :
    Relation.ReflTransGen (Step q n R) x ⟨t, Function.update ws w (.busy m')⟩ := by
  induction hsteps generalizing ws with
  | refl m s =>
    rw [← hw, Function.update_eq_self]
    exact h
  | @call c k m' s t s' a first rest ih =>
    have hrest := ih (h.tail (.call w hw (hallowed c s rfl) first)) (Function.update_self ..)
      fun c u hu => hallowed c u (hu.trans (act_leader first))
    rw [Function.update_idem] at hrest
    exact hrest

theorem Reach.steps {m m' : Handler (Outcome × Registry)} (h : Reach q n R ⟨s, ws⟩) (hw : ws w = .busy m)
    (hsteps : Steps (act R.policy) m s m' t) (hallowed : ∀ c u, u.leader = s.leader → R.allowed w c u) :
    Reach q n R ⟨t, Function.update ws w (.busy m')⟩ := run_steps h hw hsteps hallowed

/-- A worker acquires the lock, recovers from an empty store, and executes a market order. -/
theorem market_led {allowed : String → Call → State → Prop} (h : Reach 0 1 ⟨lock, allowed, Prompt⟩ ⟨.empty, ws⟩)
    (hw : ws w = .down) (hallowed : ∀ c u, u.leader = some w → allowed w c u) : ∃ result,
      Reach 0 1 ⟨lock, allowed, Prompt⟩ ⟨{ State.empty with leader := some w }, Function.update ws w (.busy (do
        let outcome ← commit ⟨w, 0, 1⟩ marketCommand marketBook result
        return (outcome, (Registry.empty.execute (fun _ => 0) marketCommand).2)))⟩ := by
  have hown : checkPartition "BTC-USD" 0 1 = .ok () := by decide +kernel
  obtain ⟨result, -, hsteps⟩ := market_steps (P := lock) (p := ⟨w, 0, 1⟩) (s := { State.empty with leader := some w })
    hown (congrArg Except.ok (decide_eq_true rfl).symm) (fun h => (by cases h))
  have hidle := ((h.tail (.acquire w hw rfl)).tail
    (.recover w (Function.update_self ..) (fun _ => 0) (fun _ => le_rfl) rfl))
  have hbusy := hidle.tail (.deliver w (Function.update_self ..) (fun _ => 0) (fun _ => le_rfl) (some marketCommand)
    fun c hc _ => by
      cases hc
      exact market_not_late)
  have hdone := Reach.steps hbusy (Function.update_self ..) hsteps hallowed
  rw [Function.update_idem, Function.update_idem, Function.update_idem] at hdone
  exact ⟨result, hdone⟩

/-- It handles the market order to the end. -/
theorem market_handled {allowed : String → Call → State → Prop} (h : Reach 0 1 ⟨lock, allowed, Prompt⟩ ⟨.empty, ws⟩)
    (hw : ws w = .down) (hallowed : ∀ c u, u.leader = some w → allowed w c u) : ∃ t mode snapshot,
      Reach 0 1 ⟨lock, allowed, Prompt⟩ ⟨t, Function.update ws w mode⟩ ∧ t.leader = some w ∧
      (∀ k, (t.symbol k).log = (marketStore.symbol k).log) ∧
      (t.symbol "BTC-USD").recoverySnapshot = some snapshot := by
  obtain ⟨result, hled⟩ := market_led h hw hallowed
  obtain ⟨t, hlog, -, hsnapshot, -, -, hleader, hpersist⟩ := persist_run (P := lock)
    (s := { State.empty with leader := some w }) marketCommand market_later marketBook result
  have hlead : ∀ s : State, s.leader = some w → lock.leads s w (.ok true) := fun s hs =>
    congrArg Except.ok (decide_eq_true hs).symm
  have hdone := hled.steps (Function.update_self ..) (Run.steps (.bind ((checkLeader_run (hlead _ rfl)).bind
    (hpersist.bind ((checkLeader_run (hlead t hleader)).bind (.ret _ _)))) (.ret _ _))) hallowed
  rw [Function.update_idem] at hdone
  exact ⟨t, _, _, hdone, hleader, hlog, hsnapshot⟩

/-- In a run whose writes are fenced: no command is twice in its stream; every recovery snapshot, from when it is saved
on, is the replay of the stream up to its checkpoint; and every recovery succeeds, with the books of the streams. -/
theorem failover_safe (hp : validate q n = .ok ()) (hx : Reach q n fenced x)
    (hxy : Relation.ReflTransGen (Step q n fenced) x y) (hshort : y.store.Short) :
    (∀ k, ((y.store.symbol k).commands.map (·.commandId)).Nodup) ∧
      (∀ k snapshot, (x.store.symbol k).recoverySnapshot = some snapshot →
        Checkpointed k (y.store.symbol k).log snapshot) ∧
      ∀ w now, (∀ n, 0 ≤ now n) → ∃ results r, recover ⟨w, q, n⟩ now y.store = (.ok results, r) ∧
        BooksReplay ⟨w, q, n⟩ r y.store := by
  have hcount : 1 ≤ n := by
    by_contra hlt
    rw [validate, if_pos (by omega)] at hp
    cases hp
  have hy := reach_ok hcount (hx.trans hxy) hshort
  have hshort' : x.store.Short := fun k => (run_log hxy k).length_le.trans (hshort k)
  refine ⟨fun k => ?_, fun k snapshot hs => ?_, fun w now hn => ?_⟩
  · rw [SymbolState.commands, List.map_map]
    exact (hy.consistent.logs k).nodup
  · exact (checkpointed ((reach_ok hcount hx hshort').consistent.logs k) hs).grow (run_log hxy k)
  · obtain ⟨results, r, hrun, hbooks⟩ := recoverPartition_held hy.consistent hshort hcount hn
    exact ⟨results, r, hrun, (Live.mk hy.consistent hbooks : Live ⟨w, q, n⟩ r _).replay⟩

end

/-- A worker acquires the lock and handles a market order; the lock expires, and the next worker acquires it, recovers
and acknowledges the market order when it is delivered again. -/
theorem failover_safe_market : ∃ x y snapshot, Reach 0 1 fenced x ∧ Relation.ReflTransGen (Step 0 1 fenced) x y ∧
    x.store.leader = some "w" ∧ y.store.leader = some "v" ∧
    (x.store.symbol "BTC-USD").recoverySnapshot = some snapshot ∧
    ((y.store.symbol "BTC-USD").commands.map (·.commandId)).Nodup ∧
    Checkpointed "BTC-USD" (y.store.symbol "BTC-USD").log snapshot := by
  have hstart : Reach 0 1 fenced ⟨.empty, fun _ => .down⟩ := .refl
  obtain ⟨t, mode, snapshot, hx, hleader, hlog, hsnapshot⟩ := market_handled (w := "w") hstart rfl fun _ _ hu _ => hu
  have hshort : t.Short := fun k => (congrArg List.length (hlog k)).le.trans (market_short k)
  obtain ⟨results, r, hrecover, -⟩ := (failover_safe rfl hx .refl hshort).2.2 "v" (fun _ => 0) fun _ => le_rfl
  have hprocessed : marketCommand.commandId ∈ (t.symbol marketCommand.symbol).processedIds := by
    refine (((reach_ok (by decide) hx hshort).consistent.logs "BTC-USD").ids _).mpr ?_
    rw [hlog]
    decide
  have hidle : Relation.ReflTransGen (Step 0 1 fenced) ⟨t, Function.update (fun _ => .down) "w" mode⟩
      ⟨{ t with leader := some "v" }, Function.update (Function.update (Function.update (fun _ => .down) "w" mode)
        "v" .starting) "v" (.idle r)⟩ :=
    ((Relation.ReflTransGen.single .expire).tail (.acquire "v" rfl rfl)).tail
      (.recover "v" (Function.update_self ..) (fun _ => 0) (fun _ => le_rfl) hrecover)
  have hbusy := hidle.tail (.deliver "v" (Function.update_self ..) (fun _ => 0) (fun _ => le_rfl) (some marketCommand)
    fun c hc hnew => by
      cases hc
      exact absurd hprocessed hnew)
  have hrun := handle_again (P := lock) (p := ⟨"v", 0, 1⟩) (fun _ => 0) (r := r)
    (s := { t with leader := some "v" }) (by decide +kernel : checkPartition "BTC-USD" 0 1 = .ok ())
    (congrArg Except.ok (decide_eq_true rfl).symm) hprocessed
  have hxy := run_steps hbusy (Function.update_self ..) hrun.steps fun _ _ hu _ => hu
  have hsafe := failover_safe rfl hx hxy hshort
  exact ⟨_, _, snapshot, hx, hxy, hleader, rfl, hsnapshot, hsafe.1 _, hsafe.2.1 _ _ hsnapshot⟩

/-- A worker executes a command, and loses the lock before it appends it; the next worker handles the same command, and
then the first one goes on. -/
theorem failover_twice : ∃ x, Reach 0 1 unfenced x ∧
    (x.store.symbol "BTC-USD").commands.map (·.commandId) = ["c", "c"] := by
  have hstart : Reach 0 1 unfenced ⟨.empty, fun _ => .down⟩ := .refl
  obtain ⟨result, h⟩ := market_led (w := "w") hstart rfl fun _ _ _ => trivial
  have hpaused := h.steps (Function.update_self ..) (.bind (.after (checkLeader_run rfl) (.refl _ _)))
    fun _ _ _ => trivial
  obtain ⟨t, mode, snapshot, hdone, -, hlog, -⟩ := market_handled (w := "v") (hpaused.tail .expire) rfl
    fun _ _ _ => trivial
  have hlater : Later "2-0" (t.symbol marketCommand.symbol).log := by
    rw [hlog]
    refine ⟨2 ^ 65, by decide +kernel, by decide, fun e he => ?_⟩
    obtain rfl := List.mem_singleton.mp he
    decide +kernel
  have hagain := hdone.steps (w := "w") rfl (.bind (.bind (.after (appendProcessedCommand_run marketCommand hlater 0)
    (.refl _ _)))) fun _ _ _ => trivial
  refine ⟨_, hagain, ?_⟩
  show (((t.append marketCommand "2-0" 0 _).symbol "BTC-USD").log.map (·.value)).map (·.commandId) = _
  rw [show "BTC-USD" = marketCommand.symbol from rfl, State.append_self, hlog]
  rfl

end Lob.Worker.Failover
