import LobEngine.Worker.Growth

/-!
# The queue

`Consume` of `broker/rabbit.go` on the queue of a partition, with all workers of the partition, their store and their
lock. The broker delivers the first message of the queue to a worker that waits for one, and has it as unacknowledged
until the worker acknowledges it, requeues it or rejects it, which makes it a dead letter. If the connection is lost
before that, the broker requeues the message, and the worker goes on until it notices.

* `Step`, `Reach`: all interleavings of the calls of the workers, with crashes, lost connections, an expiring lock, and
  failing calls. `reach_only`: the only calls that can fail in a run are those that do.
* `reach_sound`: no interleaving breaks the order of the streams, the processed ids or the checkpoints.
* `messages_accounted`: no message is lost, none that is acknowledged is without a trace, none of the partition is a
  dead letter whose status was saved, and the streams hold nothing that was not published.
* `feed_recorded`: what is broadcast to the market is in the event stream.
* `exactly_once`: if the writes are fenced, no call fails and no command errs late, a command is in its stream exactly
  once, or it was rejected, or it is still to be handled.
-/

namespace Lob.Worker.Broker

open Exc Go Prog
open Failover (Rules fenced)

/-- The body of a message: a command, or something else. -/
abbrev Message := Option Go.Command

structure World where
  store : State
  workers : String → Failover.Mode
  /-- What the worker was delivered last, with the delivery tag. -/
  delivery : String → Nat × Message
  /-- How many deliveries were made. -/
  delivered : Nat
  queue : List Message
  unacked : List (Nat × Message)
  acked : List Message
  deadLetters : List Message
  /-- Every message that was published. -/
  published : List Message
  /-- What `PublishMarketEvents` has sent, by symbol. -/
  marketEvents : List (String × Published)
  /-- The calls of the store that have failed. -/
  failed : List Call

def World.empty : World := ⟨.empty, fun _ => .down, fun _ => (0, none), 0, [], [], [], [], [], [], []⟩

/-- The worker goes on with the next delivery, unless it has lost leadership. -/
def nextMode (o : Outcome) (r : Registry) : Failover.Mode := if o.leadershipLost then .down else .idle r

/-- A step of the broker, or of a worker of the partition `q` of `n`. -/
inductive Step (q n : Int) (R : Rules) (x : World) : World → Prop
  | publish (m : Message) : Step q n R x { x with queue := x.queue ++ [m], published := x.published ++ [m] }
  | acquire (w : String) (hw : x.workers w = .down) (hs : x.store.leader = none) : Step q n R x { x with
      store := { x.store with leader := some w }
      workers := Function.update x.workers w .starting }
  | recover {results : List RecoveryResult} {r : Registry} (w : String) (hw : x.workers w = .starting) (now : Clock)
      (hn : ∀ n, 0 ≤ now n) (h : recover ⟨w, q, n⟩ now x.store = (.ok results, r)) :
    Step q n R x { x with workers := Function.update x.workers w (.idle r) }
  | deliver {r : Registry} {m : Message} {ms : List Message} (w : String) (hw : x.workers w = .idle r)
      (hqueue : x.queue = m :: ms) (now : Clock) (hn : ∀ n, 0 ≤ now n) (haccepts : R.accepts x.store r now m) :
    Step q n R x { x with
      workers := Function.update x.workers w (.busy (handle ⟨w, q, n⟩ now r m))
      delivery := Function.update x.delivery w (x.delivered, m)
      delivered := x.delivered + 1
      queue := ms
      unacked := (x.delivered, m) :: x.unacked }
  | call {t : State} {c : Call} {k : c.Answer → Handler (Outcome × Registry)} {a : c.Answer} (w : String)
      (hw : x.workers w = .busy (.call c k)) (hc : R.allowed w c x.store) (h : act R.policy c x.store a t) :
    Step q n R x { x with
      store := t
      workers := Function.update x.workers w (.busy (k a))
      failed := if c.fails a then c :: x.failed else x.failed }
  /-- The message is acknowledged; to publish its events may fail. -/
  | ack {o : Outcome} {r : Registry} {pre post : List (Nat × Message)} {sent : List (String × Published)} (w : String)
      (hw : x.workers w = .busy (.ret (o, r))) (hunacked : x.unacked = pre ++ x.delivery w :: post)
      (ho : o.disposition = .ack) (hsent : sent = [] ∨ sent = [(o.symbol, o.publishEvents)]) :
    Step q n R x { x with
      workers := Function.update x.workers w (nextMode o r)
      unacked := pre ++ post
      acked := (x.delivery w).2 :: x.acked
      marketEvents := sent ++ x.marketEvents }
  /-- The message is put back to some place of the queue. -/
  | nack {o : Outcome} {r : Registry} {pre post : List (Nat × Message)} {front back : List Message} (w : String)
      (hw : x.workers w = .busy (.ret (o, r))) (hunacked : x.unacked = pre ++ x.delivery w :: post)
      (ho : o.disposition = .nackRequeue) (hqueue : x.queue = front ++ back) :
    Step q n R x { x with
      workers := Function.update x.workers w (nextMode o r)
      unacked := pre ++ post
      queue := front ++ (x.delivery w).2 :: back }
  | reject {o : Outcome} {r : Registry} {pre post : List (Nat × Message)} (w : String)
      (hw : x.workers w = .busy (.ret (o, r))) (hunacked : x.unacked = pre ++ x.delivery w :: post)
      (ho : o.disposition = .reject) :
    Step q n R x { x with
      workers := Function.update x.workers w (nextMode o r)
      unacked := pre ++ post
      deadLetters := (x.delivery w).2 :: x.deadLetters }
  /-- The worker cannot settle the message on a lost connection, and ends. -/
  | unsettled {y : Outcome × Registry} (w : String) (hw : x.workers w = .busy (.ret y))
      (hlost : x.delivery w ∉ x.unacked) :
    Step q n R x { x with workers := Function.update x.workers w .down }
  /-- A connection is lost, of a worker that may be gone. -/
  | disconnect {tag : Nat} {m : Message} {pre post : List (Nat × Message)} {front back : List Message}
      (hunacked : x.unacked = pre ++ (tag, m) :: post) (hqueue : x.queue = front ++ back) :
    Step q n R x { x with unacked := pre ++ post, queue := front ++ m :: back }
  /-- The lock expires, or is released. -/
  | expire : Step q n R x { x with store := { x.store with leader := none } }
  | die (w : String) : Step q n R x { x with workers := Function.update x.workers w .down }

/-- The states that are reached from an empty queue and an empty store. -/
def Reach (q n : Int) (R : Rules) : World → Prop := Relation.ReflTransGen (Step q n R) .empty

/-- The only command that the call appends is the one of the message. -/
def Appends (m : Message) : Call → Prop
  | .appendProcessedCommand c => m = some c
  | _ => True

/-- The entries of the stream are published commands, with the time at which they were processed. -/
def Logged (published : List Message) (s : State) : Prop :=
  ∀ k, ∀ e ∈ (s.symbol k).log, ∃ c, some c ∈ published ∧ e.value = { c with processedAt := e.value.processedAt }

/-- What a worker does with the message that it was delivered. -/
structure Handles (P : Policy) (p : Processor) (m : Message) (h : Handler (Outcome × Registry)) (s : State) : Prop where
  sure : Sure P (fun y => Settled P p m y.1) h s
  appends : h.Only (Appends m)

/-- A command with the id joined the stream of the symbol, or a status `REJECTED` was saved for it. -/
def Accounted (c : Go.Command) (s : State) : Prop :=
  (∃ e ∈ (s.symbol c.symbol).log, e.value.commandId = c.commandId) ∨
    ∃ st ∈ s.statuses, st.commandId = c.commandId ∧ st.symbol = c.symbol ∧ st.status = .rejected

/-- What holds in every state of a run. -/
structure World.Ok (q n : Int) (R : Rules) (x : World) : Prop where
  sound : x.store.Sound
  conserved : x.published.Perm (x.queue ++ (x.unacked.map (·.2) ++ (x.acked ++ x.deadLetters)))
  busy : ∀ w h, x.workers w = .busy h →
    Handles R.policy ⟨w, q, n⟩ (x.delivery w).2 h x.store ∧ (x.delivery w).2 ∈ x.published
  acked : ∀ m ∈ x.acked, ∃ c, m = some c ∧ Traced c x.store
  deadLetters : ∀ m ∈ x.deadLetters, ∀ c, m = some c → checkPartition c.symbol q n = .ok () → Unsaved R.policy c
  logged : Logged x.published x.store
  marketEvents : ∀ y ∈ x.marketEvents, ∀ es, y.2 = .events es → ∀ e ∈ es, e ∈ (x.store.symbol y.1).events

section

variable {q n : Int} {R : Rules} {x y : World} {P : Policy} {p : Processor} {m : Message} {s t : State}
  {h : Handler (Outcome × Registry)} {w : String}

theorem plain_appends {α : Type} {h : Handler α} (hm : h.Only Call.Plain) : h.Only (Appends m) :=
  hm.mono fun c hc => by
    cases c with
    | appendProcessedCommand c => exact hc.elim
    | _ => trivial

theorem persist_appends (c : Go.Command) (book : Book) (result : Result) :
    (persist c book result).Only (Appends (some c)) := by
  refine Only.bind (p := appendProcessedCommand c) ⟨rfl, fun _ => trivial⟩ fun x => ?_
  cases x with
  | error e => exact .pure _
  | ok id =>
    have hevents : (appendEvents c.symbol result.events).Only (Appends (some c)) := by
      unfold appendEvents
      split
      · exact .pure _
      · exact ⟨trivial, fun _ => trivial⟩
    refine hevents.bind fun x => ?_
    cases x with
    | error e => exact .pure _
    | ok _ =>
      refine Only.bind (p := saveReadModel _ _ _) ⟨trivial, fun _ => trivial⟩ fun x => ?_
      cases x with
      | error e => exact .pure _
      | ok _ =>
        refine Only.bind (p := saveRecoverySnapshot _ _) ⟨trivial, fun _ => trivial⟩ fun x => ?_
        cases x with
        | error e => exact .pure _
        | ok _ => exact plain_appends (saveStatus_plain _ _ _)

theorem commit_appends (c : Go.Command) (book : Book) (result : Result) :
    (commit p c book result).Only (Appends (some c)) := by
  refine (plain_appends (checkLeader_plain p)).bind fun x => ?_
  cases x with
  | error e => exact .pure _
  | ok _ =>
    refine (persist_appends c book result).bind fun x => ?_
    cases x with
    | error e => exact plain_appends (reject_plain _ _)
    | ok _ => exact plain_appends ((checkLeader_plain p).bind fun _ => .pure _)

/-- `Handle` appends no command but its own. -/
theorem handle_appends (now : Clock) (r : Registry) (m : Message) : (handle p now r m).Only (Appends m) := by
  cases m with
  | none => exact .pure _
  | some c =>
    cases hcheck : checkPartition c.symbol p.partitionID p.partitionCount with
    | error e =>
      rw [handle_mismatch hcheck]
      exact .pure _
    | ok _ =>
      rw [handle_command hcheck]
      refine (plain_appends (checkLeader_plain p)).bind fun x => ?_
      cases x with
      | error e => exact .pure _
      | ok _ =>
        refine Only.bind (p := isCommandProcessed _ _) ⟨trivial, fun _ => trivial⟩ fun x => ?_
        match x with
        | .error e => exact plain_appends ((reject_plain _ _).bind fun _ => .pure _)
        | .ok true => exact plain_appends ((saveStatus_plain _ _ _).bind fun _ => .pure _)
        | .ok false =>
          refine Only.bind ?_ fun _ => .pure _
          cases (r.execute now c).1 with
          | error e => exact plain_appends (reject_plain _ _)
          | ok x => exact commit_appends c x.1 x.2

theorem Logged.act {c : Call} {a : c.Answer} {published : List Message} (hs : Logged published s) (ha : act P c s a t)
    (hc : Appends m c) (hm : m ∈ published) : Logged published t := by
  have hsame : ∀ {t : State}, (∀ k, (t.symbol k).log = (s.symbol k).log) → Logged published t :=
    fun heq k e he => hs k e (heq k ▸ he)
  cases c with
  | appendProcessedCommand c =>
    cases a with
    | error e => exact ha.2 ▸ hs
    | ok id =>
      obtain ⟨processedAt, trimmed, -, -, -, rfl⟩ := ha
      intro k e he
      rcases eq_or_ne k c.symbol with rfl | hne
      · rw [State.append_self] at he
        rcases List.mem_append.mp he with he | he
        · exact hs _ e he
        · rw [List.mem_singleton.mp he]
          exact ⟨c, hc ▸ hm, rfl⟩
      · rw [State.append_ne s hne] at he
        exact hs k e he
  | saveRecoverySnapshot symbol snapshot =>
    cases a with
    | error e => exact ha.2 ▸ hs
    | ok _ =>
      cases ha
      refine hsame fun k => ?_
      rcases eq_or_ne k symbol with rfl | hne
      · rw [State.update_self]
      · rw [State.update_ne s _ hne]
  | _ => exact hsame (act_sameLogs ha not_false).log

/-! ## Runs -/

theorem ok_empty : World.empty.Ok q n R where
  sound := sound_empty
  conserved := .refl _
  busy := fun _ _ h => by cases h
  acked := fun _ h => by cases h
  deadLetters := fun _ h => by cases h
  logged := fun _ _ h => by cases h
  marketEvents := fun _ h => by cases h

/-- What a worker does, when others have written. -/
theorem Handles.grow (hm : Handles P p m h s) (hst : Grows s t) : Handles P p m h t :=
  ⟨Ensures.stable hm.sure (fun _ _ _ => Grows.trans) (fun _ _ _ hs hst => hs.grow hst) hst, hm.appends⟩

/-- What workers do, when one of them goes on. -/
theorem busy_update {workers : String → Failover.Mode} {delivery : String → Nat × Message}
    {published : List Message} {mode : Failover.Mode}
    (hx : ∀ w h, workers w = .busy h → Handles P ⟨w, q, n⟩ (delivery w).2 h s ∧ (delivery w).2 ∈ published)
    (hw : ∀ h, mode = .busy h → Handles P ⟨w, q, n⟩ (delivery w).2 h s ∧ (delivery w).2 ∈ published) :
    ∀ v h, Function.update workers w mode v = .busy h →
      Handles P ⟨v, q, n⟩ (delivery v).2 h s ∧ (delivery v).2 ∈ published := by
  intro v h hv
  rcases eq_or_ne v w with rfl | hne
  · rw [Function.update_self] at hv
    exact hw h hv
  · rw [Function.update_of_ne hne] at hv
    exact hx v h hv

theorem nextMode_ne (o : Outcome) (r : Registry) (h : Handler (Outcome × Registry)) : nextMode o r ≠ .busy h := by
  unfold nextMode
  split <;> nofun

theorem Grows.leader (leader : Option String) : Grows s { s with leader := leader } :=
  ⟨fun _ => List.prefix_refl _, fun _ _ h => h, fun _ => List.prefix_refl _, List.suffix_refl _⟩

/-- The store grows. -/
theorem World.Ok.grow (hx : x.Ok q n R) (hst : Grows x.store t) (hsound : t.Sound) (hlogged : Logged x.published t) :
    World.Ok q n R { x with store := t } where
  sound := hsound
  conserved := hx.conserved
  busy := fun w h hw => ⟨(hx.busy w h hw).1.grow hst, (hx.busy w h hw).2⟩
  acked := fun m hm => by
    obtain ⟨c, hc, htraced⟩ := hx.acked m hm
    exact ⟨c, hc, htraced.grow hst⟩
  deadLetters := hx.deadLetters
  logged := hlogged
  marketEvents := fun y hy es hes e he => (hst.events _).subset (hx.marketEvents y hy es hes e he)

/-- A worker goes on, and settles nothing. -/
theorem World.Ok.mode (hx : x.Ok q n R) {mode : Failover.Mode} (hw : ∀ h, mode = .busy h →
    Handles R.policy ⟨w, q, n⟩ (x.delivery w).2 h x.store ∧ (x.delivery w).2 ∈ x.published) :
    World.Ok q n R { x with workers := Function.update x.workers w mode } :=
  { hx with busy := busy_update hx.busy hw }

/-- A worker has settled its message. -/
theorem World.Ok.next (hx : x.Ok q n R) (w : String) (o : Outcome) (r : Registry) :
    World.Ok q n R { x with workers := Function.update x.workers w (nextMode o r) } :=
  hx.mode fun h hh => absurd hh (nextMode_ne o r h)

theorem appended {queue rest : List Message} : (queue ++ rest ++ [m]).Perm (queue ++ [m] ++ rest) := by
  rw [List.append_assoc, List.append_assoc]
  exact List.perm_append_comm.append_left queue

theorem requeued {queue front back rest : List Message} (h : queue = front ++ back) :
    (m :: (queue ++ rest)).Perm (front ++ m :: back ++ rest) := by
  rw [h]
  exact List.perm_middle.symm.append_right rest

/-- A message that is no longer unacknowledged is somewhere else. -/
theorem moved {published queue queue' rest rest' : List Message} {unacked pre post : List (Nat × Message)}
    {d : Nat × Message} (hunacked : unacked = pre ++ d :: post)
    (h : published.Perm (queue ++ (unacked.map (·.2) ++ rest)))
    (hmove : (d.2 :: (queue ++ rest)).Perm (queue' ++ rest')) :
    published.Perm (queue' ++ ((pre ++ post).map (·.2) ++ rest')) := by
  classical
  subst hunacked
  simp only [List.perm_iff_count, List.map_append, List.map_cons, List.count_append, List.count_cons] at h hmove ⊢
  intro m
  have := h m
  have := hmove m
  omega

/-- The failed calls do not matter. -/
theorem World.Ok.failed (hx : x.Ok q n R) (failed : List Call) : World.Ok q n R { x with failed := failed } :=
  ⟨hx.sound, hx.conserved, hx.busy, hx.acked, hx.deadLetters, hx.logged, hx.marketEvents⟩

theorem Step.ok (hx : x.Ok q n R) (h : Step q n R x y) : y.Ok q n R := by
  cases h with
  | publish m =>
    refine { hx with
      conserved := (hx.conserved.append_right [m]).trans appended
      busy := fun w h hw => ?_
      logged := fun k e he => ?_ }
    · exact ⟨(hx.busy w h hw).1, List.mem_append_left _ (hx.busy w h hw).2⟩
    · obtain ⟨c, hc, hvalue⟩ := hx.logged k e he
      exact ⟨c, List.mem_append_left _ hc, hvalue⟩
  | acquire w hw hs =>
    have hgrown := hx.grow (Grows.leader (some w)) ⟨hx.sound.symbol, hx.sound.nodup, hx.sound.listed⟩ hx.logged
    exact hgrown.mode fun h hh => by cases hh
  | recover w hw now hn hrun => exact hx.mode fun h hh => by cases hh
  | @deliver r m ms w hw hqueue now hn haccepts =>
    have hconserved := hx.conserved
    rw [hqueue] at hconserved
    refine { hx with conserved := hconserved.trans List.perm_middle.symm, busy := ?_ }
    have hmem : m ∈ x.published := hconserved.mem_iff.mpr List.mem_cons_self
    intro v h hv
    rcases eq_or_ne v w with rfl | hne
    · cases (Function.update_self ..).symm.trans hv
      show Handles R.policy _ (Function.update x.delivery v _ v).2 _ _ ∧ (Function.update x.delivery v _ v).2 ∈ _
      rw [Function.update_self]
      exact ⟨⟨handle_sure now r, handle_appends now r m⟩, hmem⟩
    · show Handles R.policy _ (Function.update x.delivery w _ v).2 _ _ ∧ (Function.update x.delivery w _ v).2 ∈ _
      rw [Function.update_of_ne hne]
      exact hx.busy v h ((Function.update_of_ne hne ..).symm.trans hv)
  | @call t c k a w hw hc hact =>
    obtain ⟨⟨hsure, happends⟩, hmem⟩ := hx.busy w _ hw
    obtain ⟨hsound, hrest⟩ := hsure.next (Grows.refl _) hact
    have hgrown := hx.grow (act_grows hact) (hsound hx.sound) (hx.logged.act hact happends.1 hmem)
    refine (hgrown.mode fun h hh => ?_).failed _
    cases hh
    exact ⟨⟨hrest, happends.2 a⟩, hmem⟩
  | @ack o r pre post sent w hw hunacked ho hsent =>
    have hsettled : Settled R.policy ⟨w, q, n⟩ (x.delivery w).2 o x.store := (hx.busy w _ hw).1.sure
    refine { hx.next w o r with
      conserved := moved hunacked hx.conserved List.perm_middle.symm
      acked := List.forall_mem_cons.mpr ⟨hsettled.ack ho, hx.acked⟩
      marketEvents := fun y hy => ?_ }
    rcases List.mem_append.mp hy with hy | hy
    · rcases hsent with rfl | rfl
      · cases hy
      · rw [List.mem_singleton.mp hy]
        exact hsettled.events
    · exact hx.marketEvents y hy
  | @nack o r pre post front back w hw hunacked ho hqueue =>
    refine { hx.next w o r with
      conserved := moved hunacked hx.conserved (requeued hqueue) }
  | @reject o r pre post w hw hunacked ho =>
    have hsettled : Settled R.policy ⟨w, q, n⟩ (x.delivery w).2 o x.store := (hx.busy w _ hw).1.sure
    refine { hx.next w o r with
      conserved := moved hunacked hx.conserved (List.perm_middle.symm.trans (List.perm_middle.symm.append_left _))
      deadLetters := List.forall_mem_cons.mpr ⟨hsettled.reject ho, hx.deadLetters⟩ }
  | unsettled w hw hlost => exact hx.mode fun h hh => by cases hh
  | disconnect hunacked hqueue => exact { hx with conserved := moved hunacked hx.conserved (requeued hqueue) }
  | expire => exact hx.grow (Grows.leader none) ⟨hx.sound.symbol, hx.sound.nodup, hx.sound.listed⟩ hx.logged
  | die w => exact hx.mode fun h hh => by cases hh

/-- The worker makes some calls. -/
theorem Reach.steps {m' : Handler (Outcome × Registry)} (hx : Reach q n R x) (hw : x.workers w = .busy h)
    (hsteps : Steps (act R.policy) h x.store m' t) (hallowed : ∀ c u, u.leader = x.store.leader → R.allowed w c u) :
    ∃ failed,
      Reach q n R { x with store := t, workers := Function.update x.workers w (.busy m'), failed := failed } := by
  generalize hs : x.store = s at hsteps hallowed
  induction hsteps generalizing x with
  | refl m s =>
    rw [← hs, ← hw, Function.update_eq_self]
    exact ⟨x.failed, hx⟩
  | @call c k m' s t s' a first rest ih =>
    subst hs
    obtain ⟨failed, hrest⟩ := ih (hx.tail (.call w hw (hallowed c x.store rfl) first)) (Function.update_self ..) rfl
      fun c u hu => hallowed c u (hu.trans (Failover.act_leader first))
    dsimp only at hrest
    rw [Function.update_idem] at hrest
    exact ⟨failed, hrest⟩

end

/-- A market order is published, handled and acknowledged. -/
theorem market_acked : ∃ x snapshot es, Reach 0 1 fenced x ∧ x.queue = [] ∧ x.unacked = [] ∧
    x.published = [some marketCommand] ∧ x.acked = [some marketCommand] ∧ x.store.Short ∧
    (x.store.symbol "BTC-USD").recoverySnapshot = some snapshot ∧ ("BTC-USD", .events es) ∈ x.marketEvents := by
  have hown : checkPartition "BTC-USD" 0 1 = .ok () := by decide +kernel
  obtain ⟨result, -, hsteps⟩ := market_steps (P := Failover.lock) (p := ⟨"w", 0, 1⟩)
    (s := { State.empty with leader := some "w" }) hown (congrArg Except.ok (decide_eq_true rfl).symm)
      (fun h => (by cases h))
  obtain ⟨t, hlog, -, hsnapshot, -, -, hleader, hpersist⟩ := persist_run (P := Failover.lock)
    (s := { State.empty with leader := some "w" }) marketCommand market_later marketBook result
  have hlead : Failover.lock.leads t "w" (.ok true) := congrArg Except.ok (decide_eq_true hleader).symm
  have hrun := hsteps.trans (Run.steps (.bind ((checkLeader_run rfl).bind (hpersist.bind
    ((checkLeader_run hlead).bind (.ret _ _)))) (.ret _ _)))
  have hstart : Reach 0 1 fenced .empty := .refl
  have hpublished := hstart.tail (.publish (some marketCommand))
  have hled := hpublished.tail (.acquire "w" rfl rfl)
  have hidle := hled.tail (.recover "w" (by dsimp only; exact Function.update_self ..) (fun _ => 0)
    (fun _ => le_rfl) rfl)
  have hbusy := hidle.tail (.deliver (r := Registry.empty) "w" (by dsimp only; exact Function.update_self ..) rfl
    (fun _ => 0) (fun _ => le_rfl)
    fun c hc _ => by
      cases hc
      exact market_not_late)
  obtain ⟨failed, hdone⟩ := Reach.steps hbusy (by dsimp only; exact Function.update_self ..) hrun fun _ _ hu _ => hu
  have hacked := hdone.tail (.ack "w" (by dsimp only; exact Function.update_self ..)
    (show _ = [] ++ _ :: [] by dsimp only; rw [Function.update_self]; rfl) rfl (.inr rfl))
  exact ⟨_, _, _, hacked, rfl, rfl, rfl, rfl, fun k => (congrArg List.length (hlog k)).le.trans (market_short k),
    hsnapshot, List.mem_singleton_self _⟩

section

variable {q n : Int} {R : Rules} {x y : World}

theorem reach_ok (h : Reach q n R x) : x.Ok q n R := by
  induction h with
  | refl => exact ok_empty
  | tail h hxy ih => exact hxy.ok ih

/-- Whichever workers write, and whenever they crash: the ids of every stream are increasing, its processed ids are
those of its commands, it keeps its last entries, and every recovery snapshot is at one of its entries. -/
theorem reach_sound (h : Reach q n R x) : x.store.Sound := (reach_ok h).sound

end

/-- The recovery snapshot that a market order leaves is at an entry of the stream. -/
theorem reach_sound_market : ∃ x snapshot, Reach 0 1 fenced x ∧
    (x.store.symbol "BTC-USD").recoverySnapshot = some snapshot ∧
    ∃ e ∈ (x.store.symbol "BTC-USD").log, snapshot.lastCommandStreamId = some e.id := by
  obtain ⟨x, snapshot, es, h, -, -, -, -, -, hsnapshot, -⟩ := market_acked
  exact ⟨x, snapshot, h, hsnapshot, ((reach_sound h).symbol _).checkpoint snapshot hsnapshot⟩

section

variable {q n : Int} {R : Rules} {x y : World}

theorem Step.failed (h : Step q n R x y) : x.failed ⊆ y.failed := by
  cases h with
  | @call t c k a w hw hc hact =>
    show x.failed ⊆ if c.fails a then c :: x.failed else x.failed
    split
    · exact List.subset_cons_self ..
    · exact List.Subset.refl _
  | _ => exact List.Subset.refl _

theorem Step.only {F : Call → Prop} (h : Step q n R x y) (hF : ∀ c ∈ y.failed, F c) : Step q n (R.only F) x y := by
  cases h with
  | publish m => exact .publish m
  | acquire w hw hs => exact .acquire w hw hs
  | recover w hw now hn hrun => exact .recover w hw now hn hrun
  | deliver w hw hqueue now hn haccepts => exact .deliver (R := R.only F) w hw hqueue now hn haccepts
  | @call t c k a w hw hc hact =>
    refine .call (R := R.only F) w hw hc (act_fails hact fun hfails => hF c ?_)
    show c ∈ if c.fails a then c :: x.failed else x.failed
    rw [if_pos hfails]
    exact List.mem_cons_self
  | ack w hw hunacked ho hsent => exact .ack w hw hunacked ho hsent
  | nack w hw hunacked ho hqueue => exact .nack w hw hunacked ho hqueue
  | reject w hw hunacked ho => exact .reject w hw hunacked ho
  | unsettled w hw hlost => exact .unsettled w hw hlost
  | disconnect hunacked hqueue => exact .disconnect hunacked hqueue
  | expire => exact .expire
  | die w => exact .die w

/-- A run is also one in which no other calls can fail than those that do. -/
theorem reach_only {F : Call → Prop} (h : Reach q n R x) (hF : ∀ c ∈ x.failed, F c) : Reach q n (R.only F) x := by
  induction h with
  | refl => exact .refl
  | tail h hxy ih => exact (ih fun c hc => hF c (hxy.failed hc)).tail (hxy.only hF)

theorem Traced.accounted {c : Go.Command} {s : State} (h : Traced c s) (hs : s.Sound) : Accounted c s :=
  h.imp_left fun hid => by
    obtain ⟨e, he, hvalue⟩ := List.mem_map.mp (((hs.symbol c.symbol).ids _).mp hid)
    exact ⟨e, he, hvalue⟩

/-- In every run: a message that was published is in the queue, unacknowledged, acknowledged or a dead letter, as
often as it was published; one that is acknowledged is a command whose id is in its stream or has a status `REJECTED`;
a command of the partition is a dead letter only if a call that saves its status `REJECTED` has failed; and the
streams hold only what was published. -/
theorem messages_accounted (h : Reach q n R x) :
    x.published.Perm (x.queue ++ (x.unacked.map (·.2) ++ (x.acked ++ x.deadLetters))) ∧
      (∀ m ∈ x.acked, ∃ c, m = some c ∧ Accounted c x.store) ∧
      (∀ m ∈ x.deadLetters, ∀ c, m = some c → checkPartition c.symbol q n = .ok () →
        ∃ st, .saveCommandStatus st ∈ x.failed ∧ st.commandId = c.commandId ∧ st.symbol = c.symbol ∧
          st.status = .rejected) ∧
      Logged x.published x.store := by
  have hok := reach_ok (reach_only (F := (· ∈ x.failed)) h fun _ hc => hc)
  refine ⟨hok.conserved, fun m hm => ?_, hok.deadLetters, hok.logged⟩
  obtain ⟨c, hc, htraced⟩ := hok.acked m hm
  exact ⟨c, hc, Traced.accounted htraced hok.sound⟩

end

/-- The market order is acknowledged, and recorded. -/
theorem messages_accounted_market : ∃ x, Reach 0 1 fenced x ∧ x.acked = [some marketCommand] ∧
    Accounted marketCommand x.store := by
  obtain ⟨x, snapshot, es, h, -, -, -, hacked, -, -, -⟩ := market_acked
  obtain ⟨c, hc, haccounted⟩ := (messages_accounted h).2.1 (some marketCommand) (hacked ▸ List.mem_singleton_self _)
  cases hc
  exact ⟨x, h, hacked, haccounted⟩

section

variable {q n : Int} {R : Rules} {x : World}

/-- In every run: the events that are broadcast for a symbol are in its event stream. -/
theorem feed_recorded (h : Reach q n R x) {symbol : String} {es : List Event}
    (hsent : (symbol, .events es) ∈ x.marketEvents) :
    ∀ e ∈ es, e ∈ (x.store.symbol symbol).events :=
  (reach_ok h).marketEvents _ hsent es rfl

end

/-- The events of the market order are broadcast, and recorded. -/
theorem feed_recorded_market : ∃ x es, Reach 0 1 fenced x ∧ ("BTC-USD", .events es) ∈ x.marketEvents ∧
    ∀ e ∈ es, e ∈ (x.store.symbol "BTC-USD").events := by
  obtain ⟨x, snapshot, es, h, -, -, -, -, -, -, hsent⟩ := market_acked
  exact ⟨x, es, h, hsent, feed_recorded h hsent⟩

/-! ## Fenced writes -/

section

variable {q n : Int} {R : Rules} {x y : World}

/-- The workers and their store. -/
def World.failover (x : World) : Failover.World := ⟨x.store, x.workers⟩

/-- The workers take the steps of a failover. -/
theorem Step.failover (h : Step q n R x y) :
    Relation.ReflTransGen (Failover.Step q n R) x.failover y.failover := by
  cases h with
  | publish m => exact .refl
  | acquire w hw hs => exact .single (.acquire w hw hs)
  | recover w hw now hn hrun => exact .single (.recover w hw now hn hrun)
  | deliver w hw hqueue now hn haccepts => exact .single (.deliver w hw now hn _ haccepts)
  | call w hw hc hact => exact .single (.call w hw hc hact)
  | ack w hw hunacked ho hsent => exact .single (.done w hw)
  | nack w hw hunacked ho hqueue => exact .single (.done w hw)
  | reject w hw hunacked ho => exact .single (.done w hw)
  | unsettled w hw hlost => exact .single (.die w)
  | disconnect hunacked hqueue => exact .refl
  | expire => exact .single .expire
  | die w => exact .single (.die w)

theorem Reach.failover (h : Reach q n R x) : Failover.Reach q n R x.failover := by
  induction h with
  | refl => exact .refl
  | tail h hxy ih => exact ih.trans hxy.failover

/-- In a run whose writes are fenced: no command is twice in its stream, and each published command of the partition is
still to be handled, or exactly once in its stream, or has a status `REJECTED`. -/
theorem exactly_once (hp : validate q n = .ok ()) (h : Reach q n fenced x) (hshort : x.store.Short) :
    (∀ k id, ((x.store.symbol k).commands.map (·.commandId)).count id ≤ 1) ∧
      ∀ c, some c ∈ x.published → checkPartition c.symbol q n = .ok () →
        some c ∈ x.queue ∨ some c ∈ x.unacked.map (·.2) ∨
          ((x.store.symbol c.symbol).commands.map (·.commandId)).count c.commandId = 1 ∨
          ∃ st ∈ x.store.statuses, st.commandId = c.commandId ∧ st.symbol = c.symbol ∧ st.status = .rejected := by
  have hok := reach_ok h
  have hnodup : ∀ k, ((x.store.symbol k).commands.map (·.commandId)).Nodup := by
    intro k
    rw [SymbolState.commands, List.map_map]
    exact ((Failover.reach_ok (validate_count hp) h.failover hshort).consistent.logs k).nodup
  refine ⟨fun k id => List.nodup_iff_count_le_one.mp (hnodup k) id, fun c hc hown => ?_⟩
  rcases List.mem_append.mp (hok.conserved.mem_iff.mp hc) with hqueue | hrest
  · exact .inl hqueue
  rcases List.mem_append.mp hrest with hunacked | hsettled
  · exact .inr (.inl hunacked)
  rcases List.mem_append.mp hsettled with hacked | hdead
  · obtain ⟨d, hd, htraced⟩ := hok.acked _ hacked
    cases hd
    refine .inr (.inr (htraced.imp_left fun hid => ?_))
    refine List.count_eq_one_of_mem (hnodup c.symbol) ?_
    rw [SymbolState.commands, List.map_map]
    exact ((hok.sound.symbol c.symbol).ids _).mp hid
  · obtain ⟨st, hfails, -⟩ := hok.deadLetters _ hdead c rfl hown
    exact hfails.elim

end

/-- The queue is empty, and the market order is once in its stream, or rejected. -/
theorem exactly_once_market : ∃ x, Reach 0 1 fenced x ∧ x.queue = [] ∧ x.unacked = [] ∧
    (((x.store.symbol "BTC-USD").commands.map (·.commandId)).count "c" = 1 ∨
      ∃ st ∈ x.store.statuses, st.commandId = "c" ∧ st.symbol = "BTC-USD" ∧ st.status = .rejected) := by
  obtain ⟨x, snapshot, es, h, hqueue, hunacked, hpublished, -, hshort, -, -⟩ := market_acked
  refine ⟨x, h, hqueue, hunacked, ?_⟩
  rcases (exactly_once rfl h hshort).2 marketCommand (hpublished ▸ List.mem_singleton_self _) (by decide +kernel) with
    hin | hin | hrest
  · rw [hqueue] at hin
    cases hin
  · rw [hunacked] at hin
    cases hin
  · exact hrest

end Lob.Worker.Broker
