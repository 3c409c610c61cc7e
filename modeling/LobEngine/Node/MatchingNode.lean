import Mathlib.Tactic.MkIffOfInductiveProp
import Mathlib.Data.Bool.Basic

/-!
# The matching node

`application/replication/MatchingNode.js` and the loop of `StandbyReplica.js`, between their awaits: a call of
`attemptPromotion` or `handleLeadershipLost` runs up to its next `await`, and goes on when that completes or throws.
Other calls run in between, in any order.

* `resume`: how a suspended call goes on.
* `Step`, `Reach`: all orders in which the calls are made and go on.
* `reach_inv`: at most one transition is in progress, and the flags fit it. `active_or_standby`: without one, the node
  is active, or its standby loop runs.
* `one_consumer`: if the checks that end a consumer do not throw, there is at most one consumer, and none beside the
  standby loop. `consumer_left`: if one throws, there is.
-/

namespace Lob.Replication

/-- Who called `attemptPromotion`. -/
inductive Caller where
  | start
  | checkForPromotion
  deriving DecidableEq

/-- Where `attemptPromotion` is suspended. -/
inductive PromotionPoint where
  /-- `tryAcquireLeadership` -/
  | acquiring
  /-- `getCurrentLeader`, for the log -/
  | readingLeader
  /-- `replica.stop` -/
  | stoppingReplica
  /-- `replica.catchUp` -/
  | catchingUp
  /-- `hasLeadership` -/
  | checking
  /-- `connectRabbitMQ` -/
  | connecting
  /-- `startOrderCommandWorker` -/
  | startingConsumer
  /-- `hasLeadership`, with the consumer started -/
  | checkingAgain
  /-- `consumerHandle.stop` -/
  | stoppingConsumer
  /-- `releaseLeadership`, after an error -/
  | releasing
  deriving DecidableEq

/-- Where `handleLeadershipLost` is suspended. -/
inductive LostPoint where
  /-- `consumerHandle?.stop` -/
  | stoppingConsumer
  /-- `replica.initialize` -/
  | initializing
  deriving DecidableEq

/-- A suspended call that has set `transitioning`. -/
inductive Transition where
  | promotion (caller : Caller) (point : PromotionPoint)
  | lost (point : LostPoint)
  deriving DecidableEq

/-- Where `start` is, before it calls `attemptPromotion`. -/
inductive StartPoint where
  /-- `connectRedis` -/
  | connecting
  /-- `replica.initialize` -/
  | initializing
  deriving DecidableEq

/-- What an await gives; `ok` has the answer of those that ask something. -/
inductive Reply where
  | ok (answer : Bool)
  | throws
  deriving DecidableEq

structure MatchingNode where
  active : Bool
  transitioning : Bool
  leadershipLostDuringTransition : Bool
  consumerHandle : Option Nat
  /-- `heartbeatHandle` is not null. -/
  heartbeatHandle : Bool
  /-- The replica's loop is to run on. -/
  running : Bool
  /-- The promise of the replica's loop is pending. -/
  loop : Bool
  /-- The consumers that the channel delivers to. -/
  consumers : List Nat
  /-- The consumers whose `stop` was called: `stopped` is set, and a second call returns at once. -/
  stopped : List Nat
  /-- How many consumers were started. -/
  started : Nat
  /-- A heartbeat was started once. -/
  monitored : Bool
  /-- `start`, before its promotion. -/
  starting : Option StartPoint
  /-- How many calls of `checkForPromotion` await the current leader. -/
  checks : Nat
  transitions : List Transition

/-- `start` awaits its connection. -/
def MatchingNode.initial : MatchingNode :=
  ⟨false, false, false, none, false, false, false, [], [], 0, false, some .connecting, 0, []⟩

/-! ## The calls -/

/-- `replica.start` -/
def MatchingNode.startReplica (n : MatchingNode) : MatchingNode :=
  if n.running then n else { n with running := true, loop := true }

def MatchingNode.startStandbyMode (n : MatchingNode) : MatchingNode := if n.active then n else n.startReplica

/-- Standby mode starts if the node is not active, or the promotion failed. -/
def MatchingNode.standbyUnlessActive (n : MatchingNode) : MatchingNode := if n.active then n else n.startStandbyMode

/-- The `finally` of `attemptPromotion`, and the rest of its caller. -/
def MatchingNode.endPromotion (n : MatchingNode) (caller : Caller) : MatchingNode :=
  match caller with
  | .start => { n with transitioning := false }.standbyUnlessActive.standbyUnlessActive
  | .checkForPromotion => { n with transitioning := false }.standbyUnlessActive

/-- `attemptPromotion`, up to its first await; `none` if it returns. -/
def MatchingNode.attemptPromotion (n : MatchingNode) (caller : Caller) : MatchingNode × Option Transition :=
  if n.active || n.transitioning then
    (match caller with | .start => n.startStandbyMode | .checkForPromotion => n, none)
  else ({ n with transitioning := true, leadershipLostDuringTransition := false }, some (.promotion caller .acquiring))

/-- `handleLeadershipLost`, up to its first await. -/
def MatchingNode.handleLeadershipLost (n : MatchingNode) : MatchingNode × Option Transition :=
  if n.transitioning then ({ n with leadershipLostDuringTransition := true }, none)
  else ({ n with transitioning := true, active := false, heartbeatHandle := false }, some (.lost .stoppingConsumer))

/-- `consumerHandle.stop` has completed, and `consumerHandle` is `null`. -/
def MatchingNode.consumerStopped (n : MatchingNode) : MatchingNode :=
  { n with
    consumers := n.consumers.filter fun c => n.consumerHandle ≠ some c ∨ c ∈ n.stopped
    stopped := n.consumerHandle.toList ++ n.stopped
    consumerHandle := none }

/-- `consumerHandle.stop` has thrown: the channel has not cancelled the consumer. -/
def MatchingNode.stopThrew (n : MatchingNode) : MatchingNode :=
  { n with stopped := n.consumerHandle.toList ++ n.stopped }

/-- The `finally` of `handleLeadershipLost`. -/
def MatchingNode.endLost (n : MatchingNode) : MatchingNode := { n with transitioning := false }.startStandbyMode

/-- The `catch` of `attemptPromotion`. -/
def MatchingNode.caught (n : MatchingNode) (k : Caller) : MatchingNode × Option Transition :=
  ({ n with heartbeatHandle := false }, some (.promotion k .releasing))

/-- A suspended transition goes on; `none` if it ends. -/
def MatchingNode.resume (n : MatchingNode) : Transition → Reply → MatchingNode × Option Transition
  | .promotion k .acquiring, .throws => n.caught k
  | .promotion k .acquiring, .ok false => (n, some (.promotion k .readingLeader))
  | .promotion k .acquiring, .ok true => ({ n with running := false }, some (.promotion k .stoppingReplica))
  | .promotion k .readingLeader, .throws => n.caught k
  | .promotion k .readingLeader, .ok _ => (n.endPromotion k, none)
  | .promotion k .stoppingReplica, _ =>
    ({ n with heartbeatHandle := true, monitored := true }, some (.promotion k .catchingUp))
  | .promotion k .catchingUp, .throws => n.caught k
  | .promotion k .catchingUp, .ok _ => (n, some (.promotion k .checking))
  | .promotion k .checking, .ok true => (n, some (.promotion k .connecting))
  | .promotion k .checking, _ => n.caught k
  | .promotion k .connecting, .throws => n.caught k
  | .promotion k .connecting, .ok _ => (n, some (.promotion k .startingConsumer))
  | .promotion k .startingConsumer, .throws => n.caught k
  | .promotion k .startingConsumer, .ok _ =>
    ({ n with consumerHandle := some n.started, consumers := n.started :: n.consumers, started := n.started + 1 },
      some (.promotion k (if n.leadershipLostDuringTransition then .stoppingConsumer else .checkingAgain)))
  | .promotion k .checkingAgain, .throws => n.caught k
  | .promotion k .checkingAgain, .ok false => (n, some (.promotion k .stoppingConsumer))
  | .promotion k .checkingAgain, .ok true => ({ n with active := true }.endPromotion k, none)
  | .promotion k .stoppingConsumer, .throws => n.stopThrew.caught k
  | .promotion k .stoppingConsumer, .ok _ => n.consumerStopped.caught k
  | .promotion k .releasing, _ => (n.endPromotion k, none)
  | .lost .stoppingConsumer, .throws => (n.stopThrew.endLost, none)
  | .lost .stoppingConsumer, .ok _ => (n.consumerStopped, some (.lost .initializing))
  | .lost .initializing, _ => (n.endLost, none)

/-- The call may also be suspended now. -/
def MatchingNode.suspend (x : MatchingNode × Option Transition) : MatchingNode :=
  { x.1 with transitions := x.2.toList ++ x.1.transitions }

/-- The await is one of `consumerHandle.stop`. -/
def StopsConsumer : Transition → Prop
  | .promotion _ .stoppingConsumer | .lost .stoppingConsumer => True
  | _ => False

/-- The transition can go on with the reply: `replica.stop` awaits the end of the loop, and `consumerHandle.stop` throws
only if there is a consumer, and at its first call. -/
structure MatchingNode.Ready (n : MatchingNode) (τ : Transition) (reply : Reply) : Prop where
  replica : ∀ k, τ = .promotion k .stoppingReplica → n.loop = false ∧ reply ≠ .throws
  consumer : StopsConsumer τ → reply = .throws → ∃ c, n.consumerHandle = some c ∧ c ∉ n.stopped

/-- One of the suspended calls goes on, or a new call is made; `throws` says which awaits may throw. -/
inductive Step (throws : MatchingNode → Transition → Prop) : MatchingNode → MatchingNode → Prop
  | connected {n : MatchingNode} (h : n.starting = some .connecting) :
    Step throws n { n with starting := some .initializing }
  | initialized {n : MatchingNode} (h : n.starting = some .initializing) :
    Step throws n (MatchingNode.suspend ({ n with starting := none }.attemptPromotion .start))
  /-- The loop calls `checkForPromotion`. -/
  | check {n : MatchingNode} (h : n.loop = true) (hguard : n.active = false ∧ n.transitioning = false) :
    Step throws n { n with checks := n.checks + 1 }
  /-- There is a leader, or the read threw. -/
  | led {n : MatchingNode} {k : Nat} (h : n.checks = k + 1) : Step throws n { n with checks := k }
  | unled {n : MatchingNode} {k : Nat} (h : n.checks = k + 1) :
    Step throws n (MatchingNode.suspend ({ n with checks := k }.attemptPromotion .checkForPromotion))
  | loopEnds {n : MatchingNode} (h : n.running = false) : Step throws n { n with loop := false }
  /-- A heartbeat or a consumer calls `handleLeadershipLost`. -/
  | lost {n : MatchingNode} (h : n.monitored = true) : Step throws n (MatchingNode.suspend n.handleLeadershipLost)
  | resume {n : MatchingNode} {l r : List Transition} {τ : Transition} (reply : Reply) (h : n.transitions = l ++ τ :: r)
    (hready : n.Ready τ reply) (hthrows : reply = .throws → throws n τ) :
    Step throws n (MatchingNode.suspend ({ n with transitions := l ++ r }.resume τ reply))

inductive Reach (throws : MatchingNode → Transition → Prop) : MatchingNode → Prop
  | init : Reach throws .initial
  | step {m n : MatchingNode} (h : Reach throws m) (hmn : Step throws m n) : Reach throws n

/-! ## Flags -/

/-- No transition is in progress: `start` has not called `attemptPromotion` yet, or the node is active or in standby. -/
@[mk_iff] structure MatchingNode.Settled (n : MatchingNode) : Prop where
  transitioning : n.transitioning = false
  fresh : n.starting.isSome → n.active = false ∧ n.running = false ∧ n.loop = false ∧ n.monitored = false ∧
    n.checks = 0 ∧ n.heartbeatHandle = false
  running : n.starting = none → n.running = !n.active
  heartbeat : n.heartbeatHandle = n.active
  loop : n.active = true → n.loop = false

/-- The flags at a transition. -/
def MatchingNode.At (n : MatchingNode) : Transition → Prop
  | .promotion _ .acquiring | .promotion _ .readingLeader | .promotion _ .releasing | .lost _ =>
    n.heartbeatHandle = false
  | .promotion _ .stoppingReplica => n.heartbeatHandle = false ∧ n.running = false
  | .promotion _ _ => n.heartbeatHandle = true ∧ n.running = false ∧ n.loop = false

/-- The transition is in progress. -/
@[mk_iff] structure MatchingNode.Fits (n : MatchingNode) (τ : Transition) : Prop where
  transitioning : n.transitioning = true
  starting : n.starting = none
  active : n.active = false
  point : n.At τ

/-- What holds of a node with the transition in progress, if there is one. -/
def MatchingNode.Flags (n : MatchingNode) : Option Transition → Prop
  | none => n.Settled
  | some τ => n.Fits τ

variable {throws : MatchingNode → Transition → Prop} {m n : MatchingNode} {k : Caller} {τ : Transition}
  {reply : Reply}

theorem startStandbyMode_settled (hstarting : n.starting = none) (hactive : n.active = false)
    (htransitioning : n.transitioning = false) (hheartbeat : n.heartbeatHandle = false) :
    n.startStandbyMode.Settled := by
  unfold MatchingNode.startStandbyMode MatchingNode.startReplica
  by_cases hr : n.running = true
  · simp [MatchingNode.settled_iff, hstarting, hactive, htransitioning, hheartbeat, hr]
  · simp [MatchingNode.settled_iff, hstarting, hactive, htransitioning, hheartbeat, hr]

theorem startStandbyMode_twice : n.startStandbyMode.startStandbyMode = n.startStandbyMode := by
  unfold MatchingNode.startStandbyMode MatchingNode.startReplica
  by_cases ha : n.active = true
  · simp [ha]
  · by_cases hr : n.running = true <;> simp [ha, hr]

theorem standbyUnlessActive_eq : n.standbyUnlessActive = n.startStandbyMode := by
  unfold MatchingNode.standbyUnlessActive MatchingNode.startStandbyMode
  split <;> rfl

theorem endPromotion_eq : n.endPromotion k = ({ n with transitioning := false } : MatchingNode).startStandbyMode := by
  unfold MatchingNode.endPromotion
  cases k with
  | checkForPromotion => exact standbyUnlessActive_eq
  | start => rw [standbyUnlessActive_eq, standbyUnlessActive_eq, startStandbyMode_twice]

theorem endPromotion_standby (hstarting : n.starting = none) (hactive : n.active = false)
    (hheartbeat : n.heartbeatHandle = false) : (n.endPromotion k).Settled := by
  rw [endPromotion_eq]
  exact startStandbyMode_settled hstarting hactive rfl hheartbeat

theorem endPromotion_active (hstarting : n.starting = none) (hactive : n.active = true) (hrunning : n.running = false)
    (hheartbeat : n.heartbeatHandle = true) (hloop : n.loop = false) : (n.endPromotion k).Settled := by
  rw [endPromotion_eq, MatchingNode.startStandbyMode]
  simp [MatchingNode.settled_iff, hstarting, hactive, hrunning, hheartbeat, hloop]

theorem resume_flags (h : n.Fits τ) (hready : n.Ready τ reply) :
    (n.resume τ reply).1.Flags (n.resume τ reply).2 := by
  obtain ⟨htransitioning, hstarting, hactive, hat⟩ := h
  have hfits : ∀ {m : MatchingNode} {τ : Transition}, m.transitioning = true → m.starting = none →
      m.active = false → m.At τ → m.Flags (some τ) := fun h₁ h₂ h₃ h₄ => ⟨h₁, h₂, h₃, h₄⟩
  have hcaught : ∀ {m : MatchingNode} {k}, m.transitioning = true → m.starting = none → m.active = false →
      (m.caught k).1.Flags (m.caught k).2 := fun h₁ h₂ h₃ => ⟨h₁, h₂, h₃, rfl⟩
  cases τ with
  | lost p =>
    cases p with
    | stoppingConsumer =>
      cases reply with
      | throws => exact startStandbyMode_settled hstarting hactive rfl hat
      | ok b => exact hfits htransitioning hstarting hactive hat
    | initializing => exact startStandbyMode_settled hstarting hactive rfl hat
  | promotion k p =>
    cases p with
    | acquiring =>
      match reply with
      | .throws => exact hcaught htransitioning hstarting hactive
      | .ok false => exact hfits htransitioning hstarting hactive hat
      | .ok true => exact hfits htransitioning hstarting hactive ⟨hat, rfl⟩
    | readingLeader =>
      cases reply with
      | throws => exact hcaught htransitioning hstarting hactive
      | ok b => exact endPromotion_standby hstarting hactive hat
    | stoppingReplica => exact hfits htransitioning hstarting hactive ⟨rfl, hat.2, (hready.replica k rfl).1⟩
    | catchingUp =>
      cases reply with
      | throws => exact hcaught htransitioning hstarting hactive
      | ok b => exact hfits htransitioning hstarting hactive hat
    | checking =>
      match reply with
      | .throws => exact hcaught htransitioning hstarting hactive
      | .ok false => exact hcaught htransitioning hstarting hactive
      | .ok true => exact hfits htransitioning hstarting hactive hat
    | connecting =>
      cases reply with
      | throws => exact hcaught htransitioning hstarting hactive
      | ok b => exact hfits htransitioning hstarting hactive hat
    | startingConsumer =>
      cases reply with
      | throws => exact hcaught htransitioning hstarting hactive
      | ok b =>
        refine hfits htransitioning hstarting hactive ?_
        cases n.leadershipLostDuringTransition <;> exact hat
    | checkingAgain =>
      match reply with
      | .throws => exact hcaught htransitioning hstarting hactive
      | .ok false => exact hfits htransitioning hstarting hactive hat
      | .ok true => exact endPromotion_active hstarting rfl hat.2.1 hat.1 hat.2.2
    | stoppingConsumer =>
      cases reply with
      | throws => exact hcaught htransitioning hstarting hactive
      | ok b => exact hcaught htransitioning hstarting hactive
    | releasing => exact endPromotion_standby hstarting hactive hat

/-- At most one transition is in progress, and the flags fit it. -/
def MatchingNode.Inv (n : MatchingNode) : Prop := ∃ τ : Option Transition, n.transitions = τ.toList ∧ n.Flags τ

/-- The flags do not depend on the list of suspended transitions, and hardly on the pending checks. -/
theorem MatchingNode.Flags.congr {τ : Option Transition} (h : m.Flags τ) (hactive : n.active = m.active)
    (htransitioning : n.transitioning = m.transitioning) (hheartbeat : n.heartbeatHandle = m.heartbeatHandle)
    (hrunning : n.running = m.running) (hloop : n.loop = m.loop) (hmonitored : n.monitored = m.monitored)
    (hstarting : n.starting = m.starting) (hchecks : m.starting.isSome → n.checks = m.checks) : n.Flags τ := by
  cases τ with
  | none =>
    obtain ⟨h₁, h₂, h₃, h₄, h₅⟩ := h
    refine ⟨htransitioning.trans h₁, fun hs => ?_, fun hs => ?_, ?_, fun ha => ?_⟩
    · rw [hstarting] at hs
      rw [hactive, hrunning, hloop, hmonitored, hchecks hs, hheartbeat]
      exact h₂ hs
    · rw [hrunning, hactive]
      exact h₃ (hstarting ▸ hs)
    · rw [hheartbeat, hactive]
      exact h₄
    · rw [hloop]
      exact h₅ (hactive ▸ ha)
  | some τ =>
    refine ⟨htransitioning.trans h.transitioning, hstarting.trans h.starting, hactive.trans h.active, ?_⟩
    have hpoint := h.point
    cases τ with
    | lost p => exact hheartbeat.trans hpoint
    | promotion k p =>
      cases p with
      | acquiring | readingLeader | releasing => exact hheartbeat.trans hpoint
      | stoppingReplica => exact ⟨hheartbeat.trans hpoint.1, hrunning.trans hpoint.2⟩
      | _ => exact ⟨hheartbeat.trans hpoint.1, hrunning.trans hpoint.2.1, hloop.trans hpoint.2.2⟩

theorem inv_suspend {x : MatchingNode × Option Transition} (htransitions : x.1.transitions = []) (h : x.1.Flags x.2) :
    (MatchingNode.suspend x).Inv := by
  refine ⟨x.2, ?_, h.congr rfl rfl rfl rfl rfl rfl rfl fun _ => rfl⟩
  show x.2.toList ++ x.1.transitions = _
  rw [htransitions, List.append_nil]

/-- The only transition in progress. -/
theorem only_transition {τ' : Option Transition} {l r : List Transition} (h : τ'.toList = l ++ τ :: r) :
    l = [] ∧ r = [] ∧ τ' = some τ := by
  cases τ' with
  | none => simp at h
  | some τ' =>
    cases l with
    | nil =>
      obtain ⟨rfl, rfl⟩ := List.cons.inj h
      exact ⟨rfl, rfl, rfl⟩
    | cons a l =>
      have := congrArg List.length h
      simp at this

theorem startStandbyMode_transitions : n.startStandbyMode.transitions = n.transitions := by
  unfold MatchingNode.startStandbyMode MatchingNode.startReplica
  split
  · rfl
  · split <;> rfl

theorem resume_transitions : (n.resume τ reply).1.transitions = n.transitions := by
  have hend : ∀ {x : MatchingNode} {k}, (x.endPromotion k).transitions = x.transitions := by
    intro x k
    rw [endPromotion_eq]
    exact startStandbyMode_transitions
  unfold MatchingNode.resume
  split <;> first | rfl | exact hend | exact startStandbyMode_transitions

theorem attemptPromotion_inv (h : n.Inv) (hstarting : n.starting = none) :
    (MatchingNode.suspend (n.attemptPromotion .checkForPromotion)).Inv := by
  obtain ⟨τ, hτ, hflags⟩ := h
  by_cases hguard : (n.active || n.transitioning) = true
  · rw [MatchingNode.attemptPromotion, if_pos hguard]
    exact ⟨τ, hτ, hflags.congr rfl rfl rfl rfl rfl rfl rfl fun _ => rfl⟩
  · rw [MatchingNode.attemptPromotion, if_neg hguard]
    rw [Bool.or_eq_true, not_or, Bool.not_eq_true, Bool.not_eq_true] at hguard
    cases τ with
    | none => exact inv_suspend hτ ⟨rfl, hstarting, hguard.1, hflags.heartbeat.trans hguard.1⟩
    | some τ => cases hguard.2.symm.trans hflags.transitioning

theorem handleLeadershipLost_inv (h : n.Inv) (hmonitored : n.monitored = true) :
    (MatchingNode.suspend n.handleLeadershipLost).Inv := by
  obtain ⟨τ, hτ, hflags⟩ := h
  by_cases hguard : n.transitioning = true
  · rw [MatchingNode.handleLeadershipLost, if_pos hguard]
    exact ⟨τ, hτ, hflags.congr rfl rfl rfl rfl rfl rfl rfl fun _ => rfl⟩
  · rw [MatchingNode.handleLeadershipLost, if_neg hguard]
    cases τ with
    | some τ => exact absurd hflags.transitioning hguard
    | none =>
      have hstarting : n.starting = none := by
        by_contra hne
        cases hmonitored.symm.trans (hflags.fresh (Option.isSome_iff_ne_none.mpr hne)).2.2.2.1
      exact inv_suspend hτ ⟨rfl, hstarting, rfl, rfl⟩

theorem Step.inv (h : m.Inv) (hmn : Step throws m n) : n.Inv := by
  obtain ⟨τ, hτ, hflags⟩ := id h
  have hunstarted : ∀ {s}, m.starting = some s → τ = none := by
    intro s hs
    cases τ with
    | none => rfl
    | some τ => cases hs.symm.trans hflags.starting
  have hstarted : (τ = none → m.checks ≠ 0 ∨ m.loop = true) → m.starting = none := by
    intro hbusy
    by_contra hne
    obtain ⟨s, hs⟩ := Option.ne_none_iff_exists'.mp hne
    obtain rfl := hunstarted hs
    obtain ⟨-, -, hloop, -, hchecks, -⟩ := hflags.fresh (hs ▸ rfl)
    exact (hbusy rfl).elim (fun h => h hchecks) fun h => by cases h.symm.trans hloop
  cases hmn with
  | connected hs =>
    obtain rfl := hunstarted hs
    refine ⟨none, hτ, hflags.transitioning, fun _ => hflags.fresh (hs ▸ rfl), nofun, hflags.heartbeat, hflags.loop⟩
  | initialized hs =>
    obtain rfl := hunstarted hs
    obtain ⟨hactive, -, -, -, -, hheartbeat⟩ := hflags.fresh (hs ▸ rfl)
    have hguard : (m.active || m.transitioning) = false := by rw [hactive, hflags.transitioning]; rfl
    rw [MatchingNode.attemptPromotion, if_neg (by rw [show (m.active || m.transitioning) = false from hguard]; decide)]
    exact inv_suspend hτ ⟨rfl, rfl, hactive, hheartbeat⟩
  | check hloop hguard =>
    have hstarting := hstarted fun _ => .inr hloop
    exact ⟨τ, hτ, hflags.congr rfl rfl rfl rfl rfl rfl rfl fun hs => by rw [hstarting] at hs; cases hs⟩
  | led hk =>
    have hstarting := hstarted fun _ => .inl (by omega)
    exact ⟨τ, hτ, hflags.congr rfl rfl rfl rfl rfl rfl rfl fun hs => by rw [hstarting] at hs; cases hs⟩
  | unled hk =>
    have hstarting := hstarted fun _ => .inl (by omega)
    exact attemptPromotion_inv ⟨τ, hτ, hflags.congr rfl rfl rfl rfl rfl rfl rfl fun hs => by
      rw [hstarting] at hs; cases hs⟩ hstarting
  | loopEnds hrunning =>
    refine ⟨τ, hτ, ?_⟩
    cases τ with
    | none =>
      exact ⟨hflags.transitioning, fun hs => let ⟨h₁, h₂, _, h₄⟩ := hflags.fresh hs
        ⟨h₁, h₂, rfl, h₄⟩, hflags.running, hflags.heartbeat, fun _ => rfl⟩
    | some τ =>
      refine ⟨hflags.transitioning, hflags.starting, hflags.active, ?_⟩
      have hpoint := hflags.point
      cases τ with
      | lost p => exact hpoint
      | promotion k p =>
        cases p with
        | acquiring | readingLeader | releasing | stoppingReplica => exact hpoint
        | _ => exact ⟨hpoint.1, hpoint.2.1, rfl⟩
  | lost hmonitored => exact handleLeadershipLost_inv h hmonitored
  | @resume l r τ' reply hresume hready hthrows =>
    obtain ⟨rfl, rfl, rfl⟩ := only_transition (hτ.symm.trans hresume)
    refine inv_suspend ?_ (resume_flags (hflags.congr rfl rfl rfl rfl rfl rfl rfl fun _ => rfl)
      ⟨hready.replica, hready.consumer⟩)
    exact resume_transitions

theorem inv_initial : MatchingNode.initial.Inv :=
  ⟨none, rfl, rfl, fun _ => ⟨rfl, rfl, rfl, rfl, rfl, rfl⟩, nofun, rfl, fun _ => rfl⟩

/-- In every order of the calls. -/
theorem reach_inv (h : Reach throws n) : n.Inv := by
  induction h with
  | init => exact inv_initial
  | step h hmn ih => exact hmn.inv ih

/-- A promotion goes on after an await that completes. -/
theorem Reach.goes {p : PromotionPoint} (h : Reach throws n) (hτ : n.transitions = [.promotion k p])
    (hp : p ≠ .stoppingReplica) (answer : Bool) : Reach throws
      (MatchingNode.suspend ({ n with transitions := [] }.resume (.promotion k p) (.ok answer))) :=
  h.step (.resume (l := []) (r := []) (.ok answer) hτ
    ⟨fun _ hk => absurd (Transition.promotion.inj hk).2 hp, fun _ => nofun⟩ nofun)

/-- The node has started, and asks for the lock. -/
theorem starting_reached (throws : MatchingNode → Transition → Prop) : Reach throws
    ⟨false, true, false, none, false, false, false, [], [], 0, false, none, 0, [.promotion .start .acquiring]⟩ :=
  (Reach.init.step (.connected rfl)).step (.initialized rfl)

/-- No consumer is left. -/
def MatchingNode.Free (n : MatchingNode) : Prop := n.consumers = [] ∧ n.consumerHandle = none

/-- The only consumer is that of the handle, and its `stop` was not called. -/
def MatchingNode.Owns (n : MatchingNode) : Prop := ∃ c, n.consumers = [c] ∧ n.consumerHandle = some c ∧ c ∉ n.stopped

/-- The consumers are numbered as they are started. -/
structure MatchingNode.Numbered (n : MatchingNode) : Prop where
  stopped : ∀ c ∈ n.stopped, c < n.started
  handle : ∀ c, n.consumerHandle = some c → c < n.started

/-- The consumers at a transition, or without one. -/
def MatchingNode.Consumes (n : MatchingNode) : Option Transition → Prop
  | none => (n.active = true → n.Owns) ∧ (n.active = false → n.Free)
  | some (.promotion _ .checkingAgain) | some (.promotion _ .stoppingConsumer) => n.Owns
  | some (.lost .stoppingConsumer) => n.Free ∨ n.Owns
  | some _ => n.Free

/-- The await is one that ends a consumer, or that asks whether to: `hasLeadership` after it was started, or
`consumerHandle.stop`. -/
def EndsConsumer : Transition → Prop
  | .promotion _ .checkingAgain | .promotion _ .stoppingConsumer | .lost .stoppingConsumer => True
  | _ => False

theorem MatchingNode.Numbered.stopping (h : n.Numbered) : ∀ c ∈ n.consumerHandle.toList ++ n.stopped, c < n.started :=
  fun c hc => (List.mem_append.mp hc).elim (fun hc => h.handle c (by simpa using hc)) (h.stopped c)

theorem startStandbyMode_consumers : n.startStandbyMode.consumers = n.consumers ∧
    n.startStandbyMode.consumerHandle = n.consumerHandle ∧ n.startStandbyMode.stopped = n.stopped ∧
    n.startStandbyMode.started = n.started := by
  unfold MatchingNode.startStandbyMode MatchingNode.startReplica
  split
  · exact ⟨rfl, rfl, rfl, rfl⟩
  · split <;> exact ⟨rfl, rfl, rfl, rfl⟩

theorem MatchingNode.Numbered.standby (h : n.Numbered) : n.startStandbyMode.Numbered := by
  obtain ⟨-, hhandle, hstopped, hstarted⟩ := startStandbyMode_consumers (n := n)
  constructor
  · rw [hstopped, hstarted]
    exact h.stopped
  · rw [hhandle, hstarted]
    exact h.handle

theorem MatchingNode.Numbered.endPromotion (h : n.Numbered) : (n.endPromotion k).Numbered := by
  rw [endPromotion_eq]
  exact MatchingNode.Numbered.standby ⟨h.stopped, h.handle⟩

theorem resume_numbered (h : n.Numbered) : (n.resume τ reply).1.Numbered := by
  have hstopped : n.consumerStopped.Numbered := ⟨h.stopping, nofun⟩
  have hthrew : n.stopThrew.Numbered := ⟨h.stopping, h.handle⟩
  have hstarted : MatchingNode.Numbered { n with
      consumerHandle := some n.started, consumers := n.started :: n.consumers, started := n.started + 1 } := by
    refine ⟨fun c hc => Nat.lt_succ_of_lt (h.stopped c hc), fun c hc => ?_⟩
    cases hc
    exact Nat.lt_succ_self _
  have hsame : ∀ {m x : MatchingNode}, m.Numbered → x.stopped = m.stopped → x.consumerHandle = m.consumerHandle →
      x.started = m.started → x.Numbered := by
    intro m x hm h₁ h₂ h₃
    exact ⟨by rw [h₁, h₃]; exact hm.stopped, by rw [h₂, h₃]; exact hm.handle⟩
  unfold MatchingNode.resume
  split <;> first
    | exact hsame h rfl rfl rfl
    | exact hsame hstopped rfl rfl rfl
    | exact hsame hthrew rfl rfl rfl
    | exact hstarted
    | exact MatchingNode.Numbered.endPromotion (hsame h rfl rfl rfl)
    | exact MatchingNode.Numbered.standby (hsame h rfl rfl rfl)
    | exact MatchingNode.Numbered.standby (hsame hthrew rfl rfl rfl)

theorem attemptPromotion_numbered (h : n.Numbered) : (n.attemptPromotion k).1.Numbered := by
  unfold MatchingNode.attemptPromotion
  split
  · cases k with
    | start => exact h.standby
    | checkForPromotion => exact h
  · exact ⟨h.stopped, h.handle⟩

theorem handleLeadershipLost_numbered (h : n.Numbered) : n.handleLeadershipLost.1.Numbered := by
  unfold MatchingNode.handleLeadershipLost
  split <;> exact ⟨h.stopped, h.handle⟩

theorem suspend_numbered {x : MatchingNode × Option Transition} (h : x.1.Numbered) :
    (MatchingNode.suspend x).Numbered := ⟨h.stopped, h.handle⟩

theorem Step.numbered (h : m.Numbered) (hmn : Step throws m n) : n.Numbered := by
  cases hmn with
  | connected hs => exact ⟨h.stopped, h.handle⟩
  | initialized hs => exact suspend_numbered (attemptPromotion_numbered ⟨h.stopped, h.handle⟩)
  | check hloop hguard => exact ⟨h.stopped, h.handle⟩
  | led hk => exact ⟨h.stopped, h.handle⟩
  | unled hk => exact suspend_numbered (attemptPromotion_numbered ⟨h.stopped, h.handle⟩)
  | loopEnds hrunning => exact ⟨h.stopped, h.handle⟩
  | lost hmonitored => exact suspend_numbered (handleLeadershipLost_numbered h)
  | resume reply hresume hready hthrows => exact suspend_numbered (resume_numbered ⟨h.stopped, h.handle⟩)

theorem reach_numbered (h : Reach throws n) : n.Numbered := by
  induction h with
  | init => exact ⟨fun _ hc => (by cases hc), fun _ hc => (by cases hc)⟩
  | step h hmn ih => exact hmn.numbered ih

theorem consumerStopped_free (h : n.Free ∨ n.Owns) : n.consumerStopped.Free := by
  unfold MatchingNode.consumerStopped
  rcases h with ⟨h, -⟩ | ⟨c, h, hc, hstopped⟩
  · exact ⟨by simp [h], rfl⟩
  · exact ⟨by simp [h, hc, hstopped], rfl⟩

theorem MatchingNode.Consumes.congr {τ : Option Transition} (h : m.Consumes τ) (hactive : n.active = m.active)
    (hconsumers : n.consumers = m.consumers) (hhandle : n.consumerHandle = m.consumerHandle)
    (hstopped : n.stopped = m.stopped) : n.Consumes τ := by
  have hfree : m.Free → n.Free := fun h => ⟨hconsumers.trans h.1, hhandle.trans h.2⟩
  have howns : m.Owns → n.Owns := fun ⟨c, h₁, h₂, h₃⟩ => ⟨c, hconsumers.trans h₁, hhandle.trans h₂, hstopped ▸ h₃⟩
  match τ, h with
  | none, h =>
    exact ⟨fun ha => howns (h.1 (hactive.symm.trans ha)), fun ha => hfree (h.2 (hactive.symm.trans ha))⟩
  | some (.lost .stoppingConsumer), h =>
    exact h.imp hfree howns
  | some (.lost .initializing), h => exact hfree h
  | some (.promotion k p), h =>
    cases p with
    | checkingAgain | stoppingConsumer => exact howns h
    | _ => exact hfree h

theorem startStandbyMode_consumes (hactive : n.active = false) (h : n.Free) : n.startStandbyMode.Consumes none := by
  have hfree : MatchingNode.Consumes n none := ⟨fun ha => (by cases hactive.symm.trans ha), fun _ => h⟩
  unfold MatchingNode.startStandbyMode MatchingNode.startReplica
  rw [if_neg (by rw [hactive]; decide)]
  split
  · exact hfree
  · exact hfree.congr rfl rfl rfl rfl

theorem resume_consumes (h : n.Fits τ) (hn : n.Numbered) (hc : n.Consumes (some τ))
    (hthrows : reply = .throws → ¬ EndsConsumer τ) :
    (n.resume τ reply).1.Consumes (n.resume τ reply).2 := by
  have hactive := h.active
  have hend : ∀ {k}, n.Free → (n.endPromotion k).Consumes none := by
    intro k hfree
    rw [endPromotion_eq]
    exact startStandbyMode_consumes hactive hfree
  cases τ with
  | lost p =>
    cases p with
    | stoppingConsumer =>
      cases reply with
      | throws => exact absurd trivial (hthrows rfl)
      | ok b => exact consumerStopped_free hc
    | initializing => exact startStandbyMode_consumes hactive hc
  | promotion k p =>
    cases p with
    | acquiring =>
      match reply with
      | .throws => exact hc
      | .ok false => exact hc
      | .ok true => exact hc
    | readingLeader =>
      cases reply with
      | throws => exact hc
      | ok b => exact hend hc
    | stoppingReplica => exact hc
    | catchingUp => cases reply <;> exact hc
    | checking =>
      match reply with
      | .throws => exact hc
      | .ok false => exact hc
      | .ok true => exact hc
    | connecting => cases reply <;> exact hc
    | startingConsumer =>
      cases reply with
      | throws => exact hc
      | ok b =>
        have howns : MatchingNode.Owns { n with
            consumerHandle := some n.started, consumers := n.started :: n.consumers, started := n.started + 1 } :=
          ⟨n.started, congrArg (List.cons n.started) hc.1, rfl, fun hs => absurd (hn.stopped _ hs) (Nat.lt_irrefl _)⟩
        unfold MatchingNode.resume
        cases n.leadershipLostDuringTransition <;> exact howns
    | checkingAgain =>
      match reply with
      | .throws => exact absurd trivial (hthrows rfl)
      | .ok false => exact hc
      | .ok true =>
        have hpromoted : (MatchingNode.endPromotion { n with active := true } k) =
            { n with active := true, transitioning := false } := by
          rw [endPromotion_eq]
          rfl
        show MatchingNode.Consumes (MatchingNode.endPromotion { n with active := true } k) none
        rw [hpromoted]
        exact ⟨fun _ => hc, nofun⟩
    | stoppingConsumer =>
      cases reply with
      | throws => exact absurd trivial (hthrows rfl)
      | ok b => exact consumerStopped_free (.inr hc)
    | releasing => exact hend hc

/-- The consumers fit the transition in progress. -/
def MatchingNode.Tidy (n : MatchingNode) : Prop := ∀ τ : Option Transition, n.transitions = τ.toList → n.Consumes τ

theorem toList_injective : Function.Injective (Option.toList : Option Transition → List Transition) := by
  intro a b h
  cases a <;> cases b <;> simp_all

theorem tidy_suspend {x : MatchingNode × Option Transition} (htransitions : x.1.transitions = [])
    (h : x.1.Consumes x.2) : (MatchingNode.suspend x).Tidy := by
  intro τ hτ
  have hx : x.2.toList = τ.toList := by
    rw [← hτ, MatchingNode.suspend, htransitions, List.append_nil]
  rw [← toList_injective hx]
  exact h.congr rfl rfl rfl rfl

theorem Step.tidy (hinv : m.Inv) (hn : m.Numbered) (h : m.Tidy) (hmn : Step (fun _ τ => ¬ EndsConsumer τ) m n) :
    n.Tidy := by
  obtain ⟨τ, hτ, hflags⟩ := hinv
  have hconsumes := h τ hτ
  have hsame : ∀ {n : MatchingNode}, n.transitions = m.transitions → n.Consumes τ → n.Tidy := by
    intro n hn hc τ' hτ'
    rwa [← toList_injective (hτ.symm.trans (hn.symm.trans hτ'))]
  have hfree : τ = none → m.active = false → m.Free := by
    rintro rfl ha
    exact hconsumes.2 ha
  cases hmn with
  | connected hs => exact hsame rfl (hconsumes.congr rfl rfl rfl rfl)
  | initialized hs =>
    cases τ with
    | some τ => cases hs.symm.trans hflags.starting
    | none =>
      obtain ⟨hactive, -⟩ := hflags.fresh (hs ▸ rfl)
      have hguard : (m.active || m.transitioning) = false := by rw [hactive, hflags.transitioning]; rfl
      rw [MatchingNode.attemptPromotion,
        if_neg (by rw [show (m.active || m.transitioning) = false from hguard]; decide)]
      exact tidy_suspend hτ (hfree rfl hactive)
  | check hloop hguard => exact hsame rfl (hconsumes.congr rfl rfl rfl rfl)
  | led hk => exact hsame rfl (hconsumes.congr rfl rfl rfl rfl)
  | @unled k hk =>
    by_cases hguard : (m.active || m.transitioning) = true
    · rw [MatchingNode.attemptPromotion, if_pos hguard]
      exact hsame rfl (hconsumes.congr rfl rfl rfl rfl)
    · rw [MatchingNode.attemptPromotion, if_neg hguard]
      rw [Bool.or_eq_true, not_or, Bool.not_eq_true, Bool.not_eq_true] at hguard
      cases τ with
      | some τ => cases hguard.2.symm.trans hflags.transitioning
      | none => exact tidy_suspend hτ (hfree rfl hguard.1)
  | loopEnds hrunning => exact hsame rfl (hconsumes.congr rfl rfl rfl rfl)
  | lost hmonitored =>
    by_cases hguard : m.transitioning = true
    · rw [MatchingNode.handleLeadershipLost, if_pos hguard]
      exact hsame rfl (hconsumes.congr rfl rfl rfl rfl)
    · rw [MatchingNode.handleLeadershipLost, if_neg hguard]
      cases τ with
      | some τ => exact absurd hflags.transitioning hguard
      | none =>
        refine tidy_suspend hτ ?_
        cases hactive : m.active with
        | false => exact .inl (hfree rfl hactive)
        | true => exact .inr (hconsumes.1 hactive)
  | @resume l r τ' reply hresume hready hthrows =>
    obtain ⟨rfl, rfl, rfl⟩ := only_transition (hτ.symm.trans hresume)
    exact tidy_suspend resume_transitions
      (resume_consumes (hflags.congr rfl rfl rfl rfl rfl rfl rfl fun _ => rfl) ⟨hn.stopped, hn.handle⟩
        (hconsumes.congr rfl rfl rfl rfl) hthrows)

theorem reach_tidy (h : Reach (fun _ τ => ¬ EndsConsumer τ) n) : n.Tidy := by
  induction h with
  | init =>
    intro τ hτ
    obtain rfl : none = τ := toList_injective hτ
    exact ⟨nofun, fun _ => ⟨rfl, rfl⟩⟩
  | step h hmn ih => exact hmn.tidy (reach_inv h) (reach_numbered h) ih

/-- In every order of the calls in which neither `consumerHandle.stop` nor the check of leadership after the start of
the consumer throws: there is at most one consumer, and none while the standby loop runs and no transition is in
progress. -/
theorem one_consumer (h : Reach (fun _ τ => ¬ EndsConsumer τ) n) :
    n.consumers.length ≤ 1 ∧
      (n.consumers ≠ [] → n.running = true ∨ n.loop = true → n.transitioning = true) := by
  obtain ⟨τ, hτ, hflags⟩ := reach_inv h
  have hconsumes := reach_tidy h τ hτ
  have hlength : n.Free ∨ n.Owns → n.consumers.length ≤ 1 := by
    rintro (⟨h, -⟩ | ⟨c, h, -⟩) <;> simp [h]
  cases τ with
  | none =>
    cases hactive : n.active with
    | false => exact ⟨hlength (.inl (hconsumes.2 hactive)), fun hne => absurd (hconsumes.2 hactive).1 hne⟩
    | true =>
      refine ⟨hlength (.inr (hconsumes.1 hactive)), fun _ hloop => ?_⟩
      have hstarting : n.starting = none := by
        by_contra hne
        cases hactive.symm.trans (hflags.fresh (Option.isSome_iff_ne_none.mpr hne)).1
      have hrunning := hflags.running hstarting
      rw [hactive] at hrunning
      rw [hrunning, hflags.loop hactive] at hloop
      exact absurd hloop (by decide)
  | some τ =>
    refine ⟨?_, fun _ _ => hflags.transitioning⟩
    match τ, hconsumes with
    | .lost .stoppingConsumer, hc => exact hlength hc
    | .lost .initializing, hc => exact hlength (.inl hc)
    | .promotion k p, hc =>
      cases p with
      | checkingAgain | stoppingConsumer => exact hlength (.inr hc)
      | _ => exact hlength (.inl hc)

/-- The node starts, and its first promotion succeeds up to the check after the start of the consumer. -/
theorem consumer_started (throws : MatchingNode → Transition → Prop) : Reach throws
    ⟨false, true, false, some 0, true, false, false, [0], [], 1, true, none, 0,
      [.promotion .start .checkingAgain]⟩ := by
  have hacquired := (starting_reached throws).goes rfl (by decide) true
  have hstopped := hacquired.step (.resume (τ := .promotion .start .stoppingReplica) (l := []) (r := []) (.ok true) rfl
    ⟨fun _ _ => ⟨rfl, by decide⟩, fun _ => nofun⟩ nofun)
  have hchecked := (Reach.goes hstopped rfl (by decide) true).goes rfl (by decide) true
  exact (hchecked.goes rfl (by decide) true).goes rfl (by decide) true

/-- The check completes, and the node is active. -/
theorem one_consumer_active :
    ∃ n, Reach (fun _ τ => ¬ EndsConsumer τ) n ∧ n.active = true ∧ n.consumers.length = 1 := by
  have h := (consumer_started fun _ τ => ¬ EndsConsumer τ).goes rfl (by decide) true
  exact ⟨_, h, rfl, Nat.le_antisymm (one_consumer h).1 (Nat.le_refl 1)⟩

/-- The check throws: the node is in standby, its loop runs, and the consumer is still there. -/
theorem consumer_left : ∃ n, Reach (fun _ τ => τ = .promotion .start .checkingAgain) n ∧ n.consumers = [0] ∧
    n.running = true ∧ n.loop = true ∧ n.active = false ∧ n.transitioning = false := by
  have hthrown := (consumer_started fun _ τ => τ = .promotion .start .checkingAgain).step
    (.resume (τ := .promotion .start .checkingAgain) (l := []) (r := []) .throws rfl
      ⟨fun _ h => (by cases h), fun h => h.elim⟩ fun _ => rfl)
  exact ⟨_, Reach.goes hthrown rfl (by decide) true, rfl, rfl, rfl, rfl, rfl⟩

end Lob.Replication
