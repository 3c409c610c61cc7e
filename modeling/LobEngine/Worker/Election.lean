import LobEngine.Lib.Lease
import LobEngine.Worker.Failover

/-!
# Leader election

The lock of a partition, a key of the store that expires. The workers of both engines take it, extend it with a
heartbeat, and release it: `RedisLeaderElection.js` and `storage/redis.go`.

* `Step`, `Reach`: the calls of any workers for any partitions, in any order, while time goes on.
* `lease_exclusive`: whoever got or extended the lock less than 5 seconds ago leads, and nobody else does.
* `lock_simulated`: the lock moves as the one of `Worker/Failover` does, which says nothing of time.
-/

namespace Lob.Worker.Election

open Leases

/-! ## `RedisLeaderElection.js` -/

namespace Node

/-- `LEADER_LOCK_TTL_MS` -/
def leaderLockTtlMs : Nat := 5000

/-- The key of the partition; `none` is an id that is no number. -/
def getLeaderKey (partitionId : Option Int) : String :=
  match partitionId with
  | some id => "matching:leader:partition:" ++ toString id
  | none => "matching:leader"

variable (store : Leases String String) (now : Nat) (workerId : String) (partitionId : Option Int)

def tryAcquireLeadership : Bool × Leases String String :=
  store.setNX now leaderLockTtlMs (getLeaderKey partitionId) workerId

def renewLeadership : Bool × Leases String String :=
  store.extend now leaderLockTtlMs (getLeaderKey partitionId) workerId

def releaseLeadership : Bool × Leases String String := store.delete now (getLeaderKey partitionId) workerId

def getCurrentLeader : Option String := store.get now (getLeaderKey partitionId)

def hasLeadership : Bool := getCurrentLeader store now partitionId = some workerId

end Node

/-! ## `storage/redis.go` -/

namespace Go

/-- `leaderLockTTL`, in milliseconds. -/
def leaderLockTTL : Nat := 5000

def leaderKey (id : Int) : String := "matching:leader:partition:" ++ toString id

variable (store : Leases String String) (now : Nat) (workerID : String) (partitionID : Int)

def acquireLeadership : Bool × Leases String String := store.setNX now leaderLockTTL (leaderKey partitionID) workerID

def renewLeadership : Bool × Leases String String := store.extend now leaderLockTTL (leaderKey partitionID) workerID

def releaseLeadership : Bool × Leases String String := store.delete now (leaderKey partitionID) workerID

def hasLeadership : Bool := store.get now (leaderKey partitionID) = some workerID

end Go

/-! ## Elections -/

inductive Engine where
  | node
  | go
  deriving DecidableEq

section

variable (engine : Engine) (store : Leases String String) (now : Nat) (worker : String) (p : Int)

def acquire : Bool × Leases String String :=
  match engine with
  | .node => Node.tryAcquireLeadership store now worker (some p)
  | .go => Go.acquireLeadership store now worker p

def renew : Bool × Leases String String :=
  match engine with
  | .node => Node.renewLeadership store now worker (some p)
  | .go => Go.renewLeadership store now worker p

def release : Bool × Leases String String :=
  match engine with
  | .node => Node.releaseLeadership store now worker (some p)
  | .go => Go.releaseLeadership store now worker p

def hasLeadership : Bool :=
  match engine with
  | .node => Node.hasLeadership store now worker (some p)
  | .go => Go.hasLeadership store now worker p

end

/-- The time, the store, and when the store executed the last call that got or extended a worker's lock of a partition,
unless the worker has released it since. -/
structure Timeline where
  now : Nat
  store : Leases String String
  since : String → Int → Option Nat

def Timeline.init : Timeline := ⟨0, fun _ => none, fun _ _ => none⟩

def Timeline.note (x : Timeline) (worker : String) (p : Int) (t : Option Nat) : String → Int → Option Nat :=
  Function.update x.since worker (Function.update (x.since worker) p t)

inductive Step : Timeline → Timeline → Prop
  | wait {x : Timeline} (t : Nat) (h : x.now ≤ t) : Step x { x with now := t }
  | acquire {x : Timeline} (engine : Engine) (worker : String) (p : Int) : Step x { x with
      store := (acquire engine x.store x.now worker p).2
      since := if (acquire engine x.store x.now worker p).1 then x.note worker p (some x.now) else x.since }
  | renew {x : Timeline} (engine : Engine) (worker : String) (p : Int) : Step x { x with
      store := (renew engine x.store x.now worker p).2
      since := if (renew engine x.store x.now worker p).1 then x.note worker p (some x.now) else x.since }
  | release {x : Timeline} (engine : Engine) (worker : String) (p : Int) : Step x { x with
      store := (release engine x.store x.now worker p).2, since := x.note worker p none }

inductive Reach : Timeline → Prop
  | init : Reach .init
  | step {x y : Timeline} (h : Reach x) (hxy : Step x y) : Reach y

theorem leaderKey_inj {p q : Int} : Go.leaderKey p = Go.leaderKey q ↔ p = q := by
  unfold Go.leaderKey
  rw [String.append_right_inj]
  exact ⟨fun h => Int.repr_injective h, congrArg _⟩

section

variable {engine : Engine} {store : Leases String String} {now : Nat} {worker : String} {p : Int}

/-! Both engines make the same calls. -/

theorem acquire_eq : acquire engine store now worker p = store.setNX now 5000 (Go.leaderKey p) worker := by
  cases engine <;> rfl

theorem renew_eq : renew engine store now worker p = store.extend now 5000 (Go.leaderKey p) worker := by
  cases engine <;> rfl

theorem release_eq : release engine store now worker p = store.delete now (Go.leaderKey p) worker := by
  cases engine <;> rfl

theorem hasLeadership_eq :
    hasLeadership engine store now worker p = decide (store.get now (Go.leaderKey p) = some worker) := by
  cases engine <;> rfl

end

/-! ## The lock -/

/-- The leases of the partitions. -/
def Timeline.clients (x : Timeline) : Clients Int String := ⟨x.now, x.store ∘ Go.leaderKey, x.since⟩

/-- Who has the lock. -/
def Timeline.leader (x : Timeline) (p : Int) : Option String := x.store.get x.now (Go.leaderKey p)

section

variable {x y : Timeline} {w : String} {p : Int} {t : Nat}

theorem leaderKey_injective : Function.Injective Go.leaderKey := fun _ _ => leaderKey_inj.mp

theorem Step.clients (h : Step x y) : Clients.Step 5000 x.clients y.clients := by
  cases h with
  | wait t h => exact .wait t h
  | acquire engine w p =>
    rw [acquire_eq]
    have h := setNX_comap leaderKey_injective x.store x.now 5000 p w
    have hstep : Clients.Step 5000 x.clients _ := .acquire w p
    rw [show x.clients.leases.setNX x.clients.now 5000 p w = _ from h.symm] at hstep
    exact hstep
  | renew engine w p =>
    rw [renew_eq]
    have h := extend_comap leaderKey_injective x.store x.now 5000 p w
    have hstep : Clients.Step 5000 x.clients _ := .renew w p
    rw [show x.clients.leases.extend x.clients.now 5000 p w = _ from h.symm] at hstep
    exact hstep
  | release engine w p =>
    rw [release_eq]
    have h := delete_comap leaderKey_injective x.store x.now p w
    have hstep : Clients.Step 5000 x.clients _ := .release w p
    rw [show x.clients.leases.delete x.clients.now p w = _ from h.symm] at hstep
    exact hstep

theorem Reach.clients (h : Reach x) : Clients.Reach 5000 x.clients := by
  induction h with
  | init => exact .init
  | step h hxy ih => exact ih.step hxy.clients

/-- Whoever got or extended the lock less than 5 seconds ago, and has not released it, leads, and its renewals succeed.
For every other worker of either engine the answer to each call is no, and nothing changes. -/
theorem lease_exclusive (h : Reach x) (hs : x.since w p = some t) (ht : x.now < t + 5000) :
    (∀ engine v, hasLeadership engine x.store x.now v p = decide (v = w)) ∧
      (∀ engine, (renew engine x.store x.now w p).1 = true) ∧
      ∀ engine v, acquire engine x.store x.now v p = (false, x.store) ∧
        (v ≠ w → renew engine x.store x.now v p = (false, x.store) ∧
          release engine x.store x.now v p = (false, x.store)) := by
  have hget : x.store.get x.now (Go.leaderKey p) = some w := h.clients.owner hs ht
  refine ⟨fun engine v => ?_, fun engine => ?_, fun engine v => ⟨?_, fun hv => ⟨?_, ?_⟩⟩⟩
  · rw [hasLeadership_eq, hget, decide_eq_decide, Option.some_inj]
    exact eq_comm
  · rw [renew_eq, extend, if_pos hget]
  · rw [acquire_eq, setNX, hget]
  · rw [renew_eq, extend, if_neg]
    rw [hget]
    exact fun h => hv (Option.some.inj h).symm
  · rw [release_eq, delete, if_neg]
    rw [hget]
    exact fun h => hv (Option.some.inj h).symm

/-- A step of the election is, for each partition, a step of the lock of `Worker/Failover`, or none: the lock expires,
or a worker acquires it that waits for it. -/
theorem lock_simulated {q n : Int} {R : Failover.Rules} (h : Step x y) {s : State}
    {ws : String → Failover.Mode} (hs : s.leader = x.leader q)
    (hdown : ∀ w, x.leader q = none → y.leader q = some w → ws w = .down) :
    y.leader q = x.leader q ∨
      ∃ ws', Failover.Step q n R ⟨s, ws⟩ ⟨{ s with leader := y.leader q }, ws'⟩ := by
  rcases h.clients.owner (by decide) q with h | h | ⟨hnone, w, h⟩
  · exact .inl h
  · have hy : y.leader q = none := h
    rw [hy]
    exact .inr ⟨ws, .expire⟩
  · have hy : y.leader q = some w := h
    rw [hy]
    exact .inr ⟨_, .acquire w (hdown w hnone hy) (hs.trans hnone)⟩

end

/-- A Node worker acquires the lock of partition 0 and renews it after 4 seconds. After 4 more, it still leads, and no
Go worker does. -/
theorem lease_exclusive_renewed : ∃ x, Reach x ∧ x.since "node" 0 = some 4000 ∧ x.now = 8000 ∧
    hasLeadership .node x.store x.now "node" 0 = true ∧ (acquire .go x.store x.now "go" 0).1 = false := by
  have h := (((Reach.init.step (.acquire .node "node" 0)).step (.wait 4000 (by decide))).step
    (.renew .node "node" 0)).step (.wait 8000 (by decide))
  refine ⟨_, h, by decide +kernel, rfl, ?_⟩
  obtain ⟨hleads, -, hothers⟩ := lease_exclusive (w := "node") (p := 0) (t := 4000) h (by decide +kernel) (by decide)
  exact ⟨(hleads .node "node").trans (decide_eq_true rfl), congrArg Prod.fst (hothers .go "go").1⟩

end Lob.Worker.Election
