import LobEngine.Worker.Failover

/-!
# Workers that have lost the lock

`Handle` checks leadership before it writes, and the lock can be lost right after the check. What a worker without the
lock still writes is bounded.

* `handle_once`: `Handle` makes at most one write of each kind. `handle_unled`: without the lock it makes none.
* `Stale`: the steps of a run while a worker does not have the lock. `stale_run`: all such steps are counted.
* `stale_writes`: in every run of several workers, whichever calls fail, a worker that has lost the lock makes at most
  one more write of each kind until it acquires it again, and none if it was not handling a command then.
-/

namespace Lob.Worker.Failover

open Exc Go Prog

/-- What `Handle` writes of a command. -/
inductive Write where
  | command
  | events
  | readModel
  | recoverySnapshot
  deriving DecidableEq

/-- The call is a write of the kind. -/
def Write.is : Write → Call → Bool
  | .command, .appendProcessedCommand _ => true
  | .events, .appendEvents _ _ => true
  | .readModel, .saveReadModel _ _ _ => true
  | .recoverySnapshot, .saveRecoverySnapshot _ _ => true
  | _, _ => false

/-- The answers to the worker `w` while it does not have the lock. -/
def Unled (w : String) : (c : Call) → c.Answer → Prop
  | .hasLeadership v, r => v = w → r ≠ .ok true
  | _, _ => True

section

variable {possible : (c : Call) → c.Answer → Prop} {kind : Write} {p : Processor} {now : Clock} {r : Registry}

theorem plain_atMost {α : Type} {m : Handler α} (h : m.Only Call.Plain) :
    m.AtMost possible kind.is (fun _ => True) 0 := by
  refine .only h fun c hc => ?_
  cases c with
  | appendProcessedCommand c => exact hc.elim
  | appendEvents symbol events => exact hc.elim
  | saveReadModel symbol snapshot trades => exact hc.elim
  | saveRecoverySnapshot symbol snapshot => exact hc.elim
  | _ => cases kind <;> rfl

theorem appendEvents_atMost (symbol : String) (events : List Event) :
    (appendEvents symbol events).AtMost possible kind.is (fun _ => True)
      (kind.is (.appendEvents symbol events)).toNat := by
  unfold appendEvents
  split
  · trivial
  · exact .perform _

theorem persist_once (c : Go.Command) (book : Book) (result : Result) :
    (persist c book result).AtMost possible kind.is (fun _ => True) 1 := by
  have hone : (kind.is (.appendProcessedCommand c)).toNat + ((kind.is (.appendEvents c.symbol result.events)).toNat +
      ((kind.is (.saveReadModel c.symbol book.snapshot result.trades)).toNat +
        ((kind.is (.saveRecoverySnapshot c.symbol (book.recoverySnapshot none))).toNat + 0))) = 1 := by
    cases kind <;> rfl
  rw [← hone]
  refine (AtMost.perform (Call.appendProcessedCommand c)).bind fun x _ => ?_
  cases x with
  | error e => trivial
  | ok streamID =>
    refine (appendEvents_atMost c.symbol result.events).bind fun x _ => ?_
    cases x with
    | error e => trivial
    | ok _ =>
      refine (AtMost.perform (Call.saveReadModel c.symbol book.snapshot result.trades)).bind fun x _ => ?_
      cases x with
      | error e => trivial
      | ok _ =>
        have hid : kind.is (.saveRecoverySnapshot c.symbol (book.recoverySnapshot none)) =
            kind.is (.saveRecoverySnapshot c.symbol (book.recoverySnapshot (some streamID))) := by cases kind <;> rfl
        rw [hid]
        refine (AtMost.perform (Call.saveRecoverySnapshot c.symbol (book.recoverySnapshot (some streamID)))).bind
          fun x _ => ?_
        cases x with
        | error e => trivial
        | ok _ => exact plain_atMost (saveStatus_plain _ _ _)

theorem commit_once (c : Go.Command) (book : Book) (result : Result) :
    (commit p c book result).AtMost possible kind.is (fun _ => True) 1 := by
  rw [show 1 = 0 + (1 + 0) from rfl]
  refine (plain_atMost (checkLeader_plain p)).bind fun x _ => ?_
  cases x with
  | error e => trivial
  | ok _ =>
    refine (persist_once c book result).bind fun x _ => ?_
    cases x with
    | error e => exact plain_atMost (reject_plain _ _)
    | ok _ => exact plain_atMost ((checkLeader_plain p).bind fun _ => Only.pure _)

/-- `Handle` makes at most one write of each kind. -/
theorem handle_once (body : Option Go.Command) :
    (handle p now r body).AtMost possible kind.is (fun _ => True) 1 := by
  cases body with
  | none => trivial
  | some c =>
    cases hcheck : checkPartition c.symbol p.partitionID p.partitionCount with
    | error e =>
      rw [handle_mismatch hcheck]
      trivial
    | ok _ =>
      rw [handle_command hcheck, show 1 = 0 + (0 + (1 + 0)) from rfl]
      refine (plain_atMost (checkLeader_plain p)).bind fun x _ => ?_
      cases x with
      | error e => trivial
      | ok _ =>
        refine (plain_atMost (m := isCommandProcessed c.symbol c.commandId) ⟨trivial, fun _ => trivial⟩).bind
          fun x _ => ?_
        match x with
        | .error e => exact ((plain_atMost (reject_plain _ _)).le (Nat.zero_le 1)).bind fun _ _ => .pure trivial
        | .ok true => exact ((plain_atMost (saveStatus_plain _ _ _)).le (Nat.zero_le 1)).bind fun _ _ => .pure trivial
        | .ok false =>
          refine AtMost.bind (Q := fun _ => True) ?_ fun _ _ => .pure trivial
          cases (r.execute now c).1 with
          | error e => exact (plain_atMost (reject_plain _ _)).le (Nat.zero_le 1)
          | ok x => exact commit_once c x.1 x.2

/-- Without the lock, `Handle` writes nothing. -/
theorem handle_unled (body : Option Go.Command) :
    (handle p now r body).AtMost (Unled p.workerID) kind.is (fun _ => True) 0 := by
  cases body with
  | none => trivial
  | some c =>
    cases hcheck : checkPartition c.symbol p.partitionID p.partitionCount with
    | error e =>
      rw [handle_mismatch hcheck]
      trivial
    | ok _ =>
      rw [handle_command hcheck]
      have hchecked : (checkLeader p).AtMost (Unled p.workerID) kind.is (fun x => ∃ e, x = .error e) 0 := by
        have hcost : kind.is (.hasLeadership p.workerID) = false := by cases kind <;> rfl
        refine ⟨by rw [hcost]; exact le_rfl, fun x hx => ?_⟩
        rw [hcost]
        match x, hx with
        | .error e, _ => exact ⟨_, rfl⟩
        | .ok false, _ => exact ⟨_, rfl⟩
        | .ok true, hx => exact absurd rfl (hx rfl)
      refine hchecked.bind (m := 0) (n := 0) fun x hx => ?_
      obtain ⟨e, rfl⟩ := hx
      trivial

end

/-! ## Runs -/

/-- The rules, without the writes of the kind by the worker. -/
def Rules.without (R : Rules) (kind : Write) (w : String) : Rules :=
  { R with allowed := fun v c s => R.allowed v c s ∧ (v = w → kind.is c = false) }

/-- The worker makes a write of the kind; it may fail. -/
inductive Writes (R : Rules) (kind : Write) (w : String) : World → World → Prop
  | intro {s t : State} {ws : String → Mode} {c : Call} {k : c.Answer → Handler (Outcome × Registry)} {a : c.Answer}
    (hw : ws w = .busy (.call c k)) (hc : R.allowed w c s) (hkind : kind.is c = true) (h : act R.policy c s a t) :
    Writes R kind w ⟨s, ws⟩ ⟨t, Function.update ws w (.busy (k a))⟩

/-- Steps of any workers from `x` to `y`, while the worker `w` does not have the lock; so many of them are writes of
`w`. -/
inductive Stale (q n : Int) (R : Rules) (kind : Write) (w : String) : Nat → World → World → Prop
  | refl {x : World} (hx : x.store.leader ≠ some w) : Stale q n R kind w 0 x x
  | other {x y z : World} {k : Nat} (h : Stale q n R kind w k x y) (hyz : Step q n (R.without kind w) y z)
    (hz : z.store.leader ≠ some w) : Stale q n R kind w k x z
  | write {x y z : World} {k : Nat} (h : Stale q n R kind w k x y) (hyz : Writes R kind w y z)
    (hz : z.store.leader ≠ some w) : Stale q n R kind w (k + 1) x z

section

variable {q n : Int} {R : Rules} {kind : Write} {x y : World} {w : String} {k : Nat}

/-- The deliveries that are being handled are written at most once more. -/
def World.Once (kind : Write) (x : World) : Prop :=
  ∀ w m, x.workers w = .busy m → m.AtMost (fun _ _ => True) kind.is (fun _ => True) 1

theorem Step.once (h : Step q n R x y) (hx : x.Once kind) : y.Once kind := by
  have hupdate : ∀ {ws : String → Mode} {w : String} {mode : Mode}, (∀ v m, ws v = .busy m →
      m.AtMost (fun _ _ => True) kind.is (fun _ => True) 1) →
      (∀ m, mode = .busy m → m.AtMost (fun _ _ => True) kind.is (fun _ => True) 1) →
      ∀ v m, Function.update ws w mode v = .busy m → m.AtMost (fun _ _ => True) kind.is (fun _ => True) 1 := by
    intro ws w mode hws hmode v m hv
    rcases eq_or_ne v w with rfl | hne
    · rw [Function.update_self] at hv
      exact hmode m hv
    · rw [Function.update_of_ne hne] at hv
      exact hws v m hv
  cases h with
  | acquire w hw hs => exact hupdate hx fun m hm => by cases hm
  | recover w hw now hn h => exact hupdate hx fun m hm => by cases hm
  | deliver w hw now hn body haccepts =>
    refine hupdate hx fun m hm => ?_
    cases hm
    exact handle_once body
  | @call s t ws c k a w hw hc h =>
    refine hupdate hx fun m hm => ?_
    cases hm
    exact ((hx w _ hw).2 a trivial).le (Nat.sub_le 1 _)
  | @done s ws outcome r w hw =>
    refine hupdate hx fun m hm => ?_
    cases hl : outcome.leadershipLost <;> rw [hl] at hm <;> cases hm
  | expire => exact hx
  | die w => exact hupdate hx fun m hm => by cases hm

theorem Reach.once (h : Reach q n R x) : x.Once kind := by
  induction h with
  | refl => exact fun _ _ h => by cases h
  | tail h hxy ih => exact hxy.once ih

/-- A step is a write of `w`, or it is not. -/
theorem Step.writes (h : Step q n R x y) (kind : Write) (w : String) :
    Step q n (R.without kind w) x y ∨ Writes R kind w x y := by
  cases h with
  | acquire v hv hs => exact .inl (.acquire v hv hs)
  | recover v hv now hn hrun => exact .inl (.recover v hv now hn hrun)
  | deliver v hv now hn body haccepts => exact .inl (.deliver (R := R.without kind w) v hv now hn body haccepts)
  | @call s t ws c k a v hv hc h =>
    by_cases hwrite : v = w ∧ kind.is c = true
    · obtain ⟨rfl, hkind⟩ := hwrite
      exact .inr (.intro hv hc hkind h)
    · exact .inl (.call (R := R.without kind w) v hv ⟨hc, fun hvw => by simpa [hvw] using hwrite⟩ h)
  | done v hv => exact .inl (.done v hv)
  | expire => exact .inl .expire
  | die v => exact .inl (.die v)

/-- Every run in which `w` does not have the lock is counted. -/
theorem stale_run (hx : x.store.leader ≠ some w)
    (h : Relation.ReflTransGen (fun x y => Step q n R x y ∧ y.store.leader ≠ some w) x y) :
    ∃ k, Stale q n R kind w k x y := by
  induction h with
  | refl => exact ⟨0, .refl hx⟩
  | tail h hxy ih =>
    obtain ⟨k, hk⟩ := ih
    rcases hxy.1.writes kind w with hstep | hwrite
    · exact ⟨k, .other hk hstep hxy.2⟩
    · exact ⟨k + 1, .write hk hwrite hxy.2⟩

/-- Only the worker that holds the lock is told that it leads. -/
def LeadsByLock (P : Policy) : Prop := ∀ s w, P.leads s w (.ok true) → s.leader = some w

/-- The answer to a call of `w` while it does not have the lock. -/
theorem act_unled {P : Policy} (hP : LeadsByLock P) {c : Call} {s t : State} {a : c.Answer} (h : act P c s a t)
    (hs : s.leader ≠ some w) : Unled w c a := by
  cases c with
  | hasLeadership v =>
    rintro rfl rfl
    exact hs (hP _ _ h.2)
  | _ => trivial

/-- What `w` is handling is written at most `b` times more while it does not have the lock. -/
def World.Bounded (kind : Write) (w : String) (b : Nat) (x : World) : Prop :=
  ∀ m, x.workers w = .busy m → m.AtMost (Unled w) kind.is (fun _ => True) b

theorem Bounded.update {s : State} {ws : String → Mode} {v : String} {mode : Mode} {b : Nat}
    (h : World.Bounded kind w b ⟨s, ws⟩)
    (hmode : v = w → ∀ m, mode = .busy m → m.AtMost (Unled w) kind.is (fun _ => True) b) :
    World.Bounded kind w b ⟨s, Function.update ws v mode⟩ := by
  intro m hm
  rcases eq_or_ne w v with rfl | hne
  · exact hmode rfl m ((Function.update_self ..).symm.trans hm)
  · exact h m ((Function.update_of_ne hne ..).symm.trans hm)

/-- A step that is no write of `w`. -/
theorem Step.bounded {b : Nat} (hR : LeadsByLock R.policy) (h : Step q n (R.without kind w) x y)
    (hx : x.store.leader ≠ some w) (hb : x.Bounded kind w b) : y.Bounded kind w b := by
  cases h with
  | acquire v hv hs => exact Bounded.update (s := _) hb fun _ m hm => by cases hm
  | recover v hv now hn h => exact Bounded.update hb fun _ m hm => by cases hm
  | deliver v hv now hn body haccepts =>
    refine Bounded.update hb fun hvw m hm => ?_
    cases hm
    subst hvw
    exact (handle_unled (p := ⟨v, q, n⟩) body).le (Nat.zero_le b)
  | @call s t ws c k a v hv hc h =>
    refine Bounded.update (s := t) hb fun hvw m hm => ?_
    cases hm
    subst hvw
    have hrest := (hb _ hv).2 a (act_unled hR h hx)
    rw [hc.2 rfl] at hrest
    exact hrest
  | @done s ws outcome r v hv =>
    refine Bounded.update hb fun _ m hm => ?_
    cases hl : outcome.leadershipLost <;> rw [hl] at hm <;> cases hm
  | expire => exact hb
  | die v => exact Bounded.update hb fun _ m hm => by cases hm

theorem Stale.unled (h : Stale q n R kind w k x y) : y.store.leader ≠ some w := by
  cases h with
  | refl hx => exact hx
  | other h hyz hz => exact hz
  | write h hyz hz => exact hz

/-- One write of `w`. -/
theorem Stale.one {s t : State} {ws : String → Mode} {c : Call} {f : c.Answer → Handler (Outcome × Registry)}
    {a : c.Answer} (hw : ws w = .busy (.call c f)) (hc : R.allowed w c s) (hkind : kind.is c = true)
    (h : act R.policy c s a t) (hs : s.leader ≠ some w) :
    Stale q n R kind w 1 ⟨s, ws⟩ ⟨t, Function.update ws w (.busy (f a))⟩ :=
  .write (.refl hs) (.intro hw hc hkind h) (by rw [act_leader h]; exact hs)

theorem Stale.bounded {b : Nat} (hR : LeadsByLock R.policy) (h : Stale q n R kind w k x y) (hx : x.Bounded kind w b) :
    k ≤ b ∧ y.Bounded kind w (b - k) := by
  induction h with
  | refl _ => exact ⟨Nat.zero_le b, hx⟩
  | other h hyz hz ih => exact ⟨(ih hx).1, hyz.bounded hR h.unled (ih hx).2⟩
  | @write x y z k h hyz hz ih =>
    obtain ⟨hk, hy⟩ := ih hx
    have hunled := h.unled
    obtain ⟨hw, -, hkind, hact⟩ := hyz
    obtain ⟨hone, hrest⟩ := hy _ hw
    have hrest := hrest _ (act_unled hR hact hunled)
    rw [hkind] at hone hrest
    refine ⟨?_, fun m hm => ?_⟩
    · have : 1 ≤ b - k := hone
      omega
    · cases (Function.update_self ..).symm.trans hm
      exact hrest

/-- In every run of several workers, whichever calls fail: from when a worker has lost the lock until it acquires it
again, it makes at most one more write of each kind, and none if it was not handling a command then. -/
theorem stale_writes (hR : LeadsByLock R.policy) (hx : Reach q n R x) (h : Stale q n R kind w k x y) :
    k ≤ 1 ∧ ((∀ m, x.workers w ≠ .busy m) → k = 0) := by
  constructor
  · refine (h.bounded hR fun m hm => ?_).1
    exact (hx.once w m hm).mono le_rfl (fun _ _ _ => trivial) fun _ h => h
  · intro hidle
    exact Nat.le_zero.mp (h.bounded hR fun m hm => absurd hm (hidle m)).1

end

theorem lock_leads : LeadsByLock lock := by
  intro s w h
  have hleads : (Except.ok true : Except Failure Bool) = .ok (decide (s.leader = some w)) := h
  exact of_decide_eq_true (Except.ok.inj hleads).symm

/-- A worker loses the lock between its check and `AppendProcessedCommand`: it appends the command, because it was
handling it. -/
theorem stale_writes_appended : ∃ x y, Reach 0 1 unfenced x ∧ Stale 0 1 unfenced .command "w" 1 x y ∧
    ∃ m, x.workers "w" = .busy m := by
  have hinit : Reach 0 1 unfenced ⟨.empty, fun _ => .down⟩ := .refl
  obtain ⟨result, h⟩ := market_led (w := "w") hinit rfl fun _ _ _ => trivial
  have hpaused := h.steps (Function.update_self ..) (.bind (.after (checkLeader_run rfl) (.refl _ _)))
    fun _ _ _ => trivial
  have hstart := hpaused.tail .expire
  have happend : act lock (.appendProcessedCommand marketCommand) .empty (Except.ok "1-0" : Except Failure String)
      (State.empty.append marketCommand "1-0" 0 0) :=
    ⟨0, 0, market_later, Nat.le_refl 0, Nat.zero_le _, rfl⟩
  obtain ⟨x, y, hx, hxy⟩ : ∃ x y, Reach 0 1 unfenced x ∧ Stale 0 1 unfenced .command "w" 1 x y :=
    ⟨_, _, hstart, .one (Function.update_self ..) trivial rfl happend (fun hw => by cases hw)⟩
  refine ⟨x, y, hx, hxy, ?_⟩
  by_contra hidle
  exact absurd ((stale_writes lock_leads hx hxy).2 fun m hm => hidle ⟨m, hm⟩) (by decide)

end Lob.Worker.Failover
