import LobEngine.Worker.Consistency

/-!
# What the handler keeps

While others may write whatever a recovery does not read, `Handle` keeps the store consistent after every call, and
the books of the registry stay those of the streams, unless it returns without leadership.

* `Quiet`: programs that write nothing that a recovery reads.
* `persist_ensures`: the writes of an executed command.
* `handle_ensures`: all of `Handle`, for any failures but that of `AppendProcessedCommand`.
-/

namespace Lob.Worker

open Go Prog

/-- The program writes nothing that a recovery reads. -/
abbrev Quiet {α : Type} (m : Handler α) : Prop := m.Only fun c => ¬ c.Logs

/-- Whatever others do to the store, and whatever the program does with what it reads, the store is consistent after
every call, and `Q` holds of the result. -/
abbrev Keeps {α : Type} (P : Policy) (Q : α → State → Prop) (m : Handler α) (s : State) : Prop :=
  Ensures (act P) SameLogs (fun _ t => Consistent t) Q m s

section

variable {P : Policy} {α β : Type} {m : Handler α} {f : α → Handler β} {s t : State}

/-- A quiet program keeps what depends only on what a recovery reads. -/
theorem Quiet.keeps {J : State → Prop} (hm : Quiet m) (hJ : ∀ s t, SameLogs s t → J s → J t)
    (hcons : ∀ s, J s → Consistent s) (h : J s) : Keeps P (fun _ => J) m s := by
  induction m generalizing s with
  | ret a => exact h
  | call c k ih =>
    intro t hst r t' hact
    have hJ' := hJ t t' (act_sameLogs hact hm.1) (hJ s t hst h)
    exact ⟨hcons t' hJ', ih r (hm.2 r) hJ'⟩

theorem Plain.quiet (hm : m.Only Call.Plain) : Quiet m := hm.mono fun _ => Call.Plain.not_logs

theorem saveReadModel_quiet (symbol : String) (snapshot : BookSnapshot) (trades : List Trade) :
    Quiet (saveReadModel symbol snapshot trades) := ⟨not_false, fun _ => trivial⟩

theorem appendEvents_quiet (symbol : String) (events : List Event) : Quiet (appendEvents symbol events) := by
  unfold appendEvents
  split
  · exact .pure _
  · exact ⟨not_false, fun _ => trivial⟩

theorem saveStatus_quiet (c : Go.Command) (status : Status) (reason : Option Cause) :
    Quiet (saveStatus c status reason) := Plain.quiet (saveStatus_plain c status reason)

theorem reject_quiet (c : Go.Command) (cause : Cause) : Quiet (reject c cause) := Plain.quiet (reject_plain c cause)

theorem checkLeader_quiet (p : Processor) : Quiet (checkLeader p) := Plain.quiet (checkLeader_plain p)

end

/-- The outcome is not that of a worker that does not lead. -/
def Outcome.Stays (o : Outcome) : Prop := o.disposition ≠ .nackRequeue ∨ o.leadershipLost = false

theorem not_stays_lost (e : Option Cause) : ¬ (lost e).Stays := by
  rintro (h | h)
  · exact h rfl
  · cases h

/-! ## An executed command -/

/-- The command joined its stream under the id, since the state `s`. -/
structure Appended (s : State) (c : Go.Command) (id : String) (t : State) : Prop where
  consistent : Consistent t
  log : ∃ processedAt, (t.symbol c.symbol).log =
    (s.symbol c.symbol).log ++ [⟨id, { c with processedAt := some processedAt }⟩]
  other : ∀ k ≠ c.symbol, (t.symbol k).commands = (s.symbol k).commands

section

variable {P : Policy} {p : Processor} {now : Clock} {r : Registry} {s t u : State} {c : Go.Command} {id : String}
  {book : Book} {result : Result}

theorem Appended.same (h : Appended s c id t) (htu : SameLogs t u) : Appended s c id u where
  consistent := htu.consistent h.consistent
  log := by
    obtain ⟨processedAt, hlog⟩ := h.log
    exact ⟨processedAt, (htu.log c.symbol).trans hlog⟩
  other := fun k hk => (htu.commands k).trans (h.other k hk)

theorem Appended.logged (h : Appended s c id t)
    (hbook : Logged c.symbol book ((s.symbol c.symbol).commands ++ [c])) :
    Logged c.symbol book (t.symbol c.symbol).commands := by
  obtain ⟨processedAt, hlog⟩ := h.log
  rw [SymbolState.commands, hlog, List.map_append]
  exact logged_processedAt hbook processedAt

/-- `AppendProcessedCommand`, where it cannot fail. -/
theorem append_ensures (hP : ¬ P.fails (.appendProcessedCommand c)) (h : Consistent s)
    (hblank : isBlank c.symbol = false)
    (hnew : c.commandId ∉ (s.symbol c.symbol).processedIds)
    (hacc : Accepted c.symbol ((s.symbol c.symbol).commands ++ [c])) :
    Keeps P (fun r t => ∃ id, r = .ok id ∧ Appended s c id t) (appendProcessedCommand c) s := by
  intro t hst r t' hact
  match r, hact with
  | .error e, hact => exact absurd hact.1 hP
  | .ok id, ⟨processedAt, trimmed, hid, _, htrimmed, ht'⟩ =>
    have hcons : Consistent t' := by
      rw [ht']
      refine (hst.consistent h).append hblank ?_ ?_ hid processedAt htrimmed
      · rw [hst.processedIds]
        exact hnew
      · rw [hst.commands]
        exact hacc
    refine ⟨hcons, id, rfl, hcons, ⟨processedAt, ?_⟩, fun k hk => ?_⟩
    · rw [ht', State.append_self, hst.log]
    · rw [ht', SymbolState.commands, State.append_ne _ hk]
      exact hst.commands k

theorem saveRecoverySnapshot_ensures (h : Appended s c id t)
    (hbook : Logged c.symbol book ((s.symbol c.symbol).commands ++ [c])) :
    Keeps P (fun _ => Appended s c id)
      (saveRecoverySnapshot c.symbol (book.recoverySnapshot (some id))) t := by
  intro u htu r u' hact
  have h := h.same htu
  match r, hact with
  | .error e, hact =>
    rw [show u' = u from hact.2]
    exact ⟨h.consistent, h⟩
  | .ok _, hact =>
    obtain ⟨processedAt, hlog⟩ := h.log
    have hcons : Consistent u' := by
      rw [show u' = _ from hact]
      exact h.consistent.save hlog (h.logged hbook)
    have hsame : ∀ k, (u'.symbol k).log = (u.symbol k).log := by
      intro k
      rw [show u' = _ from hact]
      rcases eq_or_ne k c.symbol with rfl | hne
      · rw [State.update_self]
      · rw [State.update_ne _ _ hne]
    refine ⟨hcons, hcons, ⟨processedAt, (hsame _).trans hlog⟩, fun k hk => ?_⟩
    rw [SymbolState.commands, hsame]
    exact h.other k hk

/-- The writes of an executed command: whichever fails, the command is in its stream. -/
theorem persist_ensures (hP : ¬ P.fails (.appendProcessedCommand c)) (h : Consistent s)
    (hblank : isBlank c.symbol = false)
    (hnew : c.commandId ∉ (s.symbol c.symbol).processedIds)
    (hacc : Accepted c.symbol ((s.symbol c.symbol).commands ++ [c]))
    (hbook : Logged c.symbol book ((s.symbol c.symbol).commands ++ [c])) :
    Keeps P (fun _ t => ∃ id, Appended s c id t) (persist c book result) s := by
  have hquiet : ∀ {α : Type} {m : Handler α} {id t}, Quiet m → Appended s c id t →
      Keeps P (fun _ t => Appended s c id t) m t := fun hm ht =>
    hm.keeps (fun _ _ hst h => h.same hst) (fun _ h => h.consistent) ht
  refine (append_ensures hP h hblank hnew hacc).bind fun r t ⟨id, hr, ht⟩ => ?_
  subst hr
  refine (hquiet (appendEvents_quiet _ _) ht).bind fun r t ht => ?_
  cases r with
  | error e => exact ⟨id, ht⟩
  | ok _ =>
    refine (hquiet (saveReadModel_quiet _ _ _) ht).bind fun r t ht => ?_
    match r with
    | .error e => exact ⟨id, ht⟩
    | .ok _ =>
      refine (saveRecoverySnapshot_ensures ht hbook).bind fun r t ht => ?_
      match r with
      | .error e => exact ⟨id, ht⟩
      | .ok _ => exact (hquiet (saveStatus_quiet _ _ _) ht).mono fun _ _ h => ⟨id, h⟩

/-! ## `Handle` -/

theorem Books.same {n : Int} {q : Int} (h : Books q n r s) (hst : SameLogs s t) : Books q n r t := by
  intro k hk
  rw [hst.commands k]
  exact h k hk

/-- The store is consistent, and the books of the registry are those of the streams. -/
structure Live (p : Processor) (r : Registry) (s : State) : Prop where
  consistent : Consistent s
  books : Books p.partitionID p.partitionCount r s

theorem Live.same (h : Live p r s) (hst : SameLogs s t) : Live p r t :=
  ⟨hst.consistent h.consistent, h.books.same hst⟩

/-- The delivered command does not err after it began to match, unless it is processed already. -/
def Prompt (s : State) (r : Registry) (now : Clock) (body : Option Go.Command) : Prop :=
  ∀ c, body = some c → c.commandId ∉ (s.symbol c.symbol).processedIds →
    ¬ ((r c.symbol).getD (Book.empty c.symbol now)).FailsLate c

/-- The rest of `Handle`, after a command was executed. -/
theorem commit_ensures (hP : ¬ P.fails (.appendProcessedCommand c)) (h : Consistent s)
    (hblank : isBlank c.symbol = false)
    (hnew : c.commandId ∉ (s.symbol c.symbol).processedIds)
    (hacc : Accepted c.symbol ((s.symbol c.symbol).commands ++ [c]))
    (hbook : Logged c.symbol book ((s.symbol c.symbol).commands ++ [c])) :
    Keeps P (fun outcome t => Consistent t ∧ (outcome.Stays → ∃ id, Appended s c id t))
      (commit p c book result) s := by
  have hquiet : ∀ {α : Type} {m : Handler α} {id t}, Quiet m → Appended s c id t →
      Keeps P (fun _ t => Consistent t ∧ (∃ id, Appended s c id t)) m t := fun hm ht =>
    (hm.keeps (J := fun t => Appended s c _ t) (fun _ _ hst h => h.same hst) (fun _ h => h.consistent) ht).mono
      fun _ _ h => ⟨h.consistent, _, h⟩
  have hchecked := (checkLeader_quiet p).keeps (P := P) (J := fun t => Consistent t ∧ SameLogs s t)
    (fun _ _ hst h => ⟨hst.consistent h.1, h.2.trans hst⟩) (fun _ h => h.1) ⟨h, .refl s⟩
  refine hchecked.bind fun r t ⟨ht, hst⟩ => ?_
  cases r with
  | error e => exact ⟨ht, fun hs => absurd hs (not_stays_lost e)⟩
  | ok _ =>
    have hpersist : Keeps P (fun _ u => ∃ id, Appended s c id u) (persist c book result) t := by
      refine (persist_ensures hP ht hblank ?_ ?_ ?_).mono fun _ u ⟨id, hu⟩ => ⟨id, hu.consistent, ?_, fun k hk => ?_⟩
      · rw [hst.processedIds]
        exact hnew
      · rw [hst.commands]
        exact hacc
      · rw [hst.commands]
        exact hbook
      · rw [← hst.log]
        exact hu.log
      · rw [← hst.commands]
        exact hu.other k hk
    refine hpersist.bind fun r u ⟨id, hu⟩ => ?_
    cases r with
    | error e => exact (hquiet (reject_quiet c _) hu).mono fun _ _ h => ⟨h.1, fun _ => h.2⟩
    | ok _ => exact (hquiet (checkLeader_quiet p) hu).bind fun _ _ h => ⟨h.1, fun _ => h.2⟩

theorem checkPartition_own {symbol : String} {q n : Int} (h : checkPartition symbol q n = .ok ()) :
    Store.Own q n symbol ∧ isBlank symbol = false := by
  unfold checkPartition at h
  cases hid : partitionID symbol n with
  | error e =>
    rw [hid] at h
    cases h
  | ok id =>
    rw [hid] at h
    dsimp only at h
    by_cases hne : id ≠ q
    · rw [if_pos hne] at h
      cases h
    · refine ⟨hid.trans (congrArg _ (not_not.mp hne)), ?_⟩
      by_contra hblank
      rw [partitionID, if_pos (by simpa using hblank)] at hid
      cases hid

/-- The lookup of a command. -/
theorem isCommandProcessed_ensures (h : Consistent s) (symbol commandId : String) :
    Keeps P (fun x t => SameLogs s t ∧ (x = .ok false → commandId ∉ (s.symbol symbol).processedIds))
      (isCommandProcessed symbol commandId) s := by
  intro t hst x t' hact
  match x, hact with
  | .error e, hact =>
    rw [show t' = t from hact.2]
    exact ⟨hst.consistent h, hst, fun hx => (by cases hx)⟩
  | .ok processed, ⟨ht', hprocessed⟩ =>
    rw [ht']
    refine ⟨hst.consistent h, hst, fun hx => ?_⟩
    cases hx
    rw [← hst.processedIds]
    exact of_decide_eq_false hprocessed.symm

/-- A command that is not in the stream is executed, and written down. -/
theorem execute_ensures (h : Live p r s) (hown : Store.Own p.partitionID p.partitionCount c.symbol)
    (hblank : isBlank c.symbol = false) (hn : ∀ n, 0 ≤ now n) (hP : ¬ P.fails (.appendProcessedCommand c))
    (hlate : ¬ ((r c.symbol).getD (Book.empty c.symbol now)).FailsLate c)
    (hnew : c.commandId ∉ (s.symbol c.symbol).processedIds) :
    Keeps P (fun outcome t => Consistent t ∧ (outcome.Stays → Live p (r.execute now c).2 t))
      (match (r.execute now c).1 with
        | .error e => reject c (.command e)
        | .ok (book, result) => commit p c book result) s := by
  obtain ⟨b, hb, hbook, hout, hself, hother⟩ := (h.books c.symbol hown).execute hblank hn
  rw [hbook] at hlate
  rw [hout]
  cases hresult : (b.execute c).1 with
  | error e =>
    have hlive : Live p (r.execute now c).2 s := by
      refine ⟨h.consistent, fun k hk => ?_⟩
      rcases eq_or_ne k c.symbol with rfl | hne
      · refine ⟨fun b' hb' => ?_, fun hnone => by rw [hself] at hnone; cases hnone⟩
        rw [hself] at hb'
        cases hb'
        exact hb.execute_error hresult hlate
      · rw [Held, hother k hne]
        exact h.books k hk
    refine ((reject_quiet c _).keeps (J := Live p (r.execute now c).2) (fun _ _ hst h => h.same hst)
      (fun _ h => h.consistent) hlive).mono fun _ t ht => ⟨ht.consistent, fun _ => ht⟩
  | ok result =>
    have hlogged : Logged c.symbol (b.execute c).2 ((s.symbol c.symbol).commands ++ [c]) := hb.execute c
    refine (commit_ensures hP h.consistent hblank hnew
      ((h.consistent.logs c.symbol).accepted.append hb hresult) hlogged).mono fun outcome t ⟨ht, hdone⟩ =>
        ⟨ht, fun hne => ⟨ht, fun k hk => ?_⟩⟩
    obtain ⟨id, happended⟩ := hdone hne
    rcases eq_or_ne k c.symbol with rfl | hk'
    · refine ⟨fun b' hb' => ?_, fun hnone => by rw [hself] at hnone; cases hnone⟩
      rw [hself] at hb'
      cases hb'
      exact happended.logged hlogged
    · rw [Held, hother k hk', happended.other k hk']
      exact h.books k hk

/-- `Handle` keeps the store consistent. If it does not return without leadership, the books are those of the streams
again. -/
theorem handle_ensures {body : Option Go.Command} (h : Live p r s) (hn : ∀ n, 0 ≤ now n)
    (hP : ∀ c, body = some c → ¬ P.fails (.appendProcessedCommand c))
    (hprompt : Prompt s r now body) : Keeps P (fun x t => Consistent t ∧ (x.1.Stays → Live p x.2 t))
      (handle p now r body) s := by
  have hquiet : ∀ {α : Type} {m : Handler α} {t}, Quiet m → Live p r t → Keeps P (fun _ => Live p r) m t :=
    fun hm ht => hm.keeps (fun _ _ hst h => h.same hst) (fun _ h => h.consistent) ht
  cases body with
  | none => exact ⟨h.consistent, fun _ => h⟩
  | some c =>
    cases hcheck : checkPartition c.symbol p.partitionID p.partitionCount with
    | error e =>
      rw [handle_mismatch hcheck]
      exact ⟨h.consistent, fun _ => h⟩
    | ok _ =>
      rw [handle_command hcheck]
      obtain ⟨hown, hblank⟩ := checkPartition_own hcheck
      have hchecked := (checkLeader_quiet p).keeps (P := P) (J := fun t => Consistent t ∧ SameLogs s t)
        (fun _ _ hst h => ⟨hst.consistent h.1, h.2.trans hst⟩) (fun _ h => h.1) ⟨h.consistent, .refl s⟩
      refine hchecked.bind fun x t ⟨ht, hst⟩ => ?_
      cases x with
      | error e => exact ⟨ht, fun hs => absurd hs (not_stays_lost e)⟩
      | ok _ =>
        refine (isCommandProcessed_ensures ht c.symbol c.commandId).bind fun x u ⟨htu, hnew⟩ => ?_
        have hu := h.same (hst.trans htu)
        match x, hnew with
        | .error e, _ => exact (hquiet (reject_quiet c _) hu).bind fun _ _ hw => ⟨hw.consistent, fun _ => hw⟩
        | .ok true, _ => exact (hquiet (saveStatus_quiet c _ _) hu).bind fun _ _ hw => ⟨hw.consistent, fun _ => hw⟩
        | .ok false, hnew =>
          rw [hst.processedIds] at hnew
          refine (execute_ensures hu hown hblank hn (hP c rfl) (hprompt c rfl (hnew rfl)) ?_).bind fun _ _ hw => hw
          rw [htu.processedIds, hst.processedIds]
          exact hnew rfl

end

end Lob.Worker
