import LobEngine.Worker.Failover

/-!
# What only grows

A command that joined its stream stays in it, and so does its id, its events and a status that was saved. So what a
worker has written is still there when it goes on, whatever other workers do in between.

* `Grows`: what no call takes away. `act_grows`: every call keeps to it.
* `State.Sound`: what the streams, the processed ids and the checkpoints have in common, whoever wrote them.
* `Settled`: what is stored when `Handle` returns. `handle_sure`: beside any others, for any failures, every call of
  `Handle` keeps the store sound, and what is stored then is settled.
-/

namespace Lob.Worker

open Go Prog

/-- What is stored in `t` is what is stored in `s`, and more. -/
structure Grows (s t : State) : Prop where
  log : ∀ k, (s.symbol k).log <+: (t.symbol k).log
  processedIds : ∀ k, (s.symbol k).processedIds ⊆ (t.symbol k).processedIds
  events : ∀ k, (s.symbol k).events <+: (t.symbol k).events
  statuses : s.statuses <:+ t.statuses

/-- What is stored of a symbol, whoever wrote it. -/
structure SymbolState.Sound (symbol : String) (x : SymbolState) : Prop where
  ranked : ∀ e ∈ x.log, ∃ k, streamRank e.id = some k
  ordered : x.log.Pairwise fun e f => (streamRank e.id).getD 0 < (streamRank f.id).getD 0
  own : ∀ e ∈ x.log, e.value.symbol = symbol
  ids : ∀ id, id ∈ x.processedIds ↔ id ∈ x.log.map (·.value.commandId)
  trimmed : x.trimmed ≤ x.log.length - maxCommands
  /-- The checkpoint is the id of an entry. -/
  checkpoint : ∀ snapshot, x.recoverySnapshot = some snapshot →
    ∃ e ∈ x.log, snapshot.lastCommandStreamId = some e.id

/-- What is stored, whoever wrote it. -/
structure State.Sound (s : State) : Prop where
  symbol : ∀ k, (s.symbol k).Sound k
  nodup : s.symbols.Nodup
  listed : ∀ k, k ∈ s.symbols ↔ (s.symbol k).log ≠ []

/-- The call saves a recovery snapshot only at an entry of the stream. -/
def Call.Placed (s : State) : Call → Prop
  | .saveRecoverySnapshot symbol snapshot =>
    ∃ e ∈ (s.symbol symbol).log, snapshot.lastCommandStreamId = some e.id
  | _ => True

section

variable {P : Policy} {s t u : State} {c : Call} {a : c.Answer} {symbol : String}

namespace Grows

theorem refl (s : State) : Grows s s :=
  ⟨fun _ => List.prefix_refl _, fun _ _ h => h, fun _ => List.prefix_refl _, List.suffix_refl _⟩

theorem trans (h : Grows s t) (h' : Grows t u) : Grows s u :=
  ⟨fun k => (h.log k).trans (h'.log k), fun k _ hid => h'.processedIds k (h.processedIds k hid),
    fun k => (h.events k).trans (h'.events k), h.statuses.trans h'.statuses⟩

theorem of_eq (h : t = s) : Grows s t := h ▸ .refl s

/-- What is stored of one symbol grows. -/
theorem update {f : SymbolState → SymbolState} (hlog : (s.symbol symbol).log <+: (f (s.symbol symbol)).log)
    (hids : (s.symbol symbol).processedIds ⊆ (f (s.symbol symbol)).processedIds)
    (hevents : (s.symbol symbol).events <+: (f (s.symbol symbol)).events) : Grows s (s.update symbol f) := by
  refine ⟨fun k => ?_, fun k => ?_, fun k => ?_, List.suffix_refl _⟩
  all_goals
    rcases eq_or_ne k symbol with rfl | hne
    · rw [State.update_self]
      assumption
    · grind [State.update_ne, List.prefix_refl, List.Subset.refl]

end Grows

theorem append_grows (c : Go.Command) (id : String) (processedAt : Int) (trimmed : Nat) :
    Grows s (s.append c id processedAt trimmed) := by
  have hupdate : Grows s (s.update c.symbol fun x => { x with
      log := x.log ++ [⟨id, { c with processedAt := some processedAt }⟩]
      trimmed := trimmed
      processedIds := setAdd c.commandId x.processedIds }) :=
    .update (List.prefix_append ..) (fun _ hid => mem_setAdd.mpr (.inr hid)) (List.prefix_refl _)
  exact ⟨hupdate.log, hupdate.processedIds, hupdate.events, hupdate.statuses⟩

/-- Every call keeps what is stored. -/
theorem act_grows (h : act P c s a t) : Grows s t := by
  cases c with
  | now => exact .of_eq h
  | hasLeadership w => exact .of_eq h.1
  | isCommandProcessed symbol id =>
    cases a with
    | error e => exact .of_eq h.2
    | ok b => exact .of_eq h.1
  | appendProcessedCommand c =>
    cases a with
    | error e => exact .of_eq h.2
    | ok id =>
      obtain ⟨processedAt, trimmed, -, -, -, rfl⟩ := h
      exact append_grows ..
  | appendEvents symbol events =>
    cases a with
    | error e => exact .of_eq h.2
    | ok b =>
      obtain ⟨trimmed, -, -, rfl⟩ := h
      exact .update (List.prefix_refl _) (List.Subset.refl _) (List.prefix_append ..)
  | saveReadModel symbol snapshot trades =>
    cases a with
    | error e => exact .of_eq h.2
    | ok b =>
      cases h
      exact .update (List.prefix_refl _) (List.Subset.refl _) (List.prefix_refl _)
  | saveRecoverySnapshot symbol snapshot =>
    cases a with
    | error e => exact .of_eq h.2
    | ok b =>
      cases h
      exact .update (List.prefix_refl _) (List.Subset.refl _) (List.prefix_refl _)
  | saveCommandStatus status =>
    cases a with
    | error e => exact .of_eq h.2
    | ok b =>
      cases h
      exact ⟨fun _ => List.prefix_refl _, fun _ _ h => h, fun _ => List.prefix_refl _, List.suffix_cons ..⟩

/-! ## Soundness -/

theorem sound_empty : State.empty.Sound := by
  refine ⟨fun k => ?_, .nil, fun k => ?_⟩
  · exact ⟨fun _ h => (by cases h), .nil, fun _ h => (by cases h), fun _ => Iff.rfl, Nat.zero_le _,
      fun _ h => (by cases h)⟩
  · exact ⟨fun h => (by cases h), fun h => absurd rfl h⟩

/-- A change of something else. -/
theorem State.Sound.update (h : s.Sound) {f : SymbolState → SymbolState}
    (hlog : (f (s.symbol symbol)).log = (s.symbol symbol).log)
    (hf : (f (s.symbol symbol)).Sound symbol) : (s.update symbol f).Sound := by
  have hk : ∀ k, ((s.update symbol f).symbol k).Sound k ∧ ((s.update symbol f).symbol k).log = (s.symbol k).log := by
    intro k
    rcases eq_or_ne k symbol with rfl | hne
    · rw [State.update_self]
      exact ⟨hf, hlog⟩
    · rw [State.update_ne s f hne]
      exact ⟨h.symbol k, rfl⟩
  refine ⟨fun k => (hk k).1, h.nodup, fun k => ?_⟩
  rw [(hk k).2]
  exact h.listed k

theorem SymbolState.Sound.append {x : SymbolState} {c : Go.Command} {id : String} (h : x.Sound c.symbol)
    (hid : Later id x.log) (processedAt : Int) {n : Nat} (hn : n ≤ max x.trimmed (x.log.length + 1 - maxCommands)) :
    SymbolState.Sound c.symbol { x with
      log := x.log ++ [⟨id, { c with processedAt := some processedAt }⟩]
      trimmed := n
      processedIds := setAdd c.commandId x.processedIds } := by
  obtain ⟨k, hk, -, hlater⟩ := hid
  constructor
  · intro e he
    rcases List.mem_append.mp he with he | he
    · exact h.ranked e he
    · rw [List.mem_singleton.mp he]
      exact ⟨k, hk⟩
  · refine List.pairwise_append.mpr ⟨h.ordered, List.pairwise_singleton .., fun e he f hf => ?_⟩
    rw [List.mem_singleton.mp hf]
    show _ < (streamRank id).getD 0
    rw [hk]
    exact hlater e he
  · intro e he
    rcases List.mem_append.mp he with he | he
    · exact h.own e he
    · rw [List.mem_singleton.mp he]
  · intro i
    rw [mem_setAdd, List.map_append, List.mem_append, h.ids, or_comm]
    refine or_congr_right ?_
    show _ ↔ i ∈ [c.commandId]
    rw [List.mem_singleton]
  · have htrimmed := h.trimmed
    simp only [List.length_append, List.length_singleton]
    omega
  · intro snapshot hs
    obtain ⟨e, he, hid⟩ := h.checkpoint snapshot hs
    exact ⟨e, List.mem_append_left _ he, hid⟩

theorem State.Sound.append (h : s.Sound) {c : Go.Command} {id : String} (hid : Later id (s.symbol c.symbol).log)
    (processedAt : Int) {n : Nat}
    (hn : n ≤ max (s.symbol c.symbol).trimmed ((s.symbol c.symbol).log.length + 1 - maxCommands)) :
    (s.append c id processedAt n).Sound := by
  refine ⟨fun k => ?_, setAdd_nodup h.nodup, fun k => ?_⟩
  · rcases eq_or_ne k c.symbol with rfl | hne
    · rw [State.append_self]
      exact (h.symbol c.symbol).append hid processedAt hn
    · rw [State.append_ne s hne]
      exact h.symbol k
  · show k ∈ setAdd c.symbol s.symbols ↔ _
    rw [mem_setAdd]
    rcases eq_or_ne k c.symbol with rfl | hne
    · rw [State.append_self]
      exact iff_of_true (.inl rfl) (List.append_ne_nil_of_right_ne_nil _ (List.cons_ne_nil _ _))
    · rw [State.append_ne s hne, or_iff_right hne]
      exact h.listed k

/-- A call that saves no recovery snapshot without its checkpoint keeps the store sound. -/
theorem act_sound (h : act P c s a t) (hc : c.Placed s) (hs : s.Sound) : t.Sound := by
  cases c with
  | now => exact (show t = s from h) ▸ hs
  | hasLeadership w => exact h.1 ▸ hs
  | isCommandProcessed symbol id =>
    cases a with
    | error e => exact h.2 ▸ hs
    | ok b => exact h.1 ▸ hs
  | appendProcessedCommand c =>
    cases a with
    | error e => exact h.2 ▸ hs
    | ok id =>
      obtain ⟨processedAt, trimmed, hid, -, htrimmed, rfl⟩ := h
      exact hs.append hid processedAt htrimmed
  | appendEvents symbol events =>
    cases a with
    | error e => exact h.2 ▸ hs
    | ok b =>
      obtain ⟨trimmed, -, -, rfl⟩ := h
      obtain ⟨hranked, hordered, hown, hids, htrimmed, hcheckpoint⟩ := hs.symbol symbol
      exact hs.update rfl ⟨hranked, hordered, hown, hids, htrimmed, hcheckpoint⟩
  | saveReadModel symbol snapshot trades =>
    cases a with
    | error e => exact h.2 ▸ hs
    | ok b =>
      cases h
      obtain ⟨hranked, hordered, hown, hids, htrimmed, hcheckpoint⟩ := hs.symbol symbol
      exact hs.update rfl ⟨hranked, hordered, hown, hids, htrimmed, hcheckpoint⟩
  | saveRecoverySnapshot symbol snapshot =>
    cases a with
    | error e => exact h.2 ▸ hs
    | ok b =>
      cases h
      obtain ⟨hranked, hordered, hown, hids, htrimmed, -⟩ := hs.symbol symbol
      refine hs.update rfl ⟨hranked, hordered, hown, hids, htrimmed, fun saved hsaved => ?_⟩
      cases hsaved
      exact hc
  | saveCommandStatus status =>
    cases a with
    | error e => exact h.2 ▸ hs
    | ok b =>
      cases h
      exact ⟨hs.symbol, hs.nodup, hs.listed⟩

end

/-! ## `Handle`, beside others -/

/-- While the store grows, each call keeps it sound, and `Q` holds of the result. -/
abbrev Sure {α : Type} (P : Policy) (Q : α → State → Prop) (m : Handler α) (s : State) : Prop :=
  Ensures (act P) Grows (fun s t => s.Sound → t.Sound) Q m s

/-- The command is in its stream, or a status `REJECTED` was saved for it. -/
def Traced (c : Go.Command) (s : State) : Prop :=
  c.commandId ∈ (s.symbol c.symbol).processedIds ∨
    ∃ st ∈ s.statuses, st.commandId = c.commandId ∧ st.symbol = c.symbol ∧ st.status = .rejected

/-- A status `REJECTED` of the command could not be saved. -/
def Unsaved (P : Policy) (c : Go.Command) : Prop :=
  ∃ st, P.fails (.saveCommandStatus st) ∧ st.commandId = c.commandId ∧ st.symbol = c.symbol ∧ st.status = .rejected

/-- What is stored when `Handle` returns. -/
structure Settled (P : Policy) (p : Processor) (body : Option Go.Command) (o : Outcome) (s : State) : Prop where
  /-- A command that is acknowledged is recorded. -/
  ack : o.disposition = .ack → ∃ c, body = some c ∧ Traced c s
  /-- A command of the partition becomes a dead letter only if its status could not be saved. -/
  reject : o.disposition = .reject → ∀ c, body = some c →
    checkPartition c.symbol p.partitionID p.partitionCount = .ok () → Unsaved P c
  /-- The events that are published are in the event stream. -/
  events : ∀ es, o.publishEvents = .events es → ∀ e ∈ es, e ∈ (s.symbol o.symbol).events

section

variable {P : Policy} {α : Type} {m : Handler α} {s t : State} {c : Go.Command} {p : Processor}
  {body : Option Go.Command}
  {o : Outcome} {book : Book} {result : Result}

theorem Traced.grow (h : Traced c s) (hst : Grows s t) : Traced c t := by
  rcases h with h | ⟨st, hmem, h⟩
  · exact .inl (hst.processedIds _ h)
  · exact .inr ⟨st, hst.statuses.subset hmem, h⟩

theorem Settled.grow (h : Settled P p body o s) (hst : Grows s t) : Settled P p body o t where
  ack := fun hd => by
    obtain ⟨c, hc, htraced⟩ := h.ack hd
    exact ⟨c, hc, htraced.grow hst⟩
  reject := h.reject
  events := fun es hes e he => (hst.events _).subset (h.events es hes e he)

/-- A worker that does not lead leaves nothing behind. -/
theorem lost_settled (e : Option Cause) : Settled P p body (lost e) s :=
  ⟨fun h => (by cases h), fun h => (by cases h), fun _ h => (by cases h)⟩

/-- What stays true while the store grows. -/
theorem sure_keeps {J : State → Prop} (hm : m.Only fun c => ∀ s, c.Placed s) (hJ : ∀ s t, Grows s t → J s → J t)
    (h : J s) : Sure P (fun _ => J) m s := by
  induction m generalizing s with
  | ret a => exact h
  | call c k ih =>
    intro t hst r t' hact
    exact ⟨act_sound hact (hm.1 t), ih r (hm.2 r) (hJ t t' (act_grows hact) (hJ s t hst h))⟩

theorem plain_placed (hm : m.Only Call.Plain) : m.Only fun c => ∀ s, c.Placed s :=
  hm.mono fun c hc s => by
    cases c with
    | saveRecoverySnapshot symbol snapshot => exact hc.elim
    | _ => trivial

/-- A plain program, of whose result nothing is asked. -/
theorem plain_sure (hm : m.Only Call.Plain) : Sure P (fun _ _ => True) m s :=
  sure_keeps (plain_placed hm) (fun _ _ _ _ => trivial) trivial

/-- The status `REJECTED` is saved, or it fails. -/
theorem saveRejected_sure (reason : Option Cause) : Sure P (fun x t => (x = .ok () → Traced c t) ∧
    ((∃ e, x = .error e) → Unsaved P c)) (saveStatus c .rejected reason) s := by
  intro t _ now t' hact
  refine ⟨act_sound hact trivial, ?_⟩
  intro u _ x u' hact
  refine ⟨act_sound hact trivial, ?_⟩
  cases x with
  | error e => exact ⟨fun h => (by cases h), fun _ => ⟨_, hact.1, rfl, rfl, rfl⟩⟩
  | ok _ =>
    rw [show u' = _ from hact]
    exact ⟨fun _ => .inr ⟨_, List.mem_cons_self, rfl, rfl, rfl⟩, fun ⟨e, he⟩ => (by cases he)⟩

/-- A command that is rejected is settled. -/
theorem reject_sure (hbody : body = some c) (cause : Cause) :
    Sure P (fun o => Settled P p body o) (reject c cause) s := by
  refine (saveRejected_sure (some cause)).bind fun x t ⟨hsaved, hfails⟩ => ?_
  cases x with
  | error e =>
    refine ⟨fun h => (by cases h), fun _ d hd _ => ?_, fun _ h => (by cases h)⟩
    obtain rfl : c = d := Option.some.inj (hbody.symm.trans hd)
    exact hfails ⟨e, rfl⟩
  | ok _ =>
    refine (sure_keeps (plain_placed readNow_plain) (J := Traced c) (fun _ _ hst h => h.grow hst)
      (hsaved rfl)).bind fun now u hu => ?_
    exact ⟨fun _ => ⟨c, hbody, hu⟩, fun h => (by cases h), fun _ h => (by cases h)⟩

/-- The command joined its stream under the id. -/
structure Entered (c : Go.Command) (id : String) (s : State) : Prop where
  processed : c.commandId ∈ (s.symbol c.symbol).processedIds
  entry : ∃ e ∈ (s.symbol c.symbol).log, e.id = id

theorem Entered.grow {id : String} (h : Entered c id s) (hst : Grows s t) : Entered c id t := by
  obtain ⟨e, he, hid⟩ := h.entry
  exact ⟨hst.processedIds _ h.processed, e, (hst.log _).subset he, hid⟩

theorem appendProcessedCommand_sure :
    Sure P (fun x t => ∀ id, x = .ok id → Entered c id t) (appendProcessedCommand c) s := by
  intro t _ x t' hact
  refine ⟨act_sound hact trivial, fun id hx => ?_⟩
  cases hx
  obtain ⟨processedAt, trimmed, -, -, -, rfl⟩ := hact
  refine ⟨?_, ⟨id, { c with processedAt := some processedAt }⟩, ?_, rfl⟩
  · rw [State.append_self]
    exact mem_setAdd.mpr (.inl rfl)
  · rw [State.append_self]
    exact List.mem_append_right _ (List.mem_singleton_self _)

theorem appendEvents_sure {id : String} (h : Entered c id s) (events : List Event) :
    Sure P (fun x t => Entered c id t ∧ (x = .ok () → ∀ e ∈ events, e ∈ (t.symbol c.symbol).events))
      (appendEvents c.symbol events) s := by
  unfold appendEvents
  split
  · next hnil => exact ⟨h, fun _ e he => by rw [hnil] at he; cases he⟩
  · intro t hst x t' hact
    refine ⟨act_sound hact trivial, (h.grow hst).grow (act_grows hact), fun hx e he => ?_⟩
    cases hx
    obtain ⟨trimmed, -, -, rfl⟩ := hact
    rw [State.update_self]
    exact List.mem_append_right _ he

/-- The writes of an executed command. -/
theorem persist_sure : Sure P (fun x t => x = .ok () →
    c.commandId ∈ (t.symbol c.symbol).processedIds ∧ ∀ e ∈ result.events, e ∈ (t.symbol c.symbol).events)
      (persist c book result) s := by
  refine appendProcessedCommand_sure.bind fun x t hentered => ?_
  cases x with
  | error e => exact fun h => by cases h
  | ok id =>
    refine (appendEvents_sure (hentered id rfl) result.events).bind fun x u ⟨hentered, hevents⟩ => ?_
    cases x with
    | error e => exact fun h => by cases h
    | ok _ =>
      have hgrow : ∀ s t, Grows s t → (Entered c id s ∧ ∀ e ∈ result.events, e ∈ (s.symbol c.symbol).events) →
          Entered c id t ∧ ∀ e ∈ result.events, e ∈ (t.symbol c.symbol).events :=
        fun s t hst h => ⟨h.1.grow hst, fun e he => (hst.events _).subset (h.2 e he)⟩
      refine (sure_keeps (m := saveReadModel c.symbol book.snapshot result.trades) ⟨fun _ => trivial, fun _ => trivial⟩
        hgrow ⟨hentered, hevents rfl⟩).bind fun x v hv => ?_
      cases x with
      | error e => exact fun h => by cases h
      | ok _ =>
        intro w hvw x w' hact
        have hw := hgrow v w hvw hv
        obtain ⟨f, hf, hid⟩ := hw.1.entry
        refine ⟨act_sound hact ⟨f, hf, congrArg some hid.symm⟩, ?_⟩
        have hw' := hgrow w w' (act_grows hact) hw
        cases x with
        | error e => exact fun h => by cases h
        | ok _ =>
          exact (sure_keeps (plain_placed (saveStatus_plain c .processed none)) hgrow hw').mono
            fun _ _ h _ => ⟨h.1.processed, h.2⟩

/-- The rest of `Handle`, after a command was executed. -/
theorem commit_sure (hbody : body = some c) :
    Sure P (fun o => Settled P p body o) (commit p c book result) s := by
  refine (plain_sure (checkLeader_plain p)).bind fun x t _ => ?_
  cases x with
  | error e => exact lost_settled e
  | ok _ =>
    refine persist_sure.bind fun x u hu => ?_
    cases x with
    | error e => exact reject_sure hbody _
    | ok _ =>
      refine (sure_keeps (plain_placed (checkLeader_plain p)) (fun s t hst h =>
        (⟨hst.processedIds _ h.1, fun e he => (hst.events _).subset (h.2 e he)⟩ :
          c.commandId ∈ (t.symbol c.symbol).processedIds ∧ ∀ e ∈ result.events, e ∈ (t.symbol c.symbol).events))
            (hu rfl)).bind fun x v hv => ?_
      refine ⟨fun _ => ⟨c, hbody, .inl hv.1⟩, fun h => (by cases h), fun es hes e he => ?_⟩
      cases hes
      exact hv.2 e he

/-- Beside any others, for any failures: each call of `Handle` keeps the store sound, and what is stored when it
returns is settled. -/
theorem handle_sure (now : Clock) (r : Registry) :
    Sure P (fun x => Settled P p body x.1) (handle p now r body) s := by
  cases body with
  | none =>
    exact ⟨fun h => (by cases h), fun _ c hc => (by cases hc), fun _ h => (by cases h)⟩
  | some c =>
    cases hcheck : checkPartition c.symbol p.partitionID p.partitionCount with
    | error e =>
      rw [handle_mismatch hcheck]
      refine ⟨fun h => (by cases h), fun _ d hd hown => ?_, fun _ h => (by cases h)⟩
      cases hd
      rw [hcheck] at hown
      cases hown
    | ok _ =>
      rw [handle_command hcheck]
      refine (plain_sure (checkLeader_plain p)).bind fun x t _ => ?_
      cases x with
      | error e => exact lost_settled e
      | ok _ =>
        have hlookup : Sure P (fun x t => x = .ok true → c.commandId ∈ (t.symbol c.symbol).processedIds)
            (isCommandProcessed c.symbol c.commandId) t := by
          rintro u - x u' hact
          refine ⟨act_sound hact trivial, fun hx => ?_⟩
          cases hx
          rw [hact.1]
          exact of_decide_eq_true hact.2.symm
        refine hlookup.bind fun x u hx => ?_
        match x, hx with
        | .error e, _ => exact (reject_sure rfl _).bind fun o v hv => hv
        | .ok true, hx =>
          refine (sure_keeps (plain_placed (saveStatus_plain c .processed none)) (J := Traced c)
            (fun _ _ hst h => h.grow hst) (.inl (hx rfl))).bind fun x v hv => ?_
          exact ⟨fun _ => ⟨c, rfl, hv⟩, fun h => (by cases h), fun _ h => (by cases h)⟩
        | .ok false, _ =>
          refine Ensures.bind (Q := fun o => Settled P p (some c) o) ?_ fun o v hv => hv
          cases (r.execute now c).1 with
          | error e => exact reject_sure rfl _
          | ok x => exact commit_sure rfl

end

end Lob.Worker
