import LobEngine.Lib.Drain
import LobEngine.Go.Reachable

/-!
# The stop cascade of the Go engine ends by itself

* `stopCycles`: the cycles of the loop of `processStops`, with the stop orders that are pending at the start of
  each and those that it triggers.
* `stopCycles_drains`: each cycle but the last takes stop orders out, and nothing puts one back.
* `cascade_terminates`: the pending stop orders bound the cycles, so the limit of the cycles is only reached by as
  many triggered stop orders.
-/

namespace Lob.Go

open Exc Book

/-- The error of `processStops` at its limit. -/
def cycleLimit : GoError := .error "stop order trigger cycle limit exceeded"

/-- The cycles of the loop of `processStops`, whether it returns or errs: the pending stop orders at the start
of each, and those that it triggers. -/
def stopCycles : Nat → List Trade → Book → List (Round String)
  | limit, latest, b =>
    match latest.getLast? with
    | none => []
    | some trade =>
      match limit with
      | 0 => []
      | limit + 1 =>
        match updateTrailingStops.run { b with lastTradePriceTicks := some trade.priceTicks } with
        | (.error _, _) => []
        | (.ok _, b) =>
          ⟨b.stopOrderIDs, (eligibleStops b).map (·.orderId)⟩ ::
            match (triggerAll (eligibleStops b)).run b with
            | (.error _, _) => []
            | (.ok round, b) => stopCycles limit round.trades b

/-- Each pending stop order is filed under its id. -/
structure Filed (b : Book) : Prop where
  ids : b.stopOrderIDs = b.stopOrders.keys
  keyed : ∀ k s, b.stopOrders.get? k = some s → s.orderId = k

theorem Good.filed {b : Book} {v : View} (h : Good b v) : Filed b := by
  obtain ⟨⟨F, hr⟩, hok⟩ := h
  exact ⟨hr.stopIDs, fun k s hs => hok.keyed k s (hr.stops ▸ hs)⟩

/-- The stop orders `m` under these ids are pending. -/
def Stopped (m : OMap String StopOrder) (ids : List String) (b : Book) : Prop :=
  b.stopOrders = m ∧ b.stopOrderIDs = ids

section

variable {m : OMap String StopOrder} {ids : List String} {b b' : Book} {r : Ref}

/-! ## What leaves the pending stop orders alone -/

theorem Stopped.setSide (h : Stopped m ids b) (s : Side) (l : OMap Int PriceLevel) : Stopped m ids (b.setSide s l) := by
  cases s <;> exact h

theorem stopped_now : Keeps (Stopped m ids) now :=
  Keeps.get.bind fun _ => (Keeps.modify fun _ h => by exact h).bind fun _ => Keeps.pure _

theorem stopped_allocate {symbol : String} {typ : OrderType} {i : OrderInput} {clock : Bool} :
    Keeps (Stopped m ids) (allocate symbol typ i clock) :=
  (Keeps.lift _).bind fun _ => Keeps.get.bind fun _ => (Keeps.modify fun _ h => by exact h).bind fun _ => Keeps.pure _

theorem stopped_matchBest (price : Int) : Keeps (Stopped m ids) (matchBest r price) := by
  refine Keeps.get.bind fun b => ?_
  dsimp only
  split
  · exact Keeps.throw _
  split
  · exact Keeps.throw _
  · refine (Keeps.modify fun _ h => by exact h).bind fun _ => (Keeps.modify fun _ h => by exact h).bind fun _ =>
      Keeps.get.bind fun b => (Keeps.lift _).bind fun _ => (Keeps.modify fun _ h => by exact h).bind fun _ => Keeps.bind
        (Keeps.modify fun b h => ?_) fun _ => (Keeps.modify fun b h => h.setSide _ _).bind fun _ => Keeps.pure _
    split <;> exact h

theorem stopped_matchOrder (ignore : Bool) : Keeps (Stopped m ids) (matchOrder r ignore) := by
  have hloop : ∀ fuel, Keeps (Stopped m ids) (matchLoop r ignore fuel) := by
    intro fuel
    induction fuel with
    | zero => exact Keeps.throw _
    | succ fuel ih =>
      unfold matchLoop
      refine Keeps.get.bind fun b => Keeps.ite (Keeps.pure _) ?_
      split
      · exact Keeps.pure _
      · exact (Keeps.lift _).bind fun _ => Keeps.ite (Keeps.pure _) ((stopped_matchBest _).bind fun _ =>
          ih.bind fun _ => Keeps.pure _)
  exact Keeps.get.bind fun b => hloop _

theorem stopped_settle (typ : OrderType) : Keeps (Stopped m ids) (settle typ r) := by
  refine Keeps.ite (Keeps.get.bind fun b => Keeps.ite (Keeps.bind ?_ fun _ => ?_) (Keeps.pure ()))
    (Keeps.get.bind fun b => Keeps.ite (Keeps.modify fun _ h => by exact h) (Keeps.pure ()))
  · exact Keeps.get.bind fun b => (Keeps.lift _).bind fun _ => Keeps.modify fun b h => h.setSide _ _
  · exact Keeps.modify fun _ h => by exact h

theorem stopped_executeStop (s : StopOrder) : Keeps (Stopped m ids) (executeStop s) :=
  Keeps.get.bind fun _ => stopped_now.bind fun _ => stopped_allocate.bind fun _ => (stopped_matchOrder _).bind fun _ =>
    (stopped_settle _).bind fun _ => Keeps.pure _

/-! ## The steps of a cycle -/

theorem trailStop_id {last : Int} {s s' : StopOrder} (h : trailStop last s = .ok s') : s'.orderId = s.orderId := by
  obtain ⟨_, _, _, htrail⟩ := trail_eq last s
  unfold View.trail at htrail
  rw [h] at htrail
  rw [show s' = _ from htrail]

/-- The pending stop orders stay, whatever becomes of their trigger prices. -/
theorem trailing_filed : Keeps (fun b => Filed b ∧ b.stopOrderIDs = ids) updateTrailingStops := by
  refine Keeps.get.bind fun b => ?_
  split
  · exact Keeps.pure _
  · next last _ =>
    generalize b.stopOrderIDs = ks
    induction ks with
    | nil => exact Keeps.pure _
    | cons k ks ih =>
      unfold trailStops
      intro b hb
      refine Post.get ?_
      split
      · exact ih b hb
      · next s hs =>
        unfold Post
        rw [run_lift_bind]
        split
        · next s' hs' =>
          refine ih _ ⟨⟨hb.1.ids.trans (OMap.keys_set_of_mem _ (OMap.mem_keys.mpr ⟨s, hs⟩)).symm, fun k' t ht => ?_⟩,
            hb.2⟩
          rw [OMap.get?_set] at ht
          split at ht
          · next heq =>
            obtain rfl := Option.some.inj ht
            rw [trailStop_id hs', heq]
            exact hb.1.keyed k s hs
          · exact hb.1.keyed k' t ht
        · exact hb

theorem eligible_subperm (h : Filed b) : ((eligibleStops b).map (·.orderId)).Subperm b.stopOrderIDs := by
  have hall : ∀ ks : List String, ((ks.filterMap b.stopOrders.get?).map (·.orderId)).Sublist ks := by
    intro ks
    induction ks with
    | nil => exact .slnil
    | cons k ks ih =>
      rw [List.filterMap_cons]
      split
      · exact ih.cons k
      · next s hs =>
        rw [List.map_cons, h.keyed k s hs]
        exact ih.cons_cons k
  unfold eligibleStops
  split
  · exact List.nil_subperm
  · exact ((List.filter_sublist.map _).trans (hall _)).subperm

/-- Each triggered stop order is taken out, and none is put in. -/
theorem triggerAll_filed {ss : List StopOrder} {t : StopResult} (h : Filed b)
    (hrun : (triggerAll ss).run b = (.ok t, b')) :
    Filed b' ∧ b'.stopOrderIDs = b.stopOrderIDs.diff (ss.map (·.orderId)) := by
  induction ss generalizing b t with
  | nil =>
    cases hrun
    exact ⟨h, rfl⟩
  | cons s ss ih =>
    unfold triggerAll at hrun
    rw [run_modify_bind] at hrun
    obtain ⟨⟨x, ts⟩, b₁, h₁, hrun⟩ := bind_ok hrun
    rw [run_get_bind] at hrun
    obtain ⟨t', b₂, h₂, hrun⟩ := bind_ok hrun
    cases hrun
    obtain ⟨hstops, hids⟩ := (stopped_executeStop _).of_run
      (show Stopped (b.stopOrders.delete s.orderId) (b.stopOrderIDs.erase s.orderId) (b.deleteStop s.orderId) from
        ⟨rfl, rfl⟩) h₁
    have hfiled : Filed b₁ := by
      refine ⟨by rw [hids, hstops, h.ids, OMap.keys_delete], fun k u hu => ?_⟩
      rw [hstops, OMap.get?_delete] at hu
      split at hu
      · cases hu
      · exact h.keyed k u hu
    obtain ⟨hfiled₂, hids₂⟩ := ih hfiled h₂
    exact ⟨hfiled₂, by rw [hids₂, hids, List.map_cons, List.diff_cons]⟩

/-! ## Errors -/

/-- Any other error. -/
def NotLimit (e : GoError) : Prop := e ≠ cycleLimit

instance (e : GoError) : Decidable (NotLimit e) := inferInstanceAs (Decidable (_ ≠ _))

/-- A text that begins otherwise. -/
theorem text_ne_limit {p : String} (x : String) (hp : (p.toList.head?.any (· ≠ 's')) = true) :
    NotLimit (.error (p ++ x)) := by
  intro h
  injection h with h
  have hhead := congrArg (fun s : String => s.toList.head?) h
  cases hl : p.toList with
  | nil => rw [hl] at hp; cases hp
  | cons c cs =>
    rw [hl] at hp
    have hc : c = 's' := by simpa [hl] using hhead
    subst hc
    exact absurd hp (by simp)

theorem newOrder_ne_limit {symbol : String} {typ : OrderType} {i : OrderInput} {clock : Bool} {e : GoError}
    (h : newOrder symbol typ i clock = .error e) : NotLimit e := by
  unfold newOrder at h
  cases hs : sideOf i.side with
  | none =>
    rw [hs] at h
    dsimp only at h
    split_ifs at h <;> cases h
    · decide
    · decide
    · decide
    · exact text_ne_limit _ (by decide)
  | some side =>
    rw [hs] at h
    dsimp only at h
    split_ifs at h <;> cases h <;> decide

theorem deref_ne_limit {p : Option Int} {e : GoError} (h : deref p = .error e) : NotLimit e := by
  cases p with
  | none => cases h; decide
  | some n => cases h

theorem throws_allocate {symbol : String} {typ : OrderType} {i : OrderInput} {clock : Bool} :
    Throws NotLimit (allocate symbol typ i clock) :=
  (Throws.lift fun _ h => newOrder_ne_limit h).bind fun _ => Throws.get.bind fun _ =>
    (Throws.modify _).bind fun _ => Throws.pure _

theorem throws_matchBest (price : Int) : Throws NotLimit (matchBest r price) := by
  refine Throws.get.bind fun b => ?_
  dsimp only
  split
  · exact Throws.throw (by decide)
  split
  · exact Throws.throw (by decide)
  · exact (Throws.modify _).bind fun _ => (Throws.modify _).bind fun _ => Throws.get.bind fun b =>
      (Throws.lift fun _ h => deref_ne_limit h).bind fun _ => (Throws.modify _).bind fun _ =>
      (Throws.modify _).bind fun _ => (Throws.modify _).bind fun _ => Throws.pure _

theorem throws_matchOrder (ignore : Bool) : Throws NotLimit (matchOrder r ignore) := by
  have hbeyond : ∀ {o : Order} {price : Int} {e : GoError}, beyondLimit o ignore price = .error e → NotLimit e := by
    intro o price e h
    unfold beyondLimit at h
    split at h
    · cases h
    · cases hp : deref o.priceTicks with
      | error e' =>
        rw [hp] at h
        cases h
        exact deref_ne_limit hp
      | ok p =>
        rw [hp] at h
        cases h
  have hloop : ∀ fuel, Throws NotLimit (matchLoop r ignore fuel) := by
    intro fuel
    induction fuel with
    | zero => exact Throws.throw (by decide)
    | succ fuel ih =>
      unfold matchLoop
      refine Throws.get.bind fun b => Throws.ite (Throws.pure _) ?_
      split
      · exact Throws.pure _
      · exact (Throws.lift fun _ h => hbeyond h).bind fun _ => Throws.ite (Throws.pure _)
          ((throws_matchBest _).bind fun _ => ih.bind fun _ => Throws.pure _)
  exact Throws.get.bind fun b => hloop _

theorem throws_settle (typ : OrderType) : Throws NotLimit (settle typ r) := by
  refine Throws.ite (Throws.get.bind fun b => Throws.ite (Throws.bind ?_ fun _ => Throws.modify _) (Throws.pure ()))
    (Throws.get.bind fun b => Throws.ite (Throws.modify _) (Throws.pure ()))
  exact Throws.get.bind fun b => (Throws.lift fun _ h => deref_ne_limit h).bind fun _ => Throws.modify _

theorem throws_triggerAll (ss : List StopOrder) : Throws NotLimit (triggerAll ss) := by
  induction ss with
  | nil => exact Throws.pure _
  | cons s ss ih =>
    have hexecute : ∀ s, Throws NotLimit (executeStop s) := fun s =>
      Throws.get.bind fun _ => (Throws.get.bind fun _ => (Throws.modify _).bind fun _ => Throws.pure _).bind fun _ =>
      throws_allocate.bind fun _ => (throws_matchOrder _).bind fun _ => (throws_settle _).bind fun _ => Throws.pure _
    exact (Throws.modify _).bind fun _ => (hexecute _).bind fun _ => Throws.get.bind fun _ => ih.bind
      fun _ => Throws.pure _

theorem throws_updateTrailingStops : Throws NotLimit updateTrailingStops := by
  have htrail : ∀ {last : Int} {s : StopOrder} {e : GoError}, trailStop last s = .error e → NotLimit e := by
    intro last s e h
    have hderef : ∀ {f : Int → StopOrder}, (deref s.trailingAmountTicks >>= fun a => pure (f a)) = Except.error e →
        NotLimit e := by
      intro f h
      cases hp : deref s.trailingAmountTicks with
      | error e' =>
        rw [hp] at h
        cases h
        exact deref_ne_limit hp
      | ok p =>
        rw [hp] at h
        cases h
    unfold trailStop at h
    split_ifs at h
    · cases h
    · exact hderef h
    · exact hderef h
    · cases h
  refine Throws.get.bind fun b => ?_
  split
  · exact Throws.pure _
  · next last _ =>
    generalize b.stopOrderIDs = ks
    induction ks with
    | nil => exact Throws.pure _
    | cons k ks ih =>
      unfold trailStops
      refine Throws.get.bind fun b => ?_
      split
      · exact ih
      · exact (Throws.lift fun _ h => htrail h).bind fun _ => (Throws.modify _).bind fun _ => ih

/-! ## The loop -/

/-- The cycles drain the pending stop orders. -/
theorem stopCycles_drains (limit : Nat) (ts : List Trade) (h : Filed b) :
    Drains b.stopOrderIDs (stopCycles limit ts b) := by
  induction limit generalizing ts b with
  | zero =>
    unfold stopCycles
    split <;> exact .done _
  | succ limit ih =>
    unfold stopCycles
    split
    · exact .done _
    next t _ =>
    cases hu : updateTrailingStops.run { b with lastTradePriceTicks := some t.priceTicks } with
    | mk out b₁ =>
      have htrail := (@trailing_filed b.stopOrderIDs).of_run
        (show Filed { b with lastTradePriceTicks := some t.priceTicks } ∧ _ from ⟨⟨h.ids, h.keyed⟩, rfl⟩) hu
      cases out with
      | error e => exact .done _
      | ok u =>
        dsimp only
        have hsub := eligible_subperm htrail.1
        rw [htrail.2] at hsub ⊢
        cases hrun : (triggerAll (eligibleStops b₁)).run b₁ with
        | mk out b₂ =>
          cases out with
          | error e => exact .last hsub
          | ok round =>
            obtain ⟨hfiled, hids⟩ := triggerAll_filed htrail.1 hrun
            by_cases hnil : eligibleStops b₁ = []
            · rw [hnil] at hrun
              cases hrun
              have hquiet : stopCycles limit StopResult.empty.trades b₁ = [] := by
                unfold stopCycles
                rfl
              dsimp only
              rw [hquiet]
              exact .last hsub
            · have hrest := ih round.trades hfiled
              rw [hids, htrail.2] at hrest
              exact .round hsub (fun hmap => hnil (List.map_eq_nil_iff.mp hmap)) hrest

/-- Where the loop ends at its limit, each of the cycles before triggered a stop order. -/
theorem cascade_limit {limit : Nat} {ts : List Trade} (h : Filed b)
    (hrun : (cascade limit ts).run b = (.error cycleLimit, b')) :
    (stopCycles limit ts b).length = limit ∧ (∀ r ∈ stopCycles limit ts b, r.taken ≠ []) ∧
      b'.stopOrderIDs = b.stopOrderIDs.diff ((stopCycles limit ts b).flatMap (·.taken)) := by
  induction limit generalizing ts b with
  | zero =>
    unfold stopCycles
    unfold cascade at hrun
    cases hl : ts.getLast? with
    | none => rw [hl] at hrun; cases hrun
    | some t =>
      rw [hl] at hrun
      cases hrun
      exact ⟨rfl, by simp, rfl⟩
  | succ limit ih =>
    unfold stopCycles
    unfold cascade at hrun
    cases hl : ts.getLast? with
    | none => rw [hl] at hrun; cases hrun
    | some t =>
      rw [hl] at hrun
      dsimp only at hrun ⊢
      rw [run_modify_bind, run_bind] at hrun
      cases hu : updateTrailingStops.run { b with lastTradePriceTicks := some t.priceTicks } with
      | mk out b₁ =>
        have htrail := (@trailing_filed b.stopOrderIDs).of_run
          (show Filed { b with lastTradePriceTicks := some t.priceTicks } ∧ _ from ⟨⟨h.ids, h.keyed⟩, rfl⟩) hu
        rw [hu] at hrun
        cases out with
        | error e =>
          cases hrun
          exact absurd rfl (throws_updateTrailingStops _ _ _ hu)
        | ok u =>
          dsimp only at hrun ⊢
          rw [run_get_bind] at hrun
          by_cases hnil : eligibleStops b₁ = []
          · rw [if_pos hnil] at hrun
            cases hrun
          rw [if_neg hnil, run_bind] at hrun
          cases hround : (triggerAll (eligibleStops b₁)).run b₁ with
          | mk out b₂ =>
            rw [hround] at hrun
            cases out with
            | error e =>
              cases hrun
              exact absurd rfl (throws_triggerAll _ _ _ _ hround)
            | ok round =>
              dsimp only at hrun ⊢
              obtain ⟨hfiled, hids⟩ := triggerAll_filed htrail.1 hround
              rw [run_bind] at hrun
              cases hrest : (cascade limit round.trades).run b₂ with
              | mk out b₃ =>
                rw [hrest] at hrun
                cases out with
                | ok rest => cases hrun
                | error e =>
                  cases hrun
                  obtain ⟨hlen, hall, hend⟩ := ih hfiled hrest
                  refine ⟨by rw [List.length_cons, hlen], List.forall_mem_cons.mpr ⟨fun hmap =>
                    hnil (List.map_eq_nil_iff.mp hmap), hall⟩, ?_⟩
                  rw [hend, hids, htrail.2, List.flatMap_cons, List.diff_append]

/-! ## Calls -/

theorem newStop_ne_limit {symbol : String} {typ : OrderType} {i : OrderInput} {peak valley : Option Int} {e : GoError}
    (h : newStop symbol typ i peak valley = .error e) : NotLimit e := by
  unfold newStop at h
  cases hs : sideOf i.side with
  | none =>
    rw [hs] at h
    dsimp only at h
    split_ifs at h <;> cases h
    · decide
    · decide
    · exact text_ne_limit _ (by decide)
  | some side =>
    cases ht : i.triggerPriceTicks with
    | none =>
      rw [hs, ht] at h
      dsimp only at h
      split_ifs at h <;> cases h <;> decide
    | some t =>
      rw [hs, ht] at h
      dsimp only at h
      split_ifs at h <;> cases h <;> decide

theorem newTrailing_ne_limit {last : Option Int} {i : OrderInput} {e : GoError}
    (h : newTrailing last i = .error e) : NotLimit e := by
  unfold newTrailing at h
  split at h
  · cases h; decide
  split at h
  · cases h; decide
  split at h
  · cases h; decide
  split at h
  · cases h
    exact text_ne_limit _ (by decide)
  · cases h
  · cases h

theorem throws_assertAvailable (key : String) : Throws NotLimit (assertAvailable key) :=
  Throws.get.bind fun _ => (Throws.throw (text_ne_limit _ (by decide))).ite (Throws.pure _)

theorem stopped_assertAvailable (key : String) : Keeps (Stopped m ids) (assertAvailable key) :=
  Keeps.get.bind fun _ => (Keeps.throw _).ite (Keeps.pure _)

theorem throws_bookUpdatedEvent : Throws NotLimit bookUpdatedEvent :=
  Throws.get.bind fun _ => (Throws.get.bind fun _ => (Throws.modify _).bind fun _ => Throws.pure _).bind
    fun _ => Throws.pure _

theorem throws_stamp (es : List EventBody) : Throws NotLimit (stamp es) :=
  Throws.get.bind fun _ => (Throws.modify _).bind fun _ => Throws.pure _

/-- The limit is not reached in the first program, which leaves the pending stop orders alone. -/
theorem bind_limit {α β : Type} {p : Program α} {f : α → Program β} (hb : Stopped m ids b)
    (hk : Keeps (Stopped m ids) p) (ht : Throws NotLimit p)
    (hrun : (p >>= f).run b = (.error cycleLimit, b')) :
    ∃ a b₁, Stopped m ids b₁ ∧ (f a).run b₁ = (.error cycleLimit, b') := by
  rw [run_bind] at hrun
  rcases hp : p.run b with ⟨e | a, b₁⟩
  · rw [hp] at hrun
    cases hrun
    exact absurd rfl (ht _ _ _ hp)
  · rw [hp] at hrun
    exact ⟨a, b₁, hk.of_run hb hp, hrun⟩

/-- A placement reaches the limit in its cascade. -/
theorem cascade_of_limit {β : Type} {ts : List Trade} {f : StopResult → Program β} (h : Filed b)
    (hb : Stopped m ids b) (hf : ∀ t, Throws NotLimit (f t))
    (hrun : (processStops ts >>= f).run b = (.error cycleLimit, b')) :
      b'.stopOrderIDs.length + maxCycles ≤ ids.length := by
  rw [run_bind] at hrun
  rcases hp : (processStops ts).run b with ⟨e | t, b₁⟩
  · rw [hp] at hrun
    cases hrun
    obtain ⟨hlen, hall, hend⟩ := cascade_limit h hp
    have hsub := (stopCycles_drains maxCycles ts h).subperm
    have htaken := Drains.length_le_taken hall
    have hdiff := Drains.length_diff hsub
    rw [← hend, hb.2] at hdiff
    omega
  · rw [hp] at hrun
    exact absurd rfl (hf t _ _ _ hrun)

theorem Filed.of_stopped (h : Filed b) (hb : Stopped b.stopOrders b.stopOrderIDs b') : Filed b' :=
  ⟨by rw [hb.1, hb.2, h.ids], fun k s hs => h.keyed k s (hb.1 ▸ hs)⟩

/-- A call that reaches the limit has triggered at least as many stop orders. -/
theorem call_limit {c : Call} (h : Filed b) (hrun : (call b c).1 = .error cycleLimit) :
    (call b c).2.stopOrderIDs.length + maxCycles ≤ b.stopOrderIDs.length := by
  have hrun : c.program.run b = (.error cycleLimit, (call b c).2) := Prod.ext hrun rfl
  have hb : Stopped b.stopOrders b.stopOrderIDs b := ⟨rfl, rfl⟩
  have hstop : ∀ {i : OrderInput} {typ : OrderType} {peak valley : Option Int},
      Throws NotLimit (placeStopWithExtrema i typ peak valley) := fun {i typ peak valley} =>
    (throws_assertAvailable _).bind fun _ => Throws.get.bind fun _ => (Throws.lift fun _ h => newStop_ne_limit h).bind
      fun _ => (Throws.modify _).bind fun _ => throws_bookUpdatedEvent.bind fun _ => (throws_stamp _).bind
      fun _ => Throws.pure _
  cases c with
  | placeLimit i =>
    obtain ⟨_, b₁, hb₁, hrun⟩ := bind_limit hb (stopped_assertAvailable _) (throws_assertAvailable _) hrun
    rw [run_get_bind] at hrun
    obtain ⟨r, b₂, hb₂, hrun⟩ := bind_limit hb₁ stopped_allocate throws_allocate hrun
    obtain ⟨ts, b₃, hb₃, hrun⟩ := bind_limit hb₂ (stopped_matchOrder _) (throws_matchOrder _) hrun
    rw [run_get_bind] at hrun
    obtain ⟨_, b₄, hb₄, hrun⟩ := bind_limit hb₃ (stopped_settle .limit) (throws_settle .limit) hrun
    exact cascade_of_limit (h.of_stopped hb₄) hb₄ (fun t => throws_bookUpdatedEvent.bind fun _ => (throws_stamp _).bind
      fun _ => Throws.get.bind fun _ => Throws.pure _) hrun
  | placeMarket i =>
    obtain ⟨_, b₁, hb₁, hrun⟩ := bind_limit hb (stopped_assertAvailable _) (throws_assertAvailable _) hrun
    rw [run_get_bind] at hrun
    obtain ⟨r, b₂, hb₂, hrun⟩ := bind_limit hb₁ stopped_allocate throws_allocate hrun
    obtain ⟨ts, b₃, hb₃, hrun⟩ := bind_limit hb₂ (stopped_matchOrder _) (throws_matchOrder _) hrun
    obtain ⟨_, b₄, hb₄, hrun⟩ := bind_limit hb₃ (stopped_settle .market) (throws_settle .market) hrun
    rw [run_get_bind] at hrun
    exact cascade_of_limit (h.of_stopped hb₄) hb₄ (fun t => throws_bookUpdatedEvent.bind fun _ => (throws_stamp _).bind
      fun _ => Throws.get.bind fun _ => Throws.pure _) hrun
  | placeStopMarket i => exact absurd rfl (hstop _ _ _ hrun)
  | placeStopLimit i => exact absurd rfl (hstop _ _ _ hrun)
  | placeTrailingStopMarket i =>
    have hthrows : Throws NotLimit (placeTrailingStopMarket i) :=
      Throws.get.bind fun _ => (Throws.lift fun _ h => newTrailing_ne_limit h).bind fun _ => hstop
    exact absurd rfl (hthrows _ _ _ hrun)
  | cancel key =>
    have hdone : ∀ o : Order, NotLimit (alreadyDone o) := fun o => by
      unfold alreadyDone
      rw [String.append_assoc, String.append_assoc]
      exact text_ne_limit _ (by decide)
    have hthrows : Throws NotLimit (cancelOrder key) := by
      refine Throws.get.bind fun b => ?_
      split
      · exact (Throws.modify _).bind fun _ => throws_bookUpdatedEvent.bind fun _ => Throws.pure _
      split
      · exact Throws.throw (text_ne_limit _ (by decide))
      · refine Throws.get.bind fun b => (Throws.throw (hdone _)).ite
          ((Throws.lift fun _ h => deref_ne_limit h).bind fun _ => ?_)
        split
        · exact Throws.throw (by decide)
        · exact (Throws.modify _).bind fun _ => (Throws.modify _).bind fun _ => (Throws.modify _).bind fun _ =>
            Throws.get.bind fun _ => throws_bookUpdatedEvent.bind fun _ => (throws_stamp _).bind fun _ => Throws.pure _
    exact absurd rfl (hthrows _ _ _ hrun)

/-- The loop of `processStops` over any trades, with any limit: the pending stop orders bound its cycles, each
but the last leaves fewer of them, and no stop order is triggered twice. So it ends at its limit only after as
many stop orders were triggered, and so does a call. -/
theorem cascade_terminates (hb : Reachable b) (ts : List Trade) (limit : Nat) :
    (stopCycles limit ts b).length ≤ b.stopOrders.keys.length + 1 ∧
      (stopCycles limit ts b).Pairwise (fun r r' => r'.pool.length < r.pool.length) ∧
      ((stopCycles limit ts b).flatMap (·.taken)).Nodup ∧
      (((cascade limit ts).run b).1 = .error cycleLimit → limit ≤ ((stopCycles limit ts b).flatMap (·.taken)).length) ∧
      ∀ c, (call b c).1 = .error cycleLimit →
        (call b c).2.stopOrders.keys.length + maxCycles ≤ b.stopOrders.keys.length := by
  obtain ⟨v, hv⟩ := hb.good
  have hfiled := hv.filed
  have hdrains := stopCycles_drains limit ts hfiled
  have hlen := hdrains.length_le
  have hnodup := hdrains.nodup (hfiled.ids ▸ b.stopOrders.keys_nodup)
  rw [hfiled.ids] at hlen
  refine ⟨hlen, hdrains.decreasing, hnodup, fun hrun => ?_, fun c hrun => ?_⟩
  · obtain ⟨hcount, hall, -⟩ := cascade_limit hfiled (Prod.ext hrun rfl)
    exact hcount.symm.le.trans (Drains.length_le_taken hall)
  · have hcall := call_limit hfiled hrun
    rwa [hfiled.ids, (call_refines c hv).2.filed.ids] at hcall

end

/-- A stop order to buy is pending that triggers at price 1. -/
def oneStop : Book :=
  (call oneAsk (.placeStopMarket { limitInput "s" .buy 1 1 with priceTicks := none, triggerPriceTicks := some 1 })).2

theorem cascade_terminates_oneStop : oneStop.stopOrders.keys.length = 1 ∧
    (stopCycles maxCycles [⟨"BTC-USD", 1, 1, "b", "a", .buy, ⟨0, false⟩⟩] oneStop).length ≤
      oneStop.stopOrders.keys.length + 1 :=
  ⟨by decide +kernel, (cascade_terminates ⟨_, _, .call oneAsk_run _⟩ _ _).1⟩

end Lob.Go
