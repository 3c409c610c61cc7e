import LobEngine.Node.Triggers

/-!
# Trailing stop orders and the prices since their placement

A trailing stop order follows the last price of each batch of trades, not every trade.

* `OrderBook.lastsOf`: the last prices that a call sets, whether it returns or throws.
* `From`: what a call makes of the pending stop orders that stay.
* `trailing_tracks_extrema`: the extremum of a pending trailing stop order is that of all prices since its
  placement, in every run whose calls trade beyond it only up to the last price of a batch.
* `peak_missed`: a sale at two prices.
-/

namespace Lob.Node

open Exc OrderBook

/-! ## The trades of a book only grow -/

/-- The book has the trades of `b₀`, and maybe later ones. -/
def Grown (b₀ b : OrderBook) : Prop := b₀.trades <+: b.trades

section

variable {b₀ b b' : OrderBook} {c : Call} {r : Result}

theorem Traded.grown {α : Type} {p : Program α} (hp : ∀ ts, Keeps (Traded ts) p) : Keeps (Grown b₀) p := by
  intro b hb
  have h := hp b.trades b rfl
  unfold Grown Post Traded at *
  dsimp only at h ⊢
  rw [h]
  exact hb

theorem grown_matchBySide {x : NodeRef} (ignore : Bool) : Keeps (Grown b₀) (matchBySide x ignore) :=
  (Framed.of_heap (I := Grown b₀) (fun _ _ h => h) (fun b _ _ h => by rwa [Grown, setSide_trades])
    fun _ _ h => h).matchBySide
    (fun _ _ _ h => h) (fun _ _ h => h.trans (List.prefix_append _ _)) x ignore

theorem grown_triggerAll (ss : List StopOrder) : Keeps (Grown b₀) (triggerAll ss) := by
  have hnow : Keeps (Grown b₀) now := Keeps.get.bind fun _ => (Keeps.modify fun _ h => by exact h).bind
    fun _ => Keeps.pure _
  have hexecute : ∀ s, Keeps (Grown b₀) (executeTriggeredStopOrder s) := by
    refine fun s => Keeps.get.bind fun b => Keeps.ite ?_ (Keeps.ite ?_ (Keeps.throw _))
    · exact hnow.bind fun _ => (Traded.grown fun _ => traded_newOrderNode).bind fun _ =>
        (grown_matchBySide _).bind fun _ => (Traded.grown fun _ => traded_cancelRemainder).bind fun _ =>
        Keeps.get.bind fun _ => Keeps.pure _
    · exact hnow.bind fun _ => (Traded.grown fun _ => traded_newOrderNode).bind fun _ =>
        (grown_matchBySide _).bind fun _ => (Traded.grown fun _ => traded_restIfActive).bind fun _ =>
        Keeps.get.bind fun _ => Keeps.pure _
  induction ss with
  | nil => exact Keeps.pure _
  | cons s ss ih =>
    exact (Keeps.modify fun _ h => by exact h).bind fun _ => (hexecute _).bind fun _ => ih.bind fun _ => Keeps.pure _

/-! ## The last prices of a call -/

/-- The last prices that a cascade sets, whether it returns or throws. -/
def lastsFrom : Nat → List Trade → OrderBook → List Int
  | limit, latestTrades, b =>
    match latestTrades.getLast? with
    | none => []
    | some lastTrade =>
      match limit with
      | 0 => []
      | limit + 1 =>
        let trailed := { b with
          lastTradePriceTicks := some lastTrade.priceTicks
          stopOrdersById := b.stopOrdersById.mapValues (trail lastTrade.priceTicks) }
        lastTrade.priceTicks ::
          match (do triggerAll (← getEligibleStopOrders)).run trailed with
          | (.ok round, b') => lastsFrom limit round.trades b'
          | (.error _, _) => []

/-- The last prices that a call sets, whether it returns or throws. -/
def OrderBook.lastsOf (b : OrderBook) (c : Call) : List Int :=
  let placed : Program (List Trade) := match c with
    | .placeLimitOrder (some p) => do
      assertOrderIdAvailable p.orderId
      let r ← newOrderNode (limitInput b p)
      let trades ← matchBySide r false
      restIfActive r
      return trades
    | .placeMarketOrder (some p) => do
      assertOrderIdAvailable p.orderId
      let r ← newOrderNode (marketInput b p)
      let trades ← matchBySide r true
      cancelRemainder r
      return trades
    | _ => return []
  match placed.run b with
  | (.ok trades, b') => lastsFrom maxCycles trades b'
  | (.error _, _) => []

/-- The stop order after it followed these prices. -/
def trailAll (lasts : List Int) (s : StopOrder) : StopOrder := lasts.foldl (fun s last => trail last s) s

/-- The pending stop orders `m'` are some of those of `m`, after they followed these prices. -/
def From (m : OMap JsVal StopOrder) (lasts : List Int) (m' : OMap JsVal StopOrder) : Prop :=
  ∀ k s', m'.get? k = some s' → ∃ s, m.get? k = some s ∧ s' = trailAll lasts s

theorem From.refl (m : OMap JsVal StopOrder) : From m [] m := fun _ s hs => ⟨s, hs, rfl⟩

theorem From.delete {m m' : OMap JsVal StopOrder} {ls : List Int} (h : From m ls m') (k : JsVal) :
    From m ls (m'.delete k) := by
  intro k' s hs
  rw [OMap.get?_delete] at hs
  split at hs
  · cases hs
  · exact h k' s hs

/-- First one price, then others. -/
theorem From.cons {m m₁ m' : OMap JsVal StopOrder} {ls : List Int} {last : Int}
    (h₁ : From (m.mapValues (trail last)) [] m₁) (h : From m₁ ls m') : From m (last :: ls) m' := by
  intro k s' hs'
  obtain ⟨s₁, hs₁, rfl⟩ := h k s' hs'
  obtain ⟨s₂, hs₂, rfl⟩ := h₁ k s₁ hs₁
  rw [OMap.get?_mapValues, Option.map_eq_some_iff] at hs₂
  obtain ⟨s, hs, rfl⟩ := hs₂
  exact ⟨s, hs, rfl⟩

/-- What a program that ends in a cascade does from a book `b` on: the pending stop orders follow `ls`, and
these are prices of trades after the first `n`. -/
structure Follows (b : OrderBook) (ls : List Int) (n : Nat) (b' : OrderBook) : Prop where
  stops : From b.stopOrdersById ls b'.stopOrdersById
  traded : ∀ l ∈ ls, ∃ t ∈ b'.trades.drop n, t.priceTicks = l

theorem cascade_follows {n : Nat} (limit : Nat) (ts : List Trade) (b : OrderBook)
    (hts : ∀ t ∈ ts, t ∈ b.trades.drop n) :
    (cascade limit ts).Post b fun _ b' => Follows b (lastsFrom limit ts b) n b' ∧ Grown b b' := by
  have hdone : ∀ (r : Except JsError Triggered) (b : OrderBook), Follows b [] n b ∧ Grown b b :=
    fun _ b => ⟨⟨From.refl _, by simp⟩, List.prefix_refl _⟩
  induction limit generalizing ts b with
  | zero =>
    unfold cascade lastsFrom
    cases hl : ts.getLast? with
    | none => exact hdone (.ok .none) b
    | some t => exact hdone (.error (.error "stop order trigger cycle limit exceeded")) b
  | succ limit ih =>
    unfold cascade lastsFrom
    cases hl : ts.getLast? with
    | none => exact hdone (.ok .none) b
    | some t =>
      dsimp only
      set b₁ : OrderBook := { b with
        lastTradePriceTicks := some t.priceTicks
        stopOrdersById := b.stopOrdersById.mapValues (trail t.priceTicks) } with hb₁
      have hmem : t ∈ b.trades.drop n := hts t (List.mem_of_getLast? hl)
      -- What follows the last price goes on from the trailed book.
      have hcons : ∀ {ls : List Int} {b₂ b' : OrderBook}, From b₁.stopOrdersById [] b₂.stopOrdersById →
          Grown b b₂ → Follows b₂ ls n b' → Grown b₂ b' → Follows b (t.priceTicks :: ls) n b' ∧ Grown b b' := by
        intro ls b₂ b' hfrom hgrown h hgrown'
        refine ⟨⟨From.cons hfrom h.stops, fun l hl => ?_⟩, List.IsPrefix.trans hgrown hgrown'⟩
        rcases List.mem_cons.mp hl with rfl | hl
        · obtain ⟨us, hus⟩ := List.IsPrefix.trans hgrown hgrown'
          refine ⟨t, ?_, rfl⟩
          rw [← hus, List.drop_append]
          exact List.mem_append_left _ hmem
        · exact h.traded l hl
      refine Post.modify ?_
      unfold Post
      rw [run_bind_ok (show updateTrailingStopOrders.run _ = (.ok (), b₁) from rfl), run_bind, run_bind]
      rw [show getEligibleStopOrders.run b₁ = (eligibleOf t.priceTicks b₁.stopOrdersById.values, b₁) from rfl]
      cases he : eligibleOf t.priceTicks b₁.stopOrdersById.values with
      | error e => exact hcons (From.refl _) (List.prefix_refl _) (hdone (.error e) b₁).1 (hdone (.error e) b₁).2
      | ok es =>
        dsimp only
        by_cases hes : es = []
        · subst hes
          rw [if_pos rfl]
          have hnil : lastsFrom limit Triggered.none.trades b₁ = [] := by
            unfold lastsFrom
            rfl
          have := hcons (From.refl _) (List.prefix_refl _) (hdone (.ok .none) b₁).1 (hdone (.ok .none) b₁).2
          rw [← hnil] at this
          exact this
        · rw [if_neg hes, run_bind]
          have hfrom := stops_triggerAll (I := From b₁.stopOrdersById []) (fun m k h => h.delete k) es b₁ (From.refl _)
          have hgrown : (triggerAll es).Post b₁ fun _ b' => Grown b₁ b' := grown_triggerAll es b₁ (List.prefix_refl _)
          unfold Post at hfrom hgrown
          cases hrun : (triggerAll es).run b₁ with
          | mk out b₂ =>
            rw [hrun] at hfrom hgrown
            cases out with
            | error e => exact hcons hfrom hgrown (hdone (.error e) b₂).1 (hdone (.error e) b₂).2
            | ok round =>
              obtain ⟨fs, hfs, rfl⟩ := triggerAll_fireAll hrun
              have htrades := (fireAll_fired hfs).2.2.2
              have hround : ∀ u ∈ (triggeredOf fs).trades, u ∈ b₂.trades.drop n := by
                intro u hu
                have hlen : n ≤ b.trades.length := by
                  by_contra hlt
                  rw [show b.trades.drop n = [] from List.drop_eq_nil_of_le (by omega)] at hmem
                  cases hmem
                rw [htrades, List.drop_append_of_le_length (show n ≤ b₁.trades.length from hlen)]
                exact List.mem_append_right _ hu
              have hrest := ih (triggeredOf fs).trades b₂ hround
              have hall : (cascade limit (triggeredOf fs).trades).Post b₂ fun _ b' =>
                  Follows b (t.priceTicks :: lastsFrom limit (triggeredOf fs).trades b₂) n b' ∧ Grown b b' :=
                hrest.mono fun _ b' hb' => hcons hfrom hgrown hb'.1 hb'.2
              have hbind : (cascade limit (triggeredOf fs).trades >>= fun rest =>
                  pure ((triggeredOf fs).append rest)).Post b₂ fun _ b' =>
                  Follows b (t.priceTicks :: lastsFrom limit (triggeredOf fs).trades b₂) n b' ∧ Grown b b' :=
                hall.bind (fun _ _ h => h) fun _ _ h => h
              exact hbind

/-! ## The last prices of a call -/

/-- `p` collects the trades of the incoming order, and `q` goes on with their cascade: the pending stop
orders of `b₀` follow the last prices. -/
def Leads (b₀ : OrderBook) (p : Program (List Trade)) (q : Program Result) (b : OrderBook) : Prop :=
  q.Post b fun _ b' => Grown b₀ b' ∧ Follows b₀
    (match p.run b with
    | (.ok trades, b₁) => lastsFrom maxCycles trades b₁
    | (.error _, _) => []) b₀.trades.length b'

theorem Leads.bind {α : Type} {m : Program α} {f : α → Program (List Trade)} {g : α → Program Result}
    (ha : Keeps (Aside b₀) m) (hg : Keeps (Grown b₀) m) (hb : Aside b₀ b) (hb' : Grown b₀ b)
    (hf : ∀ a b₁, m.run b = (.ok a, b₁) → Aside b₀ b₁ → Grown b₀ b₁ → Leads b₀ (f a) (g a) b₁) :
    Leads b₀ (m >>= f) (m >>= g) b := by
  unfold Leads Post
  rw [run_bind, run_bind]
  cases hm : m.run b with
  | mk out b₁ =>
    have ha₁ := ha.of_run hb hm
    have hg₁ := hg.of_run hb' hm
    cases out with
    | error e =>
      refine ⟨hg₁, ?_, by simp⟩
      dsimp only
      rw [ha₁.stops]
      exact From.refl _
    | ok a => exact hf a b₁ hm ha₁ hg₁

theorem Leads.cascade {ts : List Trade} {f : Triggered → Program Result} (hb : Aside b₀ b) (hg : Grown b₀ b)
    (hts : ∀ t ∈ ts, t ∈ b.trades.drop b₀.trades.length)
    (hf : ∀ t b₁, (f t).Post b₁ fun _ b' => b'.stopOrdersById = b₁.stopOrdersById ∧ b'.trades = b₁.trades) :
    Leads b₀ (pure ts) (cascade maxCycles ts >>= f) b := by
  have hfollows : ∀ {b₁ : OrderBook}, Follows b (lastsFrom maxCycles ts b) b₀.trades.length b₁ ∧ Grown b b₁ →
      ∀ {b' : OrderBook}, b'.stopOrdersById = b₁.stopOrdersById → b'.trades = b₁.trades →
      Grown b₀ b' ∧ Follows b₀ (lastsFrom maxCycles ts b) b₀.trades.length b' := by
    intro b₁ h b' hstops htrades
    refine ⟨?_, ?_, ?_⟩
    · unfold Grown
      rw [htrades]
      exact List.IsPrefix.trans hg h.2
    · rw [hstops, ← hb.stops]
      exact h.1.stops
    · rw [htrades]
      exact h.1.traded
  refine Post.bind (cascade_follows maxCycles ts b hts) (fun t b₁ h₁ => ?_) (fun e b₁ h₁ => ?_)
  · exact (hf t b₁).mono fun _ b' h' => hfollows h₁ h'.1 h'.2
  · exact hfollows h₁ rfl rfl

/-- The checks before a placement, on both sides. -/
theorem Leads.checked {p : Payload} {f : Program (List Trade)} {g : Payload → Program Result}
    (h : (assertOrderIdAvailable p.orderId).run b = (.ok (), b) → Leads b f (g p) b) :
    Leads b (assertOrderIdAvailable p.orderId >>= fun _ => f)
      (destructure (some p) >>= fun p => assertOrderIdAvailable p.orderId >>= fun _ => g p) b := by
  have hkeeps : ∀ {I : OrderBook → Prop}, Keeps I (assertOrderIdAvailable p.orderId) := by
    intro I
    exact Keeps.get.bind fun _ => Keeps.ite (Keeps.throw _) (Keeps.pure _)
  refine Leads.bind (m := assertOrderIdAvailable p.orderId) hkeeps hkeeps (.refl b) (List.prefix_refl _)
    fun u b₁ h₁ _ _ => ?_
  obtain ⟨rfl, -, -⟩ := available_ok h₁
  exact h h₁

/-- The trades of the incoming order are new ones. -/
theorem matched_new {x : NodeRef} {ignore : Bool} {ts : List Trade} (hg : Grown b₀ b)
    (h : (matchBySide x ignore).run b = (.ok ts, b')) : ∀ t ∈ ts, t ∈ b'.trades.drop b₀.trades.length := by
  intro t ht
  rw [matchBySide_trades h, List.drop_append_of_le_length hg.length_le]
  exact List.mem_append_right _ ht

/-- The end of a placement. -/
theorem closing_keeps {x : NodeRef} {t : Triggered} {events : EventBody → List EventBody} {ts : List Trade}
    (b : OrderBook) :
    (createBookUpdatedEvent >>= fun updated => stampEvents (events updated) >>= fun es => get >>= fun b =>
      pure ⟨.order (b.order x), some (ts ++ t.trades), some t.orders, es⟩ : Program Result).Post b
      fun _ b' => b'.stopOrdersById = b.stopOrdersById ∧ b'.trades = b.trades := ⟨rfl, rfl⟩

/-- The pending stop orders of a call that executes an order follow its last prices. -/
theorem call_leads (hc : c.executes = true) :
    Grown b (call b c).2 ∧ Follows b (b.lastsOf c) b.trades.length (call b c).2 := by
  have hrest : ∀ x, Keeps (Grown b) (restIfActive x) := fun x => Traded.grown fun _ => traded_restIfActive
  have hcancel : ∀ x, Keeps (Grown b) (cancelRemainder x) := fun x => Traded.grown fun _ => traded_cancelRemainder
  have hnone : ∀ r : Except JsError Result, Grown b b ∧ Follows b [] b.trades.length b :=
    fun _ => ⟨List.prefix_refl _, From.refl _, by simp⟩
  cases c with
  | placeLimitOrder args =>
    cases args with
    | none => exact hnone (.error .typeError)
    | some p =>
      refine Leads.checked (g := fun p => _) fun hfree => ?_
      refine Leads.bind aside_newOrderNode (Traded.grown fun _ => traded_newOrderNode) (.refl b)
        (List.prefix_refl _) fun x b₁ h₁ ha₁ hg₁ => ?_
      refine Leads.bind (aside_matchBySide _) (grown_matchBySide _) ha₁ hg₁ fun ts b₂ h₂ ha₂ hg₂ => ?_
      refine Leads.bind aside_restIfActive (hrest x) ha₂ hg₂ fun _ b₃ h₃ ha₃ hg₃ => ?_
      refine Leads.cascade ha₃ hg₃ ?_ fun t b₄ => closing_keeps b₄
      have htrades : b₃.trades = b₂.trades := traded_restIfActive.of_run (show Traded b₂.trades b₂ from rfl) h₃
      rw [htrades]
      exact matched_new hg₁ h₂
  | placeMarketOrder args =>
    cases args with
    | none => exact hnone (.error .typeError)
    | some p =>
      refine Leads.checked (g := fun p => _) fun hfree => ?_
      refine Leads.bind aside_newOrderNode (Traded.grown fun _ => traded_newOrderNode) (.refl b)
        (List.prefix_refl _) fun x b₁ h₁ ha₁ hg₁ => ?_
      refine Leads.bind (aside_matchBySide _) (grown_matchBySide _) ha₁ hg₁ fun ts b₂ h₂ ha₂ hg₂ => ?_
      refine Leads.bind aside_cancelRemainder (hcancel x) ha₂ hg₂ fun _ b₃ h₃ ha₃ hg₃ => ?_
      refine Leads.cascade ha₃ hg₃ ?_ fun t b₄ => closing_keeps b₄
      have htrades : b₃.trades = b₂.trades := traded_cancelRemainder.of_run (show Traded b₂.trades b₂ from rfl) h₃
      rw [htrades]
      exact matched_new hg₁ h₂
  | _ => cases hc

/-- After a call each pending stop order is a new one, or one that followed the last prices of the call. -/
theorem call_from {k : JsVal} {s' : StopOrder} (h : (call b c).2.stopOrdersById.get? k = some s') :
    (∃ s, b.stopOrdersById.get? k = some s ∧ s' = trailAll (b.lastsOf c) s) ∨
      (b.stopOf c = some s' ∧ k = s'.orderId ∧ (∃ r, (call b c).1 = .ok r)) := by
  cases hc : c.executes with
  | true => exact .inl ((call_leads hc).2.stops k s' h)
  | false =>
    have hlasts : b.lastsOf c = [] := by
      cases c <;> first | rfl | cases hc
    rw [hlasts]
    cases hs : b.stopOf c with
    | none =>
      have hfrom := stops_call (I := From b.stopOrdersById []) (fun m k h => h.delete k) hc (From.refl _)
        fun s hs' _ => by rw [hs] at hs'; cases hs'
      exact .inl (hfrom k s' h)
    | some s =>
      obtain ⟨-, hr, hset⟩ | ⟨e, he⟩ := stopOf_call hs
      · rw [hset, OMap.get?_set] at h
        split at h
        · next hk =>
          obtain rfl := Option.some.inj h
          exact .inr ⟨rfl, hk, hr⟩
        · exact .inl ⟨s', h, rfl⟩
      · rw [he] at h
        exact .inl ⟨s', h, rfl⟩

/-- The last prices of a call are prices of its trades. -/
theorem lastsOf_subset : ∀ l ∈ b.lastsOf c, l ∈ b.pricesOf c := by
  intro l hl
  cases hc : c.executes with
  | true => exact List.mem_map.mpr ((call_leads hc).2.traded l hl)
  | false =>
    have hlasts : b.lastsOf c = [] := by
      cases c <;> first | rfl | cases hc
    rw [hlasts] at hl
    cases hl

end

/-! ## Extrema -/

section

variable {b : OrderBook} {c : Call} {ps : List Placement} {s : StopOrder} {p : Placement}

/-- A trailing stop order that sells: its peak is `peak`, and its trigger price follows. -/
structure AtPeak (s : StopOrder) (amount peak : Int) : Prop where
  type : s.type = .trailingStopMarket
  side : s.side = .str (sideText .sell)
  trailing : s.trailingAmountTicks = some amount
  extremum : s.peakPriceTicks = some peak
  trigger : s.triggerPriceTicks = .num (.ofInt (peak - amount))

/-- A trailing stop order that buys: its valley is `valley`, and its trigger price follows. -/
structure AtValley (s : StopOrder) (amount valley : Int) : Prop where
  type : s.type = .trailingStopMarket
  side : s.side = .str (sideText .buy)
  trailing : s.trailingAmountTicks = some amount
  extremum : s.valleyPriceTicks = some valley
  trigger : s.triggerPriceTicks = .num (.ofInt (valley + amount))

theorem AtPeak.trail {amount peak : Int} (h : AtPeak s amount peak) (last : Int) :
    AtPeak (trail last s) amount (max peak last) := by
  unfold Node.trail
  rw [if_neg (not_not.mpr h.type), h.extremum, h.side, h.trailing]
  by_cases hlt : peak < last
  · rw [if_pos ⟨rfl, decide_eq_true hlt⟩, max_eq_right hlt.le]
    exact ⟨h.type, rfl, rfl, rfl, rfl⟩
  · rw [if_neg fun hn => hlt (of_decide_eq_true hn.2), if_neg (fun hn => absurd hn.1 (by decide)),
      max_eq_left (not_lt.mp hlt)]
    exact h

theorem AtValley.trail {amount valley : Int} (h : AtValley s amount valley) (last : Int) :
    AtValley (trail last s) amount (min valley last) := by
  unfold Node.trail
  rw [if_neg (not_not.mpr h.type), if_neg (fun hn => absurd (h.side.symm.trans hn.1) (by decide)), h.extremum, h.side,
    h.trailing]
  by_cases hlt : last < valley
  · rw [if_pos ⟨rfl, decide_eq_true hlt⟩, min_eq_right hlt.le]
    exact ⟨h.type, rfl, rfl, rfl, rfl⟩
  · rw [if_neg fun hn => hlt (of_decide_eq_true hn.2), min_eq_left (not_lt.mp hlt)]
    exact h

theorem AtPeak.trailAll {amount peak : Int} (h : AtPeak s amount peak) (lasts : List Int) :
    AtPeak (trailAll lasts s) amount (lasts.foldl max peak) := by
  unfold Node.trailAll
  induction lasts generalizing s peak with
  | nil => exact h
  | cons last lasts ih => exact ih (h.trail last)

theorem AtValley.trailAll {amount valley : Int} (h : AtValley s amount valley) (lasts : List Int) :
    AtValley (trailAll lasts s) amount (lasts.foldl min valley) := by
  unfold Node.trailAll
  induction lasts generalizing s valley with
  | nil => exact h
  | cons last lasts ih => exact ih (h.trail last)

/-- A maximum after more values, if each of these is at most the maximum so far or one of some chosen ones. -/
theorem max?_append {xs new lasts : List Int} {peak : Int} (h : xs.max? = some peak)
    (hsub : ∀ l ∈ lasts, l ∈ new) (hnew : ∀ x ∈ new, x ≤ peak ∨ ∃ l ∈ lasts, x ≤ l) :
    (xs ++ new).max? = some (lasts.foldl max peak) := by
  obtain ⟨hmem, hle⟩ := List.max?_eq_some_iff.mp h
  obtain ⟨hmem', hle'⟩ := List.max?_eq_some_iff.mp (show (peak :: lasts).max? = some (lasts.foldl max peak) from rfl)
  have hpeak := hle' peak (List.mem_cons_self ..)
  refine List.max?_eq_some_iff.mpr ⟨?_, fun x hx => ?_⟩
  · rcases List.mem_cons.mp hmem' with heq | hl
    · rw [heq]
      exact List.mem_append_left _ hmem
    · exact List.mem_append_right _ (hsub _ hl)
  · rcases List.mem_append.mp hx with hx | hx
    · exact (hle x hx).trans hpeak
    · rcases hnew x hx with hx | ⟨l, hl, hx⟩
      · exact hx.trans hpeak
      · exact hx.trans (hle' l (List.mem_cons_of_mem _ hl))

theorem min?_append {xs new lasts : List Int} {valley : Int} (h : xs.min? = some valley)
    (hsub : ∀ l ∈ lasts, l ∈ new) (hnew : ∀ x ∈ new, valley ≤ x ∨ ∃ l ∈ lasts, l ≤ x) :
    (xs ++ new).min? = some (lasts.foldl min valley) := by
  obtain ⟨hmem, hle⟩ := List.min?_eq_some_iff.mp h
  obtain ⟨hmem', hle'⟩ := List.min?_eq_some_iff.mp
    (show (valley :: lasts).min? = some (lasts.foldl min valley) from rfl)
  have hvalley := hle' valley (List.mem_cons_self ..)
  refine List.min?_eq_some_iff.mpr ⟨?_, fun x hx => ?_⟩
  · rcases List.mem_cons.mp hmem' with heq | hl
    · rw [heq]
      exact List.mem_append_left _ hmem
    · exact List.mem_append_right _ (hsub _ hl)
  · rcases List.mem_append.mp hx with hx | hx
    · exact hvalley.trans (hle x hx)
    · rcases hnew x hx with hx | ⟨l, hl, hx⟩
      · exact hvalley.trans hx
      · exact (hle' l (List.mem_cons_of_mem _ hl)).trans hx

/-- The extremum of the stop order is that of the last price at its placement and the prices since. -/
structure Tracks (s : StopOrder) (p : Placement) : Prop where
  peak : s.side = .str (sideText .sell) → ∃ last amount peak, p.last = some last ∧ AtPeak s amount peak ∧
    (last :: p.prices).max? = some peak
  valley : s.side = .str (sideText .buy) → ∃ last amount valley, p.last = some last ∧ AtValley s amount valley ∧
    (last :: p.prices).min? = some valley

/-- Every pending trailing stop order tracks the extremum of the prices since its placement. -/
def ExtremaTracked (b : OrderBook) (ps : List Placement) : Prop :=
  ∀ s ∈ b.stopOrdersById.values, s.type = .trailingStopMarket → ∃ p ∈ ps, p.orderId = s.orderId ∧ Tracks s p

/-- A call trades beyond the extremum of a trailing stop order that stays pending only up to the last price
of one of its batches. -/
def OrderBook.LastsExtreme (b : OrderBook) (c : Call) : Prop :=
  ∀ s ∈ b.stopOrdersById.values, s.type = .trailingStopMarket → s.orderId ∈ (call b c).2.stopOrdersById.keys →
    ∀ price ∈ b.pricesOf c,
      (s.side = .str (sideText .sell) →
        (∃ peak ∈ s.peakPriceTicks, price ≤ peak) ∨ ∃ last ∈ b.lastsOf c, price ≤ last) ∧
      (s.side = .str (sideText .buy) →
        (∃ valley ∈ s.valleyPriceTicks, valley ≤ price) ∨ ∃ last ∈ b.lastsOf c, last ≤ price)

theorem trailAll_same (lasts : List Int) (s : StopOrder) : (trailAll lasts s).orderId = s.orderId ∧
    (trailAll lasts s).type = s.type ∧ (trailAll lasts s).side = s.side := by
  have htrail : ∀ last (s : StopOrder), (trail last s).orderId = s.orderId ∧ (trail last s).type = s.type ∧
      (trail last s).side = s.side := by
    intro last s
    unfold trail
    split_ifs <;> exact ⟨rfl, rfl, rfl⟩
  unfold trailAll
  induction lasts generalizing s with
  | nil => exact ⟨rfl, rfl, rfl⟩
  | cons last lasts ih =>
    obtain ⟨hid, htype, hside⟩ := ih (trail last s)
    exact ⟨hid.trans (htrail last s).1, htype.trans (htrail last s).2.1, hside.trans (htrail last s).2.2⟩

/-- A stop order that tracks the prices so far tracks those of the call too. -/
theorem Tracks.call (h : Tracks s p) (hnew : ∀ price ∈ b.pricesOf c,
      (s.side = .str (sideText .sell) →
        (∃ peak ∈ s.peakPriceTicks, price ≤ peak) ∨ ∃ last ∈ b.lastsOf c, price ≤ last) ∧
      (s.side = .str (sideText .buy) →
        (∃ valley ∈ s.valleyPriceTicks, valley ≤ price) ∨ ∃ last ∈ b.lastsOf c, last ≤ price)) :
    Tracks (trailAll (b.lastsOf c) s) { p with prices := p.prices ++ b.pricesOf c } := by
  have hside := (trailAll_same (b.lastsOf c) s).2.2
  constructor
  · intro hs
    rw [hside] at hs
    obtain ⟨last, amount, peak, hlast, hpeak, hmax⟩ := h.peak hs
    refine ⟨last, amount, _, hlast, hpeak.trailAll _, max?_append hmax lastsOf_subset fun price hprice => ?_⟩
    refine ((hnew price hprice).1 hs).imp_left fun ⟨peak', hmem, hle⟩ => ?_
    obtain rfl : peak = peak' := Option.some.inj (hpeak.extremum.symm.trans hmem)
    exact hle
  · intro hs
    rw [hside] at hs
    obtain ⟨last, amount, valley, hlast, hvalley, hmin⟩ := h.valley hs
    refine ⟨last, amount, _, hlast, hvalley.trailAll _, min?_append hmin lastsOf_subset fun price hprice => ?_⟩
    refine ((hnew price hprice).2 hs).imp_left fun ⟨valley', hmem, hle⟩ => ?_
    obtain rfl : valley = valley' := Option.some.inj (hvalley.extremum.symm.trans hmem)
    exact hle

/-- A trailing stop order starts at the last price. -/
theorem stopOf_tracks (h : b.stopOf c = some s) (ht : s.type = .trailingStopMarket) :
    Tracks s ⟨s.orderId, b.lastTradePriceTicks, []⟩ := by
  cases c with
  | placeTrailingStopMarketOrder args =>
    cases args with
    | none => cases h
    | some p =>
      cases hl : b.lastTradePriceTicks with
      | none => rw [OrderBook.stopOf, hl] at h; cases h
      | some last =>
        cases ha : assertPositiveInteger "trailingAmountTicks" p.trailingAmountTicks with
        | error e => rw [OrderBook.stopOf, hl, ha] at h; cases h
        | ok amount =>
          rw [OrderBook.stopOf, hl, ha] at h
          obtain rfl := Option.some.inj h
          refine ⟨fun hs => ⟨last, amount, last, rfl, ⟨rfl, hs, rfl, ?_, ?_⟩, rfl⟩,
            fun hs => ⟨last, amount, last, rfl, ⟨rfl, hs, rfl, ?_, ?_⟩, rfl⟩⟩
          · exact if_pos hs
          · exact congrArg (fun n => JsVal.num (.ofInt n)) (if_pos hs)
          · exact if_pos hs
          · refine congrArg (fun n => JsVal.num (.ofInt n)) (if_neg fun hsell => ?_)
            exact absurd (hs.symm.trans hsell) (by decide)
  | placeStopMarketOrder args => cases args <;> cases h; cases ht
  | placeStopLimitOrder args => cases args <;> cases h; cases ht
  | placeLimitOrder args => cases h
  | placeMarketOrder args => cases h
  | cancelOrder key => cases h

theorem ExtremaTracked.call (h : ExtremaTracked b ps) (hk : Keyed b.stopOrdersById) (hc : b.LastsExtreme c) :
    ExtremaTracked (Node.call b c).2 (b.record c ps) := by
  intro s' hs' ht
  obtain ⟨k, hget⟩ := OMap.mem_values.mp hs'
  have hkey := OMap.mem_keys.mpr ⟨s', hget⟩
  rcases call_from hget with ⟨s, hs, rfl⟩ | ⟨hs, rfl, r, hr⟩
  · -- It was pending before, under the same id.
    obtain ⟨hid, htype, -⟩ := trailAll_same (b.lastsOf c) s
    rw [htype] at ht
    have hmem := OMap.mem_values.mpr ⟨k, hs⟩
    obtain ⟨p, hp, hpid, htracks⟩ := h s hmem ht
    rw [← hk k s hs] at hkey
    refine ⟨{ p with prices := p.prices ++ b.pricesOf c }, ?_, hpid.trans hid.symm, ?_⟩
    · have hp' := List.mem_map_of_mem (f := fun p : Placement => { p with prices := p.prices ++ b.pricesOf c }) hp
      cases hn : b.stopOf c with
      | none =>
        rw [record_same (.inl hn)]
        exact hp'
      | some t =>
        obtain ⟨hfree, ⟨r, hr⟩, -⟩ | ⟨e, he⟩ := stopOf_call hn
        · rw [record_placed hn hr]
          refine List.mem_append_left _ (List.mem_filter.mpr ⟨hp', decide_eq_true fun heq => ?_⟩)
          dsimp only at heq
          rw [← heq, hpid, hk k s hs, hs] at hfree
          cases hfree
        · rw [record_same (.inr ⟨e, congrArg Prod.fst he⟩)]
          exact hp'
    · exact htracks.call (hc s hmem ht hkey)
  · refine ⟨⟨s'.orderId, b.lastTradePriceTicks, []⟩, ?_, rfl, stopOf_tracks hs ht⟩
    rw [record_placed hs hr]
    exact List.mem_append_right _ (List.mem_singleton_self _)

/-- In a run whose calls trade beyond the extremum of a pending trailing stop order only up to the last price
of a batch, the extremum and the trigger price are those of all prices since its placement. -/
theorem trailing_tracks_extrema (h : History OrderBook.LastsExtreme b ps) : ExtremaTracked b ps := by
  induction h with
  | new symbol clock valid => exact fun s hs => by cases hs
  | call c h hc ih => exact ih.call h.ran.keyed hc
  | @restore b b' ps h id clock restored ih =>
    unfold ExtremaTracked
    rw [(restored_stops h.ran.keyed restored).1]
    exact ih

end

instance (b : OrderBook) (c : Call) : Decidable (b.LastsExtreme c) :=
  inferInstanceAs (Decidable (∀ s ∈ b.stopOrdersById.values, s.type = .trailingStopMarket → _))

/-- The argument of `placeTrailingStopMarketOrder` for a well-formed order of user `u`. -/
def trailingOrder (orderId : String) (side : Side) (trailingAmountTicks quantity : Int) : Payload :=
  { limitOrder orderId side 1 quantity with
    priceTicks := .undefined
    trailingAmountTicks := .num (.int trailingAmountTicks) }

/-- After a trade at price 1, a trailing stop order to sell is placed. -/
def trailingCalls : List Call :=
  [.placeLimitOrder (some (limitOrder "a" .sell 1 1)), .placeLimitOrder (some (limitOrder "b" .buy 1 1)),
    .placeTrailingStopMarketOrder (some (trailingOrder "t" .sell 10 1))]

/-- Calls one after the other, with the placements. -/
def recordAll : OrderBook × List Placement → List Call → OrderBook × List Placement
  | bs, [] => bs
  | (b, ps), c :: cs => recordAll ((call b c).2, b.record c ps) cs

/-- All calls of a list satisfy the condition where they are made. -/
def Along (ok : OrderBook → Call → Prop) : OrderBook → List Call → Prop
  | _, [] => True
  | b, c :: cs => ok b c ∧ Along ok (call b c).2 cs

theorem History.calls {ok : OrderBook → Call → Prop} {b : OrderBook} {ps : List Placement} (h : History ok b ps)
    {cs : List Call} (hcs : Along ok b cs) :
    History ok (recordAll (b, ps) cs).1 (recordAll (b, ps) cs).2 := by
  induction cs generalizing b ps with
  | nil => exact h
  | cons c cs ih => exact ih (.call c h hcs.1) hcs.2

theorem Reachable.recordAll {b : OrderBook} {ps : List Placement} (h : Reachable b) {cs : List Call}
    (hcs : Along Exact b cs) : Reachable (Node.recordAll (b, ps) cs).1 := by
  induction cs generalizing b ps with
  | nil => exact h
  | cons c cs ih => exact ih (.call c h hcs.1) hcs.2

/-- The trailing stop order follows a trade at price 3. -/
theorem trailing_tracks_extrema_three :
    ExtremaTracked
      (recordAll (OrderBook.new "BTC-USD" fun _ => 0, []) (trailingCalls ++
        [.placeLimitOrder (some (limitOrder "c" .sell 3 1)), .placeLimitOrder (some (limitOrder "d" .buy 3 1))])).1
      (recordAll (OrderBook.new "BTC-USD" fun _ => 0, []) (trailingCalls ++
        [.placeLimitOrder (some (limitOrder "c" .sell 3 1)),
          .placeLimitOrder (some (limitOrder "d" .buy 3 1))])).2 := by
  refine trailing_tracks_extrema (.calls (.new "BTC-USD" (fun _ => 0) (by decide)) ?_)
  refine ⟨by decide +kernel, by decide +kernel, by decide +kernel, by decide +kernel, by decide +kernel, trivial⟩

/-- A sale at the prices 5 and 2, after the trailing stop order was placed at price 1. -/
def sweptBids : OrderBook × List Placement :=
  recordAll (OrderBook.new "BTC-USD" fun _ => 0, []) (trailingCalls ++
    [.placeLimitOrder (some (limitOrder "c" .buy 5 1)), .placeLimitOrder (some (limitOrder "d" .buy 2 1)),
      .placeMarketOrder (some { limitOrder "e" .sell 1 2 with priceTicks := .undefined })])

/-- The trade at price 5 is not the last one of its batch, and the peak stays below it. -/
theorem peak_missed : Reachable sweptBids.1 ∧ History (fun _ _ => True) sweptBids.1 sweptBids.2 ∧
    ¬ ExtremaTracked sweptBids.1 sweptBids.2 := by
  refine ⟨.recordAll (.new "BTC-USD" (fun _ => 0) (by decide)) ?_, .calls (.new "BTC-USD" (fun _ => 0) (by decide))
    ⟨trivial, trivial, trivial, trivial, trivial, trivial, trivial⟩, fun h => ?_⟩
  · exact ⟨by decide +kernel, by decide +kernel, by decide +kernel, by decide +kernel, by decide +kernel,
      by decide +kernel, trivial⟩
  · have hpeaks : (sweptBids.1.stopOrdersById.values.any fun s => decide (s.type = .trailingStopMarket) &&
        decide (s.side = .str (sideText .sell)) && decide (s.peakPriceTicks = some 2)) = true := by decide +kernel
    have hprices : sweptBids.2.map (fun p => (p.last, p.prices)) = [(some 1, [5, 2])] := by decide +kernel
    obtain ⟨s, hs, hpeak⟩ := List.any_eq_true.mp hpeaks
    simp only [Bool.and_eq_true, decide_eq_true_iff] at hpeak
    obtain ⟨⟨htype, hside⟩, htwo⟩ := hpeak
    obtain ⟨p, hp, -, htracks⟩ := h s hs htype
    have hseen : (p.last, p.prices) = (some 1, [5, 2]) := by
      have hmem := List.mem_map_of_mem (f := fun p : Placement => (p.last, p.prices)) hp
      rw [hprices] at hmem
      exact List.mem_singleton.mp hmem
    obtain ⟨last, amount, peak, hlast, hat, hmax⟩ := htracks.peak hside
    rw [(Prod.mk.inj hseen).1] at hlast
    rw [← Option.some.inj hlast, (Prod.mk.inj hseen).2, ← hat.extremum, htwo] at hmax
    exact absurd hmax (by decide)

end Lob.Node
