import LobEngine.Go.Partitioned
import LobEngine.Node.Recovery

/-!
# Isolation of the partitions

What is stored of the symbols of other partitions should not matter to the recovery of a partition. The Go worker
skips these symbols before it reads anything of them. The reference standby replays them too, and only then does it
forget the ids up to which it did.

* `startUp_isolated`: a standby, if no symbols of other partitions are listed.
* `Node.startUp_other`: with more than one partition, there is always something that stops it.
* `recovery_isolated_iff`: the recovery of the Go worker is isolated unless a listed symbol has no partition, that of
  the standby only with one partition.
-/

namespace Lob

open Exc Store

namespace Node

section

variable {clock : Clock} {S S' : Store Content} {p n : Int}

theorem isAssigned_own (hn : 1 ≤ n) {symbol : String} (hj : isBlank symbol = false) (h : Own p n symbol) :
    isAssigned symbol p n = .ok true := by
  have hg := own_not_blank h
  rw [isAssigned, isSymbolAssignedToPartition, getPartitionId_eq hj hg hn h]
  show Except.ok (decide (p = p)) = .ok true
  rw [decide_eq_true rfl]

/-- Recover a symbol, and keep the id. -/
def recoverTracked (clock : Clock) (S : Store Content) (symbol : String) : ReplicaProgram RecoveryResult := do
  let result ← onRegistry (recoverSymbolFromCommandLog clock (S.content symbol) symbol)
  track symbol result.lastCommandStreamId
  return result

theorem recoverTracked_local {symbol : String} (h : (S.content symbol).Own symbol) :
    Local Replica.view symbol (recoverTracked clock S symbol) :=
  (onRegistry_local (recoverSymbolFromCommandLog_local h)).bind fun result =>
    (track_local result.lastCommandStreamId).bind fun _ => .pure _

/-- Keep the ids of the results. -/
def trackAll (results : List RecoveryResult) (r : Replica) : Replica :=
  results.foldl (fun r x => { r with
    lastReplayedStreamIds := r.lastReplayedStreamIds.set x.symbol x.lastCommandStreamId }) r

theorem trackResults_run {results : List RecoveryResult} (h : ∀ x ∈ results, isAssigned x.symbol p n = .ok true)
    (r : Replica) : (trackResults p n results).run r = (.ok (), trackAll results r) := by
  induction results generalizing r with
  | nil => rfl
  | cons x results ih =>
    have hstep : (trackResults p n (x :: results)).run r =
        (trackResults p n results).run (trackAll [x] r) := by
      rw [trackResults, h x List.mem_cons_self]
      rfl
    rw [hstep, ih fun y hy => h y (List.mem_cons_of_mem _ hy)]
    rfl

/-- To keep each id at once, or all of them at the end. -/
theorem forEach_tracked {xs : List String} {b b' : BookRegistry} {ids : OMap String String}
    {results : List RecoveryResult}
    (h : (forEach (fun x => recoverSymbolFromCommandLog clock (S.content x) x) xs).run b = (.ok results, b')) :
    (forEach (recoverTracked clock S) xs).run ⟨b, ids⟩ = (.ok results, trackAll results ⟨b', ids⟩) := by
  induction xs generalizing b ids results with
  | nil =>
    cases h
    rfl
  | cons x xs ih =>
    obtain ⟨a, b₁, ha, h⟩ := bind_ok h
    obtain ⟨as, b₂, has, h⟩ := bind_ok h
    cases h
    have hx : (recoverTracked clock S x).run ⟨b, ids⟩ = (.ok a, ⟨b₁, ids.set x a.lastCommandStreamId⟩) :=
      run_bind_ok (onRegistry_ok ha)
    rw [forEach, run_bind_ok hx, run_bind_ok (ih has), run_pure, ← recoverSymbol_symbol ha]
    rfl

theorem recoverTracked_returns {symbol : String} (r : Replica) : (recoverTracked clock S symbol).Returns r ↔
    (recoverSymbolFromCommandLog clock (S.content symbol) symbol).Returns r.bookRegistry := by
  rw [← onRegistry_returns]
  exact ⟨Returns.of_bind, fun ⟨a, r', h⟩ => ⟨a, _, run_bind_ok h⟩⟩

/-- `initialize` of a partition that all listed symbols belong to. -/
theorem initialize_sameEnd (hn : 1 ≤ n) (hS : S.WellFormed Content.Own p n) (hrouted : S.Routed isBlank)
    (hall : ∀ x ∈ S.symbols, Own p n x) (r : Replica) : SameEnd Replica.view (initializeReplica clock S p n)
      (forEach (recoverTracked clock S) S.symbols) r ⟨BookRegistry.empty, .empty⟩ := by
  have hl : ∀ x ∈ S.symbols, Local BookRegistry.books x
      (recoverSymbolFromCommandLog clock (S.content x) x) := fun x hx =>
    recoverSymbolFromCommandLog_local (hS.content x (hall x hx))
  have hlt : ∀ x ∈ S.symbols, Local Replica.view x (recoverTracked clock S x) := fun x hx =>
    recoverTracked_local (hS.content x (hall x hx))
  -- Both replay the same symbols, from an empty registry.
  have hrun : (onRegistry (replayAllSymbolsFromCommandLog clock S true)).run r =
      (onRegistry (forEach (fun x => recoverSymbolFromCommandLog clock (S.content x) x) S.symbols)).run
        { r with bookRegistry := BookRegistry.empty } := rfl
  have hreturns : (forEach (recoverTracked clock S) S.symbols).Returns ⟨BookRegistry.empty, .empty⟩ ↔
      (forEach (fun x => recoverSymbolFromCommandLog clock (S.content x) x) S.symbols).Returns
        BookRegistry.empty := by
    rw [forEach_returns hlt hS.nodup, forEach_returns hl hS.nodup]
    exact forall₂_congr fun x _ => recoverTracked_returns _
  rcases hloop : (forEach (fun x => recoverSymbolFromCommandLog clock (S.content x) x) S.symbols).run
    BookRegistry.empty with ⟨e | results, b⟩
  · have hinit : ¬ (initializeReplica clock S p n).Returns r := by
      intro h
      have h := h.of_bind
      unfold Returns at h
      rw [hrun] at h
      exact not_returns hloop (onRegistry_returns.mp h)
    have htracked := fun h => not_returns hloop (hreturns.mp h)
    exact ⟨⟨fun h => absurd h hinit, fun h => absurd h htracked⟩, fun a _ s' _ ha => absurd ⟨a, s', ha⟩ hinit⟩
  · have hassigned : ∀ x ∈ results, isAssigned x.symbol p n = .ok true := by
      intro x hx
      have hmem := List.mem_map_of_mem (f := @Except.ok StoreError _) hx
      rw [← forEach_results hl hS.nodup hloop] at hmem
      obtain ⟨symbol, hsymbol, hresult⟩ := List.mem_map.mp hmem
      rw [recoverSymbol_symbol (Prod.ext hresult rfl : _ = (_, _))]
      exact isAssigned_own hn (hrouted symbol hsymbol) (hall symbol hsymbol)
    have hreg : (onRegistry (replayAllSymbolsFromCommandLog clock S true)).run r =
        (.ok results, { r with bookRegistry := b }) := by
      rw [hrun, onRegistry_ok hloop]
    have hinit : (initializeReplica clock S p n).run r = (.ok results, trackAll results ⟨b, .empty⟩) := by
      rw [initializeReplica, run_bind_ok hreg, run_modify_bind, run_bind_ok (trackResults_run hassigned _), run_pure]
    have htracked := @forEach_tracked clock S S.symbols _ _ .empty _ hloop
    refine ⟨⟨fun _ => ⟨_, _, htracked⟩, fun _ => ⟨_, _, hinit⟩⟩, fun _ _ s' t' hs ht k => ?_⟩
    rw [hinit] at hs
    rw [htracked] at ht
    cases hs
    cases ht
    rfl

/-- There is nothing to discover. -/
theorem discoverEach_run {symbols : List String} {r : Replica}
    (h : ∀ x ∈ symbols, r.lastReplayedStreamIds.has x = true) :
    (discoverEach clock S p n symbols).run r = (.ok (), r) := by
  induction symbols with
  | nil => rfl
  | cons x xs ih =>
    rw [discoverEach, run_get_bind, if_pos (h x List.mem_cons_self)]
    exact ih fun y hy => h y (List.mem_cons_of_mem _ hy)

/-- After `initialize`, exactly the listed symbols are tracked. -/
theorem initialize_tracked (hn : 1 ≤ n) (hS : S.WellFormed Content.Own p n) (hrouted : S.Routed isBlank)
    (hall : ∀ x ∈ S.symbols, Own p n x) {r r' : Replica} {results : List RecoveryResult}
    (h : (initializeReplica clock S p n).run r = (.ok results, r')) (x : String) :
    x ∈ r'.lastReplayedStreamIds.keys ↔ x ∈ S.symbols := by
  have hlt : ∀ x ∈ S.symbols, Local Replica.view x (recoverTracked clock S x) := fun x hx =>
    recoverTracked_local (hS.content x (hall x hx))
  have hsame : SameEnd Replica.view (initializeReplica clock S p n) _ _ _ := initialize_sameEnd hn hS hrouted hall r
  obtain ⟨hreturns, hview⟩ := hsame
  obtain ⟨bs, t, ht⟩ := hreturns.mp ⟨_, _, h⟩
  have hx := hview _ _ _ _ h ht x
  rw [forEach_view hlt hS.nodup ht x] at hx
  rw [OMap.mem_keys]
  by_cases hmem : x ∈ S.symbols
  · obtain ⟨a, u, hu⟩ := (forEach_returns hlt hS.nodup).mp ⟨_, _, ht⟩ x hmem
    obtain ⟨a', u₁, -, hu'⟩ := bind_ok hu
    cases hu'
    rw [if_pos hmem, hu] at hx
    refine ⟨fun _ => hmem, fun _ => ⟨a.lastCommandStreamId, (Prod.mk.inj hx).2.trans ?_⟩⟩
    exact OMap.get?_set_self ..
  · rw [if_neg hmem] at hx
    refine ⟨fun ⟨v, hv⟩ => ?_, fun h => absurd h hmem⟩
    rw [(Prod.mk.inj hx).2] at hv
    cases hv

/-- A standby of a partition that all listed symbols of both stores belong to. -/
theorem startUp_isolated (hn : 1 ≤ n) (hS : S.WellFormed Content.Own p n) (hS' : S'.WellFormed Content.Own p n)
    (hrouted : S.Routed isBlank) (hrouted' : S'.Routed isBlank) (h : S.Agree p n S')
    (hall : ∀ x ∈ S.symbols, Own p n x) (hall' : ∀ x ∈ S'.symbols, Own p n x)
    (r r' : Replica) : SameEnd Replica.view (startUp clock S p n) (startUp clock S' p n) r r' := by
  have hlisted : ∀ x, x ∈ S.symbols ↔ x ∈ S'.symbols := fun x =>
    ⟨fun hx => (h.listed x (hall x hx)).mp hx, fun hx => (h.listed x (hall' x hx)).mpr hx⟩
  have hcongr : forEach (recoverTracked clock S') S'.symbols = forEach (recoverTracked clock S) S'.symbols :=
    forEach_congr fun x hx => by rw [recoverTracked, recoverTracked, h.content x (hall' x hx)]
  have hloops : SameEnd Replica.view (forEach (recoverTracked clock S) S.symbols)
      (forEach (recoverTracked clock S') S'.symbols) ⟨BookRegistry.empty, .empty⟩ ⟨BookRegistry.empty, .empty⟩ := by
    rw [hcongr]
    exact .forEach (fun x hx => recoverTracked_local (hS.content x (hall x hx))) hS.nodup
      ((List.perm_ext_iff_of_nodup hS.nodup hS'.nodup).mpr hlisted) fun _ => rfl
  refine (((initialize_sameEnd hn hS hrouted hall r).trans hloops).trans
    (initialize_sameEnd hn hS' hrouted' hall' r').symm).bind ?_
  intro results results' s t hs ht hview
  have hkeys := initialize_tracked hn hS hrouted hall hs
  have hkeys' := initialize_tracked hn hS' hrouted' hall' ht
  have hcatch : ∀ {T : Store Content} {u : Replica}, (∀ x, x ∈ u.lastReplayedStreamIds.keys ↔ x ∈ T.symbols) →
      (catchUp clock T p n).run u = (replayEach clock T u.lastReplayedStreamIds.keys).run u := by
    intro T u hu
    rw [catchUp, discoverSymbols,
      run_bind_ok (discoverEach_run fun x hx => OMap.has_iff.mpr ((hu x).mpr hx)), run_get_bind]
  have hreplay : SameEnd Replica.view (replayEach clock S s.lastReplayedStreamIds.keys)
      (replayEach clock S' t.lastReplayedStreamIds.keys) s t := by
    refine SameEnd.bind ?_ fun _ _ _ _ _ _ hview => .pure hview
    rw [forEach_congr (p := fun x => replayAvailableCommands clock (S'.content x) x)
      (q := fun x => replayAvailableCommands clock (S.content x) x) fun x hx => by
        rw [h.content x (hall' x ((hkeys' x).mp hx))]]
    refine .forEach (fun x hx => replayAvailableCommands_local (hS.content x (hall x ((hkeys x).mp hx))))
      s.lastReplayedStreamIds.keys_nodup ?_ hview
    exact (List.perm_ext_iff_of_nodup s.lastReplayedStreamIds.keys_nodup t.lastReplayedStreamIds.keys_nodup).mpr
      fun x => (hkeys x).trans ((hlisted x).trans (hkeys' x).symm)
  unfold SameEnd Returns at hreplay ⊢
  rw [hcatch hkeys, hcatch hkeys']
  exact hreplay

/-- A symbol that cannot be recovered. -/
def broken : Content := ⟨some none, []⟩

/-- The store, with a symbol listed first that cannot be recovered. -/
def Store.breakAt (S : Store Content) (x : String) : Store Content where
  symbols := x :: S.symbols.filter (· ≠ x)
  content := Function.update S.content x broken

theorem breakAt_fails (S : Store Content) (x : String) (r : Replica) :
    ¬ (startUp clock (Store.breakAt S x) p n).Returns r := by
  intro h
  have hfails : ∀ b : BookRegistry, (replayAllSymbolsFromCommandLog clock (Store.breakAt S x) true).run b =
      (.error .snapshot, BookRegistry.empty) := by
    intro b
    have hx : (Store.breakAt S x).content x = broken := Function.update_self ..
    rw [replayAllSymbolsFromCommandLog, if_pos rfl, run_modify_bind, Store.breakAt, forEach]
    refine run_bind_error ?_
    show (recoverSymbolFromCommandLog clock ((Store.breakAt S x).content x) x).run _ = _
    rw [hx]
    rfl
  exact not_returns (hfails _) (onRegistry_returns.mp h.of_bind.of_bind)

/-- The store agrees with the one before, if the symbol belongs to another partition. -/
theorem breakAt_agree {x : String} (hx : ¬ Own p n x) : S.Agree p n (Store.breakAt S x) where
  listed := fun y hy => by
    have hne : y ≠ x := fun h => hx (h ▸ hy)
    rw [Store.breakAt, List.mem_cons, List.mem_filter]
    exact ⟨fun h => .inr ⟨h, decide_eq_true hne⟩, fun h => (h.resolve_left hne).1⟩
  content := fun y hy => by
    have hne : y ≠ x := fun h => hx (h ▸ hy)
    exact (Function.update_of_ne hne ..).symm

theorem breakAt_routed {blank : String → Bool} (hrouted : S.Routed blank) {x : String} (hblank : blank x = false) :
    (Store.breakAt S x).Routed blank := by
  intro y hy
  rcases List.mem_cons.mp hy with rfl | hy
  · exact hblank
  · exact hrouted y (List.mem_filter.mp hy).1

theorem breakAt_wellFormed (hS : S.WellFormed Content.Own p n) {x : String} (hx : ¬ Own p n x) :
    (Store.breakAt S x).WellFormed Content.Own p n where
  nodup := List.nodup_cons.mpr ⟨fun h => (of_decide_eq_true (List.mem_filter.mp h).2 : x ≠ x) rfl, hS.nodup.filter _⟩
  content := fun y hy => (breakAt_agree hx).content y hy ▸ hS.content y hy

end

end Node

section

variable {p n : Int}

/-- With more than one partition, some symbol belongs to another one: the numbers of two symbols that differ in the
last bit of their last character follow each other. -/
theorem exists_other (hn : 2 ≤ n) (p : Int) :
    ∃ x, ¬ Own p n x ∧ Go.isBlank x = false ∧ Node.isBlank x = false := by
  obtain ⟨a, ha, -, -, hamod⟩ := @partitionID_ok "A" n (by decide) (by omega)
  obtain ⟨b, hb, -, -, hbmod⟩ := @partitionID_ok "@" n (by decide) (by omega)
  by_cases hp : a = p
  · refine ⟨"@", fun h => ?_, by decide, by decide⟩
    have hbp : b = p := Except.ok.inj (hb.symm.trans h)
    have hA : |((Go.utf16Encode "A").foldl Go.hashStep (BitVec.ofNat 32 5381)).toInt| = 177636 := by decide
    have hAt : |((Go.utf16Encode "@").foldl Go.hashStep (BitVec.ofNat 32 5381)).toInt| = 177637 := by decide
    rw [hA, Int.tmod_eq_emod_of_nonneg (by decide)] at hamod
    rw [hAt, Int.tmod_eq_emod_of_nonneg (by decide)] at hbmod
    have hmod : (177637 - 177636) % n = 0 := Int.emod_eq_emod_iff_emod_sub_eq_zero.mp (by omega)
    rw [show (177637 - 177636 : Int) = 1 from rfl, Int.emod_eq_of_lt (by decide) (by omega)] at hmod
    cases hmod
  · exact ⟨"A", fun h => hp (Except.ok.inj (ha.symm.trans h)), by decide, by decide⟩

/-- With one partition, every symbol belongs to it. -/
theorem own_one {x : String} (h : Go.isBlank x = false) : Own 0 1 x := by
  obtain ⟨id, hid, hnonneg, hlt, -⟩ := partitionID_ok h (le_refl 1)
  rw [Own, hid, show id = 0 by omega]

end

/-- What is stored of the symbols of other partitions does not matter to the Go worker of the partition `p`: if every
listed symbol has a partition, it recovers from both stores or from none, and then the same books. -/
def Go.Isolated (p n : Int) : Prop :=
  ∀ now (S S' : Store Go.Content), S.WellFormed Go.Content.Own p n → S'.WellFormed Go.Content.Own p n →
    S.Routed Go.isBlank → S'.Routed Go.isBlank → S.Agree p n S' → ∀ r,
      SameEnd Go.Registry.books (Go.recoverPartition now S p n) (Go.recoverPartition now S' p n) r r

/-- The same books are left in the registry. -/
def Node.Replica.books (r : Node.Replica) : String → Option Node.OrderBook := r.bookRegistry

/-- As `Go.Isolated`, of the standby of the reference engine, if every listed symbol has a partition in both
languages. -/
def Node.Isolated (p n : Int) : Prop :=
  ∀ clock (S S' : Store Node.Content), S.WellFormed Node.Content.Own p n → S'.WellFormed Node.Content.Own p n →
    S.Routed Go.isBlank → S'.Routed Go.isBlank → S.Routed Node.isBlank → S'.Routed Node.isBlank → S.Agree p n S' →
      ∀ r, SameEnd Node.Replica.books (Node.startUp clock S p n) (Node.startUp clock S' p n) r r

/-- Whenever the standby recovers from a store, it does not from another one, that differs in a symbol of another
partition. -/
theorem Node.startUp_other {p n : Int} (hn : 2 ≤ n) {S : Store Node.Content}
    (hS : S.WellFormed Node.Content.Own p n) (hg : S.Routed Go.isBlank) (hj : S.Routed Node.isBlank) :
    ∃ S' : Store Node.Content, S'.WellFormed Node.Content.Own p n ∧ S'.Routed Go.isBlank ∧ S'.Routed Node.isBlank ∧
      S.Agree p n S' ∧ ∀ clock r, ¬ (Node.startUp clock S' p n).Returns r := by
  obtain ⟨x, hx, hxg, hxj⟩ := exists_other hn p
  exact ⟨_, Node.breakAt_wellFormed hS hx, Node.breakAt_routed hg hxg, Node.breakAt_routed hj hxj,
    Node.breakAt_agree hx, fun clock r => Node.breakAt_fails S x r⟩

/-- Nothing is stored. -/
def Node.emptyStore : Store Node.Content := ⟨[], fun _ => ⟨none, []⟩⟩

theorem Node.emptyStore_wellFormed (p n : Int) : Node.emptyStore.WellFormed Node.Content.Own p n :=
  ⟨List.nodup_nil, fun _ _ _ h => (by cases h)⟩

theorem Node.emptyStore_routed (blank : String → Bool) : Node.emptyStore.Routed blank := fun _ h => (by cases h)

/-- The recovery of the Go worker is isolated from other partitions, but a listed symbol without a partition stops that
of every partition. The recovery of the reference standby is isolated exactly if there is only one partition; with
more, still if neither store lists a symbol of another one. -/
theorem recovery_isolated_iff {p n : Int} (hp : 0 ≤ p) (hpn : p < n) :
    Go.Isolated p n ∧
      (∀ now (S : Store Go.Content), ¬ S.Routed Go.isBlank → ∀ r, ¬ (Go.recoverPartition now S p n).Returns r) ∧
      (Node.Isolated p n ↔ n = 1) ∧
      ∀ clock (S S' : Store Node.Content), S.WellFormed Node.Content.Own p n →
        S'.WellFormed Node.Content.Own p n → S.Routed Node.isBlank → S'.Routed Node.isBlank → S.Agree p n S' →
        (∀ x ∈ S.symbols, Own p n x) → (∀ x ∈ S'.symbols, Own p n x) → ∀ r,
          SameEnd Node.Replica.books (Node.startUp clock S p n) (Node.startUp clock S' p n) r r := by
  have hown : ∀ clock (S S' : Store Node.Content), S.WellFormed Node.Content.Own p n →
      S'.WellFormed Node.Content.Own p n → S.Routed Node.isBlank → S'.Routed Node.isBlank → S.Agree p n S' →
      (∀ x ∈ S.symbols, Own p n x) → (∀ x ∈ S'.symbols, Own p n x) → ∀ r,
        SameEnd Node.Replica.books (Node.startUp clock S p n) (Node.startUp clock S' p n) r r := by
    intro clock S S' hS hS' hj hj' h hall hall' r
    have hsame : SameEnd _ (Node.startUp clock S p n) _ r r :=
      Node.startUp_isolated (by omega) hS hS' hj hj' h hall hall' r r
    obtain ⟨hreturns, hview⟩ := hsame
    exact ⟨hreturns, fun a b s t ha hb k => congrArg Prod.fst (hview a b s t ha hb k)⟩
  refine ⟨fun now S S' hS hS' hg hg' h r => Go.recoverPartition_isolated (by omega) hS hS' hg hg' h r,
    fun now S h r => Go.recoverPartition_blank h r, ⟨fun h => ?_, ?_⟩, hown⟩
  · by_contra hne
    have hempty := Node.emptyStore_routed
    obtain ⟨S', hS', hg, hj, hagree, hfails⟩ := Node.startUp_other (show 2 ≤ n by omega)
      (Node.emptyStore_wellFormed p n) (hempty _) (hempty _)
    have hreturns := (h (fun _ => 0) Node.emptyStore S' (Node.emptyStore_wellFormed p n) hS' (hempty _) hg (hempty _)
      hj hagree ⟨.empty, .empty⟩).1
    exact hfails _ _ (hreturns.mp ⟨_, _, rfl⟩)
  · rintro rfl
    obtain rfl : p = 0 := by omega
    exact fun clock S S' hS hS' hg hg' hj hj' h r => hown clock S S' hS hS' hj hj' h (fun x hx => own_one (hg x hx))
      (fun x hx => own_one (hg' x hx)) r

theorem recovery_isolated_two : Go.Isolated 0 2 ∧ (Node.Isolated 0 2 ↔ (2 : Int) = 1) :=
  have h := @recovery_isolated_iff 0 2 (by decide) (by decide)
  ⟨h.1, h.2.2.1⟩

/-- The symbol "@" of the second of two partitions, and one command in its stream. -/
def Node.foreignStore (type : String) : Store Node.Content where
  symbols := ["@"]
  content symbol := if symbol = "@" then
    ⟨none, [⟨"1-1", some ⟨.str type, .str "@", some (Node.limitOrder "a" .buy 1 1)⟩⟩]⟩ else ⟨none, []⟩

theorem Node.foreignStore_content (type : String) {symbol : String} (h : Own 0 2 symbol) :
    (Node.foreignStore type).content symbol = ⟨none, []⟩ :=
  if_neg fun hs => absurd (hs ▸ h) (by decide)

theorem Node.foreignStore_wellFormed (type : String) :
    (Node.foreignStore type).WellFormed Node.Content.Own 0 2 where
  nodup := List.nodup_singleton _
  content := fun _ hs e he => by
    rw [Node.foreignStore_content type hs] at he
    cases he

theorem Node.foreignStore_routed (type : String) {blank : String → Bool} (h : blank "@" = false) :
    (Node.foreignStore type).Routed blank := fun _ hs => List.mem_singleton.mp hs ▸ h

theorem Node.foreignStore_agree (type : String) : Node.emptyStore.Agree 0 2 (Node.foreignStore type) where
  listed := fun _ hs => by
    refine ⟨fun h => (by cases h), fun h => ?_⟩
    rw [List.mem_singleton.mp h] at hs
    exact absurd hs (by decide)
  content := fun _ hs => (Node.foreignStore_content type hs).symm

/-- A stream of the second partition that cannot be replayed stops the standby of the first one; one that can leaves
a book in its registry. The symbol U+0085 is blank in Go only: Node routes its commands to the first partition, and no
Go worker recovers while it is listed. -/
theorem recovery_not_isolated : ¬ Node.Isolated 0 2 ∧
    (∀ type, Node.emptyStore.Agree 0 2 (Node.foreignStore type)) ∧
    ((Node.startUp (fun _ => 0) Node.emptyStore 0 2).run ⟨.empty, .empty⟩).1.isOk = true ∧
    ((Node.startUp (fun _ => 0) (Node.foreignStore "REPLACE_ORDER") 0 2).run ⟨.empty, .empty⟩).1.isOk = false ∧
    ((Node.startUp (fun _ => 0) (Node.foreignStore "PLACE_LIMIT_ORDER") 0 2).run ⟨.empty, .empty⟩).1.isOk = true ∧
    (((Node.startUp (fun _ => 0) Node.emptyStore 0 2).run ⟨.empty, .empty⟩).2.books "@").isSome = false ∧
    (((Node.startUp (fun _ => 0) (Node.foreignStore "PLACE_LIMIT_ORDER") 0 2).run
      ⟨.empty, .empty⟩).2.books "@").isSome = true ∧
    Node.isSymbolAssignedToPartition (.str (.singleton (.ofNat 0x85))) 0 (.num (.int 2)) = .ok true ∧
    ∀ now r, ¬ (Go.recoverPartition now ⟨[.singleton (.ofNat 0x85)], fun _ => ⟨none, []⟩⟩ 1 2).Returns r := by
  have hfails : ((Node.startUp (fun _ => 0) (Node.foreignStore "REPLACE_ORDER") 0 2).run
      ⟨.empty, .empty⟩).1.isOk = false := by decide +kernel
  refine ⟨fun h => ?_, Node.foreignStore_agree, by decide +kernel, hfails, by decide +kernel, by decide +kernel,
    by decide +kernel, by decide +kernel, fun now r => Go.recoverPartition_blank
      (fun h => absurd (h _ List.mem_cons_self) (by decide)) r⟩
  obtain ⟨a, s, hs⟩ := (h (fun _ => 0) _ _ (Node.emptyStore_wellFormed 0 2) (Node.foreignStore_wellFormed _)
    (Node.emptyStore_routed _) (Node.foreignStore_routed _ (by decide)) (Node.emptyStore_routed _)
    (Node.foreignStore_routed _ (by decide)) (Node.foreignStore_agree "REPLACE_ORDER") ⟨.empty, .empty⟩).1.mp
      ⟨_, _, rfl⟩
  rw [hs] at hfails
  cases hfails

end Lob
