import LobEngine.Go.Rejected
import LobEngine.Node.Rejected
import LobEngine.Stops

/-!
# Rejected commands, in both engines

Neither engine undoes what a command did before it failed. The checks of the order come before it is
matched, but the stop orders that its trades trigger are executed afterwards, and can make the command
fail: `rejected_changes_nothing_iff`.
-/

namespace Lob

/-- In both engines a rejected command leaves every book as it is, exactly if it does not begin to match. -/
theorem rejected_changes_nothing_iff {g : Go.Registry} (hg : g.Held) {now : Clock} {c : Go.Command}
    {e : Go.CommandError} (he : (g.execute now c).1 = .error e) {n : Node.BookRegistry} (hn : n.Held)
    {clock : Clock} {c' : Node.Command} (hex : n.Exact clock c') {e' : Node.JsError}
    (he' : (n.executeOrderCommand clock c').1 = .error e') :
    ((∀ symbol, (g.execute now c).2.content now symbol = g.content now symbol) ↔ g.begins now c = false) ∧
      ((∀ symbol, (n.executeOrderCommand clock c').2.content clock symbol = n.content clock symbol) ↔
        n.begins clock c' = false) :=
  ⟨Go.Registry.rejected_iff hg he, Node.BookRegistry.rejected_iff hn hex he'⟩

theorem error_of_isOk {ε α : Type} {x : Except ε α} (h : x.isOk = false) : ∃ e, x = .error e := by
  cases x with
  | error e => exact ⟨e, rfl⟩
  | ok a => cases h

/-- The limit order `id` to buy one at 1, as a command. -/
def Go.buyCommand (id : String) : Go.Command where
  commandId := "1"
  type := "PLACE_LIMIT_ORDER"
  symbol := "BTC-USD"
  payload := some (.obj [("orderId", .str id), ("userId", .str "v"), ("side", .str "BUY"),
    ("priceTicks", .num (.int 1)), ("quantity", .num (.int 1)), ("timestamp", .num (.int 0))])
  createdAt := 0
  processedAt := none

/-- As `Go.buyCommand`. -/
def Node.buyCommand (id : String) : Node.Command where
  type := .str "PLACE_LIMIT_ORDER"
  symbol := .str "BTC-USD"
  payload := some { Node.limitOrder id .buy 1 1 with userId := .str "v" }

/-- An order rests at 1, and a stop order that cannot be executed waits for this price. -/
def Go.stuck : Go.Registry := Go.Registry.empty.put "BTC-USD" Go.pricedStop

/-- As `Go.stuck`. -/
def Node.stuck : Node.BookRegistry := Node.BookRegistry.empty.put "BTC-USD" Node.ownerlessStop

theorem Go.stuck_held : Go.stuck.Held := by
  intro symbol b hb
  rcases eq_or_ne symbol "BTC-USD" with rfl | hne
  · rw [stuck, Registry.put_self] at hb
    cases hb
    exact ⟨_, _, .call Go.oneAsk_run _⟩
  · rw [stuck, Registry.put_ne _ _ hne] at hb
    cases hb

theorem Node.stuck_held : Node.stuck.Held := by
  intro symbol b hb
  rcases eq_or_ne symbol "BTC-USD" with rfl | hne
  · rw [stuck, BookRegistry.put_self] at hb
    cases hb
    exact .call _ Node.oneAsk_reachable (by decide +kernel)
  · rw [stuck, BookRegistry.put_ne _ _ hne] at hb
    cases hb

theorem Node.stuck_exact (id : String) : Node.stuck.Exact (fun _ => 0) (Node.buyCommand id) := by
  rintro _ _ hs hc
  cases hs
  cases hc
  show Node.ownerlessStop.openQuantity + 1 ≤ Num.maxExact
  decide +kernel

/-- The id "a" is taken: the command is rejected before it begins. -/
theorem rejected_changes_nothing_taken :
    ((∀ symbol, (Go.stuck.execute (fun _ => 0) (Go.buyCommand "a")).2.content (fun _ => 0) symbol =
        Go.stuck.content (fun _ => 0) symbol) ↔ Go.stuck.begins (fun _ => 0) (Go.buyCommand "a") = false) ∧
      ((∀ symbol, (Node.stuck.executeOrderCommand (fun _ => 0) (Node.buyCommand "a")).2.content (fun _ => 0) symbol =
        Node.stuck.content (fun _ => 0) symbol) ↔
          Node.stuck.begins (fun _ => 0) (Node.buyCommand "a") = false) :=
  rejected_changes_nothing_iff Go.stuck_held (e := .engine (.error "order already exists: a"))
    (by rfl) Node.stuck_held (Node.stuck_exact "a")
    (show (Node.stuck.executeOrderCommand (fun _ => 0) (Node.buyCommand "a")).1 =
      .error (.errorFor "order already exists: " (.str "a")) from by rfl)

/-- The order "c" buys what rests at 1. Its command fails because of the stop order, and the trade stands. -/
theorem rejected_changes_book :
    (¬ ∀ r : Go.Registry, r.Held → ∀ now c e, (r.execute now c).1 = .error e →
      ∀ symbol, (r.execute now c).2.content now symbol = r.content now symbol) ∧
    (¬ ∀ r : Node.BookRegistry, r.Held → ∀ clock c e, r.Exact clock c →
      (r.executeOrderCommand clock c).1 = .error e →
        ∀ symbol, (r.executeOrderCommand clock c).2.content clock symbol = r.content clock symbol) := by
  constructor
  · intro h
    obtain ⟨e, hfails⟩ := error_of_isOk
      (show (Go.stuck.execute (fun _ => 0) (Go.buyCommand "c")).1.isOk = false by decide +kernel)
    have hsame := h Go.stuck Go.stuck_held _ _ _ hfails
    rw [Go.Registry.rejected_iff Go.stuck_held hfails] at hsame
    exact absurd hsame (by decide +kernel)
  · intro h
    obtain ⟨e, hfails⟩ := error_of_isOk
      (show (Node.stuck.executeOrderCommand (fun _ => 0) (Node.buyCommand "c")).1.isOk = false by decide +kernel)
    have hsame := h Node.stuck Node.stuck_held _ _ _ (Node.stuck_exact "c") hfails
    rw [Node.BookRegistry.rejected_iff Node.stuck_held (Node.stuck_exact "c") hfails] at hsame
    exact absurd hsame (by decide +kernel)

end Lob
