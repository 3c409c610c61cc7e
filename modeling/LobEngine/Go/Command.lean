import LobEngine.Go.Atomic
import LobEngine.Lib.Json

/-!
# Commands of the Go worker

`application/command.go`: a command names its symbol and its type, and has a payload in JSON. The
registry has a book for each symbol, and executes the command on it.

* `Command.call`: the call of the book that a command is.
* `Registry.execute`: `Registry.Execute`.
* `Book.replay`: the book after the commands of a log.
* `Logged`: a book and the commands it has executed, for any clocks.
-/

namespace Lob.Go

/-- What `json.Unmarshal` folds the name of a field to: the names match in any case. -/
def foldChar (c : Char) : Char :=
  if c = Char.ofNat 0x17f then 's' else if c = Char.ofNat 0x212a then 'k' else c.toLower

def foldName (name : String) : List Char := name.toList.map foldChar

/-- Why a command is not executed. -/
inductive CommandError where
  /-- `json.Unmarshal` does not accept the payload. -/
  | payload
  /-- "unsupported order command type". -/
  | unsupported (type : String)
  | engine (e : GoError)

namespace Unmarshal

/-- A field of type `string`; `null` leaves it as it is. -/
def string (old : String) : Json → Except CommandError String
  | .str s => .ok s
  | .null => .ok old
  | _ => .error .payload

/-- A field of type `int64`: the number is written without a fraction and an exponent, and in range. -/
def int64 (old : Int) : Json → Except CommandError Int
  | .num (.int n) => if wrap64 n = n then .ok n else .error .payload
  | .null => .ok old
  | _ => .error .payload

/-- A field of type `*int64`. -/
def int64Pointer : Json → Except CommandError (Option Int)
  | .num (.int n) => if wrap64 n = n then .ok (some n) else .error .payload
  | .null => .ok none
  | _ => .error .payload

/-- One field of an `OrderInput`; other names are ignored. -/
def setField (i : OrderInput) (field : String × Json) : Except CommandError OrderInput :=
  let name := foldName field.1
  if name = foldName "orderId" then (string i.orderId field.2).map ({ i with orderId := · })
  else if name = foldName "userId" then (string i.userId field.2).map ({ i with userId := · })
  else if name = foldName "side" then (string i.side field.2).map ({ i with side := · })
  else if name = foldName "priceTicks" then (int64Pointer field.2).map ({ i with priceTicks := · })
  else if name = foldName "triggerPriceTicks" then
    (int64Pointer field.2).map ({ i with triggerPriceTicks := · })
  else if name = foldName "trailingAmountTicks" then
    (int64Pointer field.2).map ({ i with trailingAmountTicks := · })
  else if name = foldName "quantity" then (int64 i.quantity field.2).map ({ i with quantity := · })
  else if name = foldName "timestamp" then (int64 i.timestamp field.2).map ({ i with timestamp := · })
  else .ok i

/-- Absent fields are zero. -/
def zeroInput : OrderInput := ⟨"", "", "", none, none, none, 0, 0⟩

/-- `json.Unmarshal` of the payload into an `OrderInput`. -/
def orderInput : Option Json → Except CommandError OrderInput
  | some (.obj fields) => fields.foldlM setField zeroInput
  | some .null => .ok zeroInput
  | _ => .error .payload

/-- The order id that `json.Unmarshal` finds, whether it accepts the payload or not. -/
def orderIdOf : Option Json → String
  | some (.obj fields) => fields.foldl (fun id field =>
      if foldName field.1 = foldName "orderId" then (string id field.2).toOption.getD id else id) ""
  | _ => ""

/-- `json.Unmarshal` of the payload into a struct with an order id only. -/
def orderId : Option Json → Except CommandError String
  | some (.obj fields) => fields.foldlM (fun id field =>
      if foldName field.1 = foldName "orderId" then string id field.2 else .ok id) ""
  | some .null => .ok ""
  | _ => .error .payload

end Unmarshal

structure Command where
  commandId : String
  type : String
  symbol : String
  /-- `json.RawMessage`: `none` is a payload that is missing. -/
  payload : Option Json
  createdAt : Int
  processedAt : Option Int

/-- The call of the book that the command is. -/
def Command.call (c : Command) : Except CommandError Call :=
  if c.type = "CANCEL_ORDER" then (Unmarshal.orderId c.payload).map .cancel
  else match Unmarshal.orderInput c.payload with
    | .error e => .error e
    | .ok input =>
      if c.type = "PLACE_LIMIT_ORDER" then .ok (.placeLimit input)
      else if c.type = "PLACE_MARKET_ORDER" then .ok (.placeMarket input)
      else if c.type = "PLACE_STOP_MARKET_ORDER" then .ok (.placeStopMarket input)
      else if c.type = "PLACE_STOP_LIMIT_ORDER" then .ok (.placeStopLimit input)
      else if c.type = "PLACE_TRAILING_STOP_MARKET_ORDER" then .ok (.placeTrailingStopMarket input)
      else .error (.unsupported c.type)

/-- What `Execute` does to the book of the symbol. -/
def Book.execute (b : Book) (c : Command) : Except CommandError Result × Book :=
  match c.call with
  | .error e => (.error e, b)
  | .ok call => ((Go.call b call).1.mapError .engine, (Go.call b call).2)

/-- The book after the commands of a log. -/
def Book.replay (b : Book) (cs : List Command) : Book := cs.foldl (fun b c => (b.execute c).2) b

/-- The command errs after it began to match. -/
def Book.FailsLate (b : Book) (c : Command) : Prop :=
  ∃ call e, c.call = .ok call ∧ b.begins call = true ∧ (Go.call b call).1 = .error e

/-- The books by their symbols. -/
def Registry := String → Option Book

namespace Registry

def empty : Registry := fun _ => none

def put (r : Registry) (symbol : String) (b : Book) : Registry := Function.update r symbol (some b)

@[simp] theorem put_self (r : Registry) (symbol : String) (b : Book) : r.put symbol b symbol = some b :=
  Function.update_self ..

theorem put_ne (r : Registry) {symbol symbol' : String} (b : Book) (h : symbol' ≠ symbol) :
    r.put symbol b symbol' = r symbol' := Function.update_of_ne h ..

/-- `GetOrCreate`; `now` is the clock of a new book. -/
def getOrCreate (r : Registry) (symbol : String) (now : Clock) : Except CommandError (Book × Registry) :=
  match r symbol with
  | some b => .ok (b, r)
  | none =>
    if isBlank symbol then .error (.engine (.error "symbol must be a non-empty string"))
    else .ok (Book.empty symbol now, r.put symbol (Book.empty symbol now))

/-- `Set`. -/
def set (r : Registry) (symbol : String) (b : Book) : Except CommandError Registry :=
  if b.symbol ≠ symbol then .error (.engine (.error ("book symbol mismatch: " ++ symbol)))
  else .ok (r.put symbol b)

/-- `Execute`: the book of the symbol after the command, the result, and the registry. -/
def execute (r : Registry) (now : Clock) (c : Command) :
    Except CommandError (Book × Result) × Registry :=
  match r.getOrCreate c.symbol now with
  | .error e => (.error e, r)
  | .ok (b, r) => ((b.execute c).1.map fun result => ((b.execute c).2, result),
      r.put c.symbol (b.execute c).2)

end Registry

/-! ## Logs -/

/-- Up to the timestamps of what stop orders triggered, the book is the one that the commands lead to from
an empty book. -/
structure Logged (symbol : String) (b : Book) (cs : List Command) : Prop where
  name : b.symbol = symbol
  clock : ∀ n, 0 ≤ b.now n
  replay : ∀ now : Clock, (∀ n, 0 ≤ now n) →
    (stampPairing Stamp.erase).Together 0 b ((Book.empty symbol now).replay cs)

/-- The books are the same, up to the timestamps of what stop orders triggered. -/
structure Alike (b b' : Book) : Prop where
  snapshot : b.snapshot = b'.snapshot
  recoverySnapshot : ∀ id, (b.recoverySnapshot id).restamp Stamp.erase =
    (b'.recoverySnapshot id).restamp Stamp.erase

/-- Every command of the log is accepted by a book that has executed those before it. -/
def Accepted (symbol : String) (cs : List Command) : Prop :=
  ∀ pre c, pre ++ [c] <+: cs → ∀ b, Logged symbol b pre → ∃ r, (b.execute c).1 = .ok r

section

variable {symbol : String} {b b' : Book} {cs : List Command} {c : Command}

theorem replay_append (cs ds : List Command) : b.replay (cs ++ ds) = (b.replay cs).replay ds :=
  List.foldl_append

theorem stable_symbol (name : String) :
    Stable (fun v => v.symbol = name ∧ ∀ n, 0 ≤ v.clock n) where
  clock := fun _ h => ⟨h.1, fun n => h.2 (n + 1)⟩
  last := fun _ _ h => h
  delete := fun _ _ h => h
  trail := fun _ _ h => h
  execute := fun _ _ h _ => h
  sequence := fun _ _ h => h
  add := fun _ _ h _ => h
  remove := fun _ _ h => h

theorem map_mapError (f : GoError → CommandError) (g : Result → Result) (r : Except GoError Result) :
    (r.mapError f).map g = (r.map g).mapError f := by cases r <;> rfl

/-- Two books execute a command with the same outcome. -/
theorem together_execute {n : Nat} (h : (stampPairing Stamp.erase).Together n b b') (c : Command) :
    (b.execute c).1.map (·.restamp Stamp.erase) = (b'.execute c).1.map (·.restamp Stamp.erase) ∧
      (stampPairing Stamp.erase).Together n (b.execute c).2 (b'.execute c).2 := by
  unfold Book.execute
  cases c.call with
  | error e => exact ⟨rfl, h⟩
  | ok call =>
    obtain ⟨hout, htogether⟩ := h.call call trivial fun _ _ => not_false
    refine ⟨?_, htogether⟩
    dsimp only
    rw [map_mapError, map_mapError, stampPairing_outcome hout]

theorem symbol_execute {v : View} (h : Good b v) (hn : ∀ n, 0 ≤ b.now n) (c : Command) :
    (b.execute c).2.symbol = b.symbol ∧ ∀ n, 0 ≤ (b.execute c).2.now n := by
  unfold Book.execute
  cases c.call with
  | error e => exact ⟨rfl, hn⟩
  | ok call =>
    obtain ⟨⟨F, hr⟩, -⟩ := id h
    obtain ⟨-, ⟨F', hr'⟩, -⟩ := call_refines call h
    have hkept := (stable_symbol v.symbol).program call v ⟨rfl, hr.clock ▸ hn⟩
    exact ⟨hr'.symbol.symm.trans (hkept.1.trans hr.symbol), hr'.clock ▸ hkept.2⟩

namespace Logged

theorem good (h : Logged symbol b cs) : ∃ v, Good b v := by
  obtain ⟨v, w, hv, -⟩ := h.replay (fun _ => 0) fun _ => le_rfl
  exact ⟨v, hv⟩

theorem alike (h : Logged symbol b cs) {now : Clock} (hn : ∀ n, 0 ≤ now n) :
    Alike b ((Book.empty symbol now).replay cs) := by
  obtain ⟨hsnap, hrec⟩ := stampPairing_books (h.replay now hn)
  exact ⟨hsnap, hrec⟩

theorem empty (hs : isBlank symbol = false) {now : Clock} (hn : ∀ n, 0 ≤ now n) :
    Logged symbol (Book.empty symbol now) [] := by
  refine ⟨rfl, hn, fun now' hn' => ?_⟩
  refine ⟨_, _, good_empty now hs, good_empty now' hs, rfl, rfl, rfl, fun _ _ => trivial, rfl,
    fun _ => rfl, fun k => ⟨rfl, ?_⟩, le_rfl⟩
  exact iff_of_false (not_lt.mpr (hn k)) (not_lt.mpr (hn' k))

theorem execute (h : Logged symbol b cs) (c : Command) :
    Logged symbol (b.execute c).2 (cs ++ [c]) := by
  obtain ⟨v, hv⟩ := h.good
  obtain ⟨hname, hclock⟩ := symbol_execute hv h.clock c
  refine ⟨hname.trans h.name, hclock, fun now hn => ?_⟩
  rw [replay_append]
  exact (together_execute (h.replay now hn) c).2

/-- Two books with the same log execute a command with the same outcome. -/
theorem outcome (h : Logged symbol b cs) (h' : Logged symbol b' cs) (c : Command) :
    (b.execute c).1.map (·.restamp Stamp.erase) = (b'.execute c).1.map (·.restamp Stamp.erase) := by
  have hb := together_execute (h.replay (fun _ => 0) fun _ => le_rfl) c
  have hb' := together_execute (h'.replay (fun _ => 0) fun _ => le_rfl) c
  exact hb.1.trans hb'.1.symm

/-- A command that errs in time leaves no trace. -/
theorem execute_error {e : CommandError} (h : Logged symbol b cs)
    (he : (b.execute c).1 = .error e) (hlate : ¬ b.FailsLate c) :
    Logged symbol (b.execute c).2 cs := by
  obtain ⟨v, hv⟩ := h.good
  obtain ⟨hname, hclock⟩ := symbol_execute hv h.clock c
  refine ⟨hname.trans h.name, hclock, fun now hn => ?_⟩
  obtain ⟨v, w, hv, hw, hrel⟩ := h.replay now hn
  unfold Book.execute at he ⊢
  cases hc : c.call with
  | error e => exact ⟨v, w, hv, hw, hrel⟩
  | ok call =>
    rw [hc] at he
    dsimp only at he
    cases hout : (Go.call b call).1 with
    | ok r =>
      rw [hout] at he
      cases he
    | error e' =>
      refine ⟨v, w, hv.error hout ?_, hw, hrel⟩
      by_contra hb
      exact hlate ⟨call, e', hc, by simpa using hb, hout⟩

/-- The book restored from the recovery snapshot of a book. -/
theorem restore (h : Logged symbol b cs) (id : Option String) {now : Clock} (hn : ∀ n, 0 ≤ now n) :
    ∃ b', fromRecoverySnapshot (b.recoverySnapshot id) now = .ok b' ∧ Logged symbol b' cs := by
  obtain ⟨v, hv⟩ := h.good
  obtain ⟨b', hb', hgood⟩ := restored hv id now
  obtain ⟨⟨F, hr⟩, -⟩ := hv
  obtain ⟨⟨F', hr'⟩, -⟩ := hgood
  have hclock : ∀ n, 0 ≤ b'.now n := hr'.clock ▸ hn
  refine ⟨b', hb', hr'.symbol.symm.trans (hr.symbol.trans h.name), hclock, fun now' hn' => ?_⟩
  obtain ⟨v, w, hv, hw, hrel⟩ := h.replay now' hn'
  obtain ⟨b₁, hb₁, hgood⟩ := restored hv id now
  obtain rfl : b' = b₁ := Except.ok.inj (hb'.symm.trans hb₁)
  refine ⟨_, w, hgood, hw, hrel.sides, hrel.symbol, hrel.stops, hrel.ids, hrel.last, hrel.sequence,
    fun k => ⟨?_, ?_⟩, Nat.zero_le _⟩
  · rfl
  · -- The clock of `w` is not negative, because that of `b` is not.
    obtain ⟨⟨F₁, hr₁⟩, -⟩ := hv
    refine iff_of_false (not_lt.mpr (hn k)) fun hneg => ?_
    have := (hrel.clock k).2.mpr hneg
    rw [hr₁.clock] at this
    exact absurd (h.clock k) (not_le.mpr this)

end Logged

theorem Accepted.nil : Accepted symbol [] := by
  intro pre c h
  exact absurd (List.prefix_nil.mp h) (List.append_ne_nil_of_right_ne_nil _ (List.cons_ne_nil _ _))

/-- A log that a book could execute can be executed by every such book. -/
theorem Accepted.append (h : Accepted symbol cs) (hb : Logged symbol b cs) {r : Result}
    (hr : (b.execute c).1 = .ok r) : Accepted symbol (cs ++ [c]) := by
  intro pre d hpre b' hb'
  rcases List.prefix_concat_iff.mp hpre with heq | hpre
  · obtain ⟨rfl, hd⟩ := List.append_inj' heq rfl
    obtain rfl : d = c := List.head_eq_of_cons_eq hd
    have hout := hb'.outcome hb d
    rw [hr] at hout
    cases hr' : (b'.execute d).1 with
    | error e =>
      rw [hr'] at hout
      cases hout
    | ok r' => exact ⟨r', rfl⟩
  · exact h pre d hpre b' hb'

end

end Lob.Go
