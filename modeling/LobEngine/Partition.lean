import LobEngine.Go.Book
import LobEngine.Node.Value
import Mathlib

/-!
# Partition routing

The partition of a symbol, `partition.go` and `symbolPartitioner.js`. A JavaScript string is traversed
by its UTF-16 code units, and the hash is a number that every bitwise operator truncates to 32 bits; in
Go it is an `int32`, which wraps at every operation.

* `charCodes_eq`: both languages see the same code units.
* `hashSteps_eq`: the two hashes are equal after every code unit.
* `routing_agrees`: both languages send a symbol to the same partition, and nobody else takes it.
-/

namespace Lob

/-! ## `partition.go` -/

namespace Go

/-- `utf16.Encode` of one rune. -/
def utf16Rune (r : Nat) : List Nat :=
  if r < 0xd800 ∨ 0xe000 ≤ r ∧ r < 0x10000 then [r]
  else if 0x10000 ≤ r ∧ r ≤ 0x10ffff then
    [0xd800 + (((r - 0x10000) >>> 10) &&& 0x3ff), 0xdc00 + ((r - 0x10000) &&& 0x3ff)]
  else [0xfffd]

/-- `utf16.Encode([]rune(symbol))`. -/
def utf16Encode (symbol : String) : List Nat := symbol.toList.flatMap fun c => utf16Rune c.toNat

/-- One iteration of the loop of `ID`, on an `int32`. -/
def hashStep (hash : BitVec 32) (codeUnit : Nat) : BitVec 32 :=
  let hash := (hash <<< 5) + hash
  hash ^^^ BitVec.ofNat 32 codeUnit

/-- `ID`. -/
def partitionID (symbol : String) (count : Int) : Except GoError Int :=
  if isBlank symbol then .error (.error "symbol must be a non-empty string")
  else if count < 1 then .error (.error "partitionCount must be a positive integer")
  else
    let hash := (utf16Encode symbol).foldl hashStep (BitVec.ofNat 32 5381)
    let value := hash.toInt
    let value := if value < 0 then -value else value
    .ok (value.tmod count)

/-- `Validate`. -/
def validate (id count : Int) : Except GoError Unit :=
  if count < 1 then .error (.error "partitionCount must be a positive integer")
  else if id < 0 ∨ count ≤ id then
    .error (.error ("partitionId must be an integer >= 0 and < " ++ toString count))
  else .ok ()

def queueName (id : Int) : String := "order.commands.partition." ++ toString id

/-- What `Handle` checks of the partition of a command. -/
def checkPartition (symbol : String) (partitionID partitionCount : Int) : Except GoError Unit :=
  match Go.partitionID symbol partitionCount with
  | .error e => .error e
  | .ok commandPartition =>
    if commandPartition ≠ partitionID then
      .error (.error ("partition mismatch for " ++ symbol ++ ": expected " ++ toString partitionID ++
        ", got " ++ toString commandPartition))
    else .ok ()

end Go

/-! ## `symbolPartitioner.js` -/

namespace Node

/-- The code units of one code point. -/
def charCodesOf (c : Nat) : List Nat :=
  if c < 0x10000 then [c]
  else [(c - 0x10000) / 0x400 + 0xd800, (c - 0x10000) % 0x400 + 0xdc00]

/-- `symbol.charCodeAt(i)`, for each `i` below `symbol.length`. -/
def charCodes (symbol : String) : List Nat := symbol.toList.flatMap fun c => charCodesOf c.toNat

/-- The operand of a bitwise operator. -/
def toInt32 : Num → BitVec 32
  | .int n => BitVec.ofInt 32 n
  | .frac q _ => BitVec.ofInt 32 (q.num.tdiv q.den)
  | _ => 0

/-- `((hash << 5) + hash) ^ code`, where the hash is an integer. -/
def hashStep (hash : Int) (code : Nat) : Int :=
  (toInt32 ((Num.int (toInt32 (.int hash) <<< 5).toInt).addInt hash) ^^^ BitVec.ofNat 32 code).toInt

def hashSymbol : JsVal → Except JsError Int
  | .str symbol =>
    if isBlank symbol then .error (.error "symbol must be a non-empty string")
    else
      let hash := (charCodes symbol).foldl hashStep 5381
      .ok |hash|
  | _ => .error (.error "symbol must be a non-empty string")

/-- The check of `partitionCount`. -/
def assertPartitionCount : JsVal → Except JsError Int
  | .num (.int n) => if n < 1 then .error (.error "partitionCount must be a positive integer") else .ok n
  | _ => .error (.error "partitionCount must be a positive integer")

def getPartitionId (symbol partitionCount : JsVal) : Except JsError Int :=
  match assertPartitionCount partitionCount with
  | .error e => .error e
  | .ok n =>
    match hashSymbol symbol with
    | .error e => .error e
    | .ok hash => .ok (hash.tmod n)

/-- `assertValidPartitionConfig`, for a partition that is an integer. -/
def assertValidPartitionConfig (partitionId : Int) (partitionCount : JsVal) : Except JsError Unit :=
  match assertPartitionCount partitionCount with
  | .error e => .error e
  | .ok n =>
    if partitionId < 0 ∨ n ≤ partitionId then
      .error (.error ("partitionId must be an integer >= 0 and < " ++ toString n))
    else .ok ()

/-- Also what the consumer of a partition checks of the symbol of a command. -/
def isSymbolAssignedToPartition (symbol : JsVal) (partitionId : Int) (partitionCount : JsVal) :
    Except JsError Bool :=
  (getPartitionId symbol partitionCount).map fun id => decide (id = partitionId)

/-- `getOrderCommandQueueName`. -/
def getOrderCommandQueueName (partitionId : Int) : String :=
  "order.commands.partition." ++ toString partitionId

/-- The queue to which a route of the API publishes the command for a symbol. -/
def publishQueue (symbol partitionCount : JsVal) : Except JsError String :=
  (getPartitionId symbol partitionCount).map getOrderCommandQueueName

end Node

/-! ## What is stored -/

/-- The symbols that are listed, and what there is of each symbol. -/
structure Store (C : Type) where
  symbols : List String
  content : String → C

namespace Store

variable {C : Type}

/-- The partition of the symbol is `p`. -/
def Own (p n : Int) (symbol : String) : Prop := Go.partitionID symbol n = .ok p

/-- The stores list the same symbols of the partition `p`, and have the same of each of them. -/
structure Agree (p n : Int) (S S' : Store C) : Prop where
  listed : ∀ symbol, Own p n symbol → (symbol ∈ S.symbols ↔ symbol ∈ S'.symbols)
  content : ∀ symbol, Own p n symbol → S.content symbol = S'.content symbol

/-- No symbol is listed twice, and what there is of a symbol of the partition `p` is its own. -/
structure WellFormed (own : String → C → Prop) (p n : Int) (S : Store C) : Prop where
  nodup : S.symbols.Nodup
  content : ∀ symbol, Own p n symbol → own symbol (S.content symbol)

/-- Every listed symbol has a partition: none is blank. The languages do not agree on white space, so what one of
them lists may be blank in the other. -/
def Routed (blank : String → Bool) (S : Store C) : Prop := ∀ symbol ∈ S.symbols, blank symbol = false

end Store

/-! ## Code units -/

theorem charCodesOf_eq (c : Char) : Node.charCodesOf c.toNat = Go.utf16Rune c.toNat := by
  have hvalid : c.toNat < 0xd800 ∨ 0xdfff < c.toNat ∧ c.toNat < 0x110000 := c.valid
  unfold Node.charCodesOf Go.utf16Rune
  by_cases hc : c.toNat < 0x10000
  · rw [if_pos hc, if_pos (by omega)]
  · rw [if_neg hc, if_neg (by omega), if_pos (by omega), Nat.shiftRight_eq_div_pow,
      Nat.and_two_pow_sub_one_eq_mod _ 10, Nat.and_two_pow_sub_one_eq_mod _ 10,
      Nat.mod_eq_of_lt (a := (c.toNat - 0x10000) / 2 ^ 10) (by omega), Nat.add_comm 0xd800,
      Nat.add_comm 0xdc00]

/-- Both languages see the same code units. -/
theorem charCodes_eq (s : String) : Node.charCodes s = Go.utf16Encode s := by
  unfold Node.charCodes Go.utf16Encode
  exact congrArg (s.toList.flatMap ·) (funext charCodesOf_eq)

/-! ## Hashes -/

/-- The sum of two 32-bit integers is exact as a double. -/
theorem hashStep_eq (x : BitVec 32) (code : Nat) :
    Node.hashStep x.toInt code = (Go.hashStep x code).toInt := by
  have hx := x.le_toInt
  have hx' := x.toInt_lt
  have hy := (x <<< 5).le_toInt
  have hy' := (x <<< 5).toInt_lt
  have hexact : (Num.int (x <<< 5).toInt).addInt x.toInt = .int ((x <<< 5).toInt + x.toInt) :=
    Num.ofInt_exact (by unfold Num.maxExact; omega) (by unfold Num.maxExact; omega)
  unfold Node.hashStep Go.hashStep
  simp only [Node.toInt32, BitVec.ofInt_toInt, hexact, BitVec.ofInt_add]

/-- The two hashes are equal after any code units. -/
theorem hashSteps_eq (x : BitVec 32) (codes : List Nat) :
    codes.foldl Node.hashStep x.toInt = (codes.foldl Go.hashStep x).toInt := by
  induction codes generalizing x with
  | nil => rfl
  | cons c codes ih => rw [List.foldl_cons, List.foldl_cons, hashStep_eq, ih]

/-! ## Routing -/

theorem queueName_inj {p q : Int} : Go.queueName p = Go.queueName q ↔ p = q := by
  unfold Go.queueName
  rw [String.append_right_inj]
  exact ⟨fun h => Int.repr_injective h, congrArg _⟩

section

variable {s : String} {n : Int}

/-- A symbol of a partition is not blank in Go. -/
theorem own_not_blank {p : Int} (h : Store.Own p n s) : Go.isBlank s = false := by
  by_contra hblank
  rw [Store.Own, Go.partitionID, if_pos (Bool.eq_true_of_not_eq_false hblank)] at h
  cases h

theorem partitionID_ok (hs : Go.isBlank s = false) (hn : 1 ≤ n) :
    ∃ id, Go.partitionID s n = .ok id ∧ 0 ≤ id ∧ id < n ∧
      id = |((Go.utf16Encode s).foldl Go.hashStep (BitVec.ofNat 32 5381)).toInt|.tmod n := by
  set x := ((Go.utf16Encode s).foldl Go.hashStep (BitVec.ofNat 32 5381)).toInt with hx
  have habs : (if x < 0 then -x else x) = |x| := by
    rw [abs_eq_max_neg]
    split <;> omega
  refine ⟨_, ?_, ?_, ?_, rfl⟩
  · unfold Go.partitionID
    rw [hs, if_neg Bool.false_ne_true, if_neg (by omega)]
    dsimp only
    rw [← hx, habs]
  · exact Int.tmod_nonneg _ (abs_nonneg x)
  · exact Int.tmod_lt_of_pos _ (by omega)

theorem assertPartitionCount_ok (hn : 1 ≤ n) : Node.assertPartitionCount (.num (.int n)) = .ok n :=
  if_neg (by omega)

/-- The reference engine computes the same number. -/
theorem getPartitionId_eq (hj : Node.isBlank s = false) (hs : Go.isBlank s = false) (hn : 1 ≤ n) {id : Int}
    (hid : Go.partitionID s n = .ok id) : Node.getPartitionId (.str s) (.num (.int n)) = .ok id := by
  obtain ⟨id', hid', -, -, heq⟩ := partitionID_ok hs hn
  rw [hid] at hid'
  cases hid'
  have hhash : (Node.charCodes s).foldl Node.hashStep 5381 =
      ((Go.utf16Encode s).foldl Go.hashStep (BitVec.ofNat 32 5381)).toInt := by
    rw [charCodes_eq]
    exact hashSteps_eq (BitVec.ofNat 32 5381) _
  have hsym : Node.hashSymbol (.str s) =
      .ok |((Go.utf16Encode s).foldl Go.hashStep (BitVec.ofNat 32 5381)).toInt| := by
    unfold Node.hashSymbol
    dsimp only
    rw [hj, if_neg Bool.false_ne_true, hhash]
  unfold Node.getPartitionId
  rw [assertPartitionCount_ok hn, hsym, heq]

theorem validate_count {id n : Int} (h : Go.validate id n = .ok ()) : 1 ≤ n := by
  by_contra hlt
  rw [Go.validate, if_pos (by omega)] at h
  cases h

theorem validate_ok {id : Int} (hn : 1 ≤ n) : Go.validate id n = .ok () ↔ 0 ≤ id ∧ id < n := by
  unfold Go.validate
  rw [if_neg (by omega)]
  split
  · simp only [reduceCtorEq, false_iff]
    omega
  · simp only [true_iff]
    omega

theorem assertValidPartitionConfig_ok {id : Int} (hn : 1 ≤ n) :
    Node.assertValidPartitionConfig id (.num (.int n)) = .ok () ↔ 0 ≤ id ∧ id < n := by
  unfold Node.assertValidPartitionConfig
  rw [assertPartitionCount_ok hn]
  dsimp only
  split
  · simp only [reduceCtorEq, false_iff]
    omega
  · simp only [true_iff]
    omega

theorem checkPartition_ok {id p : Int} (hid : Go.partitionID s n = .ok id) :
    Go.checkPartition s p n = .ok () ↔ p = id := by
  unfold Go.checkPartition
  rw [hid]
  dsimp only
  split
  · next h => simp only [reduceCtorEq, false_iff]; exact Ne.symm h
  · next h => simp only [true_iff]; exact (not_not.mp h).symm

/-- Both languages assign a symbol to the same partition. The queue that the API publishes its commands to
is the one of this partition and of no other, and no worker of another partition accepts them. -/
theorem routing_agrees (hj : Node.isBlank s = false) (hg : Go.isBlank s = false) (hn : 1 ≤ n) :
    ∃ id, Go.partitionID s n = .ok id ∧ Node.getPartitionId (.str s) (.num (.int n)) = .ok id ∧
      0 ≤ id ∧ id < n ∧
      ∃ queue, Node.publishQueue (.str s) (.num (.int n)) = .ok queue ∧
        Go.validate id n = .ok () ∧ Node.assertValidPartitionConfig id (.num (.int n)) = .ok () ∧
        ∀ p, (Go.queueName p = queue ↔ p = id) ∧ (Node.getOrderCommandQueueName p = queue ↔ p = id) ∧
          (Go.checkPartition s p n = .ok () ↔ p = id) ∧
          (Node.isSymbolAssignedToPartition (.str s) p (.num (.int n)) = .ok true ↔ p = id) := by
  obtain ⟨id, hid, hnonneg, hlt, -⟩ := partitionID_ok hg hn
  have hnode := getPartitionId_eq hj hg hn hid
  refine ⟨id, hid, hnode, hnonneg, hlt, Node.getOrderCommandQueueName id, ?_, ?_, ?_, fun p => ?_⟩
  · rw [Node.publishQueue, hnode]
    rfl
  · exact (validate_ok hn).mpr ⟨hnonneg, hlt⟩
  · exact (assertValidPartitionConfig_ok hn).mpr ⟨hnonneg, hlt⟩
  · refine ⟨queueName_inj, queueName_inj, checkPartition_ok hid, ?_⟩
    rw [Node.isSymbolAssignedToPartition, hnode]
    show Except.ok (decide (id = p)) = .ok true ↔ p = id
    rw [Except.ok.injEq, decide_eq_true_iff, eq_comm]

theorem routing_agrees_emoji : ∃ id, Go.partitionID "A😀B" 7 = .ok id ∧
    Node.getPartitionId (.str "A😀B") (.num (.int 7)) = .ok id := by
  obtain ⟨id, hgo, hnode, -⟩ := @routing_agrees "A😀B" 7 (by decide) (by decide) (by decide)
  exact ⟨id, hgo, hnode⟩

example : Go.partitionID "A😀B" 7 = .ok 6 := by decide

end

end Lob
