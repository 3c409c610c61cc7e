import LobEngine.Lib.Double

/-!
# The values a caller of the reference engine can pass

The reference engine is JavaScript: an argument can be any value. `JsVal` has the primitive values
and, for everything else, `obj` with its identity (for `===` and `Map` keys) and what it converts
to when it is compared with a number (`none`: the conversion throws).

* `toNumber`: the numeric conversion, with the syntax of numeric strings.
* `assert…`: the checks of `utils/Assertions.js`; each returns the value it checked, typed.
-/

namespace Lob.Node

inductive JsVal where
  | undefined
  | null
  | bool (b : Bool)
  | num (n : Num)
  | str (s : String)
  | obj (ident : Nat) (prim : Option Num)
  deriving DecidableEq

/-- What a method of the reference engine throws. -/
inductive JsError where
  /-- A `TypeError` of the language: a property of `undefined` or `null`, a conversion. -/
  | typeError
  /-- `throw new Error(message)`. -/
  | error (message : String)
  /-- `throw new Error(...)` whose message ends in the string form of a value. -/
  | errorFor (message : String) (value : JsVal)
  /-- Not in the source: the bound on the iterations of a loop was reached. -/
  | outOfFuel
  deriving DecidableEq

/-! ## Numeric conversion -/

/-- White space and line ends, as `trim` removes them. -/
def isSpace (c : Char) : Bool :=
  c.toNat ∈ [9, 10, 11, 12, 13, 32, 0xA0, 0x1680, 0x2028, 0x2029, 0x202F, 0x205F, 0x3000, 0xFEFF] ||
    0x2000 ≤ c.toNat && c.toNat ≤ 0x200A

/-- `s.trim() === ""`. -/
def isBlank (s : String) : Bool := s.toList.all isSpace

def trim (s : List Char) : List Char :=
  ((s.dropWhile isSpace).reverse.dropWhile isSpace).reverse

/-- The value of a digit below `base`. -/
def digit (base : Nat) (c : Char) : Option Nat :=
  let v := if '0' ≤ c ∧ c ≤ '9' then c.toNat - '0'.toNat
    else if 'a' ≤ c ∧ c ≤ 'z' then c.toNat - 'a'.toNat + 10
    else if 'A' ≤ c ∧ c ≤ 'Z' then c.toNat - 'A'.toNat + 10
    else base
  if v < base then some v else none

/-- The leading digits of `s`, and the rest. -/
def digits (base : Nat) (s : List Char) : List Nat × List Char :=
  let ds := s.takeWhile fun c => (digit base c).isSome
  (ds.filterMap (digit base), s.drop ds.length)

def natOf (base : Nat) (ds : List Nat) : Nat := ds.foldl (fun n d => n * base + d) 0

/-- All of `s` as digits of `base`, at least one. -/
def literalOf (base : Nat) (s : List Char) : Num :=
  match digits base s with
  | ([], _) => .nan
  | (ds, []) => .ofInt (natOf base ds)
  | _ => .nan

/-- The exponent part of a decimal literal; `none` if it is malformed. -/
def exponentOf (s : List Char) : Option Int :=
  match s with
  | [] => some 0
  | c :: s =>
    if c = 'e' ∨ c = 'E' then
      let (neg, s) := match s with
        | '-' :: s => (true, s)
        | '+' :: s => (false, s)
        | s => (false, s)
      match digits 10 s with
      | ([], _) => none
      | (ds, []) => some (if neg then -natOf 10 ds else natOf 10 ds)
      | _ => none
    else none

/-- An unsigned decimal literal, as a rational. -/
def decimalOf (s : List Char) : Option Rat :=
  let (whole, s) := digits 10 s
  let (part, s) := match s with
    | '.' :: s => digits 10 s
    | s => ([], s)
  if whole = [] ∧ part = [] then none
  else (exponentOf s).map fun (e : Int) =>
    (natOf 10 (whole ++ part) : Rat) * (10 : Rat) ^ (e - (part.length : Int))

/-- The numeric value of a string. -/
def stringToNumber (s : String) : Num :=
  match trim s.toList with
  | [] => .int 0
  | '0' :: 'x' :: s | '0' :: 'X' :: s => literalOf 16 s
  | '0' :: 'o' :: s | '0' :: 'O' :: s => literalOf 8 s
  | '0' :: 'b' :: s | '0' :: 'B' :: s => literalOf 2 s
  | s =>
    let (neg, s) := match s with
      | '-' :: s => (true, s)
      | '+' :: s => (false, s)
      | s => (false, s)
    if s = "Infinity".toList then .inf neg
    else match decimalOf s with
      | some q => .ofRat (if neg then -q else q)
      | none => .nan

/-- The value as an operand of a numeric comparison; `none` if the conversion throws. -/
def JsVal.toNumber : JsVal → Option Num
  | .undefined => some .nan
  | .null => some (.int 0)
  | .bool b => some (.int b.toNat)
  | .num n => some n
  | .str s => some (stringToNumber s)
  | .obj _ prim => prim

/-! ## `utils/Assertions.js` -/

def assertNonEmptyString (fieldName : String) : JsVal → Except JsError String
  | .str s =>
    if isBlank s then .error (.error (fieldName ++ " must be a non-empty string")) else .ok s
  | _ => .error (.error (fieldName ++ " must be a non-empty string"))

def assertPositiveInteger (fieldName : String) : JsVal → Except JsError Int
  | .num (.int n) =>
    if 0 < n then .ok n else .error (.error (fieldName ++ " must be a positive integer"))
  | _ => .error (.error (fieldName ++ " must be a positive integer"))

def assertNonNegativeInteger (fieldName : String) : JsVal → Except JsError Int
  | .num (.int n) =>
    if 0 ≤ n then .ok n else .error (.error (fieldName ++ " must be a non-negative integer"))
  | _ => .error (.error (fieldName ++ " must be a non-negative integer"))

theorem assertNonEmptyString_ok {f : String} {v : JsVal} {s : String} :
    assertNonEmptyString f v = .ok s ↔ v = .str s ∧ isBlank s = false := by
  cases v <;> simp only [assertNonEmptyString, reduceCtorEq, false_and, JsVal.str.injEq]
  split
  · simp_all; rintro rfl; assumption
  · simp_all; rintro rfl; assumption

theorem assertPositiveInteger_ok {f : String} {v : JsVal} {n : Int} :
    assertPositiveInteger f v = .ok n ↔ v = .num (.int n) ∧ 0 < n := by
  unfold assertPositiveInteger
  split
  · split <;> simp_all
    · rintro rfl; assumption
    · rintro rfl; assumption
  · simp_all

theorem assertNonNegativeInteger_ok {f : String} {v : JsVal} {n : Int} :
    assertNonNegativeInteger f v = .ok n ↔ v = .num (.int n) ∧ 0 ≤ n := by
  unfold assertNonNegativeInteger
  split
  · split <;> simp_all
    · rintro rfl; assumption
    · rintro rfl; assumption
  · simp_all

end Lob.Node
