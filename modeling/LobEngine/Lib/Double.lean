import Mathlib.Data.Rat.Defs
import Mathlib.Data.Rat.Floor
import Mathlib.Tactic.NormNum

/-!
# Double-precision numbers

A binary64 number as a program sees it: an integer, a finite non-integer, an infinity or NaN
(`-0` and `0` are one value here: no comparison tells them apart). Arithmetic on integers is the
exact result rounded to the nearest double, ties to even (`roundInt`, `ofInt`).

* `roundInt_exact`, `ofInt_exact`: an integer of magnitude at most `2^53` is a double.
* `le_int`: comparison of two integers is the order of `Int`.
* `ofRat`: the nearest double of any rational, for numeric literals.
-/

namespace Lob

inductive Num where
  /-- An integer-valued double. -/
  | int (n : Int)
  /-- A finite double that is not an integer. -/
  | frac (q : Rat) (h : q.den ≠ 1)
  /-- `-∞` (`true`) or `∞`. -/
  | inf (neg : Bool)
  | nan
  deriving DecidableEq

namespace Num

/-- The largest integer up to which every integer is a double. -/
def maxExact : Int := 2 ^ 53

/-- The natural number nearest to `n` with a significand of 53 bits, ties to even. -/
def roundNat (n : Nat) : Nat :=
  if n ≤ 2 ^ 53 then n
  else
    let ulp := 2 ^ (n.log2 - 52)
    let q := n / ulp
    let r := n % ulp
    if ulp < 2 * r ∨ (2 * r = ulp ∧ q % 2 = 1) then (q + 1) * ulp else q * ulp

/-- The double nearest to an integer, where it is finite. -/
def roundInt (n : Int) : Int := if n < 0 then -roundNat n.natAbs else roundNat n.natAbs

/-- The double nearest to an integer. -/
def ofInt (n : Int) : Num :=
  if 1024 ≤ (roundInt n).natAbs.log2 then .inf (decide (n < 0)) else .int (roundInt n)

/-- A rational as a number, exactly. -/
def ofExact (q : Rat) : Num := if h : q.den = 1 then .int q.num else .frac q h

/-- The integer nearest to a rational, ties to even. -/
def roundHalfEven (q : Rat) : Int :=
  let f := q.floor
  let r := q - f
  if 1 / 2 < r ∨ (r = 1 / 2 ∧ f % 2 = 1) then f + 1 else f

/-- The double nearest to a rational. -/
def ofRat (q : Rat) : Num :=
  if q.den = 1 then ofInt q.num
  else
    let a := |q|
    let e₀ : Int := (a.num.natAbs.log2 : Int) - a.den.log2
    let e := if (2 : Rat) ^ e₀ ≤ a then e₀ else e₀ - 1
    let ulp : Rat := 2 ^ max (e - 52) (-1074)
    let v := roundHalfEven (a / ulp) * ulp
    if 1024 ≤ v.floor.natAbs.log2 then .inf (decide (q < 0)) else ofExact (if q < 0 then -v else v)

/-- `a + b` for an integer `b`. -/
def addInt : Num → Int → Num
  | .int a, b => ofInt (a + b)
  | .frac q _, b => ofRat (q + b)
  | a, _ => a

/-- The value of a finite double. -/
def val : Num → Rat
  | .int n => n
  | .frac q _ => q
  | _ => 0

/-- `a <= b`: false if one is NaN. -/
def le : Num → Num → Bool
  | .nan, _ => false
  | _, .nan => false
  | .inf true, _ => true
  | _, .inf false => true
  | .inf false, _ => false
  | _, .inf true => false
  | .int a, .int b => a ≤ b
  | a, b => a.val ≤ b.val

theorem roundNat_exact {n : Nat} (h : n ≤ 2 ^ 53) : roundNat n = n := by
  rw [roundNat, if_pos h]

/-- An integer of magnitude at most `2^53` is a double. -/
theorem roundInt_exact {n : Int} (h₀ : -maxExact ≤ n) (h₁ : n ≤ maxExact) : roundInt n = n := by
  unfold maxExact at h₀ h₁
  rw [roundInt, roundNat_exact (by omega)]
  split <;> omega

theorem roundInt_sub {a b : Int} (hb : 0 ≤ b) (hab : b ≤ a) (h : a ≤ maxExact) :
    roundInt (a - b) = a - b := roundInt_exact (by unfold maxExact; omega) (by omega)

theorem ofInt_exact {n : Int} (h₀ : -maxExact ≤ n) (h₁ : n ≤ maxExact) : ofInt n = .int n := by
  have hlog : n.natAbs.log2 < 54 := by
    unfold maxExact at h₀ h₁
    by_cases h : n.natAbs = 0
    · rw [h]; decide
    · exact (Nat.log2_lt h).mpr (by omega)
  rw [ofInt, roundInt_exact h₀ h₁, if_neg (by omega)]

theorem addInt_exact {a b : Int} (h₀ : 0 ≤ a + b) (h : a + b ≤ maxExact) :
    (Num.int a).addInt b = .int (a + b) := ofInt_exact (by unfold maxExact; omega) h

@[simp] theorem le_int (a b : Int) : le (.int a) (.int b) = decide (a ≤ b) := rfl

@[simp] theorem le_nan (a : Num) : le a .nan = false := by cases a <;> rfl

end Num

end Lob
