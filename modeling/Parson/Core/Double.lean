import Mathlib.Data.Nat.Digits
import Parson.Core.Bytes

/-!
# Doubles and the C Library's Number Routines

A JSON number is a C `double`. The code does four things with one: reads it with `strtod`,
asks whether it is an `int` by comparing `num == (double)(int)num`, prints it with `%d` or
`%f`, and compares two of them with `fabs(a - b) < 0.000001`.

`Double` keeps the three fields of the IEEE 754 binary64 encoding, so two doubles are equal
exactly when they are bit-identical. The conversions the integer test uses are modelled in
full: `ofInt` is the exact `(double)` of an `int`, `truncate` is `(int)`, and `beq` is C's
`==`, under which `NaN` equals nothing and `-0.0 == +0.0`. Printing an `int` with `%d` is
`decimalText`.

What the code leaves to the C library beyond that is a parameter, `Libc`: the value `strtod`
gives the text it consumed, the text of `%f`, and the epsilon test. How far `strtod` reads is
not left open; it is modelled from the C standard in `Parson.Core.Strtod`, because the parser's
behaviour depends on it.

## Main definitions

* `Double`: A binary64 value, by its sign, biased exponent and mantissa fields.
* `Double.ofInt`: `(double)n` for an `int` `n`.
* `Double.truncate`: `(int)x`.
* `Double.beq`: C's `==` on doubles.
* `decimalText`: The text of `sprintf("%d", n)`.
* `Libc`: The library routines on doubles whose results the model leaves open.

## Theorems

* `Double.truncate_ofInt`: Converting an `int` to `double` and back gives it back.
* `Double.isNaN_ofInt`, `Double.beq_self`: An `int`'s conversion is not `NaN`, so it is `==`
  to itself.
-/

namespace Parson

/-- A binary64 value, by the fields of its encoding: sign bit, biased exponent, mantissa. -/
structure Double where
  sign : Bool
  exponent : Nat
  mantissa : Nat
  exponent_lt : exponent < 2048
  mantissa_lt : mantissa < 2 ^ 52
deriving DecidableEq

namespace Double

/-- `+0.0`. -/
def zero : Double := ⟨false, 0, 0, by norm_num, by norm_num⟩

/-- `-0.0`. -/
def negZero : Double := ⟨true, 0, 0, by norm_num, by norm_num⟩

/-- A `NaN`: all exponent bits set and a nonzero mantissa. -/
def isNaN (x : Double) : Bool := x.exponent == 2047 && x.mantissa != 0

/-- `+0.0` or `-0.0`. -/
def isZero (x : Double) : Bool := x.exponent == 0 && x.mantissa == 0

/-- C's `==` on doubles: `NaN` is equal to nothing, the two zeros are equal, and otherwise
    equal values have equal encodings. -/
def beq (x y : Double) : Bool :=
  !x.isNaN && !y.isNaN && (decide (x = y) || (x.isZero && y.isZero))

theorem mantissa_of_log2 {a : Nat} (ha : a ≠ 0) :
    (a - 2 ^ a.log2) * 2 ^ 52 / 2 ^ a.log2 < 2 ^ 52 := by
  have hlt : a < 2 * 2 ^ a.log2 := by simpa [Nat.pow_succ, Nat.mul_comm] using Nat.lt_log2_self
  have hle := Nat.log2_self_le ha
  rw [Nat.div_lt_iff_lt_mul (by positivity), Nat.mul_comm]
  exact Nat.mul_lt_mul_of_pos_left (by omega) (by positivity)

/-- `(double)n` for an `int` `n`. Every `int` fits in the 53-bit significand, so the
    conversion is exact: the exponent is `n`'s leading bit and the mantissa the bits below
    it. The code converts only `int`s; past `2 ^ 53` the model truncates the mantissa. -/
def ofInt (n : Int) : Double :=
  if h : n.natAbs = 0 then zero
  else
    { sign := decide (n < 0)
      exponent := min (1023 + n.natAbs.log2) 2046
      mantissa := (n.natAbs - 2 ^ n.natAbs.log2) * 2 ^ 52 / 2 ^ n.natAbs.log2
      exponent_lt := by omega
      mantissa_lt := mantissa_of_log2 h }

/-- `(int)x`: the value truncated toward zero. The conversion is undefined in C when the
    result does not fit an `int`; the model gives `INT_MIN` there, as x86's `cvttsd2si`
    does. -/
def truncate (x : Double) : Int :=
  if x.exponent = 2047 ∨ 1054 ≤ x.exponent then -2 ^ 31
  else if x.exponent < 1023 then 0
  else
    let a : Nat := (2 ^ 52 + x.mantissa) / 2 ^ (1075 - x.exponent)
    if x.sign then -a else a

/-- Converting an `int` to `double` and back gives it back: the significand holds all of it. -/
theorem truncate_ofInt {n : Int} (h1 : -2 ^ 31 ≤ n) (h2 : n < 2 ^ 31) :
    (ofInt n).truncate = n := by
  unfold ofInt
  split_ifs with h0
  · rw [Int.natAbs_eq_zero.mp h0]; rfl
  have hle := Nat.log2_self_le h0
  have hL : n.natAbs.log2 ≤ 31 :=
    (Nat.pow_le_pow_iff_right (by norm_num)).mp (hle.trans (by omega))
  unfold truncate
  dsimp only
  rcases Nat.lt_or_ge n.natAbs.log2 31 with hl | hl
  · rw [if_neg (by omega), if_neg (by omega)]
    set L := n.natAbs.log2
    have hpow : 2 ^ 52 = 2 ^ L * 2 ^ (52 - L) := by rw [← Nat.pow_add]; congr 1; omega
    have hm : (n.natAbs - 2 ^ L) * 2 ^ 52 / 2 ^ L = (n.natAbs - 2 ^ L) * 2 ^ (52 - L) := by
      rw [hpow, Nat.mul_left_comm, Nat.mul_div_cancel_left _ (by positivity)]
    have ha : (2 ^ 52 + (n.natAbs - 2 ^ L) * 2 ^ (52 - L)) / 2 ^ (1075 - min (1023 + L) 2046) =
        n.natAbs := by
      rw [show 1075 - min (1023 + L) 2046 = 52 - L by omega, hpow, Nat.mul_comm (2 ^ L),
        Nat.mul_comm (n.natAbs - 2 ^ L), ← Nat.mul_add, Nat.add_sub_cancel' hle,
        Nat.mul_div_cancel_left _ (by positivity)]
    rw [hm, ha]
    by_cases hn : n < 0
    · rw [if_pos (decide_eq_true hn)]; omega
    · rw [if_neg fun h => hn (of_decide_eq_true h)]; omega
  · -- `INT_MIN` itself: its exponent is the one `(int)` gives up on, and it returns `INT_MIN`
    rw [if_pos (Or.inr (by omega))]
    have : n.natAbs = 2 ^ 31 :=
      le_antisymm (by omega) ((Nat.pow_le_pow_right (by norm_num) hl).trans hle)
    omega

theorem isNaN_ofInt (n : Int) : (ofInt n).isNaN = false := by
  unfold ofInt isNaN
  split_ifs
  · rfl
  · simp only [Bool.and_eq_false_iff, beq_eq_false_iff_ne]
    exact .inl (by omega)

theorem beq_self {x : Double} (h : x.isNaN = false) : x.beq x = true := by
  simp [beq, h]

end Double

/-- The text of `sprintf("%d", n)`: a `-` for a negative `n`, then its decimal digits. -/
def decimalText (n : Int) : Bytes :=
  (if n < 0 then [45] else []) ++
    if n.natAbs = 0 then [48]
    else (Nat.digits 10 n.natAbs).reverse.map fun d => (48 + d).toUInt8

/-- The C library's work on doubles whose results the model leaves open: the value `strtod`
    gives the subject sequence it consumed, the text `sprintf` prints for
    `DOUBLE_SERIALIZATION_FORMAT` (`"%f"`), and the test `fabs(a - b) < 0.000001`. -/
structure Libc where
  strtod : Bytes → Double
  printFloat : Double → CStr
  nearlyEqual : Double → Double → Bool

end Parson
