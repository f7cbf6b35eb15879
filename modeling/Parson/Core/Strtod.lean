import Parson.Core.Bytes

/-!
# How Far `strtod` Reads

`parse_number_value` calls `strtod` and then judges the text `strtod` consumed, the bytes
between the cursor and `end`. Which numbers the parser accepts is therefore decided by where
`strtod` stops, and that is fixed by the C standard (C11 7.22.1.3) rather than left to the
implementation: after optional white space and an optional sign, the subject sequence is the
longest initial part of the input of one of the expected forms,

* a nonempty sequence of decimal digits, optionally containing a decimal point, then an
  optional exponent part (`e` or `E`, an optional sign, a nonempty digit sequence);
* `0x` or `0X`, then a nonempty sequence of hexadecimal digits, optionally containing a
  radix point, then an optional binary exponent part (`p` or `P`, as above);
* `INF` or `INFINITY`, ignoring case;
* `NAN`, or `NAN(` n-char-sequence `)`, ignoring case.

When no part of the input has one of these forms nothing is consumed and `end` is the
cursor. `strtodEnd` computes the length of the subject sequence, in the C locale. The value
`strtod` gives it is left open (`Libc.strtod`).

## Main definitions

* `digitRun`: The length of the run of decimal digits at the front.
* `exponentPart`: The length of an optional exponent part.
* `mantissaPart`: The length of a digit sequence with an optional radix point.
* `strtodEnd`: How many bytes `strtod` consumes.
-/

namespace Parson

/-- ASCII lower case, for the forms `strtod` matches ignoring case. -/
def toLower (c : UInt8) : UInt8 := if 65 ≤ c ∧ c ≤ 90 then c + 32 else c

/-- Whether `s` starts with the lower-case word `w`, ignoring case. -/
def startsWithIgnoreCase (w s : Bytes) : Bool := w.isPrefixOf (s.take w.length |>.map toLower)

/-- The length of the run of decimal digits at the front. -/
def digitRun (s : Bytes) : Nat := (s.takeWhile isDigit).length

/-- The length of the run of hexadecimal digits at the front. -/
def hexRun (s : Bytes) : Nat := (s.takeWhile fun c => (hexDigitValue c).isSome).length

/-- The length of an optional exponent part introduced by one of `marks`: the mark, an
    optional sign, then a nonempty run of decimal digits. Without the digits there is no
    exponent part, and the length is `0`. -/
def exponentPart (marks : Bytes) : Bytes → Nat
  | c :: t =>
    if c ∈ marks then
      let sign := if peek t = 43 ∨ peek t = 45 then 1 else 0
      let d := digitRun (t.drop sign)
      if d = 0 then 0 else 1 + sign + d
    else 0
  | [] => 0

/-- The length of a nonempty digit sequence (digits counted by `run`) optionally containing
    a radix point `.`; `0` when there is no digit. -/
def mantissaPart (run : Bytes → Nat) (s : Bytes) : Nat :=
  let d := run s
  if peek (s.drop d) = 46 then
    let f := run (s.drop (d + 1))
    if d + f = 0 then 0 else d + 1 + f
  else d

/-- The length of a decimal floating constant at the front, or `0`. -/
def decimalForm (s : Bytes) : Nat :=
  let m := mantissaPart digitRun s
  if m = 0 then 0 else m + exponentPart (Bytes.ofString "eE") (s.drop m)

/-- The length of a hexadecimal floating constant at the front, `0x` included, or `0`. -/
def hexForm : Bytes → Nat
  | 48 :: x :: t =>
    if x = 120 ∨ x = 88 then
      let m := mantissaPart hexRun t
      if m = 0 then 0 else 2 + m + exponentPart (Bytes.ofString "pP") (t.drop m)
    else 0
  | _ => 0

/-- The length of `INF`, `INFINITY`, `NAN` or `NAN(...)` at the front, ignoring case, or
    `0`. -/
def infNanForm (s : Bytes) : Nat :=
  if startsWithIgnoreCase (Bytes.ofString "infinity") s then 8
  else if startsWithIgnoreCase (Bytes.ofString "inf") s then 3
  else if startsWithIgnoreCase (Bytes.ofString "nan") s then
    let t := s.drop 3
    if peek t = 40 then
      let k := (t.tail.takeWhile fun c => isDigit c || (97 ≤ toLower c && toLower c ≤ 122) ||
        c == 95).length
      if peek (t.drop (k + 1)) = 41 then k + 5 else 3
    else 3
  else 0

/-- The length of the longest subject sequence after the sign: a hexadecimal form when one
    is there, otherwise a decimal one, otherwise infinity or `NaN`. -/
def subjectBody (s : Bytes) : Nat :=
  let h := hexForm s
  if h ≠ 0 then h
  else
    let d := decimalForm s
    if d ≠ 0 then d else infNanForm s

/-- How many bytes `strtod` consumes, `end - nptr`: leading white space, an optional sign and
    the subject sequence, or nothing when there is no subject sequence. -/
def strtodEnd (s : Bytes) : Nat :=
  let w := (s.takeWhile isSpace).length
  let t := s.drop w
  let sign := if peek t = 43 ∨ peek t = 45 then 1 else 0
  let b := subjectBody (t.drop sign)
  if b = 0 then 0 else w + sign + b

example : strtodEnd (Bytes.ofString "1.]") = 2 := by decide
example : strtodEnd (Bytes.ofString "-inf]") = 4 := by decide
example : strtodEnd (Bytes.ofString "0x1p3,") = 5 := by decide
example : strtodEnd (Bytes.ofString "0x,") = 1 := by decide
example : strtodEnd (Bytes.ofString "1e+,") = 1 := by decide
example : strtodEnd (Bytes.ofString "-.5e-3 ") = 6 := by decide
example : strtodEnd (Bytes.ofString "-nan(x_1)") = 9 := by decide

end Parson
