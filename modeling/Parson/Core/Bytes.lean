import Mathlib.Data.List.Basic

/-!
# Bytes and C Strings

The parser reads a `const char *` one byte at a time and treats the terminator as the end of
the text, so the input is modelled as the list of bytes before that terminator: reading the
empty list is reading `'\0'`. Every string the code stores — a string value, an object's
name, a serialized text — is a C string, so `CStr` carries the fact that it holds no `NUL`
byte. A `CStr` is what `strlen`, `strcmp` and `parson_strdup` see: the bytes up to, and not
including, the terminator.

Bytes are written as numerals in the code's own terms: `34` is `'"'`, `92` is `'\\'`,
`46` is `'.'`. `Bytes.ofString` turns an ASCII literal into its bytes, for the code's
literal tokens (`"true"`, `"null"`) and for tests.

## Main definitions

* `Bytes`: A byte sequence.
* `CStr`: A byte sequence without a `NUL`, as a C string holds it.
* `cString`: The C string a buffer holds: its bytes before the first `NUL`.
* `isSpace`: `isspace` in the C locale.
* `hexDigitValue`: `isxdigit` together with the digit's value.

## Theorems

* `CStr.ext`: C strings are equal when their bytes are.
* `cString_bytes_of_nul_free`: A buffer without a `NUL` is its own C string.
* `isSpace_iff`, `isDigit_iff`: The classes as ranges of byte values.
-/

namespace Parson

/-- A byte sequence. -/
abbrev Bytes := List UInt8

/-- The bytes of an ASCII string literal. -/
def Bytes.ofString (s : String) : Bytes := s.toList.map fun c => c.toNat.toUInt8

/-- A C string: the bytes before the terminator, none of which is `NUL`. -/
structure CStr where
  bytes : Bytes
  nul_free : (0 : UInt8) ∉ bytes
deriving DecidableEq

namespace CStr

@[ext]
theorem ext {s t : CStr} (h : s.bytes = t.bytes) : s = t := by
  cases s; cases t; cases h; rfl

/-- The empty string `""`. -/
def empty : CStr := ⟨[], List.not_mem_nil _⟩

/-- `parson_strndup(s, n)`: the first `n` bytes. -/
def take (s : CStr) (n : Nat) : CStr :=
  ⟨s.bytes.take n, fun h => s.nul_free (List.mem_of_mem_take h)⟩

/-- The string from byte `n` on, as `s + n` points to it. -/
def drop (s : CStr) (n : Nat) : CStr :=
  ⟨s.bytes.drop n, fun h => s.nul_free (List.mem_of_mem_drop h)⟩

/-- `strlen`. -/
def length (s : CStr) : Nat := s.bytes.length

@[simp] theorem take_bytes (s : CStr) (n : Nat) : (s.take n).bytes = s.bytes.take n := rfl
@[simp] theorem drop_bytes (s : CStr) (n : Nat) : (s.drop n).bytes = s.bytes.drop n := rfl
@[simp] theorem empty_bytes : empty.bytes = [] := rfl

end CStr

/-- The C string a buffer holds: what `strlen` and `strcmp` see of it. -/
def cString (b : Bytes) : CStr :=
  ⟨b.takeWhile (· != 0), fun h => by simpa using List.mem_takeWhile_imp h⟩

theorem cString_bytes_of_nul_free {b : Bytes} (h : (0 : UInt8) ∉ b) : (cString b).bytes = b :=
  List.takeWhile_eq_self_iff.mpr fun x hx => by
    simpa using fun e : x = 0 => h (e ▸ hx)

/-- `isspace` in the C locale: space, `\t`, `\n`, `\v`, `\f` and `\r`. -/
def isSpace (c : UInt8) : Bool := c == 32 || (9 ≤ c && c ≤ 13)

/-- `isdigit`. -/
def isDigit (c : UInt8) : Bool := 48 ≤ c && c ≤ 57

/-- `isxdigit`, with the value `sscanf`'s `%x` gives the digit. -/
def hexDigitValue (c : UInt8) : Option Nat :=
  if 48 ≤ c ∧ c ≤ 57 then some (c.toNat - 48)
  else if 65 ≤ c ∧ c ≤ 70 then some (c.toNat - 55)
  else if 97 ≤ c ∧ c ≤ 102 then some (c.toNat - 87)
  else none

/-- The byte the cursor stands on: `**string`, with `'\0'` past the end. -/
def peek : Bytes → UInt8
  | [] => 0
  | c :: _ => c

theorem byte_eq_iff {c d : UInt8} : c = d ↔ c.toNat = d.toNat := ⟨congrArg _, UInt8.toNat.inj⟩

theorem isDigit_iff (c : UInt8) : isDigit c = true ↔ 48 ≤ c.toNat ∧ c.toNat ≤ 57 := by
  simp [isDigit]; rfl

theorem isSpace_iff (c : UInt8) :
    isSpace c = true ↔ c.toNat = 32 ∨ (9 ≤ c.toNat ∧ c.toNat ≤ 13) := by
  simp only [isSpace, Bool.or_eq_true, beq_iff_eq, Bool.and_eq_true, decide_eq_true_eq, byte_eq_iff]
  rfl

@[simp] theorem peek_nil : peek [] = 0 := rfl
@[simp] theorem peek_cons (c : UInt8) (s : Bytes) : peek (c :: s) = c := rfl

end Parson
