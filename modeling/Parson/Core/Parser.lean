import Parson.Core.Array
import Parson.Core.Strtod
import Parson.Core.Double

/-!
# The Parser

A recursive descent over the bytes of a C string. Each function takes the input from the
cursor on and returns what it built together with the input after what it consumed, which is
where the code leaves `*string`; `none` is a `NULL` return. The empty list is the terminator,
and so is a `NUL` byte, which the code also stops at.

The nesting guard of `parse_value` counts up from `0` and refuses above `MAX_NESTING`; the
model counts the other way, with `levels = MAX_NESTING + 1 - nesting` calls left, so that
`parseValue` is structurally recursive. A container passes the next level's parser to its
loop, just as `parse_object_value` and `parse_array_value` call `parse_value` with the
incremented nesting.

The loops run on fuel so that the model computes. Every pass of a loop consumes input and the
fuel is the length of the input the loop starts on, so it does not run out on any input; a
loop that did run out would fail, never succeed. `processString` counts the bytes it may
still read, as the code compares `input_ptr - input` with `len`.

A string's value is a C string: `process_string` writes `\u0000` as a `NUL` byte, and every
later reader stops there, so the value kept is `cString` of the bytes written.

## Main definitions

* `skipWhitespaces`, `skipQuotes`: Cursor movement.
* `hex4`, `parseUtf16`, `processString`, `getQuotedString`: String literals.
* `isDecimal`, `parseNumberValue`: Numbers, as far as `strtod` reads.
* `parseObjectMembers`, `parseObjectValue`, `parseArrayItems`, `parseArrayValue`: Containers.
* `parseValue`, `jsonParseString`: The dispatch and the entry point.
-/

namespace Parson

/-- `MAX_NESTING`. -/
def maxNesting : Nat := 19

/-- `SKIP_WHITESPACES`. -/
def skipWhitespaces : Bytes → Bytes
  | [] => []
  | c :: s => if isSpace c then skipWhitespaces s else c :: s

/-- The loop of `skip_quotes`: scan to the closing `"`, stepping over the byte after each `\`,
    and stop on a `NUL`. The input after the closing quote is returned. -/
def skipQuotesLoop : Bytes → Bytes
  | [] => []
  | 34 :: s => s
  | 0 :: s => 0 :: s
  | 92 :: [] => []
  | 92 :: 0 :: s => 0 :: s
  | 92 :: _ :: s => skipQuotesLoop s
  | _ :: s => skipQuotesLoop s

/-- `skip_quotes`: step over the opening byte, whatever it is, then scan. -/
def skipQuotes (s : Bytes) : Bytes := skipQuotesLoop s.tail

/-- `is_utf` followed by `sscanf(s, "%4x", &cp)`: four hexadecimal digits and their value. -/
def hex4 : Bytes → Option Nat
  | a :: b :: c :: d :: _ => do
    let a ← hexDigitValue a
    let b ← hexDigitValue b
    let c ← hexDigitValue c
    let d ← hexDigitValue d
    pure (((a * 16 + b) * 16 + c) * 16 + d)
  | _ => none

/-- `parse_utf_16`, from the byte after `\u`: the UTF-8 bytes it writes and the input after
    the escape. (The code leaves its cursor on the last hex digit, and `process_string`'s own
    step passes it.) A lead surrogate must be followed by `\u` and a trail surrogate; a trail
    surrogate on its own fails. -/
def parseUtf16 (s : Bytes) : Option (Bytes × Bytes) := do
  let cp ← hex4 s
  if cp < 0x80 then
    pure ([cp.toUInt8], s.drop 4)
  else if cp < 0x800 then
    pure ([(cp >>> 6 &&& 0x1F ||| 0xC0).toUInt8, (cp &&& 0x3F ||| 0x80).toUInt8], s.drop 4)
  else if cp < 0xD800 ∨ 0xDFFF < cp then
    pure ([(cp >>> 12 &&& 0x0F ||| 0xE0).toUInt8, (cp >>> 6 &&& 0x3F ||| 0x80).toUInt8,
      (cp &&& 0x3F ||| 0x80).toUInt8], s.drop 4)
  else if cp ≤ 0xDBFF then
    match s.drop 4 with
    | 92 :: 117 :: t =>
      let trail ← hex4 t
      if trail < 0xDC00 ∨ 0xDFFF < trail then none
      else
        let cp := (((cp - 0xD800) &&& 0x3FF) <<< 10 ||| ((trail - 0xDC00) &&& 0x3FF)) + 0x10000
        pure ([(cp >>> 18 &&& 0x07 ||| 0xF0).toUInt8, (cp >>> 12 &&& 0x3F ||| 0x80).toUInt8,
          (cp >>> 6 &&& 0x3F ||| 0x80).toUInt8, (cp &&& 0x3F ||| 0x80).toUInt8], t.drop 4)
    | _ => none
  else none

/-- The byte a one-letter escape `\c` stands for, other than `\u`. -/
def simpleEscape : UInt8 → Option UInt8
  | 34 => some 34
  | 92 => some 92
  | 47 => some 47
  | 98 => some 8
  | 102 => some 12
  | 110 => some 10
  | 114 => some 13
  | 116 => some 9
  | _ => none

/-- The loop of `process_string`, with `left` of its `len` bytes still to read. It stops at a
    `NUL` or when `left` is `0`; an unknown escape, a bad `\u` escape or a raw byte below
    `0x20` fails. Each pass reads at least one byte, so `fuel = len` is enough. -/
def processString : (fuel : Nat) → Bytes → (left : Nat) → Option Bytes
  | fuel, s, left =>
    match s with
    | [] => some []
    | c :: t =>
      if c = 0 ∨ left = 0 then some []
      else
        match fuel with
        | 0 => none
        | fuel + 1 =>
          if c = 92 then
            match t with
            | 117 :: r =>
              match parseUtf16 r with
              | none => none
              | some (out, r') => (processString fuel r' (left - (s.length - r'.length))).map
                  (out ++ ·)
            | e :: r =>
              match simpleEscape e with
              | none => none
              | some b => (processString fuel r (left - 2)).map (b :: ·)
            | [] => none
          else if c < 0x20 then none
          else (processString fuel t (left - 1)).map (c :: ·)

/-- `get_quoted_string`, at the opening quote: the bytes `process_string` writes for the text
    between the quotes, and the input after the closing quote. It fails when the quote is not
    closed, and also when the closing quote is the last byte of the input. -/
def getQuotedString (s : Bytes) : Option (Bytes × Bytes) :=
  let rest := skipQuotes s
  if peek rest = 0 then none
  else
    let len := s.length - rest.length - 2
    (processString len s.tail len).map (·, rest)

/-- `parse_string_value`. -/
def parseStringValue (s : Bytes) : Option (Value × Bytes) :=
  (getQuotedString s).map fun r => (.string (cString r.1), r.2)

/-- `is_decimal` on the `length` bytes `strtod` consumed: a leading `0`, or `-0`, must be
    followed by `.`, and no byte may be one `strchr("xX", c)` finds, which takes in the
    terminator. -/
def isDecimal (t : Bytes) : Bool :=
  let leadingZero := match t with
    | 48 :: c :: _ => c != 46
    | _ => false
  let leadingNegZero := match t with
    | 45 :: 48 :: c :: _ => c != 46
    | _ => false
  !leadingZero && !leadingNegZero && !t.any fun c => c == 120 || c == 88 || c == 0

/-- `parse_number_value`: `strtod`, then `is_decimal` on what it consumed. When `strtod`
    consumes nothing the span is empty, `is_decimal` accepts it, and the result is the number
    `strtod` returns with the cursor left where it was. -/
def parseNumberValue (lib : Libc) (s : Bytes) : Option (Value × Bytes) :=
  let n := strtodEnd s
  if isDecimal (s.take n) then some (.number (lib.strtod (s.take n)), s.drop n) else none

/-- `parse_boolean_value`. -/
def parseBooleanValue (s : Bytes) : Option (Value × Bytes) :=
  if (Bytes.ofString "true").isPrefixOf s then some (.boolean true, s.drop 4)
  else if (Bytes.ofString "false").isPrefixOf s then some (.boolean false, s.drop 5)
  else none

/-- `parse_null_value`. -/
def parseNullValue (s : Bytes) : Option (Value × Bytes) :=
  if (Bytes.ofString "null").isPrefixOf s then some (.null, s.drop 4) else none

/-- The member loop of `parse_object_value`, run while the cursor is not on the terminator:
    a key, `:`, a value parsed by `pv`, `json_object_add`, and a `,` to go on. -/
def parseObjectMembers (pv : Bytes → Option (Value × Bytes)) :
    (fuel : Nat) → JsonObject Value → Bytes → Option (JsonObject Value × Bytes)
  | fuel, o, s =>
    if peek s = 0 then some (o, s)
    else
      match fuel with
      | 0 => none
      | fuel + 1 =>
        match getQuotedString s with
        | none => none
        | some (key, s) =>
          match skipWhitespaces s with
          | 58 :: s =>
            match pv s with
            | none => none
            | some (v, s) =>
              match jsonObjectAdd o (cString key) v with
              | (.failure, _) => none
              | (.success, o) =>
                match skipWhitespaces s with
                | 44 :: s => parseObjectMembers pv fuel o (skipWhitespaces s)
                | s => some (o, s)
          | _ => none

/-- `parse_object_value`, at the `{`: an empty object at once on `}`, otherwise the member
    loop, the closing `}`, and the storage trimmed to the count. -/
def parseObjectValue (pv : Bytes → Option (Value × Bytes)) (s : Bytes) :
    Option (Value × Bytes) :=
  let s := skipWhitespaces s.tail
  match s with
  | 125 :: rest => some (.object ⟨[], 0⟩, rest)
  | _ =>
    match parseObjectMembers pv s.length ⟨[], 0⟩ s with
    | none => none
    | some (o, rest) =>
      match skipWhitespaces rest with
      | 125 :: rest => (jsonObjectResize o o.count).map fun o => (.object o, rest)
      | _ => none

/-- The item loop of `parse_array_value`, run while the cursor is not on the terminator: a
    value parsed by `pv`, `json_array_add`, and a `,` to go on. -/
def parseArrayItems (pv : Bytes → Option (Value × Bytes)) :
    (fuel : Nat) → JsonArray Value → Bytes → Option (JsonArray Value × Bytes)
  | fuel, a, s =>
    if peek s = 0 then some (a, s)
    else
      match fuel with
      | 0 => none
      | fuel + 1 =>
        match pv s with
        | none => none
        | some (v, s) =>
          match jsonArrayAdd a v with
          | (.failure, _) => none
          | (.success, a) =>
            match skipWhitespaces s with
            | 44 :: s => parseArrayItems pv fuel a (skipWhitespaces s)
            | s => some (a, s)

/-- `parse_array_value`, at the `[`: an empty array at once on `]`, otherwise the item loop,
    the closing `]`, and the storage trimmed to the count. -/
def parseArrayValue (pv : Bytes → Option (Value × Bytes)) (s : Bytes) :
    Option (Value × Bytes) :=
  let s := skipWhitespaces s.tail
  match s with
  | 93 :: rest => some (.array ⟨[], 0⟩, rest)
  | _ =>
    match parseArrayItems pv s.length ⟨[], 0⟩ s with
    | none => none
    | some (a, rest) =>
      match skipWhitespaces rest with
      | 93 :: rest => (jsonArrayResize a a.count).map fun a => (.array a, rest)
      | _ => none

/-- `parse_value` with `levels = MAX_NESTING + 1 - nesting`: no level left is the refusal
    `nesting > MAX_NESTING`. A container's members are parsed one level down. -/
def parseValue (lib : Libc) : (levels : Nat) → Bytes → Option (Value × Bytes)
  | 0, _ => none
  | levels + 1, s =>
    let s := skipWhitespaces s
    match peek s with
    | 123 => parseObjectValue (parseValue lib levels) s
    | 91 => parseArrayValue (parseValue lib levels) s
    | 34 => parseStringValue s
    | 102 | 116 => parseBooleanValue s
    | 45 | 48 | 49 | 50 | 51 | 52 | 53 | 54 | 55 | 56 | 57 => parseNumberValue lib s
    | 110 => parseNullValue s
    | _ => none

/-- `json_parse_string`: the root must be an object or an array. -/
def jsonParseString (lib : Libc) (s : CStr) : Option Value :=
  let t := skipWhitespaces s.bytes
  if peek t ≠ 123 ∧ peek t ≠ 91 then none
  else (parseValue lib (maxNesting + 1) t).map (·.1)

end Parson
