import Parson.Core.Object

/-!
# The Serializer

Serialization is two passes over the tree. `json_serialization_size_r` computes how many
bytes the text will take, and `json_serialize_to_buffer_r` writes it; the public
`json_serialize_to_buffer` refuses a buffer smaller than the first pass's answer plus one for
the terminator, and `json_serialize_to_string` allocates exactly that much.

The two passes are written separately in the code and are modelled separately here, each
from its own source: `jsonSerializationSizeR` adds the counts the size pass adds (two
brackets, `count - 1` commas, `2 * count - 1` separators in an object, `parson_strlen` plus
two quotes for a string), and `jsonSerializeToBufferR` produces the bytes the emit pass
prints. Both read an object's values the way the code does, by looking each name up again
with `json_object_get_value`, which the model does on the table of per-entry results. A
number's text is `numberText`, the one choice both passes make: `%d` of `(int)num` when
`num == (double)(int)num`, otherwise the library's `%f`.

A `NULL` value has type `JSONError`: its size is `0` and writing it fails.

## Main definitions

* `mustEscape`, `parsonStrlen`: The bytes that need an escape, and the escaped length.
* `escapeByte`, `jsonSerializeString`: A string's text.
* `numberText`: A number's text.
* `commaSeparated`: Items joined by commas.
* `jsonSerializationSizeR`, `jsonSerializationSize`: The size pass.
* `jsonSerializeToBufferR`: The emit pass.
* `jsonSerializeToBuffer`, `jsonSerializeToString`: The public entry points.
-/

namespace Parson

/-- `strchr("\"\\\b\f\n\r\t", c)`: the bytes that are printed as a two-byte escape. -/
def mustEscape (c : UInt8) : Bool :=
  c == 34 || c == 92 || c == 8 || c == 12 || c == 10 || c == 13 || c == 9

/-- `parson_strlen`: two bytes for each byte that needs an escape, one for any other. -/
def parsonStrlen (s : Bytes) : Nat := (s.map fun c => if mustEscape c then 2 else 1).sum

/-- What `json_serialize_string` prints for one byte. -/
def escapeByte : UInt8 → Bytes
  | 34 => [92, 34]
  | 92 => [92, 92]
  | 8 => [92, 98]
  | 12 => [92, 102]
  | 10 => [92, 110]
  | 13 => [92, 114]
  | 9 => [92, 116]
  | c => [c]

/-- `json_serialize_string`: the escaped bytes between two quotes. -/
def jsonSerializeString (s : Bytes) : Bytes := 34 :: s.flatMap escapeByte ++ [34]

/-- A number's text: `"%d"` of `(int)num` when `num == (double)(int)num`, otherwise
    `DOUBLE_SERIALIZATION_FORMAT`. -/
def numberText (lib : Libc) (x : Double) : Bytes :=
  if x.beq (Double.ofInt x.truncate) then decimalText x.truncate else (lib.printFloat x).bytes

/-- The texts of a container's items, with a `,` after every one but the last. -/
def commaSeparated : List Bytes → Bytes
  | [] => []
  | [t] => t
  | t :: ts => t ++ 44 :: commaSeparated ts

/-- An object member's text: the quoted name, `:`, and the text of the value the name looks
    up, failing when the lookup or the value's text does. -/
def memberText (name : CStr) : Option (Option Bytes) → Option Bytes
  | some (some t) => some (jsonSerializeString name.bytes ++ 58 :: t)
  | _ => none

mutual

/-- `json_serialization_size_r`. -/
def jsonSerializationSizeR (lib : Libc) : Value → Nat
  | .array a => 2 + (if 0 < a.count then a.count - 1 else 0) + itemSizes lib a.items
  | .object o =>
    let sizes : JsonObject Nat := ⟨entrySizes lib o.entries, o.capacity⟩
    2 + (if 0 < o.count then o.count * 2 - 1 else 0) +
      (o.entries.map fun e => parsonStrlen e.1.bytes + 2 + (jsonObjectGetValue sizes e.1).getD 0).sum
  | .string s => parsonStrlen s.bytes + 2
  | .boolean b => if b then 4 else 5
  | .number x => (numberText lib x).length
  | .null => 4

/-- The sizes of an array's items; a `NULL` item has size `0`. -/
def itemSizes (lib : Libc) : List (Option Value) → Nat
  | [] => 0
  | none :: vs => itemSizes lib vs
  | some v :: vs => jsonSerializationSizeR lib v + itemSizes lib vs

/-- Each entry's name with the size of its value. -/
def entrySizes (lib : Libc) : List (CStr × Value) → List (CStr × Nat)
  | [] => []
  | (k, v) :: es => (k, jsonSerializationSizeR lib v) :: entrySizes lib es

end

mutual

/-- `json_serialize_to_buffer_r`: the bytes written, or `none` where it returns `NULL`. -/
def jsonSerializeToBufferR (lib : Libc) : Value → Option Bytes
  | .array a => (itemTexts lib a.items).map fun ts => 91 :: commaSeparated ts ++ [93]
  | .object o =>
    let texts : JsonObject (Option Bytes) := ⟨entryTexts lib o.entries, o.capacity⟩
    (o.entries.mapM fun e => memberText e.1 (jsonObjectGetValue texts e.1)).map fun ts =>
      123 :: commaSeparated ts ++ [125]
  | .string s => some (jsonSerializeString s.bytes)
  | .boolean b => some (if b then Bytes.ofString "true" else Bytes.ofString "false")
  | .number x => some (numberText lib x)
  | .null => some (Bytes.ofString "null")

/-- The texts of an array's items, failing at a `NULL` item. -/
def itemTexts (lib : Libc) : List (Option Value) → Option (List Bytes)
  | [] => some []
  | none :: _ => none
  | some v :: vs => do
    let t ← jsonSerializeToBufferR lib v
    let ts ← itemTexts lib vs
    pure (t :: ts)

/-- Each entry's name with the text of its value. -/
def entryTexts (lib : Libc) : List (CStr × Value) → List (CStr × Option Bytes)
  | [] => []
  | (k, v) :: es => (k, jsonSerializeToBufferR lib v) :: entryTexts lib es

end

/-- `json_serialization_size`: the size pass plus one byte for the terminator. -/
def jsonSerializationSize (lib : Libc) (v : Value) : Nat := jsonSerializationSizeR lib v + 1

/-- `json_serialize_to_buffer`: refuse a buffer smaller than `json_serialization_size`,
    otherwise write the text and its terminator at the front of the buffer. When the emit
    pass fails after writing part of the text the model returns the buffer unchanged; the
    caller has no use for those bytes. -/
def jsonSerializeToBuffer (lib : Libc) (v : Value) (buf : Bytes) : JsonStatus × Bytes :=
  if buf.length < jsonSerializationSize lib v then (.failure, buf)
  else
    match jsonSerializeToBufferR lib v with
    | none => (.failure, buf)
    | some out => (.success, out ++ 0 :: buf.drop (out.length + 1))

/-- `json_serialize_to_string`: serialize into a fresh buffer of `json_serialization_size`
    bytes and return the C string it holds. -/
def jsonSerializeToString (lib : Libc) (v : Value) : Option CStr :=
  match jsonSerializeToBuffer lib v (List.replicate (jsonSerializationSize lib v) 0) with
  | (.success, buf) => some (cString buf)
  | (.failure, _) => none

end Parson
