import Parson.Core.Object

/-!
# Arrays

The static helpers and the public API on `JSON_Array`, over items of any type.

An item slot is an `Option`: the code stores `NULL` in a slot in one place, the last step of
`json_array_remove`, which decrements `count` before it reads the last item through the
bounds-checked getter. `Parson.Theory.ArrayModel` works out what that does.

Growth is the object's: `MAX(2 * capacity, STARTING_CAPACITY)` slots when full, failing past
`ARRAY_MAX_CAPACITY`.

## Main definitions

* `arrayMaxCapacity`: `ARRAY_MAX_CAPACITY`.
* `jsonArrayInit`, `jsonArrayResize`, `jsonArrayAdd`: The static storage helpers.
* `jsonArrayGetValue`: The bounds-checked getter.
* `jsonArrayAppendValue`, `jsonArrayReplaceValue`, `jsonArrayRemove`, `jsonArrayClear`: The
  mutators.
-/

namespace Parson

/-- `ARRAY_MAX_CAPACITY`, `15 * 2 ^ 13`. -/
def arrayMaxCapacity : Nat := 122880

variable {α : Type}

/-- `json_array_init`: no items and no slots. -/
def jsonArrayInit : JsonArray α := ⟨[], 0⟩

/-- `json_array_resize`: reallocate the item slots to `capacity`; `try_realloc` refuses a
    zero size. -/
def jsonArrayResize (a : JsonArray α) (capacity : Nat) : Option (JsonArray α) :=
  if capacity = 0 then none else some { a with capacity := capacity }

/-- `json_array_add`: grow full slots to `MAX(2 * capacity, STARTING_CAPACITY)`, failing past
    `ARRAY_MAX_CAPACITY`, then append. -/
def jsonArrayAdd (a : JsonArray α) (value : α) : JsonStatus × JsonArray α :=
  let grown :=
    if a.capacity ≤ a.count then
      let newCapacity := max (a.capacity * 2) startingCapacity
      if arrayMaxCapacity < newCapacity then none else jsonArrayResize a newCapacity
    else some a
  match grown with
  | none => (.failure, a)
  | some a => (.success, { a with items := a.items ++ [some value] })

/-- `json_array_get_value`: `NULL` at or past `count`, otherwise the slot. -/
def jsonArrayGetValue (a : JsonArray α) (index : Nat) : Option α :=
  if a.count ≤ index then none else (a.items[index]?).join

/-- `json_array_append_value`: a `NULL` value fails, anything else is `json_array_add`ed. -/
def jsonArrayAppendValue (a : JsonArray α) : Option α → JsonStatus × JsonArray α
  | none => (.failure, a)
  | some value => jsonArrayAdd a value

/-- `json_array_replace_value`: overwrite the slot at `ix < count` with a non-`NULL` value. -/
def jsonArrayReplaceValue (a : JsonArray α) (ix : Nat) : Option α → JsonStatus × JsonArray α
  | none => (.failure, a)
  | some value =>
    if a.count ≤ ix then (.failure, a) else (.success, { a with items := a.items.set ix value })

/-- `json_array_remove`: for `ix < count`, decrement `count`, then, when `ix` was not the last
    index, store into slot `ix` what `json_array_get_value` returns for the old last index —
    which, read after the decrement, is past `count`. -/
def jsonArrayRemove (a : JsonArray α) (ix : Nat) : JsonStatus × JsonArray α :=
  if a.count ≤ ix then (.failure, a)
  else
    let last := a.count - 1
    let a' := { a with items := a.items.dropLast }
    if ix ≠ last then (.success, { a' with items := a'.items.set ix (jsonArrayGetValue a' last) })
    else (.success, a')

/-- `json_array_clear`: `count` becomes `0`; the capacity stays. -/
def jsonArrayClear (a : JsonArray α) : JsonArray α := { a with items := [] }

end Parson
