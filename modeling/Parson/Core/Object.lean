import Parson.Core.Value

/-!
# Objects

The static helpers and the public API on `JSON_Object`, over an object whose values have any
type: none of these functions looks inside a value, so they are stated for `JsonObject α`.

Names are C strings and are compared the way the code compares them. A lookup,
`json_object_nget_value`, takes the first entry whose name has length `n` and agrees with the
first `n` bytes of the key; `json_object_set_value` and `json_object_remove` then find their
entry again with `strcmp`, the first entry equal to the key.

Storage grows in `json_object_add`: when the slots are full it asks for
`MAX(2 * capacity, STARTING_CAPACITY)` of them and fails when that passes
`OBJECT_MAX_CAPACITY`. The growth happens before the duplicate check, so an `add` that fails
on a duplicate name can still leave the capacity grown. Allocation itself is modelled as
never failing; `try_realloc`'s refusal of a zero size is kept.

## Main definitions

* `startingCapacity`, `objectMaxCapacity`: `STARTING_CAPACITY`, `OBJECT_MAX_CAPACITY`.
* `jsonObjectInit`, `jsonObjectResize`, `jsonObjectAdd`: The static storage helpers.
* `jsonObjectNgetValue`, `jsonObjectGetValue`: Lookup by a key's first `n` bytes, and by a key.
* `jsonObjectSetValue`, `jsonObjectRemove`, `jsonObjectClear`: The mutators.
* `jsonObjectGetName`: The name at an index.
-/

namespace Parson

/-- `STARTING_CAPACITY`. -/
def startingCapacity : Nat := 15

/-- `OBJECT_MAX_CAPACITY`, `15 * 2 ^ 6`. -/
def objectMaxCapacity : Nat := 960

variable {α : Type}

/-- `json_object_init`: no entries and no slots. -/
def jsonObjectInit : JsonObject α := ⟨[], 0⟩

/-- `json_object_resize`: reallocate both slot arrays to `capacity` slots. `try_realloc`
    refuses a zero size. -/
def jsonObjectResize (o : JsonObject α) (capacity : Nat) : Option (JsonObject α) :=
  if capacity = 0 then none else some { o with capacity := capacity }

/-- `json_object_nget_value`: the value of the first entry whose name is `n` bytes long and
    equal to the first `n` bytes of `name`. -/
def jsonObjectNgetValue (o : JsonObject α) (name : CStr) (n : Nat) : Option α :=
  (o.entries.find? fun e => e.1.length == n && e.1.bytes == name.bytes.take n).map (·.2)

/-- `json_object_get_value`: `json_object_nget_value` with `strlen(name)`. -/
def jsonObjectGetValue (o : JsonObject α) (name : CStr) : Option α :=
  jsonObjectNgetValue o name name.length

/-- `json_object_add`: grow full slots to `MAX(2 * capacity, STARTING_CAPACITY)`, failing
    past `OBJECT_MAX_CAPACITY`; then fail if the name is already there; then append. -/
def jsonObjectAdd (o : JsonObject α) (name : CStr) (value : α) : JsonStatus × JsonObject α :=
  let grown :=
    if o.capacity ≤ o.count then
      let newCapacity := max (o.capacity * 2) startingCapacity
      if objectMaxCapacity < newCapacity then none else jsonObjectResize o newCapacity
    else some o
  match grown with
  | none => (.failure, o)
  | some o =>
    if (jsonObjectGetValue o name).isSome then (.failure, o)
    else (.success, { o with entries := o.entries ++ [(name, value)] })

/-- The `strcmp` loop of `json_object_set_value`: overwrite the value of the first entry named
    `name`, or `none` when there is no such entry. -/
def replaceNamed (name : CStr) (value : α) : List (CStr × α) → Option (List (CStr × α))
  | [] => none
  | (k, v) :: es =>
    if k = name then some ((k, value) :: es) else ((k, v) :: ·) <$> replaceNamed name value es

/-- `json_object_set_value`: overwrite the value of an existing name in place, otherwise
    `json_object_add`. A `NULL` value fails. -/
def jsonObjectSetValue (o : JsonObject α) (name : CStr) : Option α → JsonStatus × JsonObject α
  | none => (.failure, o)
  | some value =>
    match jsonObjectGetValue o name with
    | some _ =>
      match replaceNamed name value o.entries with
      | some entries => (.success, { o with entries := entries })
      | none => jsonObjectAdd o name value
    | none => jsonObjectAdd o name value

/-- `json_object_remove`: fail when the name is absent; otherwise move the last entry into the
    removed entry's slot and decrement `count`. -/
def jsonObjectRemove (o : JsonObject α) (name : CStr) : JsonStatus × JsonObject α :=
  if (jsonObjectGetValue o name).isNone then (.failure, o)
  else
    let last := o.count - 1
    match o.entries.findIdx? (·.1 = name) with
    | none => (.failure, o)
    | some i =>
      let moved := if i ≠ last then (o.entries[last]?).elim o.entries (o.entries.set i)
        else o.entries
      (.success, { o with entries := moved.dropLast })

/-- `json_object_clear`: `count` becomes `0`; the capacity stays. -/
def jsonObjectClear (o : JsonObject α) : JsonObject α := { o with entries := [] }

/-- `json_object_get_name`. -/
def jsonObjectGetName (o : JsonObject α) (index : Nat) : Option CStr :=
  (o.entries[index]?).map (·.1)

@[simp] theorem jsonObjectClear_entries (o : JsonObject α) : (jsonObjectClear o).entries = [] :=
  rfl

end Parson
