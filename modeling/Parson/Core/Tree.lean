import Parson.Core.Array

/-!
# Whole-Tree Operations

The three functions of the public API that recurse through the containers of a tree:
`json_value_deep_copy`, `json_validate` and `json_value_equals`.

All three find an object's children by name. Their loops run over the entries by index, take
the `i`-th name with `json_object_get_name`, and then look the child up again with
`json_object_get_value`, which returns the first entry of that name; the models keep that
lookup. An array loop reads the `i`-th slot with `json_array_get_value`, which below `count` is
the slot itself, so the models walk the list of slots.

A child found by a lookup is not a syntactic part of its parent, so the recursion is not
structural. The models count the `levels` of calls still allowed, as `parseValue` does, and
the entry points allow one level more than the depth of the tree the recursion descends. The
code has no bound; running out of levels does not happen from the entry points.

A pointer that may be `NULL` is an `Option Value`, and `json_value_get_type` of `NULL` is
`JSONError`.

## Main definitions

* `JsonValueType`, `jsonValueGetType`: `JSON_Value_Type` and `json_value_get_type`.
* `deepCopyItems`, `deepCopyEntries`, `jsonValueDeepCopyAt`, `jsonValueDeepCopy`:
  `json_value_deep_copy`.
* `jsonValidateAt`, `jsonValidate`: `json_validate`.
* `jsonValueEqualsAt`, `jsonValueEquals`: `json_value_equals`.
-/

namespace Parson

/-- `JSON_Value_Type`: `JSONError` (`-1`), then `JSONNull` to `JSONBoolean` (`1` to `6`). -/
inductive JsonValueType where
  | error
  | null
  | string
  | number
  | object
  | array
  | boolean
deriving DecidableEq, Repr

/-- `json_value_get_type`: `JSONError` for `NULL`. -/
def jsonValueGetType : Option Value → JsonValueType
  | none => .error
  | some .null => .null
  | some (.string _) => .string
  | some (.number _) => .number
  | some (.object _) => .object
  | some (.array _) => .array
  | some (.boolean _) => .boolean

/-! ## Deep copy -/

/-- The array loop of `json_value_deep_copy`: copy each slot in order and `json_array_add` the
    copy to `copy`. The copy of a `NULL` slot is `NULL`, which fails the whole copy, and so
    does a failed add. -/
def deepCopyItems (deepCopy : Value → Option Value) :
    List (Option Value) → JsonArray Value → Option (JsonArray Value)
  | [], copy => some copy
  | item :: items, copy =>
    match item.bind deepCopy with
    | none => none
    | some value =>
      match jsonArrayAdd copy value with
      | (.success, copy) => deepCopyItems deepCopy items copy
      | (.failure, _) => none

/-- The object loop of `json_value_deep_copy`: for each name of `object` in order, copy the
    value `json_object_get_value` finds for that name in `object` and `json_object_add` the
    pair to `copy`. -/
def deepCopyEntries (deepCopy : Value → Option Value) (object : JsonObject Value) :
    List (CStr × Value) → JsonObject Value → Option (JsonObject Value)
  | [], copy => some copy
  | (key, _) :: entries, copy =>
    match (jsonObjectGetValue object key).bind deepCopy with
    | none => none
    | some value =>
      match jsonObjectAdd copy key value with
      | (.success, copy) => deepCopyEntries deepCopy object entries copy
      | (.failure, _) => none

/-- `json_value_deep_copy` with `levels` calls left: a container is copied into a fresh one
    from `json_value_init_array` or `json_value_init_object`, a scalar into a fresh value. The
    string's `parson_strdup` and every other allocation are modelled as succeeding. -/
def jsonValueDeepCopyAt : Nat → Value → Option Value
  | 0, _ => none
  | levels + 1, .array a =>
    (deepCopyItems (jsonValueDeepCopyAt levels) a.items jsonArrayInit).map .array
  | levels + 1, .object o =>
    (deepCopyEntries (jsonValueDeepCopyAt levels) o o.entries jsonObjectInit).map .object
  | _ + 1, .boolean b => some (.boolean b)
  | _ + 1, .number x => some (.number x)
  | _ + 1, .string s => some (.string s)
  | _ + 1, .null => some .null

/-- `json_value_deep_copy`, allowed one level more than the tree is deep. -/
def jsonValueDeepCopy (value : Value) : Option Value :=
  jsonValueDeepCopyAt (value.depth + 1) value

/-! ## Validation -/

/-- `json_validate` with `levels` calls left. A `NULL` schema or value fails; the tags must
    agree unless the schema is `null`. An array schema with items validates every item of the
    value against its first item, but tests the recursive status against `0`, which is
    `JSONSuccess`: it fails as soon as an item validates. An object schema with entries needs
    at least as many entries in the value, then every name of the schema present in the value
    with a child that validates against the schema's child of that name. -/
def jsonValidateAt : Nat → Option Value → Option Value → JsonStatus
  | 0, _, _ => .failure
  | _ + 1, none, _ => .failure
  | _ + 1, _, none => .failure
  | levels + 1, some schema, some value =>
    if jsonValueGetType (some schema) ≠ jsonValueGetType (some value) ∧
        jsonValueGetType (some schema) ≠ .null then .failure
    else
      match schema, value with
      | .array s, .array v =>
        match s.items with
        | [] => .success
        | first :: _ =>
          if v.items.any fun item => jsonValidateAt levels first item == .success then .failure
          else .success
      | .object s, .object v =>
        if s.count = 0 then .success
        else if v.count < s.count then .failure
        else if s.entries.all fun e => (jsonObjectGetValue v e.1).isSome &&
            jsonValidateAt levels (jsonObjectGetValue s e.1) (jsonObjectGetValue v e.1) ==
              .success then .success
        else .failure
      | _, _ => .success

/-- `json_validate`, allowed one level more than the schema is deep. -/
def jsonValidate (schema value : Option Value) : JsonStatus :=
  jsonValidateAt ((schema.map Value.depth).getD 0 + 1) schema value

/-! ## Equality -/

/-- `json_value_equals` with `levels` calls left; `true` is the `1` it returns. The tags must
    agree. Arrays need equal counts and equal items position by position. Objects need equal
    counts, then, for each name of `a`, the children `json_object_get_value` finds for it in
    `a` and in `b` equal. Strings are compared with `strcmp`, numbers with the library's
    `fabs(a - b) < 0.000001`, and two `NULL`s or two `null`s are equal. -/
def jsonValueEqualsAt (lib : Libc) : Nat → Option Value → Option Value → Bool
  | 0, _, _ => false
  | levels + 1, a, b =>
    if jsonValueGetType a ≠ jsonValueGetType b then false
    else
      match a, b with
      | some (.array x), some (.array y) =>
        x.count == y.count && (x.items.zip y.items).all fun p =>
          jsonValueEqualsAt lib levels p.1 p.2
      | some (.object x), some (.object y) =>
        x.count == y.count && x.entries.all fun e =>
          jsonValueEqualsAt lib levels (jsonObjectGetValue x e.1) (jsonObjectGetValue y e.1)
      | some (.string s), some (.string t) => s.bytes == t.bytes
      | some (.boolean p), some (.boolean q) => p == q
      | some (.number x), some (.number y) => lib.nearlyEqual x y
      | _, _ => true

/-- `json_value_equals`, allowed one level more than `a` is deep. -/
def jsonValueEquals (lib : Libc) (a b : Option Value) : Bool :=
  jsonValueEqualsAt lib ((a.map Value.depth).getD 0 + 1) a b

end Parson
