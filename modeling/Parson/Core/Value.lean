import Parson.Core.Double

/-!
# The Value Model

A `JSON_Value` is a tag and a payload. Objects and arrays own their children through
separately allocated slot arrays: an object has `names` and `values`, an array `items`, each
with `capacity` slots of which the first `count` are in use.

`Value` mirrors that layout. A container keeps its entries in order together with its
`capacity`; `count` is the length of the entry list. An object's slots always hold a value,
because every path that writes one checks for `NULL` first, but an array slot is an
`Option`: `json_array_remove` can leave `NULL` in one (see `Parson.Theory.ArrayModel`).

`Json` is what a tree means, without the storage: no capacities and no empty slots. A
`Value` has a meaning when every slot below `count` is filled (`Value.toJson?`), and
`Json.toValue` stores a meaning with every capacity trimmed to its count, which is how the
parser leaves a tree.

## Main definitions

* `JsonStatus`: `JSONSuccess` or `JSONFailure`.
* `JsonObject`, `JsonArray`: A container's entries and its allocated capacity.
* `Value`: A tree as the code stores it.
* `Json`: A tree as an abstract JSON document.
* `Value.toJson?`: A tree's meaning, when all its slots are filled.
* `Json.toValue`: A document stored with trimmed capacities.
* `Json.depth`, `Value.depth`: The container nesting depth, the root included.
-/

namespace Parson

/-- `JSON_Status`. -/
inductive JsonStatus where
  | success
  | failure
deriving DecidableEq, Repr

/-- `JSON_Object`: the names and values below `count`, in order, and the number of slots
    allocated for each array. -/
structure JsonObject (α : Type) where
  entries : List (CStr × α)
  capacity : Nat

/-- `JSON_Array`: the items below `count`, in order, and the number of slots allocated. -/
structure JsonArray (α : Type) where
  items : List (Option α)
  capacity : Nat

/-- `json_object_get_count`. -/
def JsonObject.count {α : Type} (o : JsonObject α) : Nat := o.entries.length

/-- `json_array_get_count`. -/
def JsonArray.count {α : Type} (a : JsonArray α) : Nat := a.items.length

/-- `JSON_Value`, in the order of `JSON_Value_Type`. -/
inductive Value where
  | null
  | string (s : CStr)
  | number (x : Double)
  | object (o : JsonObject Value)
  | array (a : JsonArray Value)
  | boolean (b : Bool)

namespace Value

/-- `json_value_get_object`. -/
def getObject : Value → Option (JsonObject Value)
  | object o => some o
  | _ => none

/-- `json_value_get_array`. -/
def getArray : Value → Option (JsonArray Value)
  | array a => some a
  | _ => none

/-- `json_value_get_string`. -/
def getString : Value → Option CStr
  | string s => some s
  | _ => none

@[simp] theorem getObject_object (o : JsonObject Value) : (object o).getObject = some o := rfl

end Value

/-- A JSON document: what a tree means, without its storage. -/
inductive Json where
  | null
  | string (s : CStr)
  | number (x : Double)
  | object (entries : List (CStr × Json))
  | array (items : List Json)
  | boolean (b : Bool)

mutual

/-- A tree's meaning, or `none` when some array slot below `count` is `NULL`. -/
def Value.toJson? : Value → Option Json
  | .null => some .null
  | .string s => some (.string s)
  | .number x => some (.number x)
  | .object o => (Value.entriesToJson? o.entries).map .object
  | .array a => (Value.itemsToJson? a.items).map .array
  | .boolean b => some (.boolean b)

/-- `Value.toJson?` on an object's entries. -/
def Value.entriesToJson? : List (CStr × Value) → Option (List (CStr × Json))
  | [] => some []
  | (k, v) :: es => do
    let j ← v.toJson?
    let js ← Value.entriesToJson? es
    pure ((k, j) :: js)

/-- `Value.toJson?` on an array's items. -/
def Value.itemsToJson? : List (Option Value) → Option (List Json)
  | [] => some []
  | none :: _ => none
  | some v :: vs => do
    let j ← v.toJson?
    let js ← Value.itemsToJson? vs
    pure (j :: js)

end

mutual

/-- A document stored as the parser stores it: every capacity trimmed to the count. -/
def Json.toValue : Json → Value
  | .null => .null
  | .string s => .string s
  | .number x => .number x
  | .object es => .object ⟨Json.entriesToValue es, es.length⟩
  | .array vs => .array ⟨Json.itemsToValue vs, vs.length⟩
  | .boolean b => .boolean b

/-- `Json.toValue` on an object's entries. -/
def Json.entriesToValue : List (CStr × Json) → List (CStr × Value)
  | [] => []
  | (k, j) :: es => (k, j.toValue) :: Json.entriesToValue es

/-- `Json.toValue` on an array's items. -/
def Json.itemsToValue : List Json → List (Option Value)
  | [] => []
  | j :: js => some j.toValue :: Json.itemsToValue js

end

mutual

/-- The container nesting depth: the most arrays and objects on a chain from the root down,
    the root included. -/
def Json.depth : Json → Nat
  | .object es => Json.entriesDepth es + 1
  | .array vs => Json.itemsDepth vs + 1
  | _ => 0

/-- The deepest entry of an object. -/
def Json.entriesDepth : List (CStr × Json) → Nat
  | [] => 0
  | (_, j) :: es => max j.depth (Json.entriesDepth es)

/-- The deepest item of an array. -/
def Json.itemsDepth : List Json → Nat
  | [] => 0
  | j :: js => max j.depth (Json.itemsDepth js)

end

mutual

/-- The container nesting depth of a stored tree, `NULL` slots counting as leaves. -/
def Value.depth : Value → Nat
  | .object o => Value.entriesDepth o.entries + 1
  | .array a => Value.itemsDepth a.items + 1
  | _ => 0

/-- The deepest entry of an object. -/
def Value.entriesDepth : List (CStr × Value) → Nat
  | [] => 0
  | (_, v) :: es => max v.depth (Value.entriesDepth es)

/-- The deepest item of an array. -/
def Value.itemsDepth : List (Option Value) → Nat
  | [] => 0
  | none :: vs => Value.itemsDepth vs
  | some v :: vs => max v.depth (Value.itemsDepth vs)

end

end Parson
