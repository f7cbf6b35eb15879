import Parson.Core.Object

/-!
# Dotted Paths

`json_object_dotget_value`, `json_object_dotset_value` and `json_object_dotremove` take a
name such as `"a.b.c"` and walk down through nested objects. Each finds the first `.` with
`strchr`, handles the part before it against the current object, and calls itself on the
part after it.

The functions change a nested object in place through the pointer the parent holds. In the
model a nested object is a value in the parent's entry list, so the call on the child
returns the changed child and `updateChild` writes it back into the entry it was read from,
the first one with that name.

## Main definitions

* `dotPosition`: `strchr(name, '.')`, as an index.
* `jsonObjectGetObject`: `json_object_get_object`.
* `updateChild`: Writing a changed child object back into its parent.
* `jsonObjectDotgetValue`, `jsonObjectDotsetValue`, `jsonObjectDotremove`: The dotted API.
-/

namespace Parson

/-- `strchr(name, '.')`: the index of the first `.`, if any. -/
def dotPosition (name : CStr) : Option Nat := name.bytes.findIdx? (· = 46)

theorem dotPosition_lt {name : CStr} {i : Nat} (h : dotPosition name = some i) :
    i < name.length :=
  (List.findIdx?_eq_some_iff_getElem.mp h).1

theorem length_drop_dotPosition {name : CStr} {i : Nat} (h : dotPosition name = some i) :
    (name.drop (i + 1)).length < name.length := by
  have := dotPosition_lt h
  simp only [CStr.length, CStr.drop_bytes, List.length_drop] at this ⊢
  omega

/-- `json_object_get_object`. -/
def jsonObjectGetObject (o : JsonObject Value) (name : CStr) : Option (JsonObject Value) :=
  (jsonObjectGetValue o name).bind Value.getObject

/-- The parent after the child object held by its first entry named `name` was changed in
    place to `child`. -/
def updateChild (o : JsonObject Value) (name : CStr) (child : JsonObject Value) :
    JsonObject Value :=
  { o with entries := (replaceNamed name (.object child) o.entries).getD o.entries }

/-- `json_object_dotget_value`. A `NULL` object, left by a missing or non-object
    intermediate, makes every later lookup `NULL`. -/
def jsonObjectDotgetValue (o : Option (JsonObject Value)) (name : CStr) : Option Value :=
  match h : dotPosition name with
  | none => o.bind (jsonObjectGetValue · name)
  | some i =>
    jsonObjectDotgetValue ((o.bind (jsonObjectNgetValue · name i)).bind Value.getObject)
      (name.drop (i + 1))
termination_by name.length
decreasing_by exact length_drop_dotPosition h

/-- `json_object_dotset_value`: descend into the object named by the part before the first
    `.`, adding a fresh empty object when `json_object_get_object` finds none, and finish with
    `json_object_set_value`. A `NULL` value fails. -/
def jsonObjectDotsetValue (o : JsonObject Value) (name : CStr) :
    Option Value → JsonStatus × JsonObject Value
  | none => (.failure, o)
  | some value =>
    match _h : dotPosition name with
    | none => jsonObjectSetValue o name (some value)
    | some i =>
      let current := name.take i
      match jsonObjectGetObject o current with
      | some child =>
        let r := jsonObjectDotsetValue child (name.drop (i + 1)) (some value)
        (r.1, updateChild o current r.2)
      | none =>
        match jsonObjectAdd o current (.object ⟨[], 0⟩) with
        | (.failure, o') => (.failure, o')
        | (.success, o') =>
          match jsonObjectGetObject o' current with
          | none => (.failure, o')
          | some child =>
            let r := jsonObjectDotsetValue child (name.drop (i + 1)) (some value)
            (r.1, updateChild o' current r.2)
termination_by name.length
decreasing_by all_goals exact length_drop_dotPosition _h

/-- `json_object_dotremove`: descend without creating, and finish with `json_object_remove`. -/
def jsonObjectDotremove (o : JsonObject Value) (name : CStr) : JsonStatus × JsonObject Value :=
  match _h : dotPosition name with
  | none => jsonObjectRemove o name
  | some i =>
    match jsonObjectGetObject o (name.take i) with
    | none => (.failure, o)
    | some child =>
      let r := jsonObjectDotremove child (name.drop (i + 1))
      (r.1, updateChild o (name.take i) r.2)
termination_by name.length
decreasing_by exact length_drop_dotPosition _h

end Parson
