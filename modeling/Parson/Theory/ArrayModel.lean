import Parson.Theory.ObjectModel

/-!
# Arrays as Lists

Read through its items below `count`, an array is a list, and `json_array_append_value`,
`json_array_replace_value` and `json_array_clear` are `concat`, `set` and the empty list on
it; each call with an index at or past `count`, or with a `NULL` value, fails and changes
nothing.

`json_array_remove` is meant to be swap-removal: the code's comment says it replaces the
removed slot "with one from the end of array". It decrements `count` first and then reads the
last item through `json_array_get_value`, which checks the index against the new `count` and
returns `NULL`. So for every index below the last one the removed slot ends up holding
`NULL`, and the last item is gone from the array. `jsonArrayRemove_items` states what the
function does, and `jsonArrayRemove_null_true` runs it on a two-item array.

## Theorems

* `jsonArrayAdd_eq`: The two outcomes of `json_array_add`.
* `jsonArrayAdd_items`: What adding leaves in the slots.
* `jsonArrayAppendValue_items`: Appending concatenates, or fails and changes nothing.
* `jsonArrayReplaceValue_items`: Replacing below `count` is `List.set`.
* `jsonArrayRemove_items`: What removal leaves in the slots.
* `jsonArrayRemove_null_true`: Removing the first of two items leaves a `NULL`.
-/

namespace Parson

variable {α : Type}

theorem jsonArrayAdd_eq (a : JsonArray α) (v : α) :
    jsonArrayAdd a v =
      if a.capacity ≤ a.count ∧ arrayMaxCapacity < grownCapacity a.capacity then (.failure, a)
      else (.success, ⟨a.items ++ [some v],
        if a.capacity ≤ a.count then grownCapacity a.capacity else a.capacity⟩) := by
  unfold jsonArrayAdd jsonArrayResize grownCapacity
  by_cases hc : a.capacity ≤ a.count
  · by_cases hm : arrayMaxCapacity < max (a.capacity * 2) startingCapacity
    · simp [hc, hm]
    · have : max (a.capacity * 2) startingCapacity ≠ 0 := by simp [startingCapacity]
      simp [hc, hm, this]
  · simp [hc]

theorem jsonArrayAdd_items (a : JsonArray α) (v : α) :
    (jsonArrayAdd a v).2.items =
      if (jsonArrayAdd a v).1 = .success then a.items ++ [some v] else a.items := by
  rw [jsonArrayAdd_eq]
  split_ifs <;> simp_all

theorem jsonArrayAppendValue_items (a : JsonArray α) (x : Option α) :
    ((jsonArrayAppendValue a x).1 = .success ∧ ∃ v, x = some v ∧
        (jsonArrayAppendValue a x).2.items = a.items ++ [some v]) ∨
      (jsonArrayAppendValue a x).1 = .failure ∧ (jsonArrayAppendValue a x).2.items = a.items := by
  cases x with
  | none => simp [jsonArrayAppendValue]
  | some v =>
    simp only [jsonArrayAppendValue, jsonArrayAdd_eq]
    split_ifs <;> simp

theorem jsonArrayReplaceValue_items (a : JsonArray α) (ix : Nat) (x : Option α) :
    (jsonArrayReplaceValue a ix x).2.items =
      if ix < a.count ∧ x.isSome then a.items.set ix x else a.items := by
  cases x with
  | none => simp [jsonArrayReplaceValue]
  | some v =>
    by_cases h : a.count ≤ ix
    · simp [jsonArrayReplaceValue, h, show ¬ ix < a.count by omega]
    · simp [jsonArrayReplaceValue, h, show ix < a.count by omega]

theorem jsonArrayReplaceValue_status (a : JsonArray α) (ix : Nat) (x : Option α) :
    (jsonArrayReplaceValue a ix x).1 = if ix < a.count ∧ x.isSome then .success else .failure := by
  cases x with
  | none => simp [jsonArrayReplaceValue]
  | some v =>
    by_cases h : a.count ≤ ix
    · simp [jsonArrayReplaceValue, h, show ¬ ix < a.count by omega]
    · simp [jsonArrayReplaceValue, h, show ix < a.count by omega]

/-- Removal below `count`: the last slot goes, and, unless the removed index was the last, the
    removed slot is left `NULL`. At or past `count` nothing changes. -/
theorem jsonArrayRemove_items (a : JsonArray α) (ix : Nat) :
    jsonArrayRemove a ix =
      if a.count ≤ ix then (.failure, a)
      else if ix = a.count - 1 then (.success, { a with items := a.items.dropLast })
      else (.success, { a with items := a.items.dropLast.set ix none }) := by
  unfold jsonArrayRemove
  by_cases h : a.count ≤ ix
  · simp [h]
  · by_cases hl : ix = a.count - 1
    · simp [h, hl]
    · have : jsonArrayGetValue { a with items := a.items.dropLast } (a.count - 1) = none := by
        simp [jsonArrayGetValue, JsonArray.count]
      simp [h, hl, this]

theorem jsonArrayRemove_null_true :
    jsonArrayRemove (⟨[some .null, some (.boolean true)], 2⟩ : JsonArray Value) 0 =
      (.success, ⟨[none], 2⟩) := rfl

end Parson
