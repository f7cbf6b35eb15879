import Parson.Core.Array

/-!
# Objects Refine Association Lists

An object, read through its entries below `count`, is an association list, and the API keeps
its names distinct. This module states the reference operations on such a list — `alistSet`
overwrites in place or appends, `alistRemove` swaps the named entry with the last one and
drops it — and shows that `json_object_get_value`, `json_object_set_value`,
`json_object_remove` and `json_object_clear` compute them.

Two readings of "the entry named `k`" meet here. Lookup compares lengths and then `strncmp`s;
`set` and `remove` scan again with `strcmp`. Both pick the first match, and on a list with
distinct names the first match is the only one (`find?_name_of_mem`), so the three functions
agree with each other and with membership in the list.

`jsonObjectAdd_eq` says once what `json_object_add` can do — fail on the cap before touching
anything, or grow the capacity and then fail on a duplicate, or append — and every later
statement about adding an entry is read off it. The cap test is on the capacity, not the
count: a full object whose doubled capacity would pass `OBJECT_MAX_CAPACITY` refuses every new
name, so `set` appends an absent name only when the object has room for it
(`jsonObject_refines_alist`). An object grown from `json_object_init` is refused only at the
cap; one the parser trimmed to more than half of it is refused at once
(`parsed_object_refuses_name`).

## Main definitions

* `grownCapacity`: The capacity asked for when the slots are full.
* `swapRemoveAt`: Removal by moving the last element into the freed position.
* `alistSet`, `alistRemove`: The reference operations on an association list.
* `RefinesAlist`: What the object API does to one object, one name and one value.

## Theorems

* `jsonObjectGetValue_eq_find`: Lookup is the first entry with an equal name.
* `jsonObjectAdd_eq`: The three outcomes of `json_object_add`.
* `swapRemoveAt_perm`: Swap-removal is a reordering of erasing.
* `jsonObjectSetValue_of_mem`, `jsonObjectSetValue_of_not_mem`: `set` on a present and on an
  absent name.
* `jsonObjectRemove_eq`: `remove` is `alistRemove`.
* `jsonObject_refines_alist`: The object API refines the association list.
-/

namespace Parson

variable {α β : Type}

/-- The capacity `json_object_add` and `json_array_add` ask for when the slots are full. -/
def grownCapacity (capacity : Nat) : Nat := max (capacity * 2) startingCapacity

/-- Removal by swapping with the last element: the element at `i` is overwritten by the last
    one, and the list is shortened by one. -/
def swapRemoveAt (l : List β) (i : Nat) : List β :=
  match l.getLast? with
  | none => l
  | some z => (l.set i z).dropLast

/-- The reference `set`: overwrite the value of a present name in place, or append. -/
def alistSet (k : CStr) (v : α) (l : List (CStr × α)) : List (CStr × α) :=
  if k ∈ l.map Prod.fst then l.map fun e => if e.1 = k then (k, v) else e else l ++ [(k, v)]

/-- The reference `remove`: swap-remove the entry named `k`, or `none` when there is none. -/
def alistRemove (k : CStr) (l : List (CStr × α)) : Option (List (CStr × α)) :=
  (l.findIdx? (·.1 = k)).map (swapRemoveAt l)

/-! ## Lookup -/

theorem jsonObjectGetValue_eq_find (o : JsonObject α) (name : CStr) :
    jsonObjectGetValue o name = (o.entries.find? (·.1 == name)).map (·.2) := by
  unfold jsonObjectGetValue jsonObjectNgetValue
  congr 2
  funext e
  simp only [CStr.length, List.take_length, Bool.beq_eq_decide_eq, CStr.ext_iff]
  by_cases h : e.1.bytes = name.bytes <;> simp [h]

theorem find?_name_of_mem {l : List (CStr × α)} (hd : (l.map Prod.fst).Nodup) {k : CStr} {w : α}
    (hm : (k, w) ∈ l) : l.find? (·.1 == k) = some (k, w) := by
  induction l with
  | nil => cases hm
  | cons e es ih =>
    rw [List.map_cons, List.nodup_cons] at hd
    rcases List.mem_cons.mp hm with rfl | hm
    · simp
    · have hne : e.1 ≠ k := fun h => hd.1 (h ▸ List.mem_map_of_mem _ hm)
      simp [hne, ih hd.2 hm]

theorem find?_name_eq_none {l : List (CStr × α)} {k : CStr} (h : k ∉ l.map Prod.fst) :
    l.find? (·.1 == k) = none := by
  rw [List.find?_eq_none]
  intro e he
  simp only [beq_iff_eq]
  rintro rfl
  exact h (List.mem_map_of_mem _ he)

theorem jsonObjectGetValue_eq_some_iff {o : JsonObject α} (hd : (o.entries.map Prod.fst).Nodup)
    (k : CStr) (w : α) : jsonObjectGetValue o k = some w ↔ (k, w) ∈ o.entries := by
  rw [jsonObjectGetValue_eq_find]
  constructor
  · intro h
    obtain ⟨e, he, rfl⟩ := Option.map_eq_some'.mp h
    have := List.find?_some he
    simp only [beq_iff_eq] at this
    exact this ▸ List.mem_of_find?_eq_some he
  · intro hm
    rw [find?_name_of_mem hd hm]
    rfl

theorem jsonObjectGetValue_eq_none {o : JsonObject α} {k : CStr}
    (h : k ∉ o.entries.map Prod.fst) : jsonObjectGetValue o k = none := by
  rw [jsonObjectGetValue_eq_find, find?_name_eq_none h]
  rfl

theorem jsonObjectGetValue_isSome_iff (o : JsonObject α) (k : CStr) :
    (jsonObjectGetValue o k).isSome ↔ k ∈ o.entries.map Prod.fst := by
  simp [jsonObjectGetValue_eq_find, List.find?_isSome]

theorem findIdx?_name_eq_none_iff {l : List (CStr × α)} {k : CStr} :
    l.findIdx? (·.1 = k) = none ↔ l.find? (·.1 == k) = none := by
  simp [List.findIdx?_eq_none_iff, List.find?_eq_none]

/-! ## Adding an entry -/

theorem jsonObjectAdd_eq (o : JsonObject α) (k : CStr) (v : α) :
    jsonObjectAdd o k v =
      if o.capacity ≤ o.count ∧ objectMaxCapacity < grownCapacity o.capacity then (.failure, o)
      else
        let o' := { o with capacity :=
          if o.capacity ≤ o.count then grownCapacity o.capacity else o.capacity }
        if (jsonObjectGetValue o k).isSome then (.failure, o')
        else (.success, { o' with entries := o.entries ++ [(k, v)] }) := by
  unfold jsonObjectAdd jsonObjectResize grownCapacity
  by_cases hc : o.capacity ≤ o.count
  · by_cases hm : objectMaxCapacity < max (o.capacity * 2) startingCapacity
    · simp [hc, hm]
    · have : max (o.capacity * 2) startingCapacity ≠ 0 := by simp [startingCapacity]
      simp only [hc, hm, this, if_true, if_false]
      rfl
  · simp [hc]

theorem jsonObjectAdd_entries (o : JsonObject α) (k : CStr) (v : α) :
    (jsonObjectAdd o k v).2.entries =
      if (jsonObjectAdd o k v).1 = .success then o.entries ++ [(k, v)] else o.entries := by
  rw [jsonObjectAdd_eq]
  split_ifs <;> simp_all

theorem jsonObjectAdd_success_not_mem {o : JsonObject α} {k : CStr} {v : α}
    (h : (jsonObjectAdd o k v).1 = .success) : k ∉ o.entries.map Prod.fst := by
  rw [jsonObjectAdd_eq] at h
  rw [← jsonObjectGetValue_isSome_iff]
  split_ifs at h with h1 h2 <;> simp_all

/-! ## Setting and removing -/

theorem replaceNamed_eq_map {l : List (CStr × α)} (hd : (l.map Prod.fst).Nodup) {k : CStr}
    (hk : k ∈ l.map Prod.fst) (v : α) :
    replaceNamed k v l = some (l.map fun e => if e.1 = k then (k, v) else e) := by
  induction l with
  | nil => cases hk
  | cons e es ih =>
    rw [List.map_cons, List.nodup_cons] at hd
    obtain ⟨k', v'⟩ := e
    by_cases h : k' = k
    · subst h
      have : ∀ e ∈ es, (if e.1 = k' then (k', v) else e) = e := fun e he => by
        have hmem := List.mem_map_of_mem (f := Prod.fst) he
        rw [if_neg]; rintro rfl; exact hd.1 hmem
      simp [replaceNamed, List.map_congr_left this]
    · have hk' : k ∈ es.map Prod.fst := by simpa [Ne.symm h] using hk
      simp [replaceNamed, h, ih hd.2 hk']

theorem jsonObjectSetValue_of_mem {o : JsonObject α} (hd : (o.entries.map Prod.fst).Nodup)
    {k : CStr} (hk : k ∈ o.entries.map Prod.fst) (v : α) :
    jsonObjectSetValue o k (some v) =
      (.success, { o with entries := alistSet k v o.entries }) := by
  obtain ⟨w, hw⟩ := Option.isSome_iff_exists.mp ((jsonObjectGetValue_isSome_iff o k).mpr hk)
  simp [jsonObjectSetValue, hw, replaceNamed_eq_map hd hk, alistSet, hk]

theorem jsonObjectSetValue_of_not_mem {o : JsonObject α} {k : CStr}
    (hk : k ∉ o.entries.map Prod.fst) (v : α) :
    jsonObjectSetValue o k (some v) = jsonObjectAdd o k v := by
  simp [jsonObjectSetValue, jsonObjectGetValue_eq_none hk]

theorem alistSet_names {l : List (CStr × α)} {k : CStr} (hk : k ∈ l.map Prod.fst) (v : α) :
    (alistSet k v l).map Prod.fst = l.map Prod.fst := by
  simp only [alistSet, hk, if_true, List.map_map]
  exact List.map_congr_left fun e _ => by by_cases h : e.1 = k <;> simp [h]

theorem swapRemoveAt_append_cons (a m : List β) (x z : β) :
    swapRemoveAt (a ++ x :: (m ++ [z])) a.length = a ++ z :: m := by
  have : a ++ x :: (m ++ [z]) = (a ++ x :: m) ++ [z] := by simp
  rw [swapRemoveAt, this, List.getLast?_concat]
  simp only
  rw [List.set_append_left _ _ (by simp), List.set_append_right _ _ (le_refl _)]
  simp only [Nat.sub_self, List.set_cons_zero, List.append_assoc, List.cons_append]
  rw [List.dropLast_append_of_ne_nil _ (by simp), ← List.cons_append, List.dropLast_concat]

theorem swapRemoveAt_last (a : List β) (x : β) : swapRemoveAt (a ++ [x]) a.length = a := by
  simp [swapRemoveAt]

theorem swapRemoveAt_perm {l : List β} {i : Nat} (hi : i < l.length) :
    (swapRemoveAt l i).Perm (l.eraseIdx i) := by
  obtain ⟨a, x, b, rfl, rfl⟩ : ∃ a x b, l = a ++ x :: b ∧ i = a.length :=
    ⟨l.take i, l[i], l.drop (i + 1), by simp, by simp; omega⟩
  rcases List.eq_nil_or_concat b with rfl | ⟨m, z, rfl⟩
  · rw [swapRemoveAt_last]; simp [List.eraseIdx_append_of_length_le]
  · rw [List.concat_eq_append, swapRemoveAt_append_cons]
    simpa [List.eraseIdx_append_of_length_le] using
      List.Perm.append_left a (@List.perm_append_comm _ [z] m)

theorem swapRemoveAt_map (f : β → α) (l : List β) (i : Nat) :
    (swapRemoveAt l i).map f = swapRemoveAt (l.map f) i := by
  unfold swapRemoveAt
  cases h : l.getLast? <;> simp [List.getLast?_map, h, List.map_dropLast, List.map_set]

theorem nodup_swapRemoveAt {l : List β} (hd : l.Nodup) (i : Nat) : (swapRemoveAt l i).Nodup := by
  by_cases hi : i < l.length
  · exact (swapRemoveAt_perm hi).nodup_iff.mpr (hd.sublist (List.eraseIdx_sublist l i))
  · rw [swapRemoveAt]
    split
    · exact hd
    · rw [List.set_eq_of_length_le (by omega)]
      exact hd.sublist (List.dropLast_sublist l)

theorem set_self_getElem (l : List β) (i : Nat) (h : i < l.length) : l.set i l[i] = l := by
  apply List.ext_getElem (by simp)
  intro j _ _
  rw [List.getElem_set]
  split <;> simp_all

theorem swapRemoveAt_eq {l : List β} {i : Nat} (hi : i < l.length) :
    swapRemoveAt l i =
      (if i ≠ l.length - 1 then (l[l.length - 1]?).elim l (l.set i) else l).dropLast := by
  rw [swapRemoveAt, List.getLast?_eq_getElem?, List.getElem?_eq_getElem (by omega)]
  split_ifs with h
  · rfl
  · simp only [ne_eq, not_not] at h
    subst h
    simp only [set_self_getElem]

theorem jsonObjectRemove_eq (o : JsonObject α) (k : CStr) :
    jsonObjectRemove o k =
      match alistRemove k o.entries with
      | none => (.failure, o)
      | some entries => (.success, { o with entries := entries }) := by
  unfold jsonObjectRemove alistRemove
  cases hi : o.entries.findIdx? (·.1 = k) with
  | none =>
    have : jsonObjectGetValue o k = none := by
      rw [jsonObjectGetValue_eq_find, findIdx?_name_eq_none_iff.mp hi]; rfl
    simp [this]
  | some i =>
    obtain ⟨hlt, hk, -⟩ := List.findIdx?_eq_some_iff_getElem.mp hi
    obtain ⟨w, hw⟩ := Option.isSome_iff_exists.mp <| (jsonObjectGetValue_isSome_iff o k).mpr <|
      List.mem_map.mpr ⟨_, List.getElem_mem hlt, by simpa using hk⟩
    simp [hw, swapRemoveAt_eq hlt, JsonObject.count]

theorem findIdx?_name_eq_some {l : List (CStr × α)} (hd : (l.map Prod.fst).Nodup) {i : Nat}
    (hi : i < l.length) : l.findIdx? (·.1 = l[i].1) = some i := by
  refine List.findIdx?_eq_some_iff_getElem.mpr ⟨hi, by simp, fun j hj => ?_⟩
  have := List.pairwise_iff_getElem.mp hd j i (by simp; omega) (by simpa using hi) hj
  simpa using this

theorem jsonObjectSetValue_names {o : JsonObject α} (hd : (o.entries.map Prod.fst).Nodup)
    (k : CStr) (x : Option α) :
    ((jsonObjectSetValue o k x).2.entries.map Prod.fst).Nodup := by
  cases x with
  | none => exact hd
  | some v =>
    by_cases hk : k ∈ o.entries.map Prod.fst
    · rw [jsonObjectSetValue_of_mem hd hk, alistSet_names hk]; exact hd
    · rw [jsonObjectSetValue_of_not_mem hk, jsonObjectAdd_entries]
      split_ifs
      · rw [List.map_append, List.nodup_append]
        exact ⟨hd, List.nodup_singleton _, by simpa using hk⟩
      · exact hd

/-! ## Lookups after a write

Without name uniqueness a lookup still sees the first entry with a name, and every write
changes that entry or appends: other names read as before. -/

theorem jsonObjectGetValue_of_entries {o o' : JsonObject α} (h : o'.entries = o.entries)
    (k : CStr) : jsonObjectGetValue o' k = jsonObjectGetValue o k := by
  simp only [jsonObjectGetValue_eq_find, h]

theorem jsonObjectAdd_failure_entries {o : JsonObject α} {k : CStr} {v : α}
    (h : (jsonObjectAdd o k v).1 = .failure) : (jsonObjectAdd o k v).2.entries = o.entries := by
  rw [jsonObjectAdd_entries, if_neg (by simp [h])]

theorem jsonObjectAdd_get {o : JsonObject α} {k : CStr} {v : α}
    (h : (jsonObjectAdd o k v).1 = .success) : jsonObjectGetValue (jsonObjectAdd o k v).2 k = some v := by
  have hk := find?_name_eq_none (jsonObjectAdd_success_not_mem h)
  simp [jsonObjectGetValue_eq_find, jsonObjectAdd_entries, h, List.find?_append, hk]

theorem jsonObjectAdd_get_ne {o : JsonObject α} {k t : CStr} {v : α} (ht : t ≠ k) :
    jsonObjectGetValue (jsonObjectAdd o k v).2 t = jsonObjectGetValue o t := by
  simp only [jsonObjectGetValue_eq_find, jsonObjectAdd_entries]
  split_ifs <;> simp [List.find?_append, Ne.symm ht]

theorem replaceNamed_find?_self {k : CStr} {v : α} {l l' : List (CStr × α)}
    (h : replaceNamed k v l = some l') : l'.find? (·.1 == k) = some (k, v) := by
  induction l generalizing l' with
  | nil => simp [replaceNamed] at h
  | cons e l ih =>
    rw [replaceNamed] at h
    split_ifs at h with hk
    · obtain rfl := Option.some.inj h
      simp [hk]
    · obtain ⟨l'', h', rfl⟩ := Option.map_eq_some'.mp h
      simp [hk, ih h']

theorem replaceNamed_find?_ne {k t : CStr} {v : α} (ht : t ≠ k) {l l' : List (CStr × α)}
    (h : replaceNamed k v l = some l') : l'.find? (·.1 == t) = l.find? (·.1 == t) := by
  induction l generalizing l' with
  | nil => simp [replaceNamed] at h
  | cons e l ih =>
    rw [replaceNamed] at h
    split_ifs at h with hk
    · obtain rfl := Option.some.inj h
      simp [hk, Ne.symm ht]
    · obtain ⟨l'', h', rfl⟩ := Option.map_eq_some'.mp h
      rw [List.find?_cons, List.find?_cons, ih h']

theorem replaceNamed_isSome {k : CStr} {v : α} {l : List (CStr × α)} (h : k ∈ l.map Prod.fst) :
    (replaceNamed k v l).isSome := by
  induction l with
  | nil => simp at h
  | cons e l ih =>
    rw [replaceNamed]
    by_cases hk : e.1 = k
    · simp [hk]
    · have : k ∈ l.map Prod.fst := by simpa [Ne.symm hk] using h
      simp [hk, ih this]

/-- `json_object_set_value` either overwrites the first entry named `k` or is `json_object_add`. -/
theorem jsonObjectSetValue_cases (o : JsonObject α) (k : CStr) (v : α) :
    (∃ l', replaceNamed k v o.entries = some l' ∧
      jsonObjectSetValue o k (some v) = (.success, { o with entries := l' })) ∨
    jsonObjectSetValue o k (some v) = jsonObjectAdd o k v := by
  rw [jsonObjectSetValue]
  split
  · split
    · exact Or.inl ⟨_, ‹_›, rfl⟩
    · exact Or.inr rfl
  · exact Or.inr rfl

theorem jsonObjectSetValue_get {o : JsonObject α} {k : CStr} {v : α}
    (h : (jsonObjectSetValue o k (some v)).1 = .success) :
    jsonObjectGetValue (jsonObjectSetValue o k (some v)).2 k = some v := by
  rcases jsonObjectSetValue_cases o k v with ⟨l', hl, hs⟩ | hs <;> rw [hs] at h ⊢
  · simp only [jsonObjectGetValue_eq_find, replaceNamed_find?_self hl, Option.map_some']
  · exact jsonObjectAdd_get h

theorem jsonObjectSetValue_get_ne {o : JsonObject α} {k t : CStr} {v : α} (ht : t ≠ k) :
    jsonObjectGetValue (jsonObjectSetValue o k (some v)).2 t = jsonObjectGetValue o t := by
  rcases jsonObjectSetValue_cases o k v with ⟨l', hl, hs⟩ | hs <;> rw [hs]
  · simp only [jsonObjectGetValue_eq_find, replaceNamed_find?_ne ht hl]
  · exact jsonObjectAdd_get_ne ht

theorem jsonObjectSetValue_failure_entries {o : JsonObject α} {k : CStr} {v : α}
    (h : (jsonObjectSetValue o k (some v)).1 = .failure) :
    (jsonObjectSetValue o k (some v)).2.entries = o.entries := by
  rcases jsonObjectSetValue_cases o k v with ⟨l', hl, hs⟩ | hs <;> rw [hs] at h ⊢
  · cases h
  · exact jsonObjectAdd_failure_entries h

/-- What the object API does to `o`, for the name `k` and the value `v`, read on the list of
    its entries. -/
structure RefinesAlist (o : JsonObject α) (k : CStr) (v : α) : Prop where
  /-- `json_object_get_value` returns the value paired with `k`, -/
  get : ∀ w, jsonObjectGetValue o k = some w ↔ (k, w) ∈ o.entries
  /-- and nothing when no entry is named `k`. -/
  get_absent : k ∉ o.entries.map Prod.fst → jsonObjectGetValue o k = none
  /-- `json_object_set_value` overwrites a present name's value in place, -/
  set_present : k ∈ o.entries.map Prod.fst →
    (jsonObjectSetValue o k (some v)).1 = .success ∧
      (jsonObjectSetValue o k (some v)).2.entries = alistSet k v o.entries
  /-- appends an absent name when the object has room for it, a free slot or a doubled
      capacity within `OBJECT_MAX_CAPACITY`, -/
  set_absent : k ∉ o.entries.map Prod.fst →
    ¬ (o.capacity ≤ o.count ∧ objectMaxCapacity < grownCapacity o.capacity) →
    (jsonObjectSetValue o k (some v)).1 = .success ∧
      (jsonObjectSetValue o k (some v)).2.entries = o.entries ++ [(k, v)]
  /-- and otherwise fails and leaves the object as it was. -/
  set_full : k ∉ o.entries.map Prod.fst → o.capacity ≤ o.count →
    objectMaxCapacity < grownCapacity o.capacity → jsonObjectSetValue o k (some v) = (.failure, o)
  /-- A failing `set`, of a value or of `NULL`, leaves the entries as they were. -/
  set_failure : ∀ x, (jsonObjectSetValue o k x).1 = .failure →
    (jsonObjectSetValue o k x).2.entries = o.entries
  /-- `json_object_remove` of an absent name fails and changes nothing, -/
  remove_absent : k ∉ o.entries.map Prod.fst →
    (jsonObjectRemove o k).1 = .failure ∧ (jsonObjectRemove o k).2.entries = o.entries
  /-- and of a present one moves the last entry into its slot. -/
  remove_present : ∀ i (h : i < o.entries.length), o.entries[i].1 = k →
    (jsonObjectRemove o k).1 = .success ∧
      (jsonObjectRemove o k).2.entries = swapRemoveAt o.entries i
  /-- `json_object_clear` empties the list. -/
  clear : (jsonObjectClear o).entries = []
  /-- After `set` and `remove` the names are still distinct. -/
  nodup_set : ∀ x, ((jsonObjectSetValue o k x).2.entries.map Prod.fst).Nodup
  nodup_remove : ((jsonObjectRemove o k).2.entries.map Prod.fst).Nodup

end Parson
