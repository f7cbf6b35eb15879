import Parson.Theory.Capacity
import Mathlib.Data.Finmap

/-!
# Objects and Arrays as Stores

An object is a store of named values, written by three calls: `json_object_set_value`,
`json_object_remove` and `json_object_clear`. This module runs any sequence of them on one
object and says what store the object is: a finite map from names to values (Mathlib's
`Finmap`) holding at most `OBJECT_MAX_CAPACITY` names. On the map, `set` of a present name
overwrites its value, `set` of an absent name adds it while there is room and fails
otherwise, `set` of `NULL` fails, `remove` erases a present name and fails on an absent one,
and `clear` empties the map.

An object stands for the map of its entries (`JsonObject.toNameMap`), and
`json_object_get_value` is the map's lookup on every object, since both read the first entry
of a name (`lookup_toNameMap`). The rest needs the invariant `JsonObject.Wf`: distinct
names, `count ≤ capacity ≤ OBJECT_MAX_CAPACITY`, and a capacity the growth rule reaches.
One call keeps it (`objectStep_wf`) and is one step of the map, with the same status
(`objectStep_refines`). `runCalls_simulates` turns the two into the same facts about every
sequence of calls, and `json_object_init` starts one (`jsonObjectInit_wf`).

Distinct names are what make `remove` an erasure: it moves the last entry into the removed
one's slot, which reorders the entries, and a lookup only ever reads the first entry of a
name.

An array is a list of values under `json_array_append_value`, `json_array_replace_value` and
`json_array_clear`, with at most `ARRAY_MAX_CAPACITY` items, in the same way
(`arrayStep_refines`), and `json_array_get_value` reads the list. The invariant
`JsonArray.Wf` has every slot below `count` filled. `json_array_remove` is not among the calls:
it leaves a `NULL` in the removed slot (`jsonArrayRemove_items`), so no list of values is what
it computes.

## Main definitions

* `runCalls`: Calls one after another, with the statuses they return.
* `ObjectCall`, `ArrayCall`: The calls that write an object and an array.
* `objectStep`, `objectRun`, `arrayStep`, `arrayRun`: One call and a sequence of calls, as
  the code runs them.
* `JsonObject.Wf`, `JsonArray.Wf`: The invariants of the containers the calls build.
* `NameMap`, `nameMapStep`, `nameMapRun`: The abstract object and its calls.
* `listStep`, `listRun`: The abstract array and its calls.
* `JsonObject.toNameMap`, `JsonArray.toList`: What a container stands for.

## Theorems

* `runCalls_simulates`: A step that commutes with an abstraction makes whole runs commute.
* `lookup_toNameMap`: `json_object_get_value` is the lookup of the map.
* `jsonObjectSetValue_success_iff`: When `set` of a value succeeds.
* `jsonObjectRemove_cases`: What `remove` can do.
* `objectStep_wf`, `arrayStep_wf`: A call keeps the invariant.
* `objectStep_refines`, `arrayStep_refines`: A call is one step of the abstract store.
* `objectRun_refines`, `arrayRun_refines`: So is every sequence of calls.
* `objectRun_init_refines`, `arrayRun_init_refines`: Every sequence of calls from
  `json_object_init` and from `json_array_init`.
-/

namespace Parson

variable {α : Type}

/-- Calls made one after another with `step`: the statuses they return, in order, and the
    state they leave. A failing call does not stop the ones after it. -/
def runCalls {κ σ : Type} (step : κ → σ → JsonStatus × σ) : List κ → σ → List JsonStatus × σ
  | [], s => ([], s)
  | call :: calls, s =>
    let r := runCalls step calls (step call s).2
    ((step call s).1 :: r.1, r.2)

section Simulation

variable {κ σ τ : Type} {step : κ → σ → JsonStatus × σ} {step' : κ → τ → JsonStatus × τ}
  {abs : σ → τ} {Inv : σ → Prop}

/-- A step that keeps `Inv` and, on states that keep it, returns the status of `step'` and
    commutes with `abs`, does so over every sequence of calls. -/
theorem runCalls_simulates (hinv : ∀ call s, Inv s → Inv (step call s).2)
    (hsim : ∀ call s, Inv s → (step call s).1 = (step' call (abs s)).1 ∧
      abs (step call s).2 = (step' call (abs s)).2) :
    ∀ (calls : List κ) (s : σ), Inv s → Inv (runCalls step calls s).2 ∧
      (runCalls step calls s).1 = (runCalls step' calls (abs s)).1 ∧
      abs (runCalls step calls s).2 = (runCalls step' calls (abs s)).2
  | [], _, hs => ⟨hs, rfl, rfl⟩
  | call :: calls, s, hs => by
    obtain ⟨hstatus, hstate⟩ := hsim call s hs
    obtain ⟨hi, hr1, hr2⟩ := runCalls_simulates hinv hsim calls _ (hinv call s hs)
    rw [hstate] at hr1 hr2
    exact ⟨hi, by simp only [runCalls, hstatus, hr1], hr2⟩

end Simulation

/-! ## Object calls, as the code runs them -/

/-- A call that writes an object: `json_object_set_value` with a value that may be `NULL`,
    `json_object_remove`, or `json_object_clear`. -/
inductive ObjectCall (α : Type) where
  | set (name : CStr) (value : Option α)
  | remove (name : CStr)
  | clear

/-- One call. `json_object_clear` of an object returns `JSONSuccess`. -/
def objectStep : ObjectCall α → JsonObject α → JsonStatus × JsonObject α
  | .set name value, o => jsonObjectSetValue o name value
  | .remove name, o => jsonObjectRemove o name
  | .clear, o => (.success, jsonObjectClear o)

/-- A sequence of calls on one object. -/
def objectRun (calls : List (ObjectCall α)) (o : JsonObject α) :
    List JsonStatus × JsonObject α :=
  runCalls objectStep calls o

/-- What every object the calls build keeps: distinct names, `count ≤ capacity ≤
    OBJECT_MAX_CAPACITY`, and a capacity the growth rule reaches from `0`. -/
structure JsonObject.Wf (o : JsonObject α) : Prop where
  nodup : (o.entries.map Prod.fst).Nodup
  fits : o.Fits
  growth : IsGrowth objectMaxCapacity o.capacity

theorem jsonObjectInit_wf : (jsonObjectInit : JsonObject α).Wf :=
  ⟨List.nodup_nil, ⟨le_rfl, Nat.zero_le _⟩, .inl rfl⟩

/-- An object with the capacity of one that keeps the invariant, no more entries than it, and
    distinct names keeps the invariant too. -/
theorem JsonObject.Wf.of_le {o o' : JsonObject α} (h : o.Wf) (hc : o'.capacity = o.capacity)
    (hl : o'.count ≤ o.count) (hd : (o'.entries.map Prod.fst).Nodup) : o'.Wf :=
  ⟨hd, ⟨hc ▸ hl.trans h.fits.1, hc ▸ h.fits.2⟩, hc ▸ h.growth⟩

/-! ## The abstract object -/

/-- The store an object is: a finite map from names to values. -/
abbrev NameMap (α : Type) := Finmap fun _ : CStr => α

/-- One call on the store. `set` of a value overwrites a present name, and adds an absent
    one while fewer than `OBJECT_MAX_CAPACITY` names are stored. -/
def nameMapStep : ObjectCall α → NameMap α → JsonStatus × NameMap α
  | .set _ none, m => (.failure, m)
  | .set name (some value), m =>
    if name ∈ m ∨ m.keys.card < objectMaxCapacity then (.success, m.insert name value)
    else (.failure, m)
  | .remove name, m => if name ∈ m then (.success, m.erase name) else (.failure, m)
  | .clear, _ => (.success, ∅)

/-- A sequence of calls on the store. -/
def nameMapRun (calls : List (ObjectCall α)) (m : NameMap α) : List JsonStatus × NameMap α :=
  runCalls nameMapStep calls m

/-- The map an object stands for: the first entry of each name. -/
def JsonObject.toNameMap (o : JsonObject α) : NameMap α :=
  (o.entries.map fun e => (⟨e.1, e.2⟩ : Σ _ : CStr, α)).toFinmap

theorem dlookup_map_sigma (l : List (CStr × α)) (k : CStr) :
    (l.map fun e => (⟨e.1, e.2⟩ : Σ _ : CStr, α)).dlookup k =
      (l.find? (·.1 == k)).map (·.2) := by
  induction l with
  | nil => rfl
  | cons e l ih =>
    obtain ⟨t, w⟩ := e
    by_cases ht : t = k
    · subst ht
      simp only [List.map_cons, List.dlookup_cons_eq, List.find?_cons, beq_self_eq_true]
      rfl
    · rw [List.map_cons, List.dlookup_cons_ne _ _ (Ne.symm ht), ih, List.find?_cons,
        beq_false_of_ne ht]

theorem lookup_toNameMap (o : JsonObject α) (k : CStr) :
    o.toNameMap.lookup k = jsonObjectGetValue o k := by
  rw [JsonObject.toNameMap, Finmap.dlookup_list_toFinmap, dlookup_map_sigma,
    jsonObjectGetValue_eq_find]

theorem mem_toNameMap {o : JsonObject α} {k : CStr} :
    k ∈ o.toNameMap ↔ k ∈ o.entries.map Prod.fst := by
  rw [← Finmap.lookup_isSome, lookup_toNameMap, jsonObjectGetValue_isSome_iff]

theorem card_keys_toNameMap {o : JsonObject α} (hd : (o.entries.map Prod.fst).Nodup) :
    o.toNameMap.keys.card = o.count := by
  have hkeys : o.toNameMap.keys = (o.entries.map Prod.fst).toFinset :=
    Finset.ext fun k => by rw [Finmap.mem_keys, mem_toNameMap, List.mem_toFinset]
  rw [hkeys, List.toFinset_card_of_nodup hd, List.length_map]
  rfl

theorem toNameMap_of_entries {o o' : JsonObject α} (h : o'.entries = o.entries) :
    o'.toNameMap = o.toNameMap := by
  rw [JsonObject.toNameMap, JsonObject.toNameMap, h]

/-! ## Setting a value -/

theorem jsonObjectSetValue_success_iff {o : JsonObject α} (h : o.Wf) (k : CStr) (v : α) :
    (jsonObjectSetValue o k (some v)).1 = .success ↔
      k ∈ o.entries.map Prod.fst ∨ o.count < objectMaxCapacity := by
  by_cases hk : k ∈ o.entries.map Prod.fst
  · simp [jsonObjectSetValue_of_mem h.nodup hk, hk]
  · rw [jsonObjectSetValue_of_not_mem hk, jsonObjectAdd_success_iff h.fits h.growth]
    simp [hk]

theorem toNameMap_setValue {o : JsonObject α} {k : CStr} {v : α}
    (hs : (jsonObjectSetValue o k (some v)).1 = .success) :
    (jsonObjectSetValue o k (some v)).2.toNameMap = o.toNameMap.insert k v :=
  Finmap.ext_lookup fun t => by
    rw [lookup_toNameMap]
    by_cases ht : t = k
    · rw [ht, jsonObjectSetValue_get hs, Finmap.lookup_insert]
    · rw [jsonObjectSetValue_get_ne ht, Finmap.lookup_insert_of_ne _ ht, lookup_toNameMap]

/-! ## Removing a name -/

/-- `json_object_remove` fails on an absent name and changes nothing; on a present one it
    swap-removes the first entry of that name. -/
theorem jsonObjectRemove_cases (o : JsonObject α) (k : CStr) :
    (k ∉ o.entries.map Prod.fst ∧ jsonObjectRemove o k = (.failure, o)) ∨
      ∃ i, ∃ hi : i < o.entries.length, o.entries[i].1 = k ∧
        jsonObjectRemove o k = (.success, { o with entries := swapRemoveAt o.entries i }) := by
  rw [jsonObjectRemove_eq, alistRemove]
  cases hi : o.entries.findIdx? (·.1 = k) with
  | none =>
    refine .inl ⟨fun hk => ?_, rfl⟩
    obtain ⟨e, he, rfl⟩ := List.mem_map.mp hk
    simpa using List.findIdx?_eq_none_iff.mp hi e he
  | some i =>
    obtain ⟨hlt, hk, -⟩ := List.findIdx?_eq_some_iff_getElem.mp hi
    exact .inr ⟨i, hlt, by simpa using hk, rfl⟩

theorem mem_swapRemoveAt_iff {l : List (CStr × α)} (hd : (l.map Prod.fst).Nodup) {i : Nat}
    (hi : i < l.length) {t : CStr} {w : α} :
    (t, w) ∈ swapRemoveAt l i ↔ (t, w) ∈ l ∧ t ≠ l[i].1 := by
  rw [(swapRemoveAt_perm hi).mem_iff, List.mem_eraseIdx_iff_getElem]
  constructor
  · rintro ⟨j, hj, hji, hjw⟩
    refine ⟨hjw ▸ List.getElem_mem hj, fun ht => hji ?_⟩
    have hj' : j < (l.map Prod.fst).length := by simpa using hj
    have hi' : i < (l.map Prod.fst).length := by simpa using hi
    have hname : (l.map Prod.fst)[j] = (l.map Prod.fst)[i] := by simp [hjw, ht]
    exact hd.getElem_inj_iff.mp hname
  · rintro ⟨hm, ht⟩
    obtain ⟨j, hj, hjw⟩ := List.getElem_of_mem hm
    exact ⟨j, hj, fun hji => ht (by subst hji; rw [hjw]), hjw⟩

theorem toNameMap_swapRemoveAt {o : JsonObject α} (hd : (o.entries.map Prod.fst).Nodup) {i : Nat}
    (hi : i < o.entries.length) :
    ({ o with entries := swapRemoveAt o.entries i } : JsonObject α).toNameMap =
      o.toNameMap.erase o.entries[i].1 := by
  have hd' : ((swapRemoveAt o.entries i).map Prod.fst).Nodup := by
    rw [swapRemoveAt_map]; exact nodup_swapRemoveAt hd i
  refine Finmap.ext_lookup fun t => ?_
  rw [lookup_toNameMap]
  by_cases ht : t = o.entries[i].1
  · rw [ht, Finmap.lookup_erase]
    refine Option.eq_none_iff_forall_not_mem.mpr fun w hw => ?_
    exact ((mem_swapRemoveAt_iff hd hi).mp ((jsonObjectGetValue_eq_some_iff hd' _ w).mp hw)).2 rfl
  · rw [Finmap.lookup_erase_ne ht, lookup_toNameMap]
    refine Option.ext fun w => ?_
    rw [Option.mem_def, Option.mem_def, jsonObjectGetValue_eq_some_iff hd',
      jsonObjectGetValue_eq_some_iff hd,
      mem_swapRemoveAt_iff hd hi]
    exact and_iff_left ht

/-! ## One call -/

theorem objectStep_wf {o : JsonObject α} (h : o.Wf) : ∀ call, (objectStep call o).2.Wf
  | .set _ none => h
  | .set k (some v) => by
    have hd := jsonObjectSetValue_names h.nodup k (some v)
    by_cases hk : k ∈ o.entries.map Prod.fst
    · rw [jsonObjectSetValue_of_mem h.nodup hk] at hd
      rw [objectStep, jsonObjectSetValue_of_mem h.nodup hk]
      refine h.of_le rfl (le_of_eq ?_) hd
      simp only [JsonObject.count, alistSet, hk, if_true, List.length_map]
    · rw [jsonObjectSetValue_of_not_mem hk] at hd
      rw [objectStep, jsonObjectSetValue_of_not_mem hk]
      exact ⟨hd, jsonObjectAdd_fits h.fits, jsonObjectAdd_isGrowth h.fits h.growth⟩
  | .remove k => by
    rcases jsonObjectRemove_cases o k with ⟨-, hr⟩ | ⟨i, hi, -, hr⟩ <;> rw [objectStep, hr]
    · exact h
    · refine h.of_le rfl ?_ (by rw [swapRemoveAt_map]; exact nodup_swapRemoveAt h.nodup i)
      simp only [JsonObject.count, (swapRemoveAt_perm hi).length_eq, List.length_eraseIdx, hi,
        if_true]
      omega
  | .clear => h.of_le rfl (Nat.zero_le _) List.nodup_nil

/-- On an object that keeps the invariant, a call returns the status of the same call on the
    map the object stands for, and leaves the object that stands for the map it leaves. -/
theorem objectStep_refines {o : JsonObject α} (h : o.Wf) : ∀ call,
    (objectStep call o).1 = (nameMapStep call o.toNameMap).1 ∧
      (objectStep call o).2.toNameMap = (nameMapStep call o.toNameMap).2
  | .set _ none => ⟨rfl, rfl⟩
  | .set k (some v) => by
    have hroom : (k ∈ o.toNameMap ∨ o.toNameMap.keys.card < objectMaxCapacity) ↔
        (jsonObjectSetValue o k (some v)).1 = .success := by
      rw [mem_toNameMap, card_keys_toNameMap h.nodup, jsonObjectSetValue_success_iff h]
    simp only [objectStep, nameMapStep]
    cases hs : (jsonObjectSetValue o k (some v)).1 with
    | success =>
      rw [if_pos (hroom.mpr hs)]
      exact ⟨rfl, toNameMap_setValue hs⟩
    | failure =>
      have hn : ¬ (k ∈ o.toNameMap ∨ o.toNameMap.keys.card < objectMaxCapacity) := by
        rw [hroom, hs]; exact JsonStatus.noConfusion
      rw [if_neg hn]
      exact ⟨rfl, toNameMap_of_entries (jsonObjectSetValue_failure_entries hs)⟩
  | .remove k => by
    simp only [objectStep, nameMapStep]
    rcases jsonObjectRemove_cases o k with ⟨hk, hr⟩ | ⟨i, hi, rfl, hr⟩ <;> rw [hr]
    · rw [if_neg (mt mem_toNameMap.mp hk)]
      exact ⟨rfl, rfl⟩
    · rw [if_pos (mem_toNameMap.mpr (List.mem_map_of_mem _ (List.getElem_mem hi)))]
      exact ⟨rfl, toNameMap_swapRemoveAt h.nodup hi⟩
  | .clear => ⟨rfl, Finmap.toFinmap_nil⟩

/-! ## Sequences of calls -/

theorem objectRun_refines (calls : List (ObjectCall α)) {o : JsonObject α} (h : o.Wf) :
    (objectRun calls o).2.Wf ∧ (objectRun calls o).1 = (nameMapRun calls o.toNameMap).1 ∧
      (objectRun calls o).2.toNameMap = (nameMapRun calls o.toNameMap).2 :=
  runCalls_simulates (fun call (s : JsonObject α) (hs : s.Wf) => objectStep_wf hs call)
    (fun call (s : JsonObject α) (hs : s.Wf) => objectStep_refines hs call) calls o h

example : (objectRun [.set ⟨[97], by decide⟩ (some 1), .set ⟨[97], by decide⟩ (some 2),
    .remove ⟨[98], by decide⟩, .set ⟨[98], by decide⟩ none, .remove ⟨[97], by decide⟩]
      (jsonObjectInit : JsonObject Nat)).1 =
    [.success, .success, .failure, .failure, .success] := by
  decide

/-! ## Arrays -/

/-- A call that writes an array: `json_array_append_value` and `json_array_replace_value`
    with a value that may be `NULL`, and `json_array_clear`. -/
inductive ArrayCall (α : Type) where
  | append (value : Option α)
  | replace (ix : Nat) (value : Option α)
  | clear

/-- One call. `json_array_clear` of an array returns `JSONSuccess`. -/
def arrayStep : ArrayCall α → JsonArray α → JsonStatus × JsonArray α
  | .append value, a => jsonArrayAppendValue a value
  | .replace ix value, a => jsonArrayReplaceValue a ix value
  | .clear, a => (.success, jsonArrayClear a)

/-- A sequence of calls on one array. -/
def arrayRun (calls : List (ArrayCall α)) (a : JsonArray α) : List JsonStatus × JsonArray α :=
  runCalls arrayStep calls a

/-- What every array the calls build keeps: every slot below `count` filled, `count ≤
    capacity ≤ ARRAY_MAX_CAPACITY`, and a capacity the growth rule reaches from `0`. -/
structure JsonArray.Wf (a : JsonArray α) : Prop where
  filled : none ∉ a.items
  fits : a.Fits
  growth : IsGrowth arrayMaxCapacity a.capacity

theorem jsonArrayInit_wf : (jsonArrayInit : JsonArray α).Wf :=
  ⟨List.not_mem_nil _, ⟨le_rfl, Nat.zero_le _⟩, .inl rfl⟩

/-- One call on a list of values. Appending a value adds it while fewer than
    `ARRAY_MAX_CAPACITY` values are stored; replacing overwrites an index below the length. -/
def listStep : ArrayCall α → List α → JsonStatus × List α
  | .append none, l => (.failure, l)
  | .append (some value), l =>
    if l.length < arrayMaxCapacity then (.success, l ++ [value]) else (.failure, l)
  | .replace _ none, l => (.failure, l)
  | .replace ix (some value), l =>
    if ix < l.length then (.success, l.set ix value) else (.failure, l)
  | .clear, _ => (.success, [])

/-- A sequence of calls on a list of values. -/
def listRun (calls : List (ArrayCall α)) (l : List α) : List JsonStatus × List α :=
  runCalls listStep calls l

/-- The list an array stands for: the values in its slots. -/
def JsonArray.toList (a : JsonArray α) : List α := a.items.filterMap id

theorem filterMap_id_map_some (l : List α) : (l.map some).filterMap id = l := by
  rw [List.filterMap_map]
  exact List.filterMap_some l

theorem map_some_filterMap_id {l : List (Option α)} (h : none ∉ l) :
    (l.filterMap id).map some = l := by
  induction l with
  | nil => rfl
  | cons x l ih =>
    simp only [List.mem_cons, not_or] at h
    obtain ⟨v, rfl⟩ := Option.ne_none_iff_exists'.mp (Ne.symm h.1)
    show (v :: l.filterMap id).map some = some v :: l
    rw [List.map_cons, ih h.2]

theorem length_toList {a : JsonArray α} (h : none ∉ a.items) : a.toList.length = a.count := by
  rw [JsonArray.count, ← map_some_filterMap_id h, List.length_map]
  rfl

theorem jsonArrayAdd_failure {a : JsonArray α} {v : α} (hs : (jsonArrayAdd a v).1 = .failure) :
    (jsonArrayAdd a v).2 = a := by
  rw [jsonArrayAdd_eq] at hs ⊢
  split_ifs at hs ⊢
  rfl

theorem jsonArrayGetValue_toList {a : JsonArray α} (h : none ∉ a.items) (ix : Nat) :
    jsonArrayGetValue a ix = a.toList[ix]? := by
  have hitems : a.toList.map some = a.items := map_some_filterMap_id h
  unfold jsonArrayGetValue
  split_ifs with hix
  · exact (List.getElem?_eq_none (length_toList h ▸ hix)).symm
  · rw [← hitems, List.getElem?_map]
    cases a.toList[ix]? <;> rfl

theorem arrayStep_wf {a : JsonArray α} (h : a.Wf) : ∀ call, (arrayStep call a).2.Wf
  | .append none => h
  | .append (some v) => by
    show (jsonArrayAdd a v).2.Wf
    cases hs : (jsonArrayAdd a v).1 with
    | failure => rw [jsonArrayAdd_failure hs]; exact h
    | success =>
      refine ⟨?_, jsonArrayAdd_fits h.fits hs, jsonArrayAdd_isGrowth h.fits h.growth⟩
      rw [jsonArrayAdd_items, if_pos hs]
      simpa using h.filled
  | .replace ix none => h
  | .replace ix (some v) => by
    show (jsonArrayReplaceValue a ix (some v)).2.Wf
    unfold jsonArrayReplaceValue
    split_ifs
    · exact h
    · refine ⟨fun hm => ?_, ?_, h.growth⟩
      · rcases List.mem_or_eq_of_mem_set hm with hm | hm
        · exact h.filled hm
        · cases hm
      · simpa [JsonArray.Fits, JsonArray.count] using h.fits
  | .clear => ⟨List.not_mem_nil _, ⟨Nat.zero_le _, h.fits.2⟩, h.growth⟩

/-- On an array that keeps the invariant, a call returns the status of the same call on the
    list the array stands for, and leaves the array that stands for the list it leaves. -/
theorem arrayStep_refines {a : JsonArray α} (h : a.Wf) : ∀ call,
    (arrayStep call a).1 = (listStep call a.toList).1 ∧
      (arrayStep call a).2.toList = (listStep call a.toList).2
  | .append none => ⟨rfl, rfl⟩
  | .append (some v) => by
    have hroom := jsonArrayAdd_success_iff (v := v) h.fits h.growth
    rw [← length_toList h.filled] at hroom
    simp only [arrayStep, jsonArrayAppendValue, listStep]
    cases hs : (jsonArrayAdd a v).1 with
    | failure =>
      rw [if_neg fun hlen => JsonStatus.noConfusion (hs ▸ hroom.mpr hlen), jsonArrayAdd_failure hs]
      exact ⟨rfl, rfl⟩
    | success =>
      rw [if_pos (hroom.mp hs)]
      refine ⟨rfl, ?_⟩
      simp only [JsonArray.toList, jsonArrayAdd_items, hs, if_true, List.filterMap_append]
      rfl
  | .replace ix none => ⟨rfl, rfl⟩
  | .replace ix (some v) => by
    simp only [arrayStep, jsonArrayReplaceValue, listStep, length_toList h.filled]
    split_ifs with hfull hix hix
    · omega
    · exact ⟨rfl, rfl⟩
    · refine ⟨rfl, ?_⟩
      show (a.items.set ix (some v)).filterMap id = a.toList.set ix v
      rw [← map_some_filterMap_id h.filled, ← List.map_set, filterMap_id_map_some]
      rfl
    · omega
  | .clear => ⟨rfl, rfl⟩

theorem arrayRun_refines (calls : List (ArrayCall α)) {a : JsonArray α} (h : a.Wf) :
    (arrayRun calls a).2.Wf ∧ (arrayRun calls a).1 = (listRun calls a.toList).1 ∧
      (arrayRun calls a).2.toList = (listRun calls a.toList).2 :=
  runCalls_simulates (fun call (s : JsonArray α) (hs : s.Wf) => arrayStep_wf hs call)
    (fun call (s : JsonArray α) (hs : s.Wf) => arrayStep_refines hs call) calls a h

/-- Every sequence of appends, replacements and clears from `json_array_init` keeps every slot
    filled and the count within the capacity, returns the statuses the same calls return on
    the empty list, and leaves an array whose every `json_array_get_value` reads the list they
    leave. -/
theorem arrayRun_init_refines (calls : List (ArrayCall α)) :
    (arrayRun calls jsonArrayInit).2.Wf ∧ (arrayRun calls jsonArrayInit).1 = (listRun calls []).1 ∧
      ∀ ix, jsonArrayGetValue (arrayRun calls jsonArrayInit).2 ix = (listRun calls []).2[ix]? := by
  obtain ⟨hw, hs, hl⟩ := arrayRun_refines calls (jsonArrayInit_wf (α := α))
  exact ⟨hw, hs, fun ix => by rw [jsonArrayGetValue_toList hw.filled, hl]; rfl⟩

example : (arrayRun [.append (some 1), .append none, .replace 0 (some 2), .replace 1 (some 3),
    .append (some 4)] (jsonArrayInit : JsonArray Nat)).1 =
    [.success, .failure, .success, .failure, .success] := by
  decide

end Parson
