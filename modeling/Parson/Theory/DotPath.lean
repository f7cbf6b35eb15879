import Parson.Core.DotPath
import Parson.Theory.ObjectModel

/-!
# Dotted Paths Are Iterated Lookups

A dotted name is a path: split at each `.` it is a list of segments, possibly empty ones.
`segments` splits a name the way the code does, finding the first `.` each time, and
`segments_bytes` says that is `List.splitOn`.

Over the segment list the three dotted functions are plain iterations of the object API:
`dotgetSegments` looks up each segment with `json_object_get_value` and needs an object before
the last; `dotsetSegments` does the same, adding a fresh empty object with `json_object_add`
where a segment is absent, and ends in `json_object_set_value`; `dotremoveSegments` descends
without creating and ends in `json_object_remove`. The code, which re-reads the name with
`strchr` and compares prefixes with `json_object_nget_value`, computes exactly these
(`jsonObjectDotgetValue_eq` and its two siblings).

Two consequences make `dotset` safe to call. It fails only before it has created anything:
once it adds an object, the rest of the path runs through fresh empty objects, where nothing
can fail. So a failing call leaves every entry of every object as it was; at most the
capacity of the object where it stopped has grown, because `json_object_add` grows full
storage before it notices the name is taken. And a call, successful or not, changes what
`dotget` returns only on paths related to the one it set. Lookups take the first entry with a name,
and every change is made to the first entry with the segment's name, so neither argument
needs the names to be distinct.

## Main definitions

* `segments`: A dotted name split at each `.`.
* `dotgetSegments`, `dotsetSegments`, `dotremoveSegments`: The reference walks.
* `Value.erase`, `JsonObject.erase`: A tree with its capacities forgotten.
* `DotPathsIterate`: What the dotted API does with one object, path and value.

## Theorems

* `segments_bytes`: `segments` is `List.splitOn '.'`.
* `jsonObjectDotgetValue_eq`, `jsonObjectDotsetValue_eq`, `jsonObjectDotremove_eq`: The code
  computes the reference walks.
* `dotsetSegments_fresh`: Setting a path under a fresh empty object succeeds.
* `dotsetSegments_nonObject`: A non-object before the last segment makes `dotset` fail.
* `dotsetSegments_failure`: A failing `dotset` changes nothing but capacities.
* `dotsetSegments_get`: After a successful `dotset`, `dotget` finds the value.
* `dotsetSegments_frame`: A `dotset` changes only related paths.
* `dotted_paths_iterate`: The dotted API is the iterated plain API.
-/

namespace Parson

/-- A dotted name split at each `.`. -/
def segments (name : CStr) : List CStr :=
  match h : dotPosition name with
  | none => [name]
  | some i => name.take i :: segments (name.drop (i + 1))
termination_by name.length
decreasing_by exact length_drop_dotPosition h

/-- The reference `dotget`: look each segment up in turn, requiring an object before the
    last. -/
def dotgetSegments : Option (JsonObject Value) → List CStr → Option Value
  | _, [] => none
  | o, [s] => o.bind (jsonObjectGetValue · s)
  | o, s :: ss@(_ :: _) => dotgetSegments ((o.bind (jsonObjectGetValue · s)).bind Value.getObject) ss

/-- The reference `dotset`: descend through the objects the segments name, adding a fresh
    empty object for each absent one, and set the last segment. -/
def dotsetSegments (o : JsonObject Value) (v : Value) : List CStr → JsonStatus × JsonObject Value
  | [] => (.failure, o)
  | [s] => jsonObjectSetValue o s (some v)
  | s :: ss@(_ :: _) =>
    match jsonObjectGetObject o s with
    | some child =>
      let r := dotsetSegments child v ss
      (r.1, updateChild o s r.2)
    | none =>
      match jsonObjectAdd o s (.object ⟨[], 0⟩) with
      | (.failure, o') => (.failure, o')
      | (.success, o') =>
        let r := dotsetSegments ⟨[], 0⟩ v ss
        (r.1, updateChild o' s r.2)

/-- The reference `dotremove`: descend without creating, and remove the last segment. -/
def dotremoveSegments (o : JsonObject Value) : List CStr → JsonStatus × JsonObject Value
  | [] => (.failure, o)
  | [s] => jsonObjectRemove o s
  | s :: ss@(_ :: _) =>
    match jsonObjectGetObject o s with
    | none => (.failure, o)
    | some child =>
      let r := dotremoveSegments child ss
      (r.1, updateChild o s r.2)

/-! ## Splitting -/

theorem segments_of_none {name : CStr} (h : dotPosition name = none) : segments name = [name] := by
  rw [segments]; split <;> simp_all

theorem segments_of_some {name : CStr} {i : Nat} (h : dotPosition name = some i) :
    segments name = name.take i :: segments (name.drop (i + 1)) := by
  rw [segments]; split <;> simp_all

theorem segments_ne_nil (name : CStr) : segments name ≠ [] := by
  cases h : dotPosition name
  · simp [segments_of_none h]
  · simp [segments_of_some h]

theorem segments_bytes (name : CStr) :
    (segments name).map CStr.bytes = name.bytes.splitOn 46 := by
  induction name using segments.induct with
  | case1 name hd =>
    rw [segments_of_none hd]
    have : ∀ x ∈ name.bytes, ¬ (x == 46) = true := by
      simpa [dotPosition, List.findIdx?_eq_none_iff] using hd
    simp [List.splitOn, List.splitOnP_eq_single _ _ this]
  | case2 name i hd ih =>
    rw [segments_of_some hd, List.map_cons, ih]
    obtain ⟨hlt, hi, hbefore⟩ := List.findIdx?_eq_some_iff_getElem.mp hd
    have hsplit : name.bytes = name.bytes.take i ++ 46 :: name.bytes.drop (i + 1) := by
      have h46 : name.bytes[i] = 46 := by simpa using hi
      rw [← h46, List.getElem_cons_drop _ _ hlt, List.take_append_drop]
    conv => rhs; rw [hsplit]
    simp only [List.splitOn]
    rw [List.splitOnP_first _ _ ?_ _ (by simp)]
    · rfl
    · intro x hx
      obtain ⟨j, hj, rfl⟩ := List.getElem_of_mem hx
      simpa using hbefore j (by simp at hj; omega)

/-! ## The code computes the reference walks -/

theorem jsonObjectNgetValue_eq_take {α : Type} (o : JsonObject α) {name : CStr} {i : Nat}
    (hi : i ≤ name.length) : jsonObjectNgetValue o name i = jsonObjectGetValue o (name.take i) := by
  have hlen : (name.take i).length = i := by
    simp [CStr.length] at hi ⊢; omega
  simp only [jsonObjectGetValue, hlen, jsonObjectNgetValue, CStr.take_bytes, List.take_take,
    min_self]

theorem jsonObjectDotgetValue_of_none {o : Option (JsonObject Value)} {name : CStr}
    (h : dotPosition name = none) :
    jsonObjectDotgetValue o name = o.bind (jsonObjectGetValue · name) := by
  rw [jsonObjectDotgetValue]; split <;> simp_all

theorem jsonObjectDotgetValue_of_some {o : Option (JsonObject Value)} {name : CStr} {i : Nat}
    (h : dotPosition name = some i) :
    jsonObjectDotgetValue o name = jsonObjectDotgetValue
      ((o.bind (jsonObjectGetValue · (name.take i))).bind Value.getObject) (name.drop (i + 1)) := by
  rw [jsonObjectDotgetValue]
  split
  · simp_all
  · rename_i j hj
    obtain rfl : j = i := by simp_all
    simp [jsonObjectNgetValue_eq_take _ (dotPosition_lt hj).le]

theorem dotgetSegments_cons {o : Option (JsonObject Value)} {s : CStr} {ss : List CStr}
    (hss : ss ≠ []) : dotgetSegments o (s :: ss) =
      dotgetSegments ((o.bind (jsonObjectGetValue · s)).bind Value.getObject) ss := by
  obtain ⟨t, ts, rfl⟩ := List.exists_cons_of_ne_nil hss
  rw [dotgetSegments]

theorem jsonObjectDotgetValue_eq (o : Option (JsonObject Value)) (name : CStr) :
    jsonObjectDotgetValue o name = dotgetSegments o (segments name) := by
  induction name using segments.induct generalizing o with
  | case1 name hd => rw [jsonObjectDotgetValue_of_none hd, segments_of_none hd, dotgetSegments]
  | case2 name i hd ih =>
    rw [jsonObjectDotgetValue_of_some hd, ih, segments_of_some hd,
      dotgetSegments_cons (segments_ne_nil _)]

theorem jsonObjectDotsetValue_of_none {o : JsonObject Value} {name : CStr} {v : Value}
    (h : dotPosition name = none) :
    jsonObjectDotsetValue o name (some v) = jsonObjectSetValue o name (some v) := by
  rw [jsonObjectDotsetValue]; split <;> simp_all

theorem jsonObjectDotsetValue_of_some {o : JsonObject Value} {name : CStr} {v : Value} {i : Nat}
    (h : dotPosition name = some i) :
    jsonObjectDotsetValue o name (some v) =
      match jsonObjectGetObject o (name.take i) with
      | some child =>
        let r := jsonObjectDotsetValue child (name.drop (i + 1)) (some v)
        (r.1, updateChild o (name.take i) r.2)
      | none =>
        match jsonObjectAdd o (name.take i) (.object ⟨[], 0⟩) with
        | (.failure, o') => (.failure, o')
        | (.success, o') =>
          let r := jsonObjectDotsetValue ⟨[], 0⟩ (name.drop (i + 1)) (some v)
          (r.1, updateChild o' (name.take i) r.2) := by
  rw [jsonObjectDotsetValue]
  split
  · simp_all
  · rename_i j hj
    obtain rfl : j = i := by simp_all
    dsimp only
    cases hc : jsonObjectGetObject o (name.take j) with
    | some child => rfl
    | none =>
      cases hadd : jsonObjectAdd o (name.take j) (.object ⟨[], 0⟩) with
      | mk st o' =>
        cases st with
        | failure => rfl
        | success =>
          have hget := jsonObjectAdd_get (k := name.take j) (v := Value.object ⟨[], 0⟩) (o := o)
          rw [hadd] at hget
          simp [jsonObjectGetObject, hget rfl]

theorem dotsetSegments_cons {o : JsonObject Value} {v : Value} {s : CStr} {ss : List CStr}
    (hss : ss ≠ []) : dotsetSegments o v (s :: ss) =
      match jsonObjectGetObject o s with
      | some child =>
        let r := dotsetSegments child v ss
        (r.1, updateChild o s r.2)
      | none =>
        match jsonObjectAdd o s (.object ⟨[], 0⟩) with
        | (.failure, o') => (.failure, o')
        | (.success, o') =>
          let r := dotsetSegments ⟨[], 0⟩ v ss
          (r.1, updateChild o' s r.2) := by
  obtain ⟨t, ts, rfl⟩ := List.exists_cons_of_ne_nil hss
  rw [dotsetSegments]

theorem jsonObjectDotsetValue_eq (o : JsonObject Value) (name : CStr) (v : Value) :
    jsonObjectDotsetValue o name (some v) = dotsetSegments o v (segments name) := by
  induction name using segments.induct generalizing o with
  | case1 name hd =>
    rw [jsonObjectDotsetValue_of_none hd, segments_of_none hd, dotsetSegments]
  | case2 name i hd ih =>
    rw [jsonObjectDotsetValue_of_some hd, segments_of_some hd,
      dotsetSegments_cons (segments_ne_nil _)]
    simp only [ih]

theorem jsonObjectDotremove_of_none {o : JsonObject Value} {name : CStr}
    (h : dotPosition name = none) : jsonObjectDotremove o name = jsonObjectRemove o name := by
  rw [jsonObjectDotremove]; split <;> simp_all

theorem jsonObjectDotremove_of_some {o : JsonObject Value} {name : CStr} {i : Nat}
    (h : dotPosition name = some i) :
    jsonObjectDotremove o name =
      match jsonObjectGetObject o (name.take i) with
      | none => (.failure, o)
      | some child =>
        let r := jsonObjectDotremove child (name.drop (i + 1))
        (r.1, updateChild o (name.take i) r.2) := by
  rw [jsonObjectDotremove]
  split
  · simp_all
  · rename_i j hj
    obtain rfl : j = i := by simp_all
    rfl

theorem jsonObjectDotremove_eq (o : JsonObject Value) (name : CStr) :
    jsonObjectDotremove o name = dotremoveSegments o (segments name) := by
  induction name using segments.induct generalizing o with
  | case1 name hd => rw [jsonObjectDotremove_of_none hd, segments_of_none hd, dotremoveSegments]
  | case2 name i hd ih =>
    rw [jsonObjectDotremove_of_some hd, segments_of_some hd]
    obtain ⟨t, ts, hts⟩ := List.exists_cons_of_ne_nil (segments_ne_nil (name.drop (i + 1)))
    rw [hts, dotremoveSegments, ← hts]
    simp only [ih]

/-! ## Lookups after a descent -/

theorem jsonObjectGetObject_eq_some {o c : JsonObject Value} {s : CStr} :
    jsonObjectGetObject o s = some c ↔ jsonObjectGetValue o s = some (.object c) := by
  unfold jsonObjectGetObject
  cases jsonObjectGetValue o s with
  | none => simp
  | some w => cases w <;> simp [Value.getObject]

theorem replaceNamed_of_find? {k : CStr} {v : Value} {l : List (CStr × Value)}
    (h : (l.find? (·.1 == k)).map (·.2) = some v) : replaceNamed k v l = some l := by
  induction l with
  | nil => simp at h
  | cons e l ih =>
    obtain ⟨k', w⟩ := e
    by_cases hk : k' = k
    · subst hk
      obtain rfl : w = v := by simpa using h
      rw [replaceNamed, if_pos rfl]
    · have h' : (l.find? (·.1 == k)).map (·.2) = some v := by simpa [List.find?_cons, hk] using h
      rw [replaceNamed, if_neg hk, ih h']
      rfl

theorem updateChild_self {o c : JsonObject Value} {s : CStr} (h : jsonObjectGetObject o s = some c) :
    updateChild o s c = o := by
  have hv := jsonObjectGetObject_eq_some.mp h
  rw [jsonObjectGetValue_eq_find] at hv
  simp [updateChild, replaceNamed_of_find? hv]

theorem updateChild_get_self {o c : JsonObject Value} {s : CStr}
    (h : (jsonObjectGetValue o s).isSome) :
    jsonObjectGetValue (updateChild o s c) s = some (.object c) := by
  rw [jsonObjectGetValue_isSome_iff] at h
  obtain ⟨l', hl⟩ := Option.isSome_iff_exists.mp
    (replaceNamed_isSome (l := o.entries) (k := s) (v := Value.object c) h)
  simp [updateChild, hl, jsonObjectGetValue_eq_find, replaceNamed_find?_self hl]

theorem updateChild_get_ne {o c : JsonObject Value} {s t : CStr} (ht : t ≠ s) :
    jsonObjectGetValue (updateChild o s c) t = jsonObjectGetValue o t := by
  unfold updateChild
  cases hl : replaceNamed s (Value.object c) o.entries with
  | none => rfl
  | some l' => simp only [jsonObjectGetValue_eq_find, Option.getD_some, replaceNamed_find?_ne ht hl]

theorem isSome_of_jsonObjectAdd {o o' : JsonObject Value} {s : CStr} {w : Value}
    (hadd : jsonObjectAdd o s w = (.success, o')) : (jsonObjectGetValue o' s).isSome := by
  have h := jsonObjectAdd_get (k := s) (v := w) (o := o) (by rw [hadd])
  rw [hadd] at h
  simp [h]

theorem dotgetSegments_none (qs : List CStr) : dotgetSegments none qs = none := by
  induction qs with
  | nil => rw [dotgetSegments]
  | cons q qs ih =>
    cases qs with
    | nil => rw [dotgetSegments]; rfl
    | cons => rw [dotgetSegments_cons (List.cons_ne_nil _ _)]; exact ih

theorem dotgetSegments_empty (qs : List CStr) : dotgetSegments (some ⟨[], 0⟩) qs = none := by
  match qs with
  | [] => rw [dotgetSegments]
  | [_] => rw [dotgetSegments]; rfl
  | _ :: _ :: _ => rw [dotgetSegments_cons (List.cons_ne_nil _ _)]; exact dotgetSegments_none _

/-- A path is read through its first segment's entry only. -/
theorem dotgetSegments_congr {o o' : JsonObject Value} {q : CStr}
    (h : jsonObjectGetValue o' q = jsonObjectGetValue o q) (qs : List CStr) :
    dotgetSegments (some o') (q :: qs) = dotgetSegments (some o) (q :: qs) := by
  cases qs <;> simp [dotgetSegments, h]

/-! ## Forgetting capacities -/

mutual

/-- A tree with the capacity of every object reached through objects forgotten: all that a
    dotted call can change besides the entries. -/
def Value.erase : Value → Value
  | .object o => .object ⟨Value.entriesErase o.entries, 0⟩
  | v => v

/-- `Value.erase` on an object's entries. -/
def Value.entriesErase : List (CStr × Value) → List (CStr × Value)
  | [] => []
  | (k, v) :: es => (k, v.erase) :: Value.entriesErase es

end

/-- An object with its capacities forgotten. -/
def JsonObject.erase (o : JsonObject Value) : JsonObject Value := ⟨Value.entriesErase o.entries, 0⟩

theorem entriesErase_eq_map (l : List (CStr × Value)) :
    Value.entriesErase l = l.map fun e => (e.1, e.2.erase) := by
  induction l with
  | nil => rw [Value.entriesErase]; rfl
  | cons e l ih => obtain ⟨k, v⟩ := e; rw [Value.entriesErase, ih]; rfl

theorem replaceNamed_map {β : Type} (f : Value → β) (k : CStr) (v : Value) (l : List (CStr × Value)) :
    (replaceNamed k v l).map (List.map fun e => (e.1, f e.2)) =
      replaceNamed k (f v) (l.map fun e => (e.1, f e.2)) := by
  induction l with
  | nil => rfl
  | cons e l ih =>
    rw [List.map_cons, replaceNamed, replaceNamed]
    split_ifs <;> simp [← ih, Option.map_map, Function.comp_def]

theorem erase_of_entries {o o' : JsonObject Value} (h : o'.entries = o.entries) :
    o'.erase = o.erase := by
  simp only [JsonObject.erase, h]

theorem erase_updateChild (o c : JsonObject Value) (s : CStr) :
    (updateChild o s c).erase = updateChild o.erase s c.erase := by
  have hc : Value.object c.erase = (Value.object c).erase := by rw [Value.erase]; rfl
  unfold updateChild
  rw [hc]
  simp only [JsonObject.erase, entriesErase_eq_map, ← replaceNamed_map, Option.getD_map]

/-! ## What a `dotset` does -/

theorem dotsetSegments_fresh (v : Value) {ss : List CStr} (hss : ss ≠ []) :
    (dotsetSegments ⟨[], 0⟩ v ss).1 = .success := by
  induction ss with
  | nil => contradiction
  | cons s ss ih =>
    cases ss with
    | nil => rw [dotsetSegments]; rfl
    | cons t ts =>
      rw [dotsetSegments]
      exact ih (List.cons_ne_nil _ _)

/-- Only a call that creates nothing can fail, so a failure changes no entry of any object. -/
theorem dotsetSegments_failure (o : JsonObject Value) (v : Value) (ss : List CStr)
    (h : (dotsetSegments o v ss).1 = .failure) : (dotsetSegments o v ss).2.erase = o.erase := by
  induction o, v, ss using dotsetSegments.induct with
  | case1 o v => rw [dotsetSegments]
  | case2 o v s =>
    rw [dotsetSegments] at h ⊢
    exact erase_of_entries (jsonObjectSetValue_failure_entries h)
  | case3 o v s t ts child hc ih =>
    rw [dotsetSegments, hc] at h ⊢
    rw [erase_updateChild, ih h, ← erase_updateChild, updateChild_self hc]
  | case4 o v s t ts hc o' hadd =>
    rw [dotsetSegments, hc]
    simp only [hadd]
    have hf : (jsonObjectAdd o s (.object ⟨[], 0⟩)).1 = .failure := by rw [hadd]
    exact erase_of_entries (by simpa [hadd] using jsonObjectAdd_failure_entries hf)
  | case5 o v s t ts hc o' hadd ih =>
    rw [dotsetSegments, hc] at h
    simp only [hadd, dotsetSegments_fresh v (List.cons_ne_nil t ts)] at h
    cases h

theorem dotsetSegments_get (o : JsonObject Value) (v : Value) (ss : List CStr)
    (h : (dotsetSegments o v ss).1 = .success) :
    dotgetSegments (some (dotsetSegments o v ss).2) ss = some v := by
  induction o, v, ss using dotsetSegments.induct with
  | case1 o v => rw [dotsetSegments] at h; cases h
  | case2 o v s =>
    rw [dotsetSegments] at h ⊢
    rw [dotgetSegments]
    exact jsonObjectSetValue_get h
  | case3 o v s t ts child hc ih =>
    rw [dotsetSegments, hc] at h ⊢
    have hs : (jsonObjectGetValue o s).isSome := by
      simp [jsonObjectGetObject_eq_some.mp hc]
    rw [dotgetSegments_cons (List.cons_ne_nil _ _)]
    simpa [updateChild_get_self hs] using ih h
  | case4 o v s t ts hc o' hadd => rw [dotsetSegments, hc] at h; simp [hadd] at h
  | case5 o v s t ts hc o' hadd ih =>
    rw [dotsetSegments, hc] at h ⊢
    simp only [hadd] at h ⊢
    have hs := isSome_of_jsonObjectAdd hadd
    rw [dotgetSegments_cons (List.cons_ne_nil _ _)]
    simpa [updateChild_get_self hs] using ih h

/-- A `dotset` reads as before on every path that is not a segment-prefix of the one it set
    and does not have it as one: at the first segment where the two differ, the only entry
    that changed is not the one read. -/
theorem dotsetSegments_frame (o : JsonObject Value) (v : Value) (ss qs : List CStr)
    (h1 : ¬ qs <+: ss) (h2 : ¬ ss <+: qs) :
    dotgetSegments (some (dotsetSegments o v ss).2) qs = dotgetSegments (some o) qs := by
  induction o, v, ss using dotsetSegments.induct generalizing qs with
  | case1 o v => exact absurd List.nil_prefix h2
  | case2 o v s =>
    obtain _ | ⟨q, qs⟩ := qs
    · exact absurd List.nil_prefix h1
    have hq : q ≠ s := by rintro rfl; simp at h2
    rw [dotsetSegments]
    exact dotgetSegments_congr (jsonObjectSetValue_get_ne hq) qs
  | case3 o v s t ts child hc ih =>
    obtain _ | ⟨q, qs⟩ := qs
    · exact absurd List.nil_prefix h1
    rw [dotsetSegments, hc]
    by_cases hq : q = s
    · subst hq
      simp only [List.cons_prefix_cons, true_and] at h1 h2
      have hs : (jsonObjectGetValue o q).isSome := by simp [jsonObjectGetObject_eq_some.mp hc]
      have hqs : qs ≠ [] := by rintro rfl; exact h1 List.nil_prefix
      rw [dotgetSegments_cons hqs, dotgetSegments_cons hqs]
      simpa [updateChild_get_self hs, jsonObjectGetObject_eq_some.mp hc] using ih qs h1 h2
    · exact dotgetSegments_congr (updateChild_get_ne hq) qs
  | case4 o v s t ts hc o' hadd =>
    rw [dotsetSegments, hc]
    simp only [hadd]
    have hf : (jsonObjectAdd o s (.object ⟨[], 0⟩)).1 = .failure := by rw [hadd]
    have he : o'.entries = o.entries := by simpa [hadd] using jsonObjectAdd_failure_entries hf
    cases qs with
    | nil => exact absurd List.nil_prefix h1
    | cons q qs => exact dotgetSegments_congr (jsonObjectGetValue_of_entries he q) qs
  | case5 o v s t ts hc o' hadd ih =>
    obtain _ | ⟨q, qs⟩ := qs
    · exact absurd List.nil_prefix h1
    rw [dotsetSegments, hc]
    simp only [hadd]
    have hok : (jsonObjectAdd o s (.object ⟨[], 0⟩)).1 = .success := by rw [hadd]
    by_cases hq : q = s
    · subst hq
      simp only [List.cons_prefix_cons, true_and] at h1 h2
      have hs := isSome_of_jsonObjectAdd hadd
      have habsent : jsonObjectGetValue o q = none :=
        jsonObjectGetValue_eq_none (jsonObjectAdd_success_not_mem hok)
      have hqs : qs ≠ [] := by rintro rfl; exact h1 List.nil_prefix
      rw [dotgetSegments_cons hqs, dotgetSegments_cons hqs]
      simpa [updateChild_get_self hs, habsent, dotgetSegments_none, dotgetSegments_empty]
        using ih qs h1 h2
    · have hadd_ne := jsonObjectAdd_get_ne (o := o) (v := Value.object ⟨[], 0⟩) hq
      rw [hadd] at hadd_ne
      exact dotgetSegments_congr ((updateChild_get_ne hq).trans hadd_ne) qs

theorem dotsetSegments_nonObject {o : JsonObject Value} {v w : Value} {pre rest : List CStr}
    (hw : dotgetSegments (some o) pre = some w) (hobj : w.getObject = none) (hrest : rest ≠ []) :
    (dotsetSegments o v (pre ++ rest)).1 = .failure := by
  induction pre generalizing o with
  | nil => rw [dotgetSegments] at hw; cases hw
  | cons s pre ih =>
    have htail : pre ++ rest ≠ [] := by simp [hrest]
    rw [List.cons_append, dotsetSegments_cons htail]
    cases pre with
    | nil =>
      have hw' : jsonObjectGetValue o s = some w := by rw [dotgetSegments] at hw; exact hw
      have hc : jsonObjectGetObject o s = none := by simp [jsonObjectGetObject, hw', hobj]
      have hpresent : s ∈ o.entries.map Prod.fst := by
        rw [← jsonObjectGetValue_isSome_iff, hw']; rfl
      rw [hc]
      cases hadd : jsonObjectAdd o s (.object ⟨[], 0⟩) with
      | mk st o' =>
        cases st with
        | failure => rfl
        | success =>
          have hok : (jsonObjectAdd o s (.object ⟨[], 0⟩)).1 = .success := by rw [hadd]
          exact absurd hpresent (jsonObjectAdd_success_not_mem hok)
    | cons t ts =>
      rw [dotgetSegments_cons (List.cons_ne_nil _ _)] at hw
      change dotgetSegments (jsonObjectGetObject o s) (t :: ts) = some w at hw
      cases hc : jsonObjectGetObject o s with
      | none => rw [hc, dotgetSegments_none] at hw; cases hw
      | some child => rw [hc] at hw; exact ih hw

/-! ## The dotted API -/

/-- What the dotted API does with the object `o`, the path `p` and the value `v`. -/
structure DotPathsIterate (o : JsonObject Value) (p : CStr) (v : Value) : Prop where
  /-- `json_object_dotget_value` looks each segment up in turn, needing an object before the
      last, -/
  get : jsonObjectDotgetValue (some o) p = dotgetSegments (some o) (segments p)
  /-- `json_object_dotset_value` descends the same way, adding a fresh empty object for each
      absent segment, and sets the last, -/
  set : jsonObjectDotsetValue o p (some v) = dotsetSegments o v (segments p)
  /-- `json_object_dotremove` descends without creating and removes the last segment, -/
  remove : jsonObjectDotremove o p = dotremoveSegments o (segments p)
  /-- `dotset` fails when a segment before the last names a value that is not an object, -/
  set_nonObject : ∀ pre rest w, pre ++ rest = segments p → rest ≠ [] →
    dotgetSegments (some o) pre = some w → w.getObject = none →
    (jsonObjectDotsetValue o p (some v)).1 = .failure
  /-- a failing `dotset` changes no entry of any object, only capacities, -/
  set_failure : (jsonObjectDotsetValue o p (some v)).1 = .failure →
    (jsonObjectDotsetValue o p (some v)).2.erase = o.erase
  /-- after a successful one `dotget` finds `v` at `p`, -/
  set_get : (jsonObjectDotsetValue o p (some v)).1 = .success →
    jsonObjectDotgetValue (some (jsonObjectDotsetValue o p (some v)).2) p = some v
  /-- and `dotget` reads as before on every path that is not a segment-prefix of `p` and
      does not have `p` as one. -/
  set_frame : ∀ q, ¬ segments q <+: segments p → ¬ segments p <+: segments q →
    jsonObjectDotgetValue (some (jsonObjectDotsetValue o p (some v)).2) q =
      jsonObjectDotgetValue (some o) q

theorem dotted_paths_iterate (o : JsonObject Value) (p : CStr) (v : Value) :
    DotPathsIterate o p v where
  get := jsonObjectDotgetValue_eq _ _
  set := jsonObjectDotsetValue_eq _ _ _
  remove := jsonObjectDotremove_eq _ _
  set_nonObject pre rest w hsplit hrest hw hobj := by
    rw [jsonObjectDotsetValue_eq, ← hsplit]
    exact dotsetSegments_nonObject hw hobj hrest
  set_failure h := by
    rw [jsonObjectDotsetValue_eq] at h ⊢
    exact dotsetSegments_failure _ _ _ h
  set_get h := by
    rw [jsonObjectDotsetValue_eq] at h ⊢
    rw [jsonObjectDotgetValue_eq]
    exact dotsetSegments_get _ _ _ h
  set_frame q h1 h2 := by
    simp only [jsonObjectDotsetValue_eq, jsonObjectDotgetValue_eq]
    exact dotsetSegments_frame _ _ _ _ h1 h2

end Parson
