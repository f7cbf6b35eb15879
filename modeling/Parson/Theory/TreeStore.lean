import Parson.Theory.DotPath
import Parson.Theory.Store
import Parson.Theory.DeepCopy

/-!
# Trees Built by the Object API

A program that holds the root object of a tree changes it through the object API: the plain
`json_object_set_value`, `json_object_remove` and `json_object_clear`, and the dotted
`json_object_dotset_value` and `json_object_dotremove`, which reach nested objects and create
the missing ones on the way down. Every value such a call hands over becomes part of the tree.

`Value.WellStored` is what every container of a tree built this way keeps: an object has
distinct names and `count ≤ capacity ≤ OBJECT_MAX_CAPACITY`, an array has no `NULL` slot and
`count ≤ capacity ≤ ARRAY_MAX_CAPACITY`. The root object from `json_value_init_object` has it,
and so has every tree the parser returns (`StoresDocument.wellStored`). Each call keeps it,
provided the value it hands over has it (`treeStep_wellStored`): a set overwrites a present
name or adds an absent one, a remove swaps the last entry into the hole, a dotted call changes
one child in place, and the objects it creates are empty. The names stay distinct because
`json_object_add` refuses a present name and the dotted calls write a changed child back into
the entry it came from.

So every tree a run of such calls builds is the storage of a document every node of which
the code can hold (`treeRun_stores_storable`). That document is what the round trip through
the serializer and the parser and the deep-copy comparison take as given.

On such a tree `json_object_dotremove` deletes exactly the value at its path
(`jsonObjectDotremove_deletes`): it succeeds when `json_object_dotget_value` finds a value
there, a failure changes nothing, afterwards nothing is found at the path or below it, and
every path that neither leads to it nor passes through it reads as before. The distinct names
are needed: `json_object_remove` drops only the first entry of a name, and moves the last
entry into its place.

The invariant is not kept by the array API: `json_array_remove` can leave a `NULL` slot
(`jsonArrayRemove_items`), which is why arrays are handed over whole here and not changed
in place.

## Main definitions

* `Value.WellStored`: Distinct names, no `NULL` slot, and every container within its storage.
* `TreeCall`, `treeStep`, `treeRun`: Calls of the object API on a root object.
* `DotremoveDeletes`: What `json_object_dotremove` does to the paths of a tree.

## Theorems

* `wellStored_setValue`, `wellStored_remove`, `wellStored_updateChild`: The object calls keep
  the invariant.
* `wellStored_dotsetSegments`, `wellStored_dotremoveSegments`: So do the dotted walks.
* `treeRun_wellStored`: So does every run.
* `Value.WellStored.toJson?`: A well-stored tree stores a document of storable nodes.
* `treeRun_stores_storable`: Every tree the object API builds stores such a document.
* `dotremoveSegments_gone`, `dotremoveSegments_frame`: A dotted remove empties its path and
  changes no unrelated one.
* `jsonObjectDotremove_deletes`: `json_object_dotremove` deletes exactly the value at its path.
-/

namespace Parson

/-! ## The invariant -/

mutual

/-- What every container of a tree built through the object API keeps: an object has distinct
    names and fits its storage, an array has no `NULL` slot and fits its storage. -/
def Value.WellStored : Value → Prop
  | .object o => (o.entries.map Prod.fst).Nodup ∧ o.Fits ∧ Value.entriesWellStored o.entries
  | .array a => a.Fits ∧ Value.itemsWellStored a.items
  | _ => True

/-- `Value.WellStored` on an object's entries. -/
def Value.entriesWellStored : List (CStr × Value) → Prop
  | [] => True
  | (_, v) :: es => v.WellStored ∧ Value.entriesWellStored es

/-- `Value.WellStored` on an array's slots, none of which is `NULL`. -/
def Value.itemsWellStored : List (Option Value) → Prop
  | [] => True
  | none :: _ => False
  | some v :: vs => v.WellStored ∧ Value.itemsWellStored vs

end

theorem Value.entriesWellStored_iff :
    ∀ {es : List (CStr × Value)}, Value.entriesWellStored es ↔ ∀ e ∈ es, e.2.WellStored
  | [] => iff_of_true trivial fun _ h => absurd h (List.not_mem_nil _)
  | (k, v) :: es => (and_congr_right' Value.entriesWellStored_iff).trans
    (List.forall_mem_cons (p := fun e : CStr × Value => e.2.WellStored) (a := (k, v)) (l := es)).symm

theorem Value.wellStored_object_iff {o : JsonObject Value} : (Value.object o).WellStored ↔
    (o.entries.map Prod.fst).Nodup ∧ o.Fits ∧ ∀ e ∈ o.entries, e.2.WellStored :=
  and_congr_right' (and_congr_right' Value.entriesWellStored_iff)

theorem jsonObjectInit_wellStored : (Value.object jsonObjectInit).WellStored :=
  ⟨List.nodup_nil, ⟨le_rfl, Nat.zero_le _⟩, trivial⟩

/-- An object rebuilt with distinct names, within its storage, from entries that are its own
    or well stored, is well stored. -/
theorem Value.WellStored.of_entries {o o' : JsonObject Value} (h : (Value.object o).WellStored)
    (hd : (o'.entries.map Prod.fst).Nodup) (hf : o'.Fits)
    (hm : ∀ e ∈ o'.entries, e ∈ o.entries ∨ e.2.WellStored) : (Value.object o').WellStored :=
  Value.wellStored_object_iff.mpr ⟨hd, hf, fun e he =>
    (hm e he).elim (fun he => (Value.wellStored_object_iff.mp h).2.2 e he) id⟩

/-- A value found in a well-stored object is well stored. -/
theorem Value.WellStored.of_get {o : JsonObject Value} (h : (Value.object o).WellStored)
    {k : CStr} {w : Value} (hg : jsonObjectGetValue o k = some w) : w.WellStored := by
  rw [jsonObjectGetValue_eq_find] at hg
  obtain ⟨e, he, rfl⟩ := Option.map_eq_some'.mp hg
  exact (Value.wellStored_object_iff.mp h).2.2 e (List.mem_of_find?_eq_some he)

/-! ## The object calls -/

theorem mem_of_replaceNamed {k : CStr} {v : Value} :
    ∀ {l l' : List (CStr × Value)}, replaceNamed k v l = some l' →
      ∀ e ∈ l', e ∈ l ∨ e = (k, v)
  | [], _, h => by simp [replaceNamed] at h
  | (k', w) :: l, l', h => by
    rw [replaceNamed] at h
    split_ifs at h with hk
    · cases h
      exact List.forall_mem_cons.mpr ⟨.inr (by rw [hk]), fun e he => .inl (List.mem_cons_of_mem _ he)⟩
    · obtain ⟨l'', hl'', rfl⟩ := Option.map_eq_some'.mp h
      exact List.forall_mem_cons.mpr ⟨.inl (List.mem_cons_self _ _),
        fun e he => (mem_of_replaceNamed hl'' e he).imp_left (List.mem_cons_of_mem _)⟩

theorem names_of_replaceNamed {k : CStr} {v : Value} :
    ∀ {l l' : List (CStr × Value)}, replaceNamed k v l = some l' →
      l'.map Prod.fst = l.map Prod.fst
  | [], _, h => by simp [replaceNamed] at h
  | (k', w) :: l, l', h => by
    rw [replaceNamed] at h
    split_ifs at h with hk
    · cases h; rfl
    · obtain ⟨l'', hl'', rfl⟩ := Option.map_eq_some'.mp h
      simp [names_of_replaceNamed hl'']

/-- Overwriting the value of the first entry of a name with a well-stored value. -/
theorem Value.WellStored.replaceNamed {o : JsonObject Value} (h : (Value.object o).WellStored)
    {k : CStr} {v : Value} (hv : v.WellStored) {l' : List (CStr × Value)}
    (hl : replaceNamed k v o.entries = some l') :
    (Value.object { o with entries := l' }).WellStored := by
  have hn := names_of_replaceNamed hl
  have hlen : l'.length = o.entries.length := by simpa using congrArg List.length hn
  obtain ⟨hd, hf, -⟩ := Value.wellStored_object_iff.mp h
  refine h.of_entries (by rw [hn]; exact hd) ?_ fun e he => ?_
  · exact ⟨by simpa [JsonObject.count, hlen] using hf.1, hf.2⟩
  · rcases mem_of_replaceNamed hl e he with he | rfl
    exacts [.inl he, .inr hv]

theorem wellStored_add {o : JsonObject Value} (h : (Value.object o).WellStored) (k : CStr)
    {v : Value} (hv : v.WellStored) : (Value.object (jsonObjectAdd o k v).2).WellStored := by
  obtain ⟨hd, hf, -⟩ := Value.wellStored_object_iff.mp h
  refine h.of_entries ?_ (jsonObjectAdd_fits hf) fun e he => ?_
  · rw [jsonObjectAdd_entries]
    split_ifs with hs
    · rw [List.map_append, List.nodup_append]
      exact ⟨hd, List.nodup_singleton _, List.disjoint_singleton.mpr (jsonObjectAdd_success_not_mem hs)⟩
    · exact hd
  · rw [jsonObjectAdd_entries] at he
    split_ifs at he
    · rcases List.mem_append.mp he with he | he
      · exact .inl he
      · exact .inr (by rw [List.mem_singleton.mp he]; exact hv)
    · exact .inl he

/-- `json_object_set_value` with a well-stored value keeps the invariant. -/
theorem wellStored_setValue {o : JsonObject Value} (h : (Value.object o).WellStored) (k : CStr)
    {v : Value} (hv : v.WellStored) :
    (Value.object (jsonObjectSetValue o k (some v)).2).WellStored := by
  rcases jsonObjectSetValue_cases o k v with ⟨l', hl, hs⟩ | hs <;> rw [hs]
  exacts [h.replaceNamed hv hl, wellStored_add h k hv]

/-- `json_object_remove` keeps the invariant. -/
theorem wellStored_remove {o : JsonObject Value} (h : (Value.object o).WellStored) (k : CStr) :
    (Value.object (jsonObjectRemove o k).2).WellStored := by
  obtain ⟨hd, hf, -⟩ := Value.wellStored_object_iff.mp h
  rcases jsonObjectRemove_cases o k with ⟨-, hr⟩ | ⟨i, hi, -, hr⟩ <;> rw [hr]
  · exact h
  have hperm := swapRemoveAt_perm hi
  refine h.of_entries (by rw [swapRemoveAt_map]; exact nodup_swapRemoveAt hd i) ⟨?_, hf.2⟩
    fun e he => .inl ((hperm.mem_iff.mp he) |> List.mem_of_mem_eraseIdx)
  have hlen := hperm.length_eq
  have hc := hf.1
  simp only [JsonObject.count, List.length_eraseIdx, hi, if_true] at hlen hc ⊢
  omega

theorem wellStored_clear {o : JsonObject Value} (h : (Value.object o).WellStored) :
    (Value.object (jsonObjectClear o)).WellStored := by
  obtain ⟨-, hf, -⟩ := Value.wellStored_object_iff.mp h
  exact h.of_entries List.nodup_nil ⟨Nat.zero_le _, hf.2⟩ (by simp)

/-- Writing a well-stored child object back into its parent keeps the invariant. -/
theorem wellStored_updateChild {o c : JsonObject Value} (h : (Value.object o).WellStored)
    (s : CStr) (hc : (Value.object c).WellStored) :
    (Value.object (updateChild o s c)).WellStored := by
  unfold updateChild
  cases hl : replaceNamed s (Value.object c) o.entries with
  | none => exact h
  | some l' => exact h.replaceNamed hc hl

/-! ## The dotted walks -/

/-- An empty object, as `json_object_dotset_value` creates on its way down. -/
theorem empty_wellStored : (Value.object ⟨[], 0⟩).WellStored := jsonObjectInit_wellStored

theorem wellStored_dotsetSegments {v : Value} (hv : v.WellStored) :
    ∀ (ss : List CStr) {o : JsonObject Value}, (Value.object o).WellStored →
      (Value.object (dotsetSegments o v ss).2).WellStored
  | [], _, h => by rw [dotsetSegments]; exact h
  | [s], _, h => by rw [dotsetSegments]; exact wellStored_setValue h s hv
  | s :: t :: ts, o, h => by
    rw [dotsetSegments]
    split
    · rename_i child hchild
      exact wellStored_updateChild h s (wellStored_dotsetSegments hv (t :: ts)
        (h.of_get (jsonObjectGetObject_eq_some.mp hchild)))
    · have hadd := wellStored_add h s empty_wellStored
      split
      · rename_i o' heq
        rwa [heq] at hadd
      · rename_i o' heq
        rw [heq] at hadd
        exact wellStored_updateChild hadd s (wellStored_dotsetSegments hv (t :: ts) empty_wellStored)

theorem wellStored_dotremoveSegments :
    ∀ (ss : List CStr) {o : JsonObject Value}, (Value.object o).WellStored →
      (Value.object (dotremoveSegments o ss).2).WellStored
  | [], _, h => by rw [dotremoveSegments]; exact h
  | [s], _, h => by rw [dotremoveSegments]; exact wellStored_remove h s
  | s :: t :: ts, o, h => by
    rw [dotremoveSegments]
    split
    · exact h
    · rename_i child hchild
      exact wellStored_updateChild h s (wellStored_dotremoveSegments (t :: ts)
        (h.of_get (jsonObjectGetObject_eq_some.mp hchild)))

/-! ## Runs -/

/-- One call of the object API on the root object of a tree. -/
inductive TreeCall where
  | plain (call : ObjectCall Value)
  | dotset (name : CStr) (value : Option Value)
  | dotremove (name : CStr)

/-- The value a call hands over to the tree, if any. -/
def TreeCall.value : TreeCall → Option Value
  | .plain (.set _ value) => value
  | .dotset _ value => value
  | _ => none

/-- One call: `json_object_set_value`, `json_object_remove`, `json_object_clear`,
    `json_object_dotset_value` or `json_object_dotremove` on the root object. -/
def treeStep : TreeCall → JsonObject Value → JsonStatus × JsonObject Value
  | .plain call, o => objectStep call o
  | .dotset name value, o => jsonObjectDotsetValue o name value
  | .dotremove name, o => jsonObjectDotremove o name

/-- A sequence of calls on the root object. -/
def treeRun (calls : List TreeCall) (o : JsonObject Value) : List JsonStatus × JsonObject Value :=
  runCalls treeStep calls o

/-- An invariant every step keeps, for calls of a kind, holds after every run of such calls. -/
theorem runCalls_invariant {κ σ : Type} {step : κ → σ → JsonStatus × σ} {Inv : σ → Prop}
    {Ok : κ → Prop} (hstep : ∀ call s, Ok call → Inv s → Inv (step call s).2) :
    ∀ (calls : List κ) (s : σ), (∀ call ∈ calls, Ok call) → Inv s → Inv (runCalls step calls s).2
  | [], _, _, hs => hs
  | call :: calls, s, hok, hs =>
    runCalls_invariant hstep calls _ (fun c hc => hok c (List.mem_cons_of_mem _ hc))
      (hstep call s (hok call (List.mem_cons_self _ _)) hs)

/-- Every call keeps the invariant when the value it hands over keeps it. -/
theorem treeStep_wellStored : ∀ (call : TreeCall) {o : JsonObject Value},
    (∀ v ∈ call.value, v.WellStored) → (Value.object o).WellStored →
      (Value.object (treeStep call o).2).WellStored
  | .plain (.set _ none), _, _, h => h
  | .plain (.set k (some _)), _, hv, h => wellStored_setValue h k (hv _ rfl)
  | .plain (.remove k), _, _, h => wellStored_remove h k
  | .plain .clear, _, _, h => wellStored_clear h
  | .dotset _ none, _, _, h => by rw [treeStep, jsonObjectDotsetValue]; exact h
  | .dotset name (some v), o, hv, h => by
    rw [treeStep, jsonObjectDotsetValue_eq]
    exact wellStored_dotsetSegments (hv v rfl) _ h
  | .dotremove name, o, _, h => by
    rw [treeStep, jsonObjectDotremove_eq]
    exact wellStored_dotremoveSegments _ h

theorem treeRun_wellStored (calls : List TreeCall) {o : JsonObject Value}
    (ho : (Value.object o).WellStored) (hcalls : ∀ call ∈ calls, ∀ v ∈ call.value, v.WellStored) :
    (Value.object (treeRun calls o).2).WellStored := by
  have := runCalls_invariant (fun call (s : JsonObject Value)
    (hv : ∀ v ∈ TreeCall.value call, v.WellStored) (hs : (Value.object s).WellStored) =>
      treeStep_wellStored call hv hs) calls o hcalls ho
  exact this

/-! ## What a well-stored tree stores -/

mutual

/-- A well-stored tree stores a document every node of which the code can hold. -/
theorem Value.WellStored.toJson? : ∀ {v : Value}, v.WellStored →
    ∃ j, v.toJson? = some j ∧ j.Forall Json.Storable
  | .null, _ => ⟨.null, rfl, trivial⟩
  | .string s, _ => ⟨.string s, rfl, trivial⟩
  | .number x, _ => ⟨.number x, rfl, trivial⟩
  | .boolean b, _ => ⟨.boolean b, rfl, trivial⟩
  | .object o, ⟨hd, hf, he⟩ => by
    obtain ⟨jes, hjes, hall⟩ := Value.entriesWellStored_toJson? he
    have hn := Value.entriesToJson?_names hjes
    have hlen : o.entries.length = jes.length := by simpa using congrArg List.length hn
    refine ⟨.object jes, by rw [Value.toJson?, hjes]; rfl, ⟨hn ▸ hd, ?_⟩, hall⟩
    have := hf.1.trans hf.2
    simp only [JsonObject.count] at this
    omega
  | .array a, ⟨hf, hi⟩ => by
    obtain ⟨js, hjs, hall⟩ := Value.itemsWellStored_toJson? hi
    refine ⟨.array js, by rw [Value.toJson?, hjs]; rfl, ?_, hall⟩
    have := hf.1.trans hf.2
    have := Value.itemsToJson?_length hjs
    simp only [JsonArray.count] at *
    show js.length ≤ arrayMaxCapacity
    omega

theorem Value.entriesWellStored_toJson? : ∀ {es : List (CStr × Value)},
    Value.entriesWellStored es →
      ∃ jes, Value.entriesToJson? es = some jes ∧ Json.entriesForall Json.Storable jes
  | [], _ => ⟨[], rfl, trivial⟩
  | (k, _) :: _, ⟨hv, hes⟩ => by
    obtain ⟨j, hj, hjf⟩ := Value.WellStored.toJson? hv
    obtain ⟨jes, hjes, hall⟩ := Value.entriesWellStored_toJson? hes
    exact ⟨(k, j) :: jes, by simp [Value.entriesToJson?, hj, hjes], hjf, hall⟩

theorem Value.itemsWellStored_toJson? : ∀ {vs : List (Option Value)},
    Value.itemsWellStored vs →
      ∃ js, Value.itemsToJson? vs = some js ∧ Json.itemsForall Json.Storable js
  | [], _ => ⟨[], rfl, trivial⟩
  | none :: _, h => h.elim
  | some _ :: _, ⟨hv, hvs⟩ => by
    obtain ⟨j, hj, hjf⟩ := Value.WellStored.toJson? hv
    obtain ⟨js, hjs, hall⟩ := Value.itemsWellStored_toJson? hvs
    exact ⟨j :: js, by simp [Value.itemsToJson?, hj, hjs], hjf, hall⟩

end

mutual

/-- A document of storable nodes stored as the parser stores it is well stored. -/
theorem Json.toValue_wellStored : ∀ {j : Json}, j.Forall Json.Storable → j.toValue.WellStored
  | .null, _ => trivial
  | .string _, _ => trivial
  | .number _, _ => trivial
  | .boolean _, _ => trivial
  | .object es, ⟨⟨hd, hl⟩, hall⟩ => by
    refine ⟨?_, ⟨?_, ?_⟩, Json.entriesToValue_wellStored hall⟩
    · rw [Json.entriesToValue_eq_map, List.map_map]; exact hd
    · exact (Json.entriesToValue_length es).le
    · exact hl
  | .array js, ⟨hl, hall⟩ => ⟨⟨(Json.itemsToValue_length js).le, hl⟩,
      Json.itemsToValue_wellStored hall⟩

theorem Json.entriesToValue_wellStored : ∀ {es : List (CStr × Json)},
    Json.entriesForall Json.Storable es → Value.entriesWellStored (Json.entriesToValue es)
  | [], _ => trivial
  | (_, _) :: _, ⟨hj, hes⟩ => ⟨Json.toValue_wellStored hj, Json.entriesToValue_wellStored hes⟩

theorem Json.itemsToValue_wellStored : ∀ {js : List Json},
    Json.itemsForall Json.Storable js → Value.itemsWellStored (Json.itemsToValue js)
  | [], _ => trivial
  | _ :: _, ⟨hj, hjs⟩ => ⟨Json.toValue_wellStored hj, Json.itemsToValue_wellStored hjs⟩

end

/-- Every tree the parser returns is well stored. -/
theorem StoresDocument.wellStored {v : Value} (h : StoresDocument v) : v.WellStored := by
  obtain ⟨j, rfl, hj⟩ := h
  exact Json.toValue_wellStored hj

/-- Every tree a run of object-API calls builds on a root object that is well stored (the one
    from `json_value_init_object`, or one the parser returned), handing over only well-stored
    values, is well stored, and so stores a document every node of which the code can hold. -/
theorem treeRun_stores_storable (calls : List TreeCall) {o : JsonObject Value}
    (ho : (Value.object o).WellStored) (hcalls : ∀ call ∈ calls, ∀ v ∈ call.value, v.WellStored) :
    (Value.object (treeRun calls o).2).WellStored ∧
      ∃ j, (Value.object (treeRun calls o).2).toJson? = some j ∧ j.Forall Json.Storable :=
  have h := treeRun_wellStored calls ho hcalls
  ⟨h, h.toJson?⟩

/-- From `json_value_init_object`: `dotset("a.b", [null])`, then `remove("a")`. -/
theorem treeRun_stores_storable_dotset :
    (Value.object (treeRun [.dotset ⟨[97, 46, 98], by decide⟩ (some (Json.array [.null]).toValue),
        .plain (.remove ⟨[97], by decide⟩)] jsonObjectInit).2).WellStored ∧
      ∃ j, (Value.object (treeRun [.dotset ⟨[97, 46, 98], by decide⟩
        (some (Json.array [.null]).toValue), .plain (.remove ⟨[97], by decide⟩)]
          jsonObjectInit).2).toJson? = some j ∧ j.Forall Json.Storable :=
  treeRun_stores_storable _ jsonObjectInit_wellStored fun call hc v hv => by
    simp only [List.mem_cons, List.mem_singleton, List.not_mem_nil, or_false] at hc
    rcases hc with rfl | rfl
    · cases hv
      exact StoresDocument.wellStored ⟨_, rfl, ⟨show 1 ≤ arrayMaxCapacity by decide, trivial, trivial⟩⟩
    · cases hv

/-! ## What a `dotremove` does -/

theorem jsonObjectRemove_success_iff (o : JsonObject Value) (k : CStr) :
    (jsonObjectRemove o k).1 = .success ↔ (jsonObjectGetValue o k).isSome := by
  rw [jsonObjectGetValue_isSome_iff]
  rcases jsonObjectRemove_cases o k with ⟨hk, hr⟩ | ⟨i, hi, rfl, hr⟩ <;> rw [hr]
  · exact iff_of_false JsonStatus.noConfusion hk
  · exact iff_of_true rfl (List.mem_map_of_mem Prod.fst (List.getElem_mem hi))

theorem jsonObjectRemove_of_failure {o : JsonObject Value} {k : CStr}
    (h : (jsonObjectRemove o k).1 = .failure) : (jsonObjectRemove o k).2 = o := by
  rcases jsonObjectRemove_cases o k with ⟨-, hr⟩ | ⟨i, -, -, hr⟩ <;> rw [hr] at h ⊢
  cases h

/-- With distinct names, `json_object_remove` leaves the name absent and every other name as
    it was. -/
theorem jsonObjectRemove_get {o : JsonObject Value} (hd : (o.entries.map Prod.fst).Nodup)
    (k t : CStr) :
    jsonObjectGetValue (jsonObjectRemove o k).2 t =
      if t = k then none else jsonObjectGetValue o t := by
  rcases jsonObjectRemove_cases o k with ⟨hk, hr⟩ | ⟨i, hi, rfl, hr⟩ <;> rw [hr]
  · split_ifs with ht
    · rw [ht, jsonObjectGetValue_eq_none hk]
    · rfl
  · rw [← lookup_toNameMap, toNameMap_swapRemoveAt hd hi]
    split_ifs with ht
    · rw [ht, Finmap.lookup_erase]
    · rw [Finmap.lookup_erase_ne ht, lookup_toNameMap]

/-- A path whose first segment names no object, with more segments to go, leads nowhere. -/
theorem dotgetSegments_of_getObject_none {o : JsonObject Value} {s : CStr}
    (h : jsonObjectGetObject o s = none) {qs : List CStr} (hqs : qs ≠ []) :
    dotgetSegments (some o) (s :: qs) = none := by
  rw [dotgetSegments_cons hqs]
  exact (congrArg (dotgetSegments · qs) h).trans (dotgetSegments_none qs)

theorem dotgetSegments_of_getObject_some {o c : JsonObject Value} {s : CStr}
    (h : jsonObjectGetObject o s = some c) {qs : List CStr} (hqs : qs ≠ []) :
    dotgetSegments (some o) (s :: qs) = dotgetSegments (some c) qs := by
  rw [dotgetSegments_cons hqs]
  exact congrArg (dotgetSegments · qs) h

theorem dotremoveSegments_success_iff (o : JsonObject Value) (ss : List CStr) :
    (dotremoveSegments o ss).1 = .success ↔ (dotgetSegments (some o) ss).isSome := by
  induction o, ss using dotremoveSegments.induct with
  | case1 o => simp [dotremoveSegments, dotgetSegments]
  | case2 o s => rw [dotremoveSegments, dotgetSegments]; exact jsonObjectRemove_success_iff o s
  | case3 o s t ts hc =>
    rw [dotremoveSegments, hc, dotgetSegments_of_getObject_none hc (List.cons_ne_nil t ts)]
    simp
  | case4 o s t ts child hc ih =>
    rw [dotremoveSegments, hc, dotgetSegments_of_getObject_some hc (List.cons_ne_nil t ts)]
    exact ih

/-- A failing `dotremove` leaves the tree as it was. -/
theorem dotremoveSegments_of_failure (o : JsonObject Value) (ss : List CStr)
    (h : (dotremoveSegments o ss).1 = .failure) : (dotremoveSegments o ss).2 = o := by
  induction o, ss using dotremoveSegments.induct with
  | case1 o => rw [dotremoveSegments]
  | case2 o s => rw [dotremoveSegments] at h ⊢; exact jsonObjectRemove_of_failure h
  | case3 o s t ts hc => rw [dotremoveSegments, hc]
  | case4 o s t ts child hc ih =>
    rw [dotremoveSegments, hc] at h ⊢
    exact (congrArg (updateChild o s) (ih h)).trans (updateChild_self hc)

theorem dotgetSegments_of_get_none {o : JsonObject Value} {s : CStr}
    (h : jsonObjectGetValue o s = none) : ∀ qs, dotgetSegments (some o) (s :: qs) = none
  | [] => by rw [dotgetSegments]; exact h
  | _ :: _ => dotgetSegments_of_getObject_none (by rw [jsonObjectGetObject, h]; rfl)
      (List.cons_ne_nil _ _)

theorem getObject_updateChild_self {o c c' : JsonObject Value} {s : CStr}
    (hc : jsonObjectGetObject o s = some c) : jsonObjectGetObject (updateChild o s c') s = some c' :=
  jsonObjectGetObject_eq_some.mpr
    (updateChild_get_self (by rw [jsonObjectGetObject_eq_some.mp hc]; rfl))

/-- After a `dotremove` nothing is found at its path or below it. -/
theorem dotremoveSegments_gone {o : JsonObject Value} (h : (Value.object o).WellStored)
    {ss : List CStr} (hss : ss ≠ []) (r : List CStr) :
    dotgetSegments (some (dotremoveSegments o ss).2) (ss ++ r) = none := by
  induction o, ss using dotremoveSegments.induct with
  | case1 o => exact absurd rfl hss
  | case2 o s =>
    rw [dotremoveSegments, List.singleton_append]
    refine dotgetSegments_of_get_none ?_ r
    rw [jsonObjectRemove_get (Value.wellStored_object_iff.mp h).1, if_pos rfl]
  | case3 o s t ts hc =>
    rw [dotremoveSegments, hc, List.cons_append]
    exact dotgetSegments_of_getObject_none hc (List.cons_ne_nil _ _)
  | case4 o s t ts child hc ih =>
    rw [dotremoveSegments, hc, List.cons_append]
    dsimp only
    rw [dotgetSegments_of_getObject_some (getObject_updateChild_self hc)
      (List.append_ne_nil_of_left_ne_nil (List.cons_ne_nil t ts) r)]
    exact ih (h.of_get (jsonObjectGetObject_eq_some.mp hc)) (List.cons_ne_nil _ _)

/-- A `dotremove` reads as before on every path that is not a segment-prefix of its own and
    does not have it as one. -/
theorem dotremoveSegments_frame {o : JsonObject Value} (h : (Value.object o).WellStored)
    (ss qs : List CStr) (h1 : ¬ qs <+: ss) (h2 : ¬ ss <+: qs) :
    dotgetSegments (some (dotremoveSegments o ss).2) qs = dotgetSegments (some o) qs := by
  induction o, ss using dotremoveSegments.induct generalizing qs with
  | case1 o => exact absurd List.nil_prefix h2
  | case2 o s =>
    obtain _ | ⟨q, qs⟩ := qs
    · exact absurd List.nil_prefix h1
    have hq : q ≠ s := by rintro rfl; simp at h2
    rw [dotremoveSegments]
    exact dotgetSegments_congr
      (by rw [jsonObjectRemove_get (Value.wellStored_object_iff.mp h).1, if_neg hq]) qs
  | case3 o s t ts hc => rw [dotremoveSegments, hc]
  | case4 o s t ts child hc ih =>
    obtain _ | ⟨q, qs⟩ := qs
    · exact absurd List.nil_prefix h1
    rw [dotremoveSegments, hc]
    dsimp only
    by_cases hq : q = s
    · subst hq
      simp only [List.cons_prefix_cons, true_and] at h1 h2
      have hqs : qs ≠ [] := by rintro rfl; exact h1 List.nil_prefix
      rw [dotgetSegments_of_getObject_some (getObject_updateChild_self hc) hqs,
        dotgetSegments_of_getObject_some hc hqs]
      exact ih (h.of_get (jsonObjectGetObject_eq_some.mp hc)) qs h1 h2
    · exact dotgetSegments_congr (updateChild_get_ne hq) qs

/-- What `json_object_dotremove` does to a tree whose objects keep their names distinct. -/
structure DotremoveDeletes (o : JsonObject Value) (p : CStr) : Prop where
  /-- It succeeds exactly when `dotget` finds a value at the path, -/
  success_iff : (jsonObjectDotremove o p).1 = .success ↔
    (jsonObjectDotgetValue (some o) p).isSome
  /-- a failure changes nothing, -/
  failure : (jsonObjectDotremove o p).1 = .failure → (jsonObjectDotremove o p).2 = o
  /-- afterwards nothing is found at the path or below it, -/
  gone : ∀ q, segments p <+: segments q →
    jsonObjectDotgetValue (some (jsonObjectDotremove o p).2) q = none
  /-- and every path that is not a segment-prefix of it and does not have it as one reads as
      before. -/
  frame : ∀ q, ¬ segments q <+: segments p → ¬ segments p <+: segments q →
    jsonObjectDotgetValue (some (jsonObjectDotremove o p).2) q = jsonObjectDotgetValue (some o) q

/-- `json_object_dotremove` deletes exactly the value at its path, on every well-stored tree. -/
theorem jsonObjectDotremove_deletes {o : JsonObject Value} (h : (Value.object o).WellStored)
    (p : CStr) : DotremoveDeletes o p where
  success_iff := by
    rw [jsonObjectDotremove_eq, jsonObjectDotgetValue_eq]
    exact dotremoveSegments_success_iff _ _
  failure hf := by
    rw [jsonObjectDotremove_eq] at hf ⊢
    exact dotremoveSegments_of_failure _ _ hf
  gone q hq := by
    obtain ⟨r, hr⟩ := hq
    rw [jsonObjectDotremove_eq, jsonObjectDotgetValue_eq, ← hr]
    exact dotremoveSegments_gone h (segments_ne_nil p) r
  frame q h1 h2 := by
    simp only [jsonObjectDotremove_eq, jsonObjectDotgetValue_eq]
    exact dotremoveSegments_frame h _ _ h1 h2

theorem jsonObjectDotremove_deletes_nested :
    DotremoveDeletes (jsonObjectDotsetValue jsonObjectInit ⟨[97, 46, 98], by decide⟩
      (some .null)).2 ⟨[97, 46, 98], by decide⟩ :=
  jsonObjectDotremove_deletes (by
    rw [jsonObjectDotsetValue_eq]
    exact wellStored_dotsetSegments (v := .null) trivial _ jsonObjectInit_wellStored) _

end Parson
