import Parson.Core.Tree
import Parson.Theory.Stored
import Parson.Theory.RoundTrip

/-!
# Deep Copy

`json_value_deep_copy` of a tree whose slots are all filled, whose object names are distinct
and whose counts are within the caps succeeds and returns a tree with the same meaning: the
same tags, booleans, numbers and strings, the same items in order and the same entries in
order (`jsonValueDeepCopy_exact`). Only the capacities may differ: the copy's containers grow
from empty by doubling, while the original's may be trimmed.

Two facts carry the proof at every node. The fresh containers start at capacity `0` and grow
by `json_object_add` and `json_array_add`, whose capacities are growth capacities, so by
`Parson.Theory.Capacity` every add below the cap succeeds. And the object loop fetches each
child by its name, which with distinct names is the entry at the loop's index; distinct names
also keep `json_object_add` from refusing a name as a duplicate.

The loops are proved once for any copy function that copies each child exactly, and the
recursion by induction on the levels `jsonValueDeepCopyAt` is allowed.

## Theorems

* `Value.mem_itemsToJson?`, `Value.mem_entriesToJson?`: A child's meaning is a child of the
  meaning.
* `deepCopyItems_spec`, `deepCopyEntries_spec`: The loops copy each child in order.
* `jsonValueDeepCopyAt_exact`: Enough levels copy a storable tree exactly.
* `jsonValueDeepCopy_exact`: `json_value_deep_copy` copies it exactly.
-/

namespace Parson

/-! ## Meanings of children -/

theorem Value.itemsToJson?_length : ∀ {xs : List (Option Value)} {js : List Json},
    Value.itemsToJson? xs = some js → xs.length = js.length
  | [], _, h => by cases h; rfl
  | _ :: _, _, h => by
    obtain ⟨_, _, _, rfl, -, hjs, rfl⟩ := Value.itemsToJson?_cons h
    simp [Value.itemsToJson?_length hjs]

theorem Value.mem_itemsToJson? : ∀ {xs : List (Option Value)} {js : List Json} {v : Value}
    {j : Json}, Value.itemsToJson? xs = some js → some v ∈ xs → v.toJson? = some j → j ∈ js
  | [], _, _, _, _, hv, _ => absurd hv (List.not_mem_nil _)
  | _ :: _, _, _, _, h, hv, hj => by
    obtain ⟨w, jw, js, rfl, hw, hjs, rfl⟩ := Value.itemsToJson?_cons h
    rcases List.mem_cons.mp hv with he | hv
    · cases he
      exact List.mem_cons.mpr (.inl (Option.some.inj (hj.symm.trans hw)))
    · exact List.mem_cons_of_mem _ (Value.mem_itemsToJson? hjs hv hj)

theorem Value.mem_entriesToJson? : ∀ {es : List (CStr × Value)} {jes : List (CStr × Json)}
    {k : CStr} {v : Value} {j : Json},
    Value.entriesToJson? es = some jes → (k, v) ∈ es → v.toJson? = some j → (k, j) ∈ jes
  | [], _, _, _, _, _, he, _ => absurd he (List.not_mem_nil _)
  | (_, _) :: _, _, _, _, _, h, he, hj => by
    obtain ⟨jw, js, hw, hjs, rfl⟩ := Value.entriesToJson?_cons h
    rcases List.mem_cons.mp he with he | he
    · cases he
      exact List.mem_cons.mpr (.inl (by rw [Option.some.inj (hj.symm.trans hw)]))
    · exact List.mem_cons_of_mem _ (Value.mem_entriesToJson? hjs he hj)

theorem Value.itemsToJson?_append : ∀ {xs : List (Option Value)} {js : List Json} {v : Value}
    {j : Json}, Value.itemsToJson? xs = some js → v.toJson? = some j →
    Value.itemsToJson? (xs ++ [some v]) = some (js ++ [j])
  | [], _, _, _, h, hv => by cases h; simp [Value.itemsToJson?, hv]
  | _ :: _, _, _, _, h, hv => by
    obtain ⟨_, _, _, rfl, hw, hjs, rfl⟩ := Value.itemsToJson?_cons h
    simp [Value.itemsToJson?, hw, Value.itemsToJson?_append hjs hv]

theorem Value.entriesToJson?_append : ∀ {es : List (CStr × Value)} {jes : List (CStr × Json)}
    {k : CStr} {v : Value} {j : Json}, Value.entriesToJson? es = some jes → v.toJson? = some j →
    Value.entriesToJson? (es ++ [(k, v)]) = some (jes ++ [(k, j)])
  | [], _, _, _, _, h, hv => by cases h; simp [Value.entriesToJson?, hv]
  | (_, _) :: _, _, _, _, _, h, hv => by
    obtain ⟨_, _, hw, hjs, rfl⟩ := Value.entriesToJson?_cons h
    simp [Value.entriesToJson?, hw, Value.entriesToJson?_append hjs hv]

theorem Value.depth_le_itemsDepth : ∀ {xs : List (Option Value)} {v : Value}, some v ∈ xs →
    v.depth ≤ Value.itemsDepth xs
  | [], _, h => absurd h (List.not_mem_nil _)
  | none :: _, _, h => by
    simp only [Value.itemsDepth]
    rcases List.mem_cons.mp h with he | h
    · cases he
    · exact Value.depth_le_itemsDepth h
  | some _ :: _, _, h => by
    simp only [Value.itemsDepth]
    rcases List.mem_cons.mp h with he | h
    · cases he; exact le_max_left _ _
    · exact (Value.depth_le_itemsDepth h).trans (le_max_right _ _)

theorem Value.depth_le_entriesDepth : ∀ {es : List (CStr × Value)} {e : CStr × Value}, e ∈ es →
    e.2.depth ≤ Value.entriesDepth es
  | [], _, h => absurd h (List.not_mem_nil _)
  | (_, _) :: _, _, h => by
    simp only [Value.entriesDepth]
    rcases List.mem_cons.mp h with rfl | h
    · exact le_max_left _ _
    · exact (Value.depth_le_entriesDepth h).trans (le_max_right _ _)

/-! ## The loops -/

section Loops

variable {copy : Value → Option Value}

/-- The array loop appends an exact copy of each slot, as long as each copy is exact and the
    slots fit below `ARRAY_MAX_CAPACITY`. -/
theorem deepCopyItems_spec : ∀ {items : List (Option Value)} {js : List Json}
    {acc : JsonArray Value} {jacc : List Json},
    Value.itemsToJson? items = some js →
    (∀ v, some v ∈ items → ∀ j, v.toJson? = some j → ∃ w, copy v = some w ∧ w.toJson? = some j) →
    Value.itemsToJson? acc.items = some jacc → acc.Fits → IsGrowth arrayMaxCapacity acc.capacity →
    acc.count + items.length ≤ arrayMaxCapacity →
    ∃ acc', deepCopyItems copy items acc = some acc' ∧
      Value.itemsToJson? acc'.items = some (jacc ++ js)
  | [], _, acc, _, h, _, hacc, _, _, _ => by cases h; exact ⟨acc, rfl, by simpa using hacc⟩
  | x :: items, _, acc, jacc, h, hcopy, hacc, hfit, hg, hc => by
    obtain ⟨v, j, js, rfl, hv, hjs, rfl⟩ := Value.itemsToJson?_cons h
    obtain ⟨w, hw, hwj⟩ := hcopy v (List.mem_cons_self _ _) j hv
    simp only [List.length_cons] at hc
    obtain ⟨a1, hadd, hitems, hfit1, hg1⟩ := jsonArrayAdd_grows hfit hg (by omega) w
    have hacc1 : Value.itemsToJson? a1.items = some (jacc ++ [j]) := by
      rw [hitems]; exact Value.itemsToJson?_append hacc hwj
    have hc1 : a1.count + items.length ≤ arrayMaxCapacity := by
      simp only [JsonArray.count, hitems, List.length_append, List.length_singleton] at hc ⊢
      omega
    obtain ⟨acc', hloop, hres⟩ := deepCopyItems_spec hjs
      (fun v hv => hcopy v (List.mem_cons_of_mem _ hv)) hacc1 hfit1 hg1 hc1
    refine ⟨acc', ?_, by simpa using hres⟩
    simp only [deepCopyItems, Option.some_bind, hw, hadd]
    exact hloop

/-- The object loop appends each entry with an exact copy of its value, as long as each name
    looks up its own entry, each copy is exact, the names stay distinct and the entries fit
    below `OBJECT_MAX_CAPACITY`. -/
theorem deepCopyEntries_spec {o : JsonObject Value} : ∀ {es : List (CStr × Value)}
    {jes : List (CStr × Json)} {acc : JsonObject Value} {jacc : List (CStr × Json)},
    Value.entriesToJson? es = some jes →
    (∀ e ∈ es, jsonObjectGetValue o e.1 = some e.2) →
    (∀ e ∈ es, ∀ j, e.2.toJson? = some j → ∃ w, copy e.2 = some w ∧ w.toJson? = some j) →
    ((acc.entries ++ es).map Prod.fst).Nodup →
    Value.entriesToJson? acc.entries = some jacc → acc.Fits →
    IsGrowth objectMaxCapacity acc.capacity → acc.count + es.length ≤ objectMaxCapacity →
    ∃ acc', deepCopyEntries copy o es acc = some acc' ∧
      Value.entriesToJson? acc'.entries = some (jacc ++ jes)
  | [], _, acc, _, h, _, _, _, hacc, _, _, _ => by
    cases h; exact ⟨acc, rfl, by simpa using hacc⟩
  | (k, v) :: es, _, acc, jacc, h, hget, hcopy, hnd, hacc, hfit, hg, hc => by
    obtain ⟨j, js, hv, hjs, rfl⟩ := Value.entriesToJson?_cons h
    obtain ⟨w, hw, hwj⟩ := hcopy (k, v) (List.mem_cons_self _ _) j hv
    have hk : k ∉ acc.entries.map Prod.fst := by
      simp only [List.map_append, List.map_cons, List.nodup_append, List.nodup_cons] at hnd
      exact fun hm => hnd.2.2 hm (List.mem_cons_self _ _)
    simp only [List.length_cons] at hc
    obtain ⟨o1, hadd, hent, hfit1, hg1⟩ := jsonObjectAdd_grows hfit hg (by omega) hk w
    have hacc1 : Value.entriesToJson? o1.entries = some (jacc ++ [(k, j)]) := by
      rw [hent]; exact Value.entriesToJson?_append hacc hwj
    have hnd1 : ((o1.entries ++ es).map Prod.fst).Nodup := by
      simpa [hent] using hnd
    have hc1 : o1.count + es.length ≤ objectMaxCapacity := by
      simp only [JsonObject.count, hent, List.length_append, List.length_singleton] at hc ⊢
      omega
    obtain ⟨acc', hloop, hres⟩ := deepCopyEntries_spec hjs
      (fun e he => hget e (List.mem_cons_of_mem _ he))
      (fun e he => hcopy e (List.mem_cons_of_mem _ he)) hnd1 hacc1 hfit1 hg1 hc1
    refine ⟨acc', ?_, by simpa using hres⟩
    simp only [deepCopyEntries, hget (k, v) (List.mem_cons_self _ _), Option.some_bind, hw, hadd]
    exact hloop

end Loops

/-! ## The recursion -/

/-- With more levels than the tree is deep, `json_value_deep_copy` copies a storable tree
    exactly. -/
theorem jsonValueDeepCopyAt_exact : ∀ {levels : Nat} {v : Value} {j : Json}, v.depth < levels →
    v.toJson? = some j → j.Forall Json.Storable →
    ∃ w, jsonValueDeepCopyAt levels v = some w ∧ w.toJson? = some j
  | 0, _, _, hd, _, _ => absurd hd (Nat.not_lt_zero _)
  | levels + 1, .array a, _, hd, hj, hs => by
    obtain ⟨js, hjs, rfl⟩ := Option.map_eq_some'.mp hj
    obtain ⟨hlen, hall⟩ := hs
    have hcount : a.items.length ≤ arrayMaxCapacity := Value.itemsToJson?_length hjs ▸ hlen
    have hcopy : ∀ v, some v ∈ a.items → ∀ j, v.toJson? = some j →
        ∃ w, jsonValueDeepCopyAt levels v = some w ∧ w.toJson? = some j := by
      intro v hv j hvj
      have hdv := Value.depth_le_itemsDepth hv
      simp only [Value.depth] at hd
      exact jsonValueDeepCopyAt_exact (by omega) hvj
        (Json.itemsForall_iff.mp hall j (Value.mem_itemsToJson? hjs hv hvj))
    obtain ⟨acc, hloop, hacc⟩ := deepCopyItems_spec hjs hcopy
      (show Value.itemsToJson? (jsonArrayInit : JsonArray Value).items = some [] from rfl)
      ⟨le_rfl, Nat.zero_le _⟩ (.inl rfl) (by simpa [jsonArrayInit, JsonArray.count] using hcount)
    refine ⟨.array acc, ?_, ?_⟩
    · simp only [jsonValueDeepCopyAt, hloop, Option.map_some']
    · simp [Value.toJson?, hacc]
  | levels + 1, .object o, _, hd, hj, hs => by
    obtain ⟨jes, hjes, rfl⟩ := Option.map_eq_some'.mp hj
    obtain ⟨⟨hnd, hlen⟩, hall⟩ := hs
    have hnames := Value.entriesToJson?_names hjes
    have hnd' : (o.entries.map Prod.fst).Nodup := hnames ▸ hnd
    have hcopy : ∀ e ∈ o.entries, ∀ j, e.2.toJson? = some j →
        ∃ w, jsonValueDeepCopyAt levels e.2 = some w ∧ w.toJson? = some j := by
      intro e he j hej
      have hde := Value.depth_le_entriesDepth he
      simp only [Value.depth] at hd
      exact jsonValueDeepCopyAt_exact (by omega) hej
        (Json.entriesForall_iff.mp hall (e.1, j) (Value.mem_entriesToJson? hjes he hej))
    have hcount : o.entries.length ≤ objectMaxCapacity := by
      have := congrArg List.length hnames
      simp only [List.length_map] at this
      omega
    obtain ⟨acc, hloop, hacc⟩ := deepCopyEntries_spec hjes
      (fun e he => (jsonObjectGetValue_eq_some_iff hnd' e.1 e.2).mpr he) hcopy
      (show (((jsonObjectInit : JsonObject Value).entries ++ o.entries).map Prod.fst).Nodup
        from hnd') rfl ⟨le_rfl, Nat.zero_le _⟩ (.inl rfl)
      (by simpa [jsonObjectInit, JsonObject.count] using hcount)
    refine ⟨.object acc, ?_, ?_⟩
    · simp only [jsonValueDeepCopyAt, hloop, Option.map_some']
    · simp [Value.toJson?, hacc]
  | _ + 1, .boolean _, _, _, hj, _ => ⟨_, rfl, hj⟩
  | _ + 1, .number _, _, _, hj, _ => ⟨_, rfl, hj⟩
  | _ + 1, .string _, _, _, hj, _ => ⟨_, rfl, hj⟩
  | _ + 1, .null, _, _, hj, _ => ⟨_, rfl, hj⟩

/-- `json_value_deep_copy` of a tree whose slots are filled, whose names are distinct and whose
    counts are within the caps succeeds, and the copy means what the tree means: the same
    tags, booleans, bit-identical numbers, byte-identical strings and names, items in order
    and entries in order. -/
theorem jsonValueDeepCopy_exact {v : Value} {j : Json} (hv : v.toJson? = some j)
    (hs : j.Forall Json.Storable) : ∃ w, jsonValueDeepCopy v = some w ∧ w.toJson? = some j :=
  jsonValueDeepCopyAt_exact (Nat.lt_succ_self _) hv hs

/-- An array with more slots than items: its copy means the same, with growth capacity. -/
theorem jsonValueDeepCopy_exact_array :
    (Value.array ⟨[some .null, some (.boolean true)], 7⟩).toJson? =
        some (.array [.null, .boolean true]) ∧
      ∃ w, jsonValueDeepCopy (.array ⟨[some .null, some (.boolean true)], 7⟩) = some w ∧
        w.toJson? = some (.array [.null, .boolean true]) :=
  ⟨rfl, jsonValueDeepCopy_exact rfl ⟨show 2 ≤ arrayMaxCapacity by decide, trivial, trivial, trivial⟩⟩

end Parson
