import Parson.Theory.Comments

/-!
# What the Parser Stores

Every tree the parser returns is a document stored the way `Json.toValue` stores it: every
array slot holds a value, every capacity is trimmed to its count, and every object's names are
distinct and within the cap (`parsed_stores_document`). The names are distinct because
`json_object_add` refuses a name that is already there, which makes the whole parse fail; the
counts stay within the caps because `json_object_add` and `json_array_add` never grow past them.

So the preconditions of the object and array theorems of `Parson.Theory.ObjectModel` and
`Parson.Theory.ArrayModel` (distinct names, every slot filled) hold of every parsed tree.

The proof has the shape of the nesting bound of `Parson.Theory.Limits`: an invariant of each
loop, from the outcome lemmas of `Parson.Theory.ParseResult`, and an induction on the levels
`parse_value` has left.

## Main definitions

* `Json.Storable`: A node the code can hold.
* `StoresDocument`: A tree that stores a document of storable nodes.

## Theorems

* `parseArrayItems_stored`, `parseObjectMembers_stored`: The loops keep the invariant.
* `parseValue_stored`: Every value `parse_value` returns stores a document.
* `parsed_stores_document`: So does every tree either entry point returns.
-/

namespace Parson

/-- A node the code can hold: an object's names distinct and at most `OBJECT_MAX_CAPACITY` of
    them, an array of at most `ARRAY_MAX_CAPACITY` items. -/
def Json.Storable : Json → Prop
  | .object es => (es.map Prod.fst).Nodup ∧ es.length ≤ objectMaxCapacity
  | .array js => js.length ≤ arrayMaxCapacity
  | _ => True

/-- A tree that is the storage of a document whose every node the code can hold. -/
def StoresDocument (v : Value) : Prop := ∃ j : Json, v = j.toValue ∧ j.Forall Json.Storable

theorem storesDocument_of_depth_zero {v : Value} (h : v.depth = 0) : StoresDocument v := by
  cases v with
  | null => exact ⟨.null, rfl, trivial⟩
  | string s => exact ⟨.string s, rfl, trivial⟩
  | number x => exact ⟨.number x, rfl, trivial⟩
  | boolean b => exact ⟨.boolean b, rfl, trivial⟩
  | object _ | array _ => simp [Value.depth] at h

section Loops

variable {pv : Bytes → Option (Value × Bytes)}
  (hpv : ∀ {s v r}, pv s = some (v, r) → StoresDocument v)
include hpv

/-- The item loop only appends values that store documents, and keeps `Fits`. -/
theorem parseArrayItems_stored :
    ∀ {fuel : Nat} {a a' : JsonArray Value} {s r : Bytes} {js : List Json},
    parseArrayItems pv fuel a s = some (a', r) → a.items = js.map (fun j => some j.toValue) →
    (∀ j ∈ js, j.Forall Json.Storable) → a.Fits →
    ∃ js' : List Json, a'.items = js'.map (fun j => some j.toValue) ∧
      (∀ j ∈ js', j.Forall Json.Storable) ∧ a'.Fits
  | 0, a, a', s, r, js, h, ha, hjs, hfit => by
    rcases parseArrayItems_cases h with ⟨-, rfl, -⟩ | ⟨_, _, _, _, hf, -⟩
    · exact ⟨js, ha, hjs, hfit⟩
    · omega
  | fuel + 1, a, a', s, r, js, h, ha, hjs, hfit => by
    rcases parseArrayItems_cases h with
      ⟨-, rfl, -⟩ | ⟨fuel', v, s1, a1, hf, -, hv, hadd, hrest⟩
    · exact ⟨js, ha, hjs, hfit⟩
    · obtain ⟨j, rfl, hj⟩ := hpv hv
      have hitems : a1.items = (js ++ [j]).map fun j => some j.toValue := by
        simpa [hadd, ha] using jsonArrayAdd_items a j.toValue
      have hjs1 : ∀ x ∈ js ++ [j], x.Forall Json.Storable := by
        simp only [List.mem_append, List.mem_singleton]
        rintro x (hx | rfl)
        exacts [hjs x hx, hj]
      have hfit1 : a1.Fits := by
        have := jsonArrayAdd_fits hfit (by rw [hadd])
        rwa [hadd] at this
      rcases hrest with ⟨s2, -, hloop⟩ | ⟨-, rfl, -⟩
      · rw [show fuel' = fuel by omega] at hloop
        exact parseArrayItems_stored hloop hitems hjs1 hfit1
      · exact ⟨_, hitems, hjs1, hfit1⟩

/-- The member loop only appends new names with values that store documents, and keeps
    `Fits`. -/
theorem parseObjectMembers_stored :
    ∀ {fuel : Nat} {o o' : JsonObject Value} {s r : Bytes} {jes : List (CStr × Json)},
    parseObjectMembers pv fuel o s = some (o', r) →
    o.entries = jes.map (fun e => (e.1, e.2.toValue)) → (∀ e ∈ jes, e.2.Forall Json.Storable) →
    (jes.map Prod.fst).Nodup → o.Fits →
    ∃ jes' : List (CStr × Json), o'.entries = jes'.map (fun e => (e.1, e.2.toValue)) ∧
      (∀ e ∈ jes', e.2.Forall Json.Storable) ∧ (jes'.map Prod.fst).Nodup ∧ o'.Fits
  | 0, o, o', s, r, jes, h, ho, hjes, hnd, hfit => by
    rcases parseObjectMembers_cases h with ⟨-, rfl, -⟩ | ⟨_, _, _, _, _, _, _, hf, -⟩
    · exact ⟨jes, ho, hjes, hnd, hfit⟩
    · omega
  | fuel + 1, o, o', s, r, jes, h, ho, hjes, hnd, hfit => by
    rcases parseObjectMembers_cases h with
      ⟨-, rfl, -⟩ | ⟨fuel', key, s1, s2, v, s3, o1, hf, -, -, -, hv, hadd, hrest⟩
    · exact ⟨jes, ho, hjes, hnd, hfit⟩
    · obtain ⟨j, rfl, hj⟩ := hpv hv
      have hsucc : (jsonObjectAdd o (cString key) j.toValue).1 = .success := by simp [hadd]
      have hentries : o1.entries = (jes ++ [(cString key, j)]).map fun e => (e.1, e.2.toValue) := by
        simpa [hadd, ho] using jsonObjectAdd_entries o (cString key) j.toValue
      have hnew : cString key ∉ jes.map Prod.fst := by
        simpa [ho, List.map_map] using jsonObjectAdd_success_not_mem hsucc
      have hjes1 : ∀ e ∈ jes ++ [(cString key, j)], e.2.Forall Json.Storable := by
        simp only [List.mem_append, List.mem_singleton]
        rintro e (he | rfl)
        exacts [hjes e he, hj]
      have hnd1 : ((jes ++ [(cString key, j)]).map Prod.fst).Nodup := by
        simpa [List.nodup_append, hnd] using hnew
      have hfit1 : o1.Fits := by
        simpa [hadd] using jsonObjectAdd_fits (k := cString key) (v := j.toValue) hfit
      rcases hrest with ⟨s4, -, hloop⟩ | ⟨-, rfl, -⟩
      · rw [show fuel' = fuel by omega] at hloop
        exact parseObjectMembers_stored hloop hentries hjes1 hnd1 hfit1
      · exact ⟨_, hentries, hjes1, hnd1, hfit1⟩

end Loops

/-- Every value `parse_value` returns stores a document of storable nodes. -/
theorem parseValue_stored (lib : Libc) : ∀ {l : Nat} {s r : Bytes} {v : Value},
    parseValue lib l s = some (v, r) → StoresDocument v
  | 0, s, r, v, h => by simp [parseValue] at h
  | l + 1, s, r, v, h => by
    have ih : ∀ {s v r}, parseValue lib l s = some (v, r) → StoresDocument v :=
      fun h => parseValue_stored lib h
    rcases parseValue_cases h with ⟨-, ho⟩ | ⟨-, ha⟩ | ⟨-, hs⟩ | hb | ⟨-, hn⟩ | hz
    · rcases parseObjectValue_cases ho with ⟨-, rfl⟩ | ⟨o, r1, -, hm, -, -, rfl⟩
      · exact ⟨.object [], rfl, ⟨List.nodup_nil, Nat.zero_le _⟩, trivial⟩
      · obtain ⟨jes, he, hjes, hnd, hfit⟩ := parseObjectMembers_stored ih hm List.map_nil.symm
          (by simp) List.nodup_nil ⟨Nat.zero_le _, Nat.zero_le _⟩
        have hcount : o.count = jes.length := by simp [JsonObject.count, he]
        refine ⟨.object jes, ?_, ⟨hnd, by rw [← hcount]; exact hfit.1.trans hfit.2⟩,
          Json.entriesForall_iff.mpr hjes⟩
        simp [Json.toValue, Json.entriesToValue_eq_map, he, hcount]
    · rcases parseArrayValue_cases ha with ⟨-, rfl⟩ | ⟨a, r1, -, hm, -, -, rfl⟩
      · exact ⟨.array [], rfl, Nat.zero_le _, trivial⟩
      · obtain ⟨js, hi, hjs, hfit⟩ := parseArrayItems_stored ih hm List.map_nil.symm (by simp)
          ⟨Nat.zero_le _, Nat.zero_le _⟩
        have hcount : a.count = js.length := by simp [JsonArray.count, hi]
        refine ⟨.array js, ?_, (show js.length ≤ _ by rw [← hcount]; exact hfit.1.trans hfit.2),
          Json.itemsForall_iff.mpr hjs⟩
        simp [Json.toValue, Json.itemsToValue_eq_map, hi, hcount]
    · exact storesDocument_of_depth_zero (parseStringValue_depth hs)
    · exact storesDocument_of_depth_zero (parseBooleanValue_depth hb)
    · exact storesDocument_of_depth_zero (parseNumberValue_depth hn)
    · exact storesDocument_of_depth_zero (parseNullValue_depth hz)

/-- Every tree `json_parse_string` or `json_parse_string_with_comments` returns stores a
    document: every array slot filled, every capacity trimmed to its count, every object's
    names distinct, every count within its cap. -/
theorem parsed_stores_document {lib : Libc} {s : CStr} {v : Value}
    (h : jsonParseString lib s = some v ∨ jsonParseStringWithComments lib s = some v) :
    StoresDocument v := by
  have hp : ∀ {t : CStr}, jsonParseString lib t = some v → StoresDocument v := fun h => by
    unfold jsonParseString at h
    dsimp only at h
    split_ifs at h
    obtain ⟨⟨v', r⟩, hp, rfl⟩ := Option.map_eq_some'.mp h
    exact parseValue_stored lib hp
  exact h.elim hp fun h => hp ((jsonParseStringWithComments_eq lib s).symm.trans h)

theorem parsed_stores_document_pair :
    jsonParseString ⟨fun _ => Double.zero, fun _ => CStr.empty, fun _ _ => false⟩
        ⟨[123, 34, 97, 34, 58, 91, 93, 125], by decide⟩ =
      some (.object ⟨[(⟨[97], by decide⟩, .array ⟨[], 0⟩)], 1⟩) ∧
    StoresDocument (.object ⟨[(⟨[97], by decide⟩, .array ⟨[], 0⟩)], 1⟩) :=
  ⟨rfl, @parsed_stores_document ⟨fun _ => Double.zero, fun _ => CStr.empty, fun _ _ => false⟩
    ⟨[123, 34, 97, 34, 58, 91, 93, 125], by decide⟩ _ (.inl (by rfl))⟩

end Parson
