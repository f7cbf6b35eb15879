import Parson.Theory.DeepCopy

/-!
# Comparing Trees

`json_value_equals` decides structural equality up to the order of an object's entries, for
trees whose slots are filled and whose names are distinct (`jsonValueEquals_iff_alike`). The
relation, `Json.Alike`, is stated on what the trees mean: the same tag, equal strings and
booleans, numbers related by the library's `fabs(a - b) < 0.000001`, arrays alike position
by position, and objects with the same names whose children are alike name by name, in any
order. So the result does not depend on the order of an object's entries, and it is symmetric
when the number test is.

The object branch of the code does not compare name sets. It checks that the counts agree and
then looks up only the names of `a` in `b`. That is a set comparison because the names are
distinct on both sides: the names of `a` are then among those of `b`, and a duplicate-free list
inside another of the same length is a permutation of it (`objectBranch_iff`).

`json_validate` decides, for trees of the same kind, `Json.Validates`
(`jsonValidate_iff_validates`). That is the conformance relation the schema language describes,
`Json.Conforms`, for `null`, scalar and object schemas, with the count short-cut of the object
branch sound for distinct names as above. It is not that relation for arrays: the array branch
tests a recursive status against `0`, which is `JSONSuccess`, so a schema with items accepts
exactly the arrays none of whose items validates (`jsonValidate_array_inverted`).

## Main definitions

* `Json.valueType`: A document's `JSON_Value_Type`.
* `Json.DistinctNames`: An object's names are pairwise distinct.
* `Json.Alike`: Structural equality up to entry order, with a relation on numbers.
* `Json.Conforms`: Conformance of a value to a schema, as the schema language describes it.
* `Json.Validates`: What `json_validate` decides.
* `Json.NearRefl`: A number the library's test relates to itself.

## Theorems

* `objectBranch_iff`: With distinct names, equal counts and lookups of one side's names compare
  name sets.
* `jsonValueEqualsAt_iff`: With enough levels, `json_value_equals` decides `Json.Alike`.
* `jsonValueEquals_iff_alike`: `json_value_equals` decides `Json.Alike`, symmetrically and
  whatever the order of an object's entries.
* `Json.Alike.refl`: A document with distinct names is alike to itself.
* `jsonValueEquals_deepCopy`: A deep copy compares equal to the original.
* `jsonValidate_array_inverted`: `json_validate` rejects an array that conforms, and accepts
  one that does not.
* `validateObjectBranch_iff`: With distinct names, the count short-cut and the lookups of the
  schema's names check each name.
* `jsonValidateAt_iff`, `jsonValidate_iff_validates`: `json_validate` decides `Json.Validates`.
-/

namespace Parson

/-! ## Tags and names -/

/-- The `JSON_Value_Type` of a document's root. -/
def Json.valueType : Json → JsonValueType
  | .null => .null
  | .string _ => .string
  | .number _ => .number
  | .object _ => .object
  | .array _ => .array
  | .boolean _ => .boolean

theorem jsonValueGetType_of_toJson? {v : Value} {j : Json} (h : v.toJson? = some j) :
    jsonValueGetType (some v) = j.valueType := by
  cases v with
  | object o => obtain ⟨_, -, rfl⟩ := Option.map_eq_some'.mp h; rfl
  | array a => obtain ⟨_, -, rfl⟩ := Option.map_eq_some'.mp h; rfl
  | _ => cases h; rfl

/-- An object's names are pairwise distinct. -/
def Json.DistinctNames : Json → Prop
  | .object es => (es.map Prod.fst).Nodup
  | _ => True

theorem Value.exists_of_mem_entriesToJson? : ∀ {es : List (CStr × Value)}
    {jes : List (CStr × Json)} {k : CStr} {j : Json},
    Value.entriesToJson? es = some jes → (k, j) ∈ jes → ∃ v, (k, v) ∈ es ∧ v.toJson? = some j
  | [], _, _, _, h, hj => by cases h; exact absurd hj (List.not_mem_nil _)
  | (_, v) :: _, _, _, _, h, hj => by
    obtain ⟨jv, js, hv, hjs, rfl⟩ := Value.entriesToJson?_cons h
    rcases List.mem_cons.mp hj with he | hj
    · cases he; exact ⟨v, List.mem_cons_self _ _, hv⟩
    · obtain ⟨w, hw, hwj⟩ := Value.exists_of_mem_entriesToJson? hjs hj
      exact ⟨w, List.mem_cons_of_mem _ hw, hwj⟩

theorem Value.toJson?_of_mem_entries : ∀ {es : List (CStr × Value)} {jes : List (CStr × Json)}
    {k : CStr} {v : Value},
    Value.entriesToJson? es = some jes → (k, v) ∈ es → ∃ j, v.toJson? = some j ∧ (k, j) ∈ jes
  | [], _, _, _, _, he => absurd he (List.not_mem_nil _)
  | (_, _) :: _, _, _, _, h, he => by
    obtain ⟨jv, js, hv, hjs, rfl⟩ := Value.entriesToJson?_cons h
    rcases List.mem_cons.mp he with he | he
    · cases he; exact ⟨jv, hv, List.mem_cons_self _ _⟩
    · obtain ⟨j, hj, hm⟩ := Value.toJson?_of_mem_entries hjs he
      exact ⟨j, hj, List.mem_cons_of_mem _ hm⟩

/-- Reordering an object's entries reorders the entries of its meaning. -/
theorem Value.entriesToJson?_perm {es es' : List (CStr × Value)} (hp : es.Perm es') :
    ∀ {jes}, Value.entriesToJson? es = some jes →
      ∃ jes', Value.entriesToJson? es' = some jes' ∧ jes.Perm jes' := by
  induction hp with
  | nil => intro jes h; exact ⟨jes, h, .refl _⟩
  | cons e _ ih =>
    intro jes h
    obtain ⟨j, js, hv, hjs, rfl⟩ := Value.entriesToJson?_cons h
    obtain ⟨js', hjs', hp⟩ := ih hjs
    exact ⟨_, by simp [Value.entriesToJson?, hv, hjs'], hp.cons _⟩
  | swap e f _ =>
    intro jes h
    obtain ⟨jf, js, hf, h1, rfl⟩ := Value.entriesToJson?_cons h
    obtain ⟨je, js', he, hjs, rfl⟩ := Value.entriesToJson?_cons h1
    exact ⟨_, by simp [Value.entriesToJson?, he, hf, hjs], .swap _ _ _⟩
  | trans _ _ ih1 ih2 =>
    intro jes h
    obtain ⟨js1, h1, hp1⟩ := ih1 h
    obtain ⟨js2, h2, hp2⟩ := ih2 h1
    exact ⟨js2, h2, hp1.trans hp2⟩

/-! ## The relation `json_value_equals` decides -/

mutual

/-- Equality up to the order of an object's entries, for a relation `near` on numbers: the
    same tag; equal strings and booleans; `near` numbers; arrays of one length, alike position
    by position; objects with the same names, each child alike to the other's child of its
    name. -/
def Json.Alike (near : Double → Double → Bool) : Json → Json → Prop
  | .null, .null => True
  | .string s, .string t => s = t
  | .number x, .number y => near x y = true
  | .boolean p, .boolean q => p = q
  | .array xs, .array ys => Json.ItemsAlike near xs ys
  | .object es, .object fs =>
    (∀ k, k ∈ es.map Prod.fst ↔ k ∈ fs.map Prod.fst) ∧ Json.EntriesAlike near es fs
  | _, _ => False

/-- `Json.Alike` position by position, on lists of one length. -/
def Json.ItemsAlike (near : Double → Double → Bool) : List Json → List Json → Prop
  | [], [] => True
  | x :: xs, y :: ys => Json.Alike near x y ∧ Json.ItemsAlike near xs ys
  | _, _ => False

/-- Each entry of `es` is alike to every entry of `fs` with its name. -/
def Json.EntriesAlike (near : Double → Double → Bool) :
    List (CStr × Json) → List (CStr × Json) → Prop
  | [], _ => True
  | (k, x) :: es, fs => (∀ y, (k, y) ∈ fs → Json.Alike near x y) ∧ Json.EntriesAlike near es fs

end

/-- A node that raises no doubt about comparing it with itself: a number `near` relates to
    itself, or any other node. The library's `fabs(a - b) < 0.000001` fails on a NaN and on the
    infinities. -/
def Json.NearRefl (near : Double → Double → Bool) : Json → Prop
  | .number x => near x x = true
  | _ => True

section Alike

variable {near : Double → Double → Bool}

theorem Json.Alike.valueType_eq {x y : Json} (h : Json.Alike near x y) :
    x.valueType = y.valueType := by
  cases x <;> cases y <;> first | rfl | exact h.elim

theorem Json.entriesAlike_iff : ∀ {es fs : List (CStr × Json)}, Json.EntriesAlike near es fs ↔
    ∀ k x y, (k, x) ∈ es → (k, y) ∈ fs → Json.Alike near x y
  | [], _ => by simp [Json.EntriesAlike]
  | (k, x) :: es, fs => by
    rw [Json.EntriesAlike, Json.entriesAlike_iff]
    simp only [List.mem_cons, Prod.mk.injEq]
    constructor
    · rintro ⟨h1, h2⟩ k' x' y' (⟨rfl, rfl⟩ | hx) hy
      exacts [h1 y' hy, h2 k' x' y' hx hy]
    · intro h
      exact ⟨fun y hy => h k x y (.inl ⟨rfl, rfl⟩) hy, fun k' x' y' hx hy => h k' x' y' (.inr hx) hy⟩

theorem Json.alike_object_iff {es fs : List (CStr × Json)} :
    Json.Alike near (.object es) (.object fs) ↔
      (∀ k, k ∈ es.map Prod.fst ↔ k ∈ fs.map Prod.fst) ∧
      ∀ k x y, (k, x) ∈ es → (k, y) ∈ fs → Json.Alike near x y :=
  and_congr_right fun _ => Json.entriesAlike_iff

/-- The relation does not see the order of an object's entries, on either side. -/
theorem Json.alike_object_perm {es es' : List (CStr × Json)} (hp : es.Perm es') (y : Json) :
    (Json.Alike near (.object es) y ↔ Json.Alike near (.object es') y) ∧
      (Json.Alike near y (.object es) ↔ Json.Alike near y (.object es')) := by
  have hn := fun k => (hp.map Prod.fst).mem_iff (a := k)
  cases y with
  | object fs =>
    simp only [Json.alike_object_iff, hn, hp.mem_iff, iff_self, and_self]
  | _ => exact ⟨iff_of_false id id, iff_of_false id id⟩

mutual

/-- With a symmetric relation on numbers the relation is symmetric. -/
theorem Json.Alike.symm (hs : ∀ x y, near x y = near y x) :
    ∀ {x y : Json}, Json.Alike near x y → Json.Alike near y x
  | .null, .null, _ => trivial
  | .string _, .string _, h => Eq.symm h
  | .number a, .number b, h => by
    show near b a = true
    rw [← hs a b]
    exact h
  | .boolean _, .boolean _, h => Eq.symm h
  | .array xs, .array _, h => Json.ItemsAlike.symm hs xs h
  | .object es, .object _, h => Json.alike_object_iff.mpr
    ⟨fun k => (h.1 k).symm, fun k y x hy hx => Json.entriesAlike_symm hs es h.2 k x y hx hy⟩
termination_by structural x => x

theorem Json.ItemsAlike.symm (hs : ∀ x y, near x y = near y x) :
    ∀ (xs : List Json) {ys : List Json}, Json.ItemsAlike near xs ys → Json.ItemsAlike near ys xs
  | [], [], _ => trivial
  | _ :: xs, _ :: _, h => ⟨Json.Alike.symm hs h.1, Json.ItemsAlike.symm hs xs h.2⟩
termination_by structural xs => xs

theorem Json.entriesAlike_symm (hs : ∀ x y, near x y = near y x) :
    ∀ (es : List (CStr × Json)) {fs : List (CStr × Json)}, Json.EntriesAlike near es fs →
      ∀ k x y, (k, x) ∈ es → (k, y) ∈ fs → Json.Alike near y x
  | [], _, _, _, _, _, hx, _ => absurd hx (List.not_mem_nil _)
  | (_, x') :: es, _, h, k, x, y, hx, hy => by
    rcases List.mem_cons.mp hx with he | hx
    · obtain ⟨hk, hxx⟩ := Prod.mk.inj he
      rw [hxx]
      exact Json.Alike.symm hs (h.1 y (hk ▸ hy))
    · exact Json.entriesAlike_symm hs es h.2 k x y hx hy
termination_by structural es => es

end

mutual

/-- A document whose names are distinct and whose numbers `near` relates to themselves is alike
    to itself. -/
theorem Json.Alike.refl : ∀ {j : Json}, j.Forall (Json.NearRefl near) →
    j.Forall Json.DistinctNames → Json.Alike near j j
  | .null, _, _ => trivial
  | .string _, _, _ => rfl
  | .number _, hn, _ => hn
  | .boolean _, _, _ => rfl
  | .array js, hn, hd => Json.ItemsAlike.refl js hn.2 hd.2
  | .object es, hn, hd => Json.alike_object_iff.mpr ⟨fun _ => Iff.rfl, fun k x y hx hy => by
      have hxy : x = y := congrArg Prod.snd (List.inj_on_of_nodup_map hd.1 hx hy rfl)
      rw [← hxy]
      exact Json.entriesAlike_refl es hn.2 hd.2 k x hx⟩
termination_by structural j => j

theorem Json.ItemsAlike.refl : ∀ (js : List Json), Json.itemsForall (Json.NearRefl near) js →
    Json.itemsForall Json.DistinctNames js → Json.ItemsAlike near js js
  | [], _, _ => trivial
  | _ :: js, hn, hd => ⟨Json.Alike.refl hn.1 hd.1, Json.ItemsAlike.refl js hn.2 hd.2⟩
termination_by structural js => js

theorem Json.entriesAlike_refl : ∀ (es : List (CStr × Json)),
    Json.entriesForall (Json.NearRefl near) es → Json.entriesForall Json.DistinctNames es →
    ∀ k x, (k, x) ∈ es → Json.Alike near x x
  | [], _, _, _, _, hx => absurd hx (List.not_mem_nil _)
  | (_, x') :: es, hn, hd, k, x, hx => by
    rcases List.mem_cons.mp hx with he | hx
    · rw [(Prod.mk.inj he).2]
      exact Json.Alike.refl hn.1 hd.1
    · exact Json.entriesAlike_refl es hn.2 hd.2 k x hx
termination_by structural es => es

end

end Alike

/-! ## The code's branches -/

theorem jsonValueEqualsAt_none (lib : Libc) : ∀ (levels : Nat) (v : Value),
    jsonValueEqualsAt lib levels (some v) none = false
  | 0, _ => rfl
  | _ + 1, v => by cases v <;> rfl

/-- The object branch of `json_value_equals`, for any comparison `f` of children that fails
    against `NULL`: with distinct names on both sides, equal counts and the lookups of the
    names of `x` compare the name sets, and the children name by name. -/
theorem objectBranch_iff {f : Option Value → Option Value → Bool}
    (hf : ∀ v, f (some v) none = false) {x y : JsonObject Value}
    (hx : (x.entries.map Prod.fst).Nodup) (hy : (y.entries.map Prod.fst).Nodup) :
    (x.count == y.count && x.entries.all fun e =>
        f (jsonObjectGetValue x e.1) (jsonObjectGetValue y e.1)) = true ↔
      (∀ k, k ∈ x.entries.map Prod.fst ↔ k ∈ y.entries.map Prod.fst) ∧
      ∀ k v w, (k, v) ∈ x.entries → (k, w) ∈ y.entries → f (some v) (some w) = true := by
  have getx : ∀ e ∈ x.entries, jsonObjectGetValue x e.1 = some e.2 :=
    fun e he => (jsonObjectGetValue_eq_some_iff hx e.1 e.2).mpr he
  simp only [Bool.and_eq_true, beq_iff_eq, List.all_eq_true, JsonObject.count]
  constructor
  · rintro ⟨hc, hall⟩
    have hsub : ∀ e ∈ x.entries, ∃ w, (e.1, w) ∈ y.entries ∧ f (some e.2) (some w) = true := by
      intro e he
      have hfe := hall e he
      rw [getx e he] at hfe
      cases hw : jsonObjectGetValue y e.1 with
      | none => rw [hw, hf] at hfe; cases hfe
      | some w => exact ⟨w, (jsonObjectGetValue_eq_some_iff hy e.1 w).mp hw, hw ▸ hfe⟩
    have hperm : (x.entries.map Prod.fst).Perm (y.entries.map Prod.fst) := by
      refine (List.subperm_of_subset hx fun k hk => ?_).perm_of_length_le (by simp [hc])
      obtain ⟨e, he, rfl⟩ := List.mem_map.mp hk
      obtain ⟨w, hw, -⟩ := hsub e he
      exact List.mem_map.mpr ⟨_, hw, rfl⟩
    refine ⟨fun k => hperm.mem_iff, fun k v w hv hw => ?_⟩
    obtain ⟨w', hw', hf'⟩ := hsub (k, v) hv
    have hww : w = w' := congrArg Prod.snd (List.inj_on_of_nodup_map hy hw hw' rfl)
    rw [hww]
    exact hf'
  · rintro ⟨hn, hvals⟩
    have hperm : (x.entries.map Prod.fst).Perm (y.entries.map Prod.fst) :=
      (List.perm_ext_iff_of_nodup hx hy).mpr hn
    refine ⟨by simpa using hperm.length_eq, fun e he => ?_⟩
    obtain ⟨w, hw⟩ := List.mem_map.mp ((hn e.1).mp (List.mem_map_of_mem Prod.fst he))
    rw [getx e he, (jsonObjectGetValue_eq_some_iff hy e.1 w.2).mpr (hw.2 ▸ hw.1)]
    exact hvals e.1 e.2 w.2 he (hw.2 ▸ hw.1)

/-- The array branch of `json_value_equals`, for a comparison `f` of children that decides
    `Json.Alike`: equal counts and equal items position by position. -/
theorem itemsBranch_iff {f : Option Value → Option Value → Bool}
    {near : Double → Double → Bool} : ∀ {xs ys : List (Option Value)} {jxs jys : List Json},
    Value.itemsToJson? xs = some jxs → Value.itemsToJson? ys = some jys →
    (∀ v w, some v ∈ xs → some w ∈ ys → ∀ jv jw, v.toJson? = some jv → w.toJson? = some jw →
      (f (some v) (some w) = true ↔ Json.Alike near jv jw)) →
    ((xs.length == ys.length && (xs.zip ys).all fun p => f p.1 p.2) = true ↔
      Json.ItemsAlike near jxs jys)
  | [], [], _, _, hx, hy, _ => by cases hx; cases hy; simp [Json.ItemsAlike]
  | [], _ :: _, _, _, hx, hy, _ => by
    cases hx
    obtain ⟨_, _, _, -, -, -, rfl⟩ := Value.itemsToJson?_cons hy
    simp [Json.ItemsAlike]
  | _ :: _, [], _, _, hx, hy, _ => by
    cases hy
    obtain ⟨_, _, _, -, -, -, rfl⟩ := Value.itemsToJson?_cons hx
    simp [Json.ItemsAlike]
  | _ :: xs, _ :: ys, _, _, hx, hy, hf => by
    obtain ⟨v, jv, jxs, rfl, hv, hjxs, rfl⟩ := Value.itemsToJson?_cons hx
    obtain ⟨w, jw, jys, rfl, hw, hjys, rfl⟩ := Value.itemsToJson?_cons hy
    have ih := itemsBranch_iff hjxs hjys fun v w hv hw =>
      hf v w (List.mem_cons_of_mem _ hv) (List.mem_cons_of_mem _ hw)
    simp only [Bool.and_eq_true, beq_iff_eq] at ih
    simp only [List.length_cons, List.zip_cons_cons, List.all_cons, Bool.and_eq_true, beq_iff_eq,
      Nat.add_right_cancel_iff, Json.ItemsAlike, ← ih,
      ← hf v w (List.mem_cons_self _ _) (List.mem_cons_self _ _) jv jw hv hw]
    exact and_left_comm

/-! ## `json_value_equals` -/

/-- With more levels than `a` is deep, `json_value_equals` of two trees whose slots are filled
    and whose names are distinct decides `Json.Alike`. -/
theorem jsonValueEqualsAt_iff (lib : Libc) : ∀ {levels : Nat} {a b : Value} {ja jb : Json},
    a.depth < levels → a.toJson? = some ja → b.toJson? = some jb →
    ja.Forall Json.DistinctNames → jb.Forall Json.DistinctNames →
    (jsonValueEqualsAt lib levels (some a) (some b) = true ↔ Json.Alike lib.nearlyEqual ja jb)
  | 0, _, _, _, _, hd, _, _, _, _ => absurd hd (Nat.not_lt_zero _)
  | levels + 1, a, b, ja, jb, hd, ha, hb, hda, hdb => by
    by_cases ht : jsonValueGetType (some a) = jsonValueGetType (some b)
    swap
    · unfold jsonValueEqualsAt
      rw [if_pos ht]
      refine iff_of_false (by simp) fun h => ht ?_
      rw [jsonValueGetType_of_toJson? ha, jsonValueGetType_of_toJson? hb, h.valueType_eq]
    cases a <;> cases b <;> simp only [jsonValueGetType, reduceCtorEq] at ht
    -- the six pairs of equal tags, in the order of the constructors
    next =>
      cases ha; cases hb
      exact iff_of_true rfl trivial
    next s t =>
      cases ha; cases hb
      exact beq_iff_eq.trans CStr.ext_iff.symm
    next x y =>
      cases ha; cases hb
      exact Iff.rfl
    next x y =>
      obtain ⟨jes, hjx, rfl⟩ := Option.map_eq_some'.mp ha
      obtain ⟨jfs, hjy, rfl⟩ := Option.map_eq_some'.mp hb
      simp only [Value.depth] at hd
      have hnx := Value.entriesToJson?_names hjx
      have hny := Value.entriesToJson?_names hjy
      have child : ∀ k v w, (k, v) ∈ x.entries → (k, w) ∈ y.entries → ∀ jv jw,
          v.toJson? = some jv → w.toJson? = some jw →
          (jsonValueEqualsAt lib levels (some v) (some w) = true ↔
            Json.Alike lib.nearlyEqual jv jw) := fun k v w hv hw jv jw hjv hjw =>
        jsonValueEqualsAt_iff lib (by
          have : v.depth ≤ Value.entriesDepth x.entries := Value.depth_le_entriesDepth hv
          omega) hjv hjw
          (Json.entriesForall_iff.mp hda.2 (k, jv) (Value.mem_entriesToJson? hjx hv hjv))
          (Json.entriesForall_iff.mp hdb.2 (k, jw) (Value.mem_entriesToJson? hjy hw hjw))
      show (x.count == y.count && x.entries.all fun e => jsonValueEqualsAt lib levels
        (jsonObjectGetValue x e.1) (jsonObjectGetValue y e.1)) = true ↔ _
      rw [objectBranch_iff (jsonValueEqualsAt_none lib levels) (hnx ▸ hda.1) (hny ▸ hdb.1),
        Json.alike_object_iff, hnx, hny]
      refine and_congr_right fun _ => ⟨fun h k jx jy hx hy => ?_, fun h k v w hv hw => ?_⟩
      · obtain ⟨v, hv, hjv⟩ := Value.exists_of_mem_entriesToJson? hjx hx
        obtain ⟨w, hw, hjw⟩ := Value.exists_of_mem_entriesToJson? hjy hy
        exact (child k v w hv hw _ _ hjv hjw).mp (h k v w hv hw)
      · obtain ⟨jv, hjv, hx⟩ := Value.toJson?_of_mem_entries hjx hv
        obtain ⟨jw, hjw, hy⟩ := Value.toJson?_of_mem_entries hjy hw
        exact (child k v w hv hw _ _ hjv hjw).mpr (h k jv jw hx hy)
    next x y =>
      obtain ⟨jxs, hjx, rfl⟩ := Option.map_eq_some'.mp ha
      obtain ⟨jys, hjy, rfl⟩ := Option.map_eq_some'.mp hb
      simp only [Value.depth] at hd
      refine itemsBranch_iff hjx hjy fun v w hv hw jv jw hjv hjw => jsonValueEqualsAt_iff lib
        (by have := Value.depth_le_itemsDepth hv; omega) hjv hjw
        (Json.itemsForall_iff.mp hda.2 jv (Value.mem_itemsToJson? hjx hv hjv))
        (Json.itemsForall_iff.mp hdb.2 jw (Value.mem_itemsToJson? hjy hw hjw))
    next p q =>
      cases ha; cases hb
      exact beq_iff_eq

/-- `json_value_equals` of two trees whose slots are filled and whose names are distinct is `1`
    exactly when they are alike: equal up to the order of entries, with numbers compared by
    the library's test. So it is symmetric when that test is, and reordering the entries of an
    object given to it, on either side, does not change it. -/
theorem jsonValueEquals_iff_alike (lib : Libc) {a b : Value} {ja jb : Json}
    (ha : a.toJson? = some ja) (hb : b.toJson? = some jb)
    (hda : ja.Forall Json.DistinctNames) (hdb : jb.Forall Json.DistinctNames) :
    (jsonValueEquals lib (some a) (some b) = true ↔ Json.Alike lib.nearlyEqual ja jb) ∧
    ((∀ x y, lib.nearlyEqual x y = lib.nearlyEqual y x) →
      jsonValueEquals lib (some a) (some b) = jsonValueEquals lib (some b) (some a)) ∧
    ∀ (o : JsonObject Value) (es : List (CStr × Value)) (c : Nat), a = .object o →
      es.Perm o.entries →
      jsonValueEquals lib (some (.object ⟨es, c⟩)) (some b) =
          jsonValueEquals lib (some a) (some b) ∧
        jsonValueEquals lib (some b) (some (.object ⟨es, c⟩)) =
          jsonValueEquals lib (some b) (some a) := by
  have key : ∀ {a b : Value} {ja jb : Json}, a.toJson? = some ja → b.toJson? = some jb →
      ja.Forall Json.DistinctNames → jb.Forall Json.DistinctNames →
      (jsonValueEquals lib (some a) (some b) = true ↔ Json.Alike lib.nearlyEqual ja jb) :=
    fun ha hb hda hdb => jsonValueEqualsAt_iff lib (Nat.lt_succ_self _) ha hb hda hdb
  refine ⟨key ha hb hda hdb, fun hs => Bool.eq_iff_iff.mpr ?_, ?_⟩
  · exact ((key ha hb hda hdb).trans ⟨Json.Alike.symm hs, Json.Alike.symm hs⟩).trans
      (key hb ha hdb hda).symm
  rintro o es c rfl hp
  obtain ⟨jes, hjes, rfl⟩ := Option.map_eq_some'.mp ha
  obtain ⟨jes', hjes', hp'⟩ := Value.entriesToJson?_perm hp.symm hjes
  have ha' : (Value.object ⟨es, c⟩).toJson? = some (.object jes') := by
    simp [Value.toJson?, hjes']
  have hda' : (Json.object jes').Forall Json.DistinctNames :=
    ⟨(hp'.map Prod.fst).nodup_iff.mp hda.1, Json.entriesForall_iff.mpr fun e he =>
      Json.entriesForall_iff.mp hda.2 e (hp'.mem_iff.mpr he)⟩
  exact ⟨Bool.eq_iff_iff.mpr ((key ha' hb hda' hdb).trans
      ((Json.alike_object_perm hp' jb).1.symm.trans (key ha hb hda hdb).symm)),
    Bool.eq_iff_iff.mpr ((key hb ha' hdb hda').trans
      ((Json.alike_object_perm hp' jb).2.symm.trans (key hb ha hdb hda).symm))⟩

/-- Two objects with the same entries in the other order are equal, and alike. -/
theorem jsonValueEquals_iff_alike_swapped :
    (jsonValueEquals ⟨fun _ => Double.zero, fun _ => CStr.empty, fun _ _ => false⟩
        (some (.object ⟨[(⟨[97], by decide⟩, .null), (⟨[98], by decide⟩, .boolean true)], 2⟩))
        (some (.object ⟨[(⟨[98], by decide⟩, .boolean true), (⟨[97], by decide⟩, .null)], 15⟩)) =
      true) ∧
    Json.Alike (fun _ _ => false)
      (.object [(⟨[97], by decide⟩, .null), (⟨[98], by decide⟩, .boolean true)])
      (.object [(⟨[98], by decide⟩, .boolean true), (⟨[97], by decide⟩, .null)]) :=
  ⟨rfl, (jsonValueEquals_iff_alike ⟨fun _ => Double.zero, fun _ => CStr.empty, fun _ _ => false⟩
    (a := .object ⟨[(⟨[97], by decide⟩, .null), (⟨[98], by decide⟩, .boolean true)], 2⟩)
    (b := .object ⟨[(⟨[98], by decide⟩, .boolean true), (⟨[97], by decide⟩, .null)], 15⟩)
    rfl rfl ⟨show List.Nodup _ by decide, trivial, trivial, trivial⟩
    ⟨show List.Nodup _ by decide, trivial, trivial, trivial⟩).1.mp rfl⟩

/-! ## Deep copies compare equal -/

/-- A deep copy of a stored document compares equal to it, both ways, when the library's test
    relates each number of the document to itself. -/
theorem jsonValueEquals_deepCopy (lib : Libc) {v : Value} {j : Json} (hv : v.toJson? = some j)
    (hs : j.Forall Json.Storable) (hn : j.Forall (Json.NearRefl lib.nearlyEqual)) :
    ∃ w, jsonValueDeepCopy v = some w ∧ jsonValueEquals lib (some v) (some w) = true ∧
      jsonValueEquals lib (some w) (some v) = true := by
  obtain ⟨w, hw, hwj⟩ := jsonValueDeepCopyAt_exact (Nat.lt_succ_self _) hv hs
  have hd : j.Forall Json.DistinctNames :=
    Json.Forall.imp (fun n hn => by cases n <;> first | exact hn.1 | trivial) hs
  have halike := Json.Alike.refl hn hd
  exact ⟨w, hw, (jsonValueEqualsAt_iff lib (Nat.lt_succ_self _) hv hwj hd hd).mpr halike,
    (jsonValueEqualsAt_iff lib (Nat.lt_succ_self _) hwj hv hd hd).mpr halike⟩

/-- A copy of `[0, true]` compares equal to it both ways. -/
theorem jsonValueEquals_deepCopy_array :
    (Json.array [.number Double.zero, .boolean true]).Forall Json.Storable ∧
    ∃ w, jsonValueDeepCopy (.array ⟨[some (.number Double.zero), some (.boolean true)], 2⟩) =
        some w ∧
      jsonValueEquals ⟨fun _ => Double.zero, fun _ => CStr.empty, fun _ _ => true⟩
        (some (.array ⟨[some (.number Double.zero), some (.boolean true)], 2⟩)) (some w) = true ∧
      jsonValueEquals ⟨fun _ => Double.zero, fun _ => CStr.empty, fun _ _ => true⟩ (some w)
        (some (.array ⟨[some (.number Double.zero), some (.boolean true)], 2⟩)) = true :=
  ⟨⟨show 2 ≤ arrayMaxCapacity by decide, trivial, trivial, trivial⟩,
    jsonValueEquals_deepCopy ⟨fun _ => Double.zero, fun _ => CStr.empty, fun _ _ => true⟩
      (j := .array [.number Double.zero, .boolean true]) rfl
      ⟨show 2 ≤ arrayMaxCapacity by decide, trivial, trivial, trivial⟩
      ⟨trivial, rfl, trivial, trivial⟩⟩

/-! ## `json_validate` -/

mutual

/-- Conformance of a value to a schema, as the schema language describes it: a `null` schema
    accepts every value; otherwise the tags must agree; an object schema needs each of its
    names in the value with a child that conforms to its own (extra names allowed); a nonempty
    array schema needs every item of the value to conform to its first item, and an empty one
    accepts every array; a string, number or boolean schema accepts every value of its tag. -/
def Json.Conforms : Json → Json → Prop
  | .null, _ => True
  | .object es, .object fs => Json.MembersConform es fs
  | .array [], .array _ => True
  | .array (x :: _), .array ys => ∀ y ∈ ys, Json.Conforms x y
  | .string _, .string _ => True
  | .number _, .number _ => True
  | .boolean _, .boolean _ => True
  | _, _ => False

/-- Each name of `es` is in `fs` with a child that conforms to its child in `es`. -/
def Json.MembersConform : List (CStr × Json) → List (CStr × Json) → Prop
  | [], _ => True
  | (k, x) :: es, fs => (∃ y, (k, y) ∈ fs ∧ Json.Conforms x y) ∧ Json.MembersConform es fs

end

/-- In its array branch `json_validate` reverses conformance: the array `[null]` conforms to the
    schema `[null]` and is rejected, and `[null]` does not conform to the schema `[true]` and is
    accepted. -/
theorem jsonValidate_array_inverted :
    (Json.Conforms (.array [.null]) (.array [.null]) ∧
      jsonValidate (some (Json.array [.null]).toValue) (some (Json.array [.null]).toValue) =
        .failure) ∧
    (¬ Json.Conforms (.array [.boolean true]) (.array [.null]) ∧
      jsonValidate (some (Json.array [.boolean true]).toValue)
        (some (Json.array [.null]).toValue) = .success) :=
  ⟨⟨fun _ _ => trivial, rfl⟩, fun h => h .null (List.mem_singleton_self _), rfl⟩

mutual

/-- What `json_validate` decides: `Json.Conforms`, except that a nonempty array schema accepts
    exactly the arrays none of whose items its first item accepts. -/
def Json.Validates : Json → Json → Prop
  | .null, _ => True
  | .object es, .object fs => Json.MembersValidate es fs
  | .array [], .array _ => True
  | .array (x :: _), .array ys => ∀ y ∈ ys, ¬ Json.Validates x y
  | .string _, .string _ => True
  | .number _, .number _ => True
  | .boolean _, .boolean _ => True
  | _, _ => False

/-- `Json.MembersConform`, for `Json.Validates`. -/
def Json.MembersValidate : List (CStr × Json) → List (CStr × Json) → Prop
  | [], _ => True
  | (k, x) :: es, fs => (∃ y, (k, y) ∈ fs ∧ Json.Validates x y) ∧ Json.MembersValidate es fs

end

theorem Json.membersValidate_iff : ∀ {es fs : List (CStr × Json)},
    Json.MembersValidate es fs ↔ ∀ k x, (k, x) ∈ es → ∃ y, (k, y) ∈ fs ∧ Json.Validates x y
  | [], _ => by simp [Json.MembersValidate]
  | (k, x) :: es, fs => by
    rw [Json.MembersValidate, Json.membersValidate_iff]
    simp only [List.mem_cons, Prod.mk.injEq]
    constructor
    · rintro ⟨h1, h2⟩ k' x' (⟨rfl, rfl⟩ | hx)
      exacts [h1, h2 k' x' hx]
    · intro h
      exact ⟨h k x (.inl ⟨rfl, rfl⟩), fun k' x' hx => h k' x' (.inr hx)⟩

theorem Json.Validates.valueType_eq {x y : Json} (h : Json.Validates x y)
    (hx : x.valueType ≠ .null) : x.valueType = y.valueType := by
  cases x with
  | null => exact absurd rfl hx
  | array xs => cases y <;> first | rfl | (cases xs <;> exact h.elim)
  | _ => cases y <;> first | rfl | exact h.elim

theorem Value.exists_of_mem_itemsToJson? : ∀ {xs : List (Option Value)} {js : List Json}
    {j : Json}, Value.itemsToJson? xs = some js → j ∈ js → ∃ v, some v ∈ xs ∧ v.toJson? = some j
  | [], _, _, h, hj => by cases h; exact absurd hj (List.not_mem_nil _)
  | _ :: _, _, _, h, hj => by
    obtain ⟨v, jv, js, rfl, hv, hjs, rfl⟩ := Value.itemsToJson?_cons h
    rcases List.mem_cons.mp hj with rfl | hj
    · exact ⟨v, List.mem_cons_self _ _, hv⟩
    · obtain ⟨w, hw, hwj⟩ := Value.exists_of_mem_itemsToJson? hjs hj
      exact ⟨w, List.mem_cons_of_mem _ hw, hwj⟩

theorem Value.toJson?_of_mem_items : ∀ {xs : List (Option Value)} {js : List Json}
    {x : Option Value}, Value.itemsToJson? xs = some js → x ∈ xs →
    ∃ v j, x = some v ∧ v.toJson? = some j ∧ j ∈ js
  | [], _, _, _, hx => absurd hx (List.not_mem_nil _)
  | _ :: _, _, _, h, hx => by
    obtain ⟨v, jv, js, rfl, hv, hjs, rfl⟩ := Value.itemsToJson?_cons h
    rcases List.mem_cons.mp hx with rfl | hx
    · exact ⟨v, jv, rfl, hv, List.mem_cons_self _ _⟩
    · obtain ⟨w, j, rfl, hw, hm⟩ := Value.toJson?_of_mem_items hjs hx
      exact ⟨w, j, rfl, hw, List.mem_cons_of_mem _ hm⟩

/-- The object branch of `json_validate`, for any validation `f` of children that fails against
    `NULL`: with distinct names on both sides, the count short-cut and the lookups say that each
    name of the schema is in the value with a child that validates. -/
theorem validateObjectBranch_iff {f : Option Value → Option Value → JsonStatus}
    {s v : JsonObject Value} (hs : (s.entries.map Prod.fst).Nodup)
    (hv : (v.entries.map Prod.fst).Nodup) :
    (if s.count = 0 then JsonStatus.success
      else if v.count < s.count then .failure
      else if s.entries.all (fun e => (jsonObjectGetValue v e.1).isSome &&
          f (jsonObjectGetValue s e.1) (jsonObjectGetValue v e.1) == .success) then .success
      else .failure) = .success ↔
      ∀ k x, (k, x) ∈ s.entries → ∃ w, (k, w) ∈ v.entries ∧ f (some x) (some w) = .success := by
  have gets : ∀ e ∈ s.entries, jsonObjectGetValue s e.1 = some e.2 :=
    fun e he => (jsonObjectGetValue_eq_some_iff hs e.1 e.2).mpr he
  have hall : s.entries.all (fun e => (jsonObjectGetValue v e.1).isSome &&
      f (jsonObjectGetValue s e.1) (jsonObjectGetValue v e.1) == .success) = true ↔
      ∀ k x, (k, x) ∈ s.entries → ∃ w, (k, w) ∈ v.entries ∧ f (some x) (some w) = .success := by
    simp only [List.all_eq_true, Bool.and_eq_true, beq_iff_eq]
    refine ⟨fun h k x hx => ?_, fun h e he => ?_⟩
    · obtain ⟨hsome, hf⟩ := h (k, x) hx
      obtain ⟨w, hw⟩ := Option.isSome_iff_exists.mp hsome
      rw [gets (k, x) hx, hw] at hf
      exact ⟨w, (jsonObjectGetValue_eq_some_iff hv k w).mp hw, hf⟩
    · obtain ⟨w, hw, hf⟩ := h e.1 e.2 he
      rw [gets e he, (jsonObjectGetValue_eq_some_iff hv e.1 w).mpr hw]
      exact ⟨rfl, hf⟩
  split_ifs with h0 hlt hok
  · simp only [JsonObject.count, List.length_eq_zero] at h0
    simp [h0]
  · refine iff_of_false (by simp) fun h => ?_
    have hsub : (s.entries.map Prod.fst).Subperm (v.entries.map Prod.fst) :=
      List.subperm_of_subset hs fun k hk => by
        obtain ⟨e, he, rfl⟩ := List.mem_map.mp hk
        obtain ⟨w, hw, -⟩ := h e.1 e.2 he
        exact List.mem_map.mpr ⟨_, hw, rfl⟩
    have := hsub.length_le
    simp only [List.length_map, JsonObject.count] at this hlt
    omega
  · exact iff_of_true rfl (hall.mp hok)
  · exact iff_of_false (by simp) fun h => hok (hall.mpr h)

/-- With more levels than the schema is deep, `json_validate` of two trees whose slots are
    filled and whose names are distinct decides `Json.Validates`. -/
theorem jsonValidateAt_iff : ∀ {levels : Nat} {s v : Value} {js jv : Json},
    s.depth < levels → s.toJson? = some js → v.toJson? = some jv →
    js.Forall Json.DistinctNames → jv.Forall Json.DistinctNames →
    (jsonValidateAt levels (some s) (some v) = .success ↔ Json.Validates js jv)
  | 0, _, _, _, _, hd, _, _, _, _ => absurd hd (Nat.not_lt_zero _)
  | levels + 1, s, v, js, jv, hd, hs, hv, hds, hdv => by
    by_cases hn : jsonValueGetType (some s) = .null
    · cases s <;> simp only [jsonValueGetType, reduceCtorEq] at hn
      cases hs
      exact iff_of_true (by cases v <;> rfl) trivial
    by_cases ht : jsonValueGetType (some s) = jsonValueGetType (some v)
    swap
    · unfold jsonValidateAt
      rw [if_pos ⟨ht, hn⟩]
      refine iff_of_false (by simp) fun h => ht ?_
      rw [jsonValueGetType_of_toJson? hs] at hn ⊢
      rw [jsonValueGetType_of_toJson? hv, h.valueType_eq hn]
    cases s <;> cases v <;> simp only [jsonValueGetType, reduceCtorEq, not_true_eq_false] at ht hn
    -- the five pairs of equal tags other than `null`, in the order of the constructors
    next =>
      cases hs; cases hv
      exact iff_of_true rfl trivial
    next =>
      cases hs; cases hv
      exact iff_of_true rfl trivial
    next x y =>
      obtain ⟨jes, hjx, rfl⟩ := Option.map_eq_some'.mp hs
      obtain ⟨jfs, hjy, rfl⟩ := Option.map_eq_some'.mp hv
      simp only [Value.depth] at hd
      have child : ∀ k x' w, (k, x') ∈ x.entries → ∀ jx jw, x'.toJson? = some jx →
          w.toJson? = some jw → (k, jw) ∈ jfs →
          (jsonValidateAt levels (some x') (some w) = .success ↔ Json.Validates jx jw) :=
        fun k x' w hx' jx jw hjx' hjw hm => jsonValidateAt_iff (by
            have : x'.depth ≤ Value.entriesDepth x.entries := Value.depth_le_entriesDepth hx'
            omega) hjx' hjw
          (Json.entriesForall_iff.mp hds.2 (k, jx) (Value.mem_entriesToJson? hjx hx' hjx'))
          (Json.entriesForall_iff.mp hdv.2 (k, jw) hm)
      show (if x.count = 0 then JsonStatus.success
        else if y.count < x.count then .failure
        else if x.entries.all (fun e => (jsonObjectGetValue y e.1).isSome &&
            jsonValidateAt levels (jsonObjectGetValue x e.1) (jsonObjectGetValue y e.1) ==
              .success) then .success
        else .failure) = .success ↔ Json.MembersValidate jes jfs
      rw [validateObjectBranch_iff (Value.entriesToJson?_names hjx ▸ hds.1)
        (Value.entriesToJson?_names hjy ▸ hdv.1), Json.membersValidate_iff]
      constructor
      · intro h k jx hx
        obtain ⟨x', hx', hjx'⟩ := Value.exists_of_mem_entriesToJson? hjx hx
        obtain ⟨w, hw, hok⟩ := h k x' hx'
        obtain ⟨jw, hjw, hy⟩ := Value.toJson?_of_mem_entries hjy hw
        exact ⟨jw, hy, (child k x' w hx' jx jw hjx' hjw hy).mp hok⟩
      · intro h k x' hx'
        obtain ⟨jx, hjx', hx⟩ := Value.toJson?_of_mem_entries hjx hx'
        obtain ⟨jw, hy, hval⟩ := h k jx hx
        obtain ⟨w, hw, hjw⟩ := Value.exists_of_mem_entriesToJson? hjy hy
        exact ⟨w, hw, (child k x' w hx' jx jw hjx' hjw hy).mpr hval⟩
    next x y =>
      obtain ⟨jxs, hjx, rfl⟩ := Option.map_eq_some'.mp hs
      obtain ⟨jys, hjy, rfl⟩ := Option.map_eq_some'.mp hv
      obtain ⟨items, cap⟩ := x
      cases items with
      | nil =>
        cases hjx
        exact iff_of_true rfl trivial
      | cons first rest =>
        obtain ⟨f, jf, jrest, rfl, hf, -, rfl⟩ := Value.itemsToJson?_cons hjx
        have hfd : f.depth ≤ Value.itemsDepth (some f :: rest) :=
          Value.depth_le_itemsDepth (List.mem_cons_self _ _)
        simp only [Value.depth] at hd
        have child : ∀ w jw, w.toJson? = some jw → jw ∈ jys →
            (jsonValidateAt levels (some f) (some w) = .success ↔ Json.Validates jf jw) :=
          fun w jw hjw hm => jsonValidateAt_iff (by omega) hf hjw hds.2.1
            (Json.itemsForall_iff.mp hdv.2 jw hm)
        show (if y.items.any (fun item => jsonValidateAt levels (some f) item == .success)
          then JsonStatus.failure else .success) = .success ↔ ∀ jw ∈ jys, ¬ Json.Validates jf jw
        simp only [ite_eq_right_iff, reduceCtorEq, imp_false, List.any_eq_true, beq_iff_eq,
          not_exists, not_and]
        constructor
        · intro h jw hm hval
          obtain ⟨w, hw, hjw⟩ := Value.exists_of_mem_itemsToJson? hjy hm
          exact h _ hw ((child w jw hjw hm).mpr hval)
        · intro h x hx hok
          obtain ⟨w, jw, rfl, hjw, hm⟩ := Value.toJson?_of_mem_items hjy hx
          exact h jw hm ((child w jw hjw hm).mp hok)
    next =>
      cases hs; cases hv
      exact iff_of_true rfl trivial

/-- `json_validate` of two trees whose slots are filled and whose names are distinct decides
    `Json.Validates`: conformance as the schema language describes it for `null`, scalar and
    object schemas, with the array rule reversed. -/
theorem jsonValidate_iff_validates {s v : Value} {js jv : Json} (hs : s.toJson? = some js)
    (hv : v.toJson? = some jv) (hds : js.Forall Json.DistinctNames)
    (hdv : jv.Forall Json.DistinctNames) :
    jsonValidate (some s) (some v) = .success ↔ Json.Validates js jv :=
  jsonValidateAt_iff (Nat.lt_succ_self _) hs hv hds hdv

/-- The schema `{"a": [true]}` accepts `{"b": null, "a": [null]}`: `a` is there, and no item of
    its array is a boolean. -/
theorem jsonValidate_iff_validates_object :
    jsonValidate
        (some (Json.object [(⟨[97], by decide⟩, .array [.boolean true])]).toValue)
        (some (Json.object [(⟨[98], by decide⟩, .null), (⟨[97], by decide⟩, .array [.null])]).toValue) =
      .success ∧
    Json.Validates (.object [(⟨[97], by decide⟩, .array [.boolean true])])
      (.object [(⟨[98], by decide⟩, .null), (⟨[97], by decide⟩, .array [.null])]) :=
  ⟨rfl, (jsonValidate_iff_validates
    (s := (Json.object [(⟨[97], by decide⟩, .array [.boolean true])]).toValue)
    (v := (Json.object [(⟨[98], by decide⟩, .null), (⟨[97], by decide⟩, .array [.null])]).toValue)
    rfl rfl ⟨show List.Nodup _ by decide, ⟨trivial, trivial, trivial⟩, trivial⟩
    ⟨show List.Nodup _ by decide, trivial, ⟨trivial, trivial, trivial⟩, trivial⟩).mp rfl⟩

end Parson
