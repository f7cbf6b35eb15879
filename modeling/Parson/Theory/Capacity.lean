import Parson.Theory.ArrayModel

/-!
# Storage Capacity

A container's slots are allocated by `json_object_add` and `json_array_add` only, and only
when they are full: the capacity goes from `0` to `STARTING_CAPACITY` and then doubles. Both
caps are `STARTING_CAPACITY` doubled (`960 = 15 * 2 ^ 6`, `122880 = 15 * 2 ^ 13`), so a
capacity the growth rule reached is one the next doubling can still afford: a container built
by the API from empty can always take one more element until its count is the cap
(`jsonArrayAdd_success_iff`, `jsonObjectAdd_success_iff`).

Two invariants are kept apart. `Fits`, `count ≤ capacity ≤ cap`, holds of every container and
is kept by every operation. `IsGrowth`, that the capacity is one the doubling reaches, is
what makes the cap the only limit, and the parser's trimming breaks it: a parsed container
has `capacity = count`, and doubling a count above half the cap passes the cap.

## Main definitions

* `JsonObject.Fits`, `JsonArray.Fits`: `count ≤ capacity ≤` the cap.
* `IsGrowth`: A capacity the doubling reaches from `0`.

## Theorems

* `isGrowth_grownCapacity`: Doubling a growth capacity below the cap stays within it.
* `jsonArrayAdd_fits`, `jsonObjectAdd_fits`: Adding keeps `Fits`.
* `jsonArrayAdd_success_iff`, `jsonObjectAdd_success_iff`: From a growth capacity, adding
  fails only at the cap (or, for an object, on a name already there).
* `jsonArrayAdd_grows`, `jsonObjectAdd_grows`: The same, as the next container.
* `jsonArrayAdd_trimmed`, `jsonObjectAdd_trimmed`: From a trimmed container above half the
  cap, adding fails.
-/

namespace Parson

variable {α : Type}

/-- `count ≤ capacity ≤ OBJECT_MAX_CAPACITY`. -/
def JsonObject.Fits (o : JsonObject α) : Prop :=
  o.count ≤ o.capacity ∧ o.capacity ≤ objectMaxCapacity

/-- `count ≤ capacity ≤ ARRAY_MAX_CAPACITY`. -/
def JsonArray.Fits (a : JsonArray α) : Prop :=
  a.count ≤ a.capacity ∧ a.capacity ≤ arrayMaxCapacity

/-- A capacity the growth rule reaches from an empty container: `0`, or `STARTING_CAPACITY`
    doubled some number of times, up to `cap`. -/
def IsGrowth (cap c : Nat) : Prop := c = 0 ∨ ∃ k, c = startingCapacity * 2 ^ k ∧ c ≤ cap

theorem objectMaxCapacity_eq : objectMaxCapacity = startingCapacity * 2 ^ 6 := rfl

theorem arrayMaxCapacity_eq : arrayMaxCapacity = startingCapacity * 2 ^ 13 := rfl

/-- Doubling a growth capacity that is below a cap of the same form stays within the cap. -/
theorem isGrowth_grownCapacity {cap c m : Nat} (hcap : cap = startingCapacity * 2 ^ m)
    (hc : IsGrowth cap c) (hlt : c < cap) :
    grownCapacity c ≤ cap ∧ IsGrowth cap (grownCapacity c) := by
  have h15 : startingCapacity ≤ cap := by
    rw [hcap]; exact Nat.le_mul_of_pos_right _ (Nat.two_pow_pos m)
  rcases hc with rfl | ⟨k, rfl, -⟩
  · exact ⟨h15, Or.inr ⟨0, by simp [grownCapacity, startingCapacity], h15⟩⟩
  · have hk : k < m := by
      rw [hcap] at hlt
      exact (Nat.pow_lt_pow_iff_right (by omega)).mp (Nat.lt_of_mul_lt_mul_left hlt)
    have hle : startingCapacity * 2 ^ (k + 1) ≤ cap := by
      rw [hcap]; exact Nat.mul_le_mul_left _ (Nat.pow_le_pow_right (by omega) hk)
    have hg : grownCapacity (startingCapacity * 2 ^ k) = startingCapacity * 2 ^ (k + 1) := by
      simp only [grownCapacity, Nat.pow_succ, startingCapacity]
      have := Nat.two_pow_pos k
      omega
    rw [hg]
    exact ⟨hle, Or.inr ⟨k + 1, rfl, hle⟩⟩

/-- The slots after a growth hold one more element than a full container had. -/
theorem count_lt_grownCapacity (c : Nat) : c < grownCapacity c := by
  simp only [grownCapacity, startingCapacity]; omega

/-! ## Arrays -/

theorem jsonArrayAdd_fits {a : JsonArray α} {v : α} (ha : a.Fits)
    (h : (jsonArrayAdd a v).1 = .success) : (jsonArrayAdd a v).2.Fits := by
  rw [jsonArrayAdd_eq] at h ⊢
  by_cases h1 : a.capacity ≤ a.count ∧ arrayMaxCapacity < grownCapacity a.capacity
  · rw [if_pos h1] at h; cases h
  rw [if_neg h1]
  have := count_lt_grownCapacity a.capacity
  simp only [JsonArray.Fits, JsonArray.count, List.length_append, List.length_singleton]
    at ha h1 ⊢
  split_ifs <;> omega

theorem jsonArrayAdd_isGrowth {a : JsonArray α} {v : α} (ha : a.Fits)
    (hg : IsGrowth arrayMaxCapacity a.capacity) :
    IsGrowth arrayMaxCapacity (jsonArrayAdd a v).2.capacity := by
  rw [jsonArrayAdd_eq]
  by_cases h1 : a.capacity ≤ a.count ∧ arrayMaxCapacity < grownCapacity a.capacity
  · rw [if_pos h1]; exact hg
  rw [if_neg h1]
  dsimp only
  split_ifs with h2
  · exact (isGrowth_grownCapacity arrayMaxCapacity_eq hg (by
      simp only [JsonArray.Fits] at ha; have := count_lt_grownCapacity a.capacity; omega)).2
  · exact hg

/-- From a growth capacity an array takes one more element exactly when it is below the cap. -/
theorem jsonArrayAdd_success_iff {a : JsonArray α} {v : α} (ha : a.Fits)
    (hg : IsGrowth arrayMaxCapacity a.capacity) :
    (jsonArrayAdd a v).1 = .success ↔ a.count < arrayMaxCapacity := by
  rw [jsonArrayAdd_eq]
  unfold JsonArray.Fits at ha
  by_cases h1 : a.capacity ≤ a.count ∧ arrayMaxCapacity < grownCapacity a.capacity
  · rw [if_pos h1]
    simp only [reduceCtorEq, false_iff, not_lt]
    by_contra hlt
    exact absurd (isGrowth_grownCapacity arrayMaxCapacity_eq hg (by omega)).1 (by omega)
  · rw [if_neg h1]
    simp only [true_iff]
    by_contra hle
    exact h1 ⟨by omega, by have := count_lt_grownCapacity a.capacity; omega⟩

/-- The form `jsonArrayAdd_success_iff` is used in: one more item, and both invariants kept. -/
theorem jsonArrayAdd_grows {a : JsonArray α} (ha : a.Fits)
    (hg : IsGrowth arrayMaxCapacity a.capacity) (hc : a.count < arrayMaxCapacity) (v : α) :
    ∃ a1, jsonArrayAdd a v = (.success, a1) ∧ a1.items = a.items ++ [some v] ∧ a1.Fits ∧
      IsGrowth arrayMaxCapacity a1.capacity := by
  have hs := (jsonArrayAdd_success_iff (v := v) ha hg).mpr hc
  refine ⟨_, Prod.ext hs rfl, ?_, jsonArrayAdd_fits ha hs, jsonArrayAdd_isGrowth ha hg⟩
  rw [jsonArrayAdd_eq] at hs ⊢
  split_ifs at hs ⊢ <;> rfl

/-- A trimmed array above half the cap cannot grow. -/
theorem jsonArrayAdd_trimmed {a : JsonArray α} {v : α} (h : a.capacity = a.count)
    (hhalf : arrayMaxCapacity < 2 * a.count) : (jsonArrayAdd a v).1 = .failure := by
  rw [jsonArrayAdd_eq, if_pos ⟨by omega, by simp only [grownCapacity]; omega⟩]

/-! ## Objects -/

/-- Adding keeps `Fits` whatever its outcome: a failed growth changes nothing, and a
    duplicate name leaves the entries in the grown slots. -/
theorem jsonObjectAdd_fits {o : JsonObject α} {k : CStr} {v : α} (ho : o.Fits) :
    (jsonObjectAdd o k v).2.Fits := by
  rw [jsonObjectAdd_eq]
  have := count_lt_grownCapacity o.capacity
  unfold JsonObject.Fits JsonObject.count at *
  split_ifs <;> simp only [List.length_append, List.length_singleton] <;> omega

theorem jsonObjectAdd_isGrowth {o : JsonObject α} {k : CStr} {v : α} (ho : o.Fits)
    (hg : IsGrowth objectMaxCapacity o.capacity) :
    IsGrowth objectMaxCapacity (jsonObjectAdd o k v).2.capacity := by
  rw [jsonObjectAdd_eq]
  by_cases h1 : o.capacity ≤ o.count ∧ objectMaxCapacity < grownCapacity o.capacity
  · rw [if_pos h1]; exact hg
  have hgrown : IsGrowth objectMaxCapacity
      (if o.capacity ≤ o.count then grownCapacity o.capacity else o.capacity) := by
    split_ifs with h2
    · exact (isGrowth_grownCapacity objectMaxCapacity_eq hg (by
        simp only [JsonObject.Fits] at ho; have := count_lt_grownCapacity o.capacity; omega)).2
    · exact hg
  rw [if_neg h1]
  dsimp only
  by_cases h2 : (jsonObjectGetValue o k).isSome
  · rw [if_pos h2]; exact hgrown
  · rw [if_neg h2]; exact hgrown

/-- From a growth capacity an object takes one more member exactly when it is below the cap
    and the name is new. -/
theorem jsonObjectAdd_success_iff {o : JsonObject α} {k : CStr} {v : α} (ho : o.Fits)
    (hg : IsGrowth objectMaxCapacity o.capacity) :
    (jsonObjectAdd o k v).1 = .success ↔
      o.count < objectMaxCapacity ∧ k ∉ o.entries.map Prod.fst := by
  rw [jsonObjectAdd_eq, ← jsonObjectGetValue_isSome_iff]
  unfold JsonObject.Fits at ho
  by_cases h1 : o.capacity ≤ o.count ∧ objectMaxCapacity < grownCapacity o.capacity
  · rw [if_pos h1]
    simp only [reduceCtorEq, false_iff, not_and, not_lt]
    intro hlt
    exact absurd (isGrowth_grownCapacity objectMaxCapacity_eq hg (by omega)).1 (by omega)
  · by_cases h2 : (jsonObjectGetValue o k).isSome
    · simp [h1, h2]
    · rw [if_neg h1]
      dsimp only
      rw [if_neg h2]
      refine iff_of_true rfl ⟨?_, h2⟩
      by_contra hle
      exact h1 ⟨by omega, by have := count_lt_grownCapacity o.capacity; omega⟩

/-- The form `jsonObjectAdd_success_iff` is used in: one more member, and both invariants
    kept. -/
theorem jsonObjectAdd_grows {o : JsonObject α} (ho : o.Fits)
    (hg : IsGrowth objectMaxCapacity o.capacity) (hc : o.count < objectMaxCapacity) {k : CStr}
    (hk : k ∉ o.entries.map Prod.fst) (v : α) :
    ∃ o1, jsonObjectAdd o k v = (.success, o1) ∧ o1.entries = o.entries ++ [(k, v)] ∧ o1.Fits ∧
      IsGrowth objectMaxCapacity o1.capacity := by
  have hs := (jsonObjectAdd_success_iff (v := v) ho hg).mpr ⟨hc, hk⟩
  refine ⟨_, Prod.ext hs rfl, ?_, jsonObjectAdd_fits ho, jsonObjectAdd_isGrowth ho hg⟩
  rw [jsonObjectAdd_entries, if_pos hs]

/-- A trimmed object above half the cap cannot grow. -/
theorem jsonObjectAdd_trimmed {o : JsonObject α} {k : CStr} {v : α} (h : o.capacity = o.count)
    (hhalf : objectMaxCapacity < 2 * o.count) : (jsonObjectAdd o k v).1 = .failure := by
  rw [jsonObjectAdd_eq, if_pos ⟨by omega, by simp only [grownCapacity]; omega⟩]

end Parson
