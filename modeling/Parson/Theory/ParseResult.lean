import Parson.Core.Parser
import Parson.Theory.ObjectModel

/-!
# What the Parser Returns

Each parser function is described once by an outcome lemma (`parseValue_cases`,
`parseArrayItems_cases` and their siblings): every way it can succeed, with what it read and
what it left. Everything else about parser results is proved from these, never by unfolding
the parser again.

## Theorems

* `skipWhitespaces_append`, `skipWhitespaces_of_not_space`: Skipping whitespace.
* `parseArrayItems_cases`, `parseObjectMembers_cases`: One pass of each loop.
* `parseArrayItems_comma`, `parseArrayItems_last` and their object twins: A pass run forward,
  on to the next item or out of the loop.
* `parseArrayValue_cases`, `parseObjectValue_cases`: A container, empty or not.
* `parseValue_cases`: The dispatch on the first byte.
-/

namespace Parson

/-! ## Whitespace -/

theorem skipWhitespaces_append {g : Bytes} (hg : ∀ c ∈ g, isSpace c) (s : Bytes) :
    skipWhitespaces (g ++ s) = skipWhitespaces s := by
  induction g with
  | nil => rfl
  | cons c g ih =>
    rw [List.cons_append, skipWhitespaces, if_pos (hg c (List.mem_cons_self _ _))]
    exact ih fun d hd => hg d (List.mem_cons_of_mem _ hd)

theorem skipWhitespaces_of_not_space {s : Bytes} (h : isSpace (peek s) = false) :
    skipWhitespaces s = s := by
  cases s with
  | nil => rfl
  | cons c s => simp_all [skipWhitespaces]

theorem skipWhitespaces_gap {g : Bytes} (hg : ∀ c ∈ g, isSpace c) {x : UInt8}
    (hx : isSpace x = false) (t : Bytes) : skipWhitespaces (g ++ x :: t) = x :: t := by
  rw [skipWhitespaces_append hg, skipWhitespaces_of_not_space (s := x :: t) hx]

theorem peek_skipWhitespaces (s : Bytes) : isSpace (peek (skipWhitespaces s)) = false := by
  induction s with
  | nil => rfl
  | cons c s ih =>
    rw [skipWhitespaces]
    split_ifs with h
    · exact ih
    · simpa using h

theorem skipWhitespaces_suffix (s : Bytes) : skipWhitespaces s <:+ s := by
  induction s with
  | nil => exact List.suffix_refl _
  | cons c s ih =>
    rw [skipWhitespaces]
    split_ifs
    · exact ih.trans (List.suffix_cons _ _)
    · exact List.suffix_refl _

/-! ## One pass of each loop -/

section Loops

variable {pv : Bytes → Option (Value × Bytes)}

theorem parseArrayItems_cases {fuel : Nat} {a a' : JsonArray Value} {s r : Bytes}
    (h : parseArrayItems pv fuel a s = some (a', r)) :
    (peek s = 0 ∧ a' = a ∧ r = s) ∨
    ∃ fuel' v s1 a1, fuel = fuel' + 1 ∧ peek s ≠ 0 ∧ pv s = some (v, s1) ∧
      jsonArrayAdd a v = (.success, a1) ∧
      ((∃ s2, skipWhitespaces s1 = 44 :: s2 ∧
          parseArrayItems pv fuel' a1 (skipWhitespaces s2) = some (a', r)) ∨
        (peek (skipWhitespaces s1) ≠ 44 ∧ a' = a1 ∧ r = skipWhitespaces s1)) := by
  unfold parseArrayItems at h
  split at h
  · obtain ⟨rfl, rfl⟩ := Prod.mk.inj (Option.some.inj h)
    exact Or.inl ⟨‹_›, rfl, rfl⟩
  · right
    split at h
    · cases h
    · rename_i fuel'
      split at h
      · cases h
      · rename_i v s1 hpv
        split at h
        · cases h
        · rename_i a1 hadd
          refine ⟨fuel', v, s1, a1, rfl, ‹_›, hpv, hadd, ?_⟩
          split at h
          · exact Or.inl ⟨_, ‹_›, h⟩
          · rename_i hne
            obtain ⟨rfl, rfl⟩ := Prod.mk.inj (Option.some.inj h)
            refine Or.inr ⟨fun h44 => ?_, rfl, rfl⟩
            cases hs : skipWhitespaces s1 with
            | nil => simp [hs] at h44
            | cons c t => simp only [hs, peek_cons] at h44; subst h44; exact hne t hs

theorem parseObjectMembers_cases {fuel : Nat} {o o' : JsonObject Value} {s r : Bytes}
    (h : parseObjectMembers pv fuel o s = some (o', r)) :
    (peek s = 0 ∧ o' = o ∧ r = s) ∨
    ∃ fuel' key s1 s2 v s3 o1, fuel = fuel' + 1 ∧ peek s ≠ 0 ∧
      getQuotedString s = some (key, s1) ∧ skipWhitespaces s1 = 58 :: s2 ∧
      pv s2 = some (v, s3) ∧ jsonObjectAdd o (cString key) v = (.success, o1) ∧
      ((∃ s4, skipWhitespaces s3 = 44 :: s4 ∧
          parseObjectMembers pv fuel' o1 (skipWhitespaces s4) = some (o', r)) ∨
        (peek (skipWhitespaces s3) ≠ 44 ∧ o' = o1 ∧ r = skipWhitespaces s3)) := by
  unfold parseObjectMembers at h
  split at h
  · obtain ⟨rfl, rfl⟩ := Prod.mk.inj (Option.some.inj h)
    exact Or.inl ⟨‹_›, rfl, rfl⟩
  · right
    split at h
    · cases h
    · rename_i fuel'
      split at h
      · cases h
      · rename_i key s1 hkey
        split at h
        · rename_i s2 hcolon
          split at h
          · cases h
          · rename_i v s3 hpv
            split at h
            · cases h
            · rename_i o1 hadd
              refine ⟨fuel', key, s1, s2, v, s3, o1, rfl, ‹_›, hkey, hcolon, hpv, hadd, ?_⟩
              split at h
              · exact Or.inl ⟨_, ‹_›, h⟩
              · rename_i hne
                obtain ⟨rfl, rfl⟩ := Prod.mk.inj (Option.some.inj h)
                refine Or.inr ⟨fun h44 => ?_, rfl, rfl⟩
                cases hs : skipWhitespaces s3 with
                | nil => simp [hs] at h44
                | cons c t => simp only [hs, peek_cons] at h44; subst h44; exact hne t hs
        · cases h

theorem parseArrayItems_comma {fuel : Nat} {a a1 : JsonArray Value} {s s1 s2 : Bytes} {v : Value}
    (h0 : peek s ≠ 0) (hpv : pv s = some (v, s1)) (hadd : jsonArrayAdd a v = (.success, a1))
    (hc : skipWhitespaces s1 = 44 :: s2) :
    parseArrayItems pv (fuel + 1) a s = parseArrayItems pv fuel a1 (skipWhitespaces s2) := by
  rw [parseArrayItems.eq_def]
  simp only [h0, hpv, hadd, hc, if_false]

theorem parseArrayItems_last {fuel : Nat} {a a1 : JsonArray Value} {s s1 t : Bytes} {v : Value}
    {c : UInt8} (h0 : peek s ≠ 0) (hpv : pv s = some (v, s1))
    (hadd : jsonArrayAdd a v = (.success, a1)) (hc : skipWhitespaces s1 = c :: t) (h44 : c ≠ 44) :
    parseArrayItems pv (fuel + 1) a s = some (a1, c :: t) := by
  rw [parseArrayItems.eq_def]
  simp only [h0, hpv, hadd, hc, if_false]
  split <;> simp_all

theorem parseObjectMembers_comma {fuel : Nat} {o o1 : JsonObject Value}
    {s s1 s2 s3 s4 key : Bytes} {v : Value} (h0 : peek s ≠ 0)
    (hkey : getQuotedString s = some (key, s1)) (hcolon : skipWhitespaces s1 = 58 :: s2)
    (hpv : pv s2 = some (v, s3)) (hadd : jsonObjectAdd o (cString key) v = (.success, o1))
    (hc : skipWhitespaces s3 = 44 :: s4) :
    parseObjectMembers pv (fuel + 1) o s = parseObjectMembers pv fuel o1 (skipWhitespaces s4) := by
  rw [parseObjectMembers.eq_def]
  simp only [h0, hkey, hcolon, hpv, hadd, hc, if_false]

theorem parseObjectMembers_last {fuel : Nat} {o o1 : JsonObject Value} {s s1 s2 s3 t key : Bytes}
    {v : Value} {c : UInt8} (h0 : peek s ≠ 0)
    (hkey : getQuotedString s = some (key, s1)) (hcolon : skipWhitespaces s1 = 58 :: s2)
    (hpv : pv s2 = some (v, s3)) (hadd : jsonObjectAdd o (cString key) v = (.success, o1))
    (hc : skipWhitespaces s3 = c :: t) (h44 : c ≠ 44) :
    parseObjectMembers pv (fuel + 1) o s = some (o1, c :: t) := by
  rw [parseObjectMembers.eq_def]
  simp only [h0, hkey, hcolon, hpv, hadd, hc, if_false]
  split <;> simp_all

end Loops

/-! ## Containers -/

theorem parseArrayValue_cases {pv : Bytes → Option (Value × Bytes)} {s r : Bytes} {v : Value}
    (h : parseArrayValue pv s = some (v, r)) :
    (skipWhitespaces s.tail = 93 :: r ∧ v = .array ⟨[], 0⟩) ∨
    ∃ a r1, peek (skipWhitespaces s.tail) ≠ 93 ∧
      parseArrayItems pv (skipWhitespaces s.tail).length ⟨[], 0⟩ (skipWhitespaces s.tail) =
        some (a, r1) ∧
      skipWhitespaces r1 = 93 :: r ∧ a.count ≠ 0 ∧ v = .array ⟨a.items, a.count⟩ := by
  unfold parseArrayValue at h
  dsimp only at h
  split at h
  · rename_i rest hs
    obtain ⟨rfl, rfl⟩ := Prod.mk.inj (Option.some.inj h)
    exact Or.inl ⟨hs, rfl⟩
  · rename_i hne
    split at h
    · cases h
    · rename_i a r1 hitems
      split at h
      · rename_i rest hclose
        unfold jsonArrayResize at h
        split_ifs at h with hc
        · cases h
        obtain ⟨rfl, rfl⟩ := Prod.mk.inj (Option.some.inj h)
        refine Or.inr ⟨a, r1, fun h93 => ?_, hitems, hclose, hc, rfl⟩
        cases hs : skipWhitespaces s.tail with
        | nil => simp [hs] at h93
        | cons c t => simp only [hs, peek_cons] at h93; subst h93; exact hne t hs
      · cases h

theorem parseObjectValue_cases {pv : Bytes → Option (Value × Bytes)} {s r : Bytes} {v : Value}
    (h : parseObjectValue pv s = some (v, r)) :
    (skipWhitespaces s.tail = 125 :: r ∧ v = .object ⟨[], 0⟩) ∨
    ∃ o r1, peek (skipWhitespaces s.tail) ≠ 125 ∧
      parseObjectMembers pv (skipWhitespaces s.tail).length ⟨[], 0⟩ (skipWhitespaces s.tail) =
        some (o, r1) ∧
      skipWhitespaces r1 = 125 :: r ∧ o.count ≠ 0 ∧ v = .object ⟨o.entries, o.count⟩ := by
  unfold parseObjectValue at h
  dsimp only at h
  split at h
  · rename_i rest hs
    obtain ⟨rfl, rfl⟩ := Prod.mk.inj (Option.some.inj h)
    exact Or.inl ⟨hs, rfl⟩
  · rename_i hne
    split at h
    · cases h
    · rename_i o r1 hmembers
      split at h
      · rename_i rest hclose
        unfold jsonObjectResize at h
        split_ifs at h with hc
        · cases h
        obtain ⟨rfl, rfl⟩ := Prod.mk.inj (Option.some.inj h)
        refine Or.inr ⟨o, r1, fun h125 => ?_, hmembers, hclose, hc, rfl⟩
        cases hs : skipWhitespaces s.tail with
        | nil => simp [hs] at h125
        | cons c t => simp only [hs, peek_cons] at h125; subst h125; exact hne t hs
      · cases h

/-! ## The dispatch -/

theorem parseValue_cases {lib : Libc} {l : Nat} {s r : Bytes} {v : Value}
    (h : parseValue lib (l + 1) s = some (v, r)) :
    (peek (skipWhitespaces s) = 123 ∧
      parseObjectValue (parseValue lib l) (skipWhitespaces s) = some (v, r)) ∨
    (peek (skipWhitespaces s) = 91 ∧
      parseArrayValue (parseValue lib l) (skipWhitespaces s) = some (v, r)) ∨
    (peek (skipWhitespaces s) = 34 ∧ parseStringValue (skipWhitespaces s) = some (v, r)) ∨
    parseBooleanValue (skipWhitespaces s) = some (v, r) ∨
    ((peek (skipWhitespaces s) = 45 ∨ isDigit (peek (skipWhitespaces s))) ∧
      parseNumberValue lib (skipWhitespaces s) = some (v, r)) ∨
    parseNullValue (skipWhitespaces s) = some (v, r) := by
  unfold parseValue at h
  dsimp only at h
  split at h <;> simp_all [isDigit]

end Parson
