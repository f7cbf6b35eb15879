import Parson.Theory.Tokens
import Parson.Theory.ParseResult
import Parson.Theory.Capacity

/-!
# Completeness of the Parser

`json_parse_string` reads every JSON text it should: an object or an array, nested at most
`MAX_NESTING` deep, with distinct names and within the caps, after any whitespace and before
any bytes at all, comes back as the document it denotes, stored with every capacity trimmed
to its count.

The argument follows the code's recursion. `parseValue_text` is by induction on the levels
`parse_value` has left; at a container it hands the children to the loop lemmas
`parseArrayItems_text` and `parseObjectMembers_text`, each an induction on the items or
members, which need of `parse_value` only that it reads each child. What a loop adds to its
container is counted by the growth invariants of `Parson.Theory.Capacity`: from an empty
container, `json_array_add` and `json_object_add` fail only at the cap or on a name already
there.

The parser reads more than RFC 4627: any `isspace` byte between tokens (`parsable`). It also
reads less: `is_decimal` refuses number tokens such as `0e5` and `-0E1` (`LeadingZeroExp`),
which RFC 4627 allows. The theorem for RFC 4627 texts excludes those.

## Main definitions

* `parsable`: The texts the parser is shown to read.
* `Cst.Storable`: A container the code can hold.
* `Cst.Parsable`, `Cst.NoLeadingZero`: Well-formed trees.

## Theorems

* `parseArrayItems_text`, `parseObjectMembers_text`: The loops read a container's children.
* `parseValue_text`: `parse_value` reads every well-formed value it has the levels for.
* `jsonParseString_complete`: `json_parse_string` reads every RFC 4627 text within the limits.
-/

namespace Parson

/-! ## Well-formed trees -/

/-- The texts the parser reads: any `isspace` byte between tokens, keys opened by any byte
    `skip_quotes` steps over (one that is not whitespace, `NUL` or `}`), and the RFC 4627
    number tokens that `is_decimal` lets through. -/
def parsable : Dialect where
  gap g := ∀ c ∈ g, isSpace c
  opener c := isSpace c = false ∧ c ≠ 0 ∧ c ≠ 125
  number t := RfcNumber t ∧ ¬ LeadingZeroExp t

/-- A container the code can hold: an object's names distinct and at most
    `OBJECT_MAX_CAPACITY` of them, an array of at most `ARRAY_MAX_CAPACITY` items. -/
def Cst.Storable : Cst → Prop
  | .object _ ms => (ms.map fun m => litValue m.key).Nodup ∧ ms.length ≤ objectMaxCapacity
  | .array _ is => is.length ≤ arrayMaxCapacity
  | _ => True

/-- Every node is well formed for the parser and storable. -/
def Cst.Parsable (c : Cst) : Prop := c.Forall fun n => parsable.Local n ∧ n.Storable

/-- A number token `is_decimal` accepts: one that does not start `0` or `-0` followed by
    anything but `.`. -/
def Cst.NoLeadingZero : Cst → Prop
  | .number tok => ¬ LeadingZeroExp tok
  | _ => True

theorem isSpace_of_isRfcSpace {c : UInt8} (h : isRfcSpace c = true) : isSpace c = true := by
  simp only [isRfcSpace, Bool.or_eq_true, beq_iff_eq, byte_eq_iff, UInt8.reduceToNat] at h
  exact (isSpace_iff c).mpr (by omega)

theorem parsable_gap_of_rfc {g : Bytes} (h : rfc.gap g) : parsable.gap g :=
  fun c hc => isSpace_of_isRfcSpace (h c hc)

/-- An RFC 4627 node whose number `is_decimal` accepts is one the parser reads. -/
theorem parsable_local_of_rfc {c : Cst} (h : rfc.Local c) (hz : c.NoLeadingZero) :
    parsable.Local c := by
  cases c with
  | null | bool _ | string _ => exact h
  | number tok => exact ⟨h, hz⟩
  | object gap ms =>
    cases ms with
    | nil => exact parsable_gap_of_rfc h
    | cons m ms =>
      intro n hn
      obtain ⟨h1, h2, h3, h4, h5, h6⟩ := h n hn
      have h2 : n.opener = 34 := h2
      exact ⟨parsable_gap_of_rfc h1, by rw [h2]; exact ⟨rfl, by decide, by decide⟩, h3,
        parsable_gap_of_rfc h4, parsable_gap_of_rfc h5, parsable_gap_of_rfc h6⟩
  | array gap is =>
    cases is with
    | nil => exact parsable_gap_of_rfc h
    | cons i is =>
      intro j hj
      exact ⟨parsable_gap_of_rfc (h j hj).1, parsable_gap_of_rfc (h j hj).2⟩

/-! ## First bytes -/

/-- The bytes a value's text can start with: those `parse_value` dispatches on. -/
def startsValue (x : UInt8) : Bool :=
  x == 123 || x == 91 || x == 34 || x == 102 || x == 116 || x == 110 || x == 45 || isDigit x

theorem startsValue_toNat {x : UInt8} (h : startsValue x = true) :
    x.toNat = 123 ∨ x.toNat = 91 ∨ x.toNat = 34 ∨ x.toNat = 102 ∨ x.toNat = 116 ∨
      x.toNat = 110 ∨ x.toNat = 45 ∨ (48 ≤ x.toNat ∧ x.toNat ≤ 57) := by
  simp only [startsValue, Bool.or_eq_true, beq_iff_eq, isDigit_iff, byte_eq_iff,
    UInt8.reduceToNat] at h
  omega

theorem startsValue_not_space {x : UInt8} (h : startsValue x = true) : isSpace x = false :=
  Bool.eq_false_iff.mpr fun hs => by
    have := startsValue_toNat h; have := (isSpace_iff x).mp hs; omega

theorem startsValue_ne {x : UInt8} (h : startsValue x = true) {c : UInt8}
    (hc : c.toNat ∈ [0, 44, 93, 125]) : x ≠ c := by
  rintro rfl
  have := startsValue_toNat h
  simp only [List.mem_cons, List.not_mem_nil, or_false] at hc
  omega

theorem Follows.gap {g : Bytes} (hg : ∀ c ∈ g, isSpace c) {c : UInt8}
    (hc : c = 44 ∨ c = 93 ∨ c = 125) (t : Bytes) : Follows (g ++ c :: t) := by
  cases g with
  | nil => exact Or.inr hc
  | cons x g => exact Or.inl (hg x (List.mem_cons_self _ _))

theorem peek_gap_ne_zero {g : Bytes} (hg : ∀ c ∈ g, isSpace c) {x : UInt8} (hx : x ≠ 0)
    (t : Bytes) : peek (g ++ x :: t) ≠ 0 := by
  cases g with
  | nil => exact hx
  | cons c g =>
    have := (isSpace_iff c).mp (hg c (List.mem_cons_self _ _))
    simp only [List.cons_append, peek_cons, ne_eq, byte_eq_iff, UInt8.reduceToNat]
    omega

theorem Cst.text_head {c : Cst} (h : parsable.Local c) :
    ∃ x t, c.text = x :: t ∧ startsValue x := by
  cases c with
  | null => exact ⟨_, _, rfl, rfl⟩
  | bool b => cases b <;> exact ⟨_, _, rfl, rfl⟩
  | string lit => exact ⟨_, _, rfl, rfl⟩
  | number tok =>
    obtain ⟨x, t, rfl, -, hx⟩ := h.1.head
    refine ⟨x, t, rfl, ?_⟩
    rcases hx with rfl | hx
    · rfl
    · simp [startsValue, hx]
  | object gap ms => cases ms <;> exact ⟨_, _, rfl, rfl⟩
  | array gap is => cases is <;> exact ⟨_, _, rfl, rfl⟩

/-! ## Texts are C strings -/

theorem gap_nul_free {g : Bytes} (hg : parsable.gap g) : (0 : UInt8) ∉ g :=
  fun h => absurd (hg 0 h) (by decide)

/-- What a member's own bytes need: the gaps and the key of `parsable`. -/
def MemberOk (m : Member Cst) : Prop :=
  parsable.gap m.before ∧ parsable.opener m.opener ∧ (decodeLit m.key).isSome ∧
    parsable.gap m.beforeColon ∧ parsable.gap m.afterColon ∧ parsable.gap m.after

theorem memberText_nul_free {m : Member Cst} (hm : MemberOk m) (hv : (0 : UInt8) ∉ m.value.text) :
    (0 : UInt8) ∉ Cst.memberText m := by
  obtain ⟨hb, ⟨-, ho, -⟩, hk, hbc, hac, ha⟩ := hm
  obtain ⟨d, hd⟩ := Option.isSome_iff_exists.mp hk
  have := (litChars_of_decodeLit hd).nul_free
  simp [Cst.memberText_eq, Ne.symm ho, this, hv, gap_nul_free hb, gap_nul_free hbc,
    gap_nul_free hac, gap_nul_free ha]

theorem itemText_nul_free {i : Item Cst} (hb : parsable.gap i.before) (ha : parsable.gap i.after)
    (hv : (0 : UInt8) ∉ i.value.text) : (0 : UInt8) ∉ Cst.itemText i := by
  simp [Cst.itemText_eq, hv, gap_nul_free hb, gap_nul_free ha]

mutual

/-- The text of a well-formed tree holds no `NUL`: it is a C string. -/
theorem Cst.text_nul_free : ∀ {c : Cst}, c.Parsable → (0 : UInt8) ∉ c.text
  | .null, _ => by decide
  | .bool true, _ => by decide
  | .bool false, _ => by decide
  | .string _, hc => by
    obtain ⟨d, hd⟩ := Option.isSome_iff_exists.mp hc.1
    simpa [Cst.text] using (litChars_of_decodeLit hd).nul_free
  | .number _, hc => hc.1.1.nul_free
  | .object _ [], hc => by simpa [Cst.text] using gap_nul_free hc.1.1
  | .object _ (_ :: _), hc => by
    simpa [Cst.text] using Cst.membersText_nul_free hc.1.1 hc.2
  | .array _ [], hc => by simpa [Cst.text] using gap_nul_free hc.1.1
  | .array _ (_ :: _), hc => by
    simpa [Cst.text] using Cst.itemsText_nul_free hc.1.1 hc.2

theorem Cst.membersText_nul_free : ∀ {ms : List (Member Cst)}, (∀ m ∈ ms, MemberOk m) →
    Cst.membersForall (fun n => parsable.Local n ∧ n.Storable) ms →
    (0 : UInt8) ∉ Cst.membersText ms
  | [], _, _ => by simp [Cst.membersText]
  | [⟨_, _, _, _, _, _, _⟩], hl, hf =>
    memberText_nul_free (hl _ (List.mem_singleton_self _)) (Cst.text_nul_free hf.1)
  | ⟨_, _, _, _, _, _, _⟩ :: n :: ns, hl, hf => by
    have h1 := memberText_nul_free (hl _ (List.mem_cons_self _ _)) (Cst.text_nul_free hf.1)
    have h2 := @Cst.membersText_nul_free (n :: ns)
      (fun m hm => hl m (List.mem_cons_of_mem _ hm)) hf.2
    rw [Cst.membersText_cons_cons]
    simp [h1, h2]

theorem Cst.itemsText_nul_free : ∀ {is : List (Item Cst)},
    (∀ i ∈ is, parsable.gap i.before ∧ parsable.gap i.after) →
    Cst.itemsForall (fun n => parsable.Local n ∧ n.Storable) is →
    (0 : UInt8) ∉ Cst.itemsText is
  | [], _, _ => by simp [Cst.itemsText]
  | [⟨_, _, _⟩], hl, hf =>
    itemText_nul_free (hl _ (List.mem_singleton_self _)).1 (hl _ (List.mem_singleton_self _)).2
      (Cst.text_nul_free hf.1)
  | ⟨_, _, _⟩ :: j :: js, hl, hf => by
    have h1 := itemText_nul_free (hl _ (List.mem_cons_self _ _)).1
      (hl _ (List.mem_cons_self _ _)).2 (Cst.text_nul_free hf.1)
    have h2 := @Cst.itemsText_nul_free (j :: js)
      (fun i hi => hl i (List.mem_cons_of_mem _ hi)) hf.2
    rw [Cst.itemsText_cons_cons]
    simp [h1, h2]

end

/-! ## Skipping to the first child -/

theorem Cst.length_le_itemsText :
    ∀ {is : List (Item Cst)}, (∀ i ∈ is, i.value.text ≠ []) →
      is.length ≤ (Cst.itemsText is).length
  | [], _ => le_rfl
  | [i], h => by
    have := List.length_pos.mpr (h i (List.mem_singleton_self _))
    simp [Cst.itemsText, Cst.itemText_eq]; omega
  | i :: j :: js, h => by
    have := @Cst.length_le_itemsText (j :: js) fun k hk => h k (List.mem_cons_of_mem _ hk)
    rw [Cst.itemsText_cons_cons]
    simp only [List.length_cons, List.length_append] at this ⊢
    omega

theorem Cst.length_le_membersText :
    ∀ (ms : List (Member Cst)), ms.length ≤ (Cst.membersText ms).length
  | [] => le_rfl
  | [m] => by simp [Cst.membersText, Cst.memberText_eq]; omega
  | m :: n :: ns => by
    have := Cst.length_le_membersText (n :: ns)
    rw [Cst.membersText_cons_cons]
    simp only [List.length_cons, List.length_append] at this ⊢
    omega

theorem skipWhitespaces_itemsText {i : Item Cst} (hb : ∀ x ∈ i.before, isSpace x) {x : UInt8}
    {t : Bytes} (ht : i.value.text = x :: t) (hx : startsValue x) (is : List (Item Cst))
    (r : Bytes) : ∃ y, skipWhitespaces (Cst.itemsText (i :: is) ++ r) = x :: y ∧
      (Cst.itemsText is).length ≤ y.length := by
  cases is with
  | nil =>
    refine ⟨t ++ (i.after ++ r), ?_, by simp [Cst.itemsText]⟩
    simp only [Cst.itemsText, Cst.itemText_eq, ht, List.append_assoc, List.cons_append]
    exact skipWhitespaces_gap hb (startsValue_not_space hx) _
  | cons j js =>
    refine ⟨t ++ (i.after ++ 44 :: (Cst.itemsText (j :: js) ++ r)), ?_, by simp; omega⟩
    simp only [Cst.itemsText_cons_cons, Cst.itemText_eq, ht, List.append_assoc, List.cons_append]
    exact skipWhitespaces_gap hb (startsValue_not_space hx) _

theorem skipWhitespaces_membersText {m : Member Cst} (hb : ∀ x ∈ m.before, isSpace x)
    (ho : isSpace m.opener = false) (ms : List (Member Cst)) (r : Bytes) :
    ∃ y, skipWhitespaces (Cst.membersText (m :: ms) ++ r) = m.opener :: y ∧
      (Cst.membersText ms).length ≤ y.length := by
  cases ms with
  | nil =>
    refine ⟨m.key ++ 34 :: (m.beforeColon ++ 58 :: (m.afterColon ++ (m.value.text ++
      (m.after ++ r)))), ?_, by simp [Cst.membersText]⟩
    simp only [Cst.membersText, Cst.memberText_eq, List.append_assoc, List.cons_append]
    exact skipWhitespaces_gap hb ho _
  | cons n ns =>
    refine ⟨m.key ++ 34 :: (m.beforeColon ++ 58 :: (m.afterColon ++ (m.value.text ++
      (m.after ++ 44 :: (Cst.membersText (n :: ns) ++ r))))), ?_, by simp; omega⟩
    simp only [Cst.membersText_cons_cons, Cst.memberText_eq, List.append_assoc,
      List.cons_append]
    exact skipWhitespaces_gap hb ho _

/-! ## The loops -/

section Loops

variable (lib : Libc) {pv : Bytes → Option (Value × Bytes)}

/-- The item loop reads a nonempty list of items that `pv` reads one by one, adding each to
    the array, and stops on the closing `]`. -/
theorem parseArrayItems_text (rest : Bytes) :
    ∀ (is : List (Item Cst)) (a : JsonArray Value) (fuel : Nat), is ≠ [] →
    (∀ i ∈ is, (∀ x ∈ i.before, isSpace x) ∧ (∀ x ∈ i.after, isSpace x) ∧
      (∃ x t, i.value.text = x :: t ∧ startsValue x) ∧
      ∀ r, Follows r → pv (i.value.text ++ r) = some ((i.value.value lib).toValue, r)) →
    a.Fits → IsGrowth arrayMaxCapacity a.capacity → a.count + is.length ≤ arrayMaxCapacity →
    is.length ≤ fuel →
    ∃ cap, parseArrayItems pv fuel a (skipWhitespaces (Cst.itemsText is ++ 93 :: rest)) =
      some (⟨a.items ++ Json.itemsToValue (Cst.itemsValue lib is), cap⟩, 93 :: rest)
  | [], _, _, hne, _, _, _, _, _ => absurd rfl hne
  | i :: is, a, fuel, _, h, ha, hg, hc, hf => by
    obtain ⟨hb, haf, ⟨x, t, htext, hx⟩, hpv⟩ := h i (List.mem_cons_self _ _)
    obtain ⟨fuel, rfl⟩ : ∃ f, fuel = f + 1 := ⟨fuel - 1, by simp at hf; omega⟩
    obtain ⟨a1, hadd, hitems, ha1, hg1⟩ :=
      jsonArrayAdd_grows ha hg (by simp at hc; omega) ((i.value.value lib).toValue)
    have h0 : peek (x :: t) ≠ 0 := startsValue_ne hx (by decide)
    cases is with
    | nil =>
      have hs : skipWhitespaces (Cst.itemsText [i] ++ 93 :: rest) =
          i.value.text ++ (i.after ++ 93 :: rest) := by
        simp only [Cst.itemsText, Cst.itemText_eq, htext, List.append_assoc, List.cons_append]
        exact skipWhitespaces_gap hb (startsValue_not_space hx) _
      rw [hs, parseArrayItems_last (by rwa [htext]) (hpv _ (Follows.gap haf (by simp) rest)) hadd
        (skipWhitespaces_gap haf (x := 93) rfl rest) (by decide)]
      exact ⟨a1.capacity, by simp only [Cst.itemsValue, Json.itemsToValue, ← hitems]⟩
    | cons j js =>
      have hs : skipWhitespaces (Cst.itemsText (i :: j :: js) ++ 93 :: rest) =
          i.value.text ++ (i.after ++ 44 :: (Cst.itemsText (j :: js) ++ 93 :: rest)) := by
        simp only [Cst.itemsText_cons_cons, Cst.itemText_eq, htext, List.append_assoc,
          List.cons_append]
        exact skipWhitespaces_gap hb (startsValue_not_space hx) _
      rw [hs, parseArrayItems_comma (by rwa [htext]) (hpv _ (Follows.gap haf (by simp) _)) hadd
        (skipWhitespaces_gap haf (x := 44) rfl _)]
      have hcount : a1.count = a.count + 1 := by simp [JsonArray.count, hitems]
      obtain ⟨cap, hcap⟩ := parseArrayItems_text rest (j :: js) a1 fuel (List.cons_ne_nil _ _)
        (fun k hk => h k (List.mem_cons_of_mem _ hk)) ha1 hg1 (by simp at hc ⊢; omega)
        (by simp at hf ⊢; omega)
      exact ⟨cap, by
        rw [hcap, hitems]
        simp only [Cst.itemsValue, Json.itemsToValue, List.append_assoc, List.singleton_append]⟩

/-- The member loop reads a nonempty list of members with new names whose values `pv` reads,
    adding each to the object, and stops on the closing `}`. -/
theorem parseObjectMembers_text (rest : Bytes) :
    ∀ (ms : List (Member Cst)) (o : JsonObject Value) (fuel : Nat), ms ≠ [] →
    (∀ m ∈ ms, (∀ x ∈ m.before, isSpace x) ∧ parsable.opener m.opener ∧
      (decodeLit m.key).isSome ∧ (∀ x ∈ m.beforeColon, isSpace x) ∧
      (∀ x ∈ m.after, isSpace x) ∧
      ∀ r, Follows r → pv (m.afterColon ++ m.value.text ++ r) =
        some ((m.value.value lib).toValue, r)) →
    (o.entries.map Prod.fst ++ ms.map fun m => litValue m.key).Nodup →
    o.Fits → IsGrowth objectMaxCapacity o.capacity →
    o.count + ms.length ≤ objectMaxCapacity → ms.length ≤ fuel →
    ∃ cap, parseObjectMembers pv fuel o (skipWhitespaces (Cst.membersText ms ++ 125 :: rest)) =
      some (⟨o.entries ++ Json.entriesToValue (Cst.membersValue lib ms), cap⟩, 125 :: rest)
  | [], _, _, hne, _, _, _, _, _, _ => absurd rfl hne
  | m :: ms, o, fuel, _, h, hnames, ho, hg, hc, hf => by
    obtain ⟨hb, hopen, hkey, hbc, haf, hpv⟩ := h m (List.mem_cons_self _ _)
    obtain ⟨d, hd⟩ := Option.isSome_iff_exists.mp hkey
    have hlit := litChars_of_decodeLit hd
    obtain ⟨fuel, rfl⟩ : ∃ f, fuel = f + 1 := ⟨fuel - 1, by simp at hf; omega⟩
    have hk : litValue m.key ∉ o.entries.map Prod.fst := by
      simp only [List.map_cons, List.nodup_append, List.nodup_cons] at hnames
      exact fun hm => hnames.2.2 hm (List.mem_cons_self _ _)
    obtain ⟨o1, hadd, hentries, ho1, hg1⟩ :=
      jsonObjectAdd_grows ho hg (by simp at hc; omega) hk ((m.value.value lib).toValue)
    rw [litValue_of_litChars hlit] at hadd
    have hkey' : ∀ t, getQuotedString (m.opener :: (m.key ++ 34 :: (m.beforeColon ++ 58 :: t))) =
        some (d, m.beforeColon ++ 58 :: t) := fun t =>
      getQuotedString_lit hlit (peek_gap_ne_zero hbc (by decide) t) m.opener
    cases ms with
    | nil =>
      have hs : skipWhitespaces (Cst.membersText [m] ++ 125 :: rest) =
          m.opener :: (m.key ++ 34 :: (m.beforeColon ++ 58 ::
            (m.afterColon ++ m.value.text ++ (m.after ++ 125 :: rest)))) := by
        simp only [Cst.membersText, Cst.memberText_eq, List.append_assoc, List.cons_append]
        exact skipWhitespaces_gap hb hopen.1 _
      rw [hs, parseObjectMembers_last (s := m.opener :: _) hopen.2.1 (hkey' _)
        (skipWhitespaces_gap hbc (x := 58) rfl _) (hpv _ (Follows.gap haf (by simp) rest)) hadd
        (skipWhitespaces_gap haf (x := 125) rfl rest) (by decide)]
      exact ⟨o1.capacity, by simp only [Cst.membersValue, Json.entriesToValue, ← hentries]⟩
    | cons n ns =>
      have hs : skipWhitespaces (Cst.membersText (m :: n :: ns) ++ 125 :: rest) =
          m.opener :: (m.key ++ 34 :: (m.beforeColon ++ 58 :: (m.afterColon ++ m.value.text ++
            (m.after ++ 44 :: (Cst.membersText (n :: ns) ++ 125 :: rest))))) := by
        simp only [Cst.membersText_cons_cons, Cst.memberText_eq, List.append_assoc,
          List.cons_append]
        exact skipWhitespaces_gap hb hopen.1 _
      rw [hs, parseObjectMembers_comma (s := m.opener :: _) hopen.2.1 (hkey' _)
        (skipWhitespaces_gap hbc (x := 58) rfl _) (hpv _ (Follows.gap haf (by simp) _)) hadd
        (skipWhitespaces_gap haf (x := 44) rfl _)]
      have hcount : o1.count = o.count + 1 := by simp [JsonObject.count, hentries]
      have hnames1 : (o1.entries.map Prod.fst ++ (n :: ns).map fun m => litValue m.key).Nodup := by
        rw [hentries]
        simpa using hnames
      obtain ⟨cap, hcap⟩ := parseObjectMembers_text rest (n :: ns) o1 fuel
        (List.cons_ne_nil _ _) (fun k hk => h k (List.mem_cons_of_mem _ hk)) hnames1 ho1 hg1
        (by simp at hc ⊢; omega) (by simp at hf ⊢; omega)
      refine ⟨cap, ?_⟩
      rw [hcap, hentries]
      simp only [Cst.membersValue, Json.entriesToValue, List.append_assoc, List.singleton_append]

end Loops

/-! ## Containers -/

section Containers

variable {pv : Bytes → Option (Value × Bytes)} {rest : Bytes}

theorem parseArrayValue_empty {gap : Bytes} (hg : ∀ c ∈ gap, isSpace c) :
    parseArrayValue pv (91 :: (gap ++ 93 :: rest)) = some (.array ⟨[], 0⟩, rest) := by
  simp only [parseArrayValue, List.tail_cons, skipWhitespaces_gap hg (x := 93) rfl]

theorem parseObjectValue_empty {gap : Bytes} (hg : ∀ c ∈ gap, isSpace c) :
    parseObjectValue pv (123 :: (gap ++ 125 :: rest)) = some (.object ⟨[], 0⟩, rest) := by
  simp only [parseObjectValue, List.tail_cons, skipWhitespaces_gap hg (x := 125) rfl]

theorem parseArrayValue_items {s : Bytes} {items : List (Option Value)} {cap : Nat}
    (h93 : peek (skipWhitespaces s) ≠ 93)
    (hloop : parseArrayItems pv (skipWhitespaces s).length ⟨[], 0⟩ (skipWhitespaces s) =
      some (⟨items, cap⟩, 93 :: rest)) (hne : items ≠ []) :
    parseArrayValue pv (91 :: s) = some (.array ⟨items, items.length⟩, rest) := by
  unfold parseArrayValue
  dsimp only [List.tail_cons]
  split
  · rename_i heq; simp [heq] at h93
  · rw [hloop]
    simp [skipWhitespaces, jsonArrayResize, JsonArray.count, hne, show isSpace 93 = false from rfl]

theorem parseObjectValue_members {s : Bytes} {entries : List (CStr × Value)} {cap : Nat}
    (h125 : peek (skipWhitespaces s) ≠ 125)
    (hloop : parseObjectMembers pv (skipWhitespaces s).length ⟨[], 0⟩ (skipWhitespaces s) =
      some (⟨entries, cap⟩, 125 :: rest)) (hne : entries ≠ []) :
    parseObjectValue pv (123 :: s) = some (.object ⟨entries, entries.length⟩, rest) := by
  unfold parseObjectValue
  dsimp only [List.tail_cons]
  split
  · rename_i heq; simp [heq] at h125
  · rw [hloop]
    simp [skipWhitespaces, jsonObjectResize, JsonObject.count, hne,
      show isSpace 125 = false from rfl]

end Containers

/-! ## The dispatch -/

section Dispatch

variable (lib : Libc) (l : Nat)

theorem parseValue_gap {g : Bytes} (hg : ∀ c ∈ g, isSpace c) (s : Bytes) :
    parseValue lib (l + 1) (g ++ s) = parseValue lib (l + 1) s := by
  rw [parseValue.eq_2, parseValue.eq_2, skipWhitespaces_append hg]

theorem parseValue_object (t : Bytes) :
    parseValue lib (l + 1) (123 :: t) = parseObjectValue (parseValue lib l) (123 :: t) := rfl

theorem parseValue_array (t : Bytes) :
    parseValue lib (l + 1) (91 :: t) = parseArrayValue (parseValue lib l) (91 :: t) := rfl

theorem parseValue_string (t : Bytes) :
    parseValue lib (l + 1) (34 :: t) = parseStringValue (34 :: t) := rfl

theorem parseValue_number {x : UInt8} (hx : x = 45 ∨ isDigit x) (t : Bytes) :
    parseValue lib (l + 1) (x :: t) = parseNumberValue lib (x :: t) := by
  rcases hx with rfl | hx
  · rfl
  · have := (isDigit_iff x).mp hx
    have : x = 48 ∨ x = 49 ∨ x = 50 ∨ x = 51 ∨ x = 52 ∨ x = 53 ∨ x = 54 ∨ x = 55 ∨
        x = 56 ∨ x = 57 := by simp only [byte_eq_iff, UInt8.reduceToNat]; omega
    rcases this with rfl | rfl | rfl | rfl | rfl | rfl | rfl | rfl | rfl | rfl <;> rfl

end Dispatch

/-! ## Completeness -/

/-- `parse_value` reads every well-formed value it has the levels for, after any whitespace,
    and stops right after it: a container wherever it ends, a scalar before whatever may
    follow a value in a container. -/
theorem parseValue_text (lib : Libc) : ∀ (l : Nat) (c : Cst), c.Parsable →
    (c.value lib).levels ≤ l → ∀ {g : Bytes}, (∀ x ∈ g, isSpace x) → ∀ {rest : Bytes},
    c.IsContainer ∨ Follows rest →
    parseValue lib l (g ++ c.text ++ rest) = some ((c.value lib).toValue, rest)
  | 0, c, _, hl, _, _, _, _ => absurd hl (by have := (c.value lib).levels_pos; omega)
  | l + 1, c, hc, hl, g, hg, rest, hr => by
    rw [List.append_assoc, parseValue_gap lib l hg]
    obtain ⟨hloc, hstore⟩ := hc.self
    cases c with
    | null => exact parseNullValue_text rest
    | bool b => cases b; exacts [parseBooleanValue_false rest, parseBooleanValue_true rest]
    | string lit =>
      obtain ⟨d, hd⟩ := Option.isSome_iff_exists.mp hloc
      have hlit := litChars_of_decodeLit hd
      have h0 : peek rest ≠ 0 := (hr.resolve_left id).ne (by decide)
      simp only [Cst.text, List.cons_append, List.append_assoc, List.singleton_append,
        List.nil_append, parseValue_string, parseStringValue, getQuotedString_lit hlit h0,
        Option.map_some', Cst.value, Json.toValue, litValue_of_litChars hlit]
    | number tok =>
      obtain ⟨htok, hz⟩ := hloc
      obtain ⟨x, t, rfl, -, hx⟩ := htok.head
      rw [Cst.text, List.cons_append, parseValue_number lib l hx, ← List.cons_append]
      exact parseNumberValue_rfc lib htok hz (hr.resolve_left id)
    | object gap ms =>
      cases ms with
      | nil =>
        simp only [Cst.text, List.cons_append, List.append_assoc, List.singleton_append,
          List.nil_append, parseValue_object, parseObjectValue_empty hloc]
        rfl
      | cons m ms =>
        have hch := Cst.membersForall_iff.mp hc.2
        have hlv : ∀ j ∈ m :: ms, (j.value.value lib).levels ≤ l := by
          simp only [Cst.value, Json.levels, Nat.add_le_add_iff_right,
            Json.entriesLevels_le_iff, Cst.membersValue_eq_map, List.mem_map] at hl
          exact fun j hj => hl _ ⟨j, hj, rfl⟩
        have hmember := fun j (hj : j ∈ m :: ms) =>
          have h := hloc j hj
          And.intro h.1 <| And.intro h.2.1 <| And.intro h.2.2.1 <| And.intro h.2.2.2.1 <|
            And.intro h.2.2.2.2.2 fun r (hr : Follows r) =>
              parseValue_text lib l j.value (hch j hj) (hlv j hj) h.2.2.2.2.1 (Or.inr hr)
        have hopen := (hloc m (List.mem_cons_self _ _)).2.1
        obtain ⟨y, hy, hlen⟩ := skipWhitespaces_membersText (hloc m (List.mem_cons_self _ _)).1
          hopen.1 ms (125 :: rest)
        have hfuel := Cst.length_le_membersText ms
        obtain ⟨cap, hloop⟩ := parseObjectMembers_text lib rest (m :: ms) ⟨[], 0⟩
          (skipWhitespaces (Cst.membersText (m :: ms) ++ 125 :: rest)).length
          (List.cons_ne_nil _ _) hmember (by simpa using hstore.1)
          ⟨Nat.zero_le _, Nat.zero_le _⟩
          (Or.inl rfl) (by simpa [JsonObject.count] using hstore.2) (by rw [hy]; simp; omega)
        simp only [Cst.text, List.cons_append, List.append_assoc, List.singleton_append,
          List.nil_append, parseValue_object]
        rw [parseObjectValue_members (by rw [hy, peek_cons]; exact hopen.2.2) hloop
          (by simp [Cst.membersValue, Json.entriesToValue])]
        simp [Cst.value, Json.toValue, Json.entriesToValue_length]
    | array gap is =>
      cases is with
      | nil =>
        simp only [Cst.text, List.cons_append, List.append_assoc, List.singleton_append,
          List.nil_append, parseValue_array, parseArrayValue_empty hloc]
        rfl
      | cons i is =>
        have hch := Cst.itemsForall_iff.mp hc.2
        have hlv : ∀ j ∈ i :: is, (j.value.value lib).levels ≤ l := by
          simp only [Cst.value, Json.levels, Nat.add_le_add_iff_right, Json.itemsLevels_le_iff,
            Cst.itemsValue_eq_map, List.mem_map] at hl
          exact fun j hj => hl _ ⟨j, hj, rfl⟩
        have hitem := fun j (hj : j ∈ i :: is) =>
          And.intro (hloc j hj).1 <| And.intro (hloc j hj).2 <| And.intro
            (Cst.text_head (hch j hj).self.1) fun r (hr : Follows r) => by
              simpa using parseValue_text lib l j.value (hch j hj) (hlv j hj) (g := [])
                (by simp) (Or.inr hr)
        obtain ⟨x, t, ht, hx⟩ := Cst.text_head (hch i (List.mem_cons_self _ _)).self.1
        obtain ⟨y, hy, hlen⟩ :=
          skipWhitespaces_itemsText (hloc i (List.mem_cons_self _ _)).1 ht hx is (93 :: rest)
        have hfuel := @Cst.length_le_itemsText is fun j hj => by
          obtain ⟨x, t, ht, -⟩ := (hitem j (List.mem_cons_of_mem _ hj)).2.2.1
          simp [ht]
        obtain ⟨cap, hloop⟩ := parseArrayItems_text lib rest (i :: is) ⟨[], 0⟩
          (skipWhitespaces (Cst.itemsText (i :: is) ++ 93 :: rest)).length (List.cons_ne_nil _ _)
          hitem ⟨Nat.zero_le _, Nat.zero_le _⟩ (Or.inl rfl)
          (by simpa [JsonArray.count] using hstore) (by rw [hy]; simp; omega)
        simp only [Cst.text, List.cons_append, List.append_assoc, List.singleton_append,
          List.nil_append, parseValue_array]
        rw [parseArrayValue_items (by rw [hy]; exact startsValue_ne hx (by decide)) hloop
          (by simp [Cst.itemsValue, Json.itemsToValue])]
        simp [Cst.value, Json.toValue, Json.itemsToValue_length]

theorem Cst.IsContainer.text {c : Cst} (hc : c.IsContainer) :
    ∃ x t, c.text = x :: t ∧ (x = 123 ∨ x = 91) := by
  rcases c with _ | _ | _ | _ | ⟨gap, _ | _⟩ | ⟨gap, _ | _⟩
  all_goals first | exact absurd hc id | exact ⟨_, _, rfl, by decide⟩

/-- `json_parse_string` on a well-formed container with the levels it needs, after whitespace
    and before any bytes. -/
theorem jsonParseString_of_parsable (lib : Libc) {c : Cst} (hc : c.IsContainer)
    (hp : c.Parsable) (hl : (c.value lib).levels ≤ maxNesting + 1) {g rest : Bytes}
    (hg : parsable.gap g) {s : CStr} (hs : s.bytes = g ++ c.text ++ rest) :
    jsonParseString lib s = some (c.value lib).toValue := by
  have hread : parseValue lib (maxNesting + 1) ([] ++ c.text ++ rest) = _ :=
    parseValue_text lib (maxNesting + 1) c hp hl (by simp) (Or.inl hc)
  obtain ⟨x, t, ht, hx⟩ := hc.text
  have hsp : isSpace x = false := by rcases hx with rfl | rfl <;> rfl
  have hpeek : ¬ (x ≠ 123 ∧ x ≠ 91) := by rcases hx with rfl | rfl <;> simp
  rw [List.nil_append, ht] at hread
  simp only [jsonParseString, hs, List.append_assoc, skipWhitespaces_append hg, ht,
    List.cons_append, skipWhitespaces_of_not_space (s := x :: _) hsp, peek_cons, hpeek, if_false]
  rw [← List.cons_append, hread]
  rfl

/-- `{x":true}`: a key whose opening quote is missing is read, as the empty name, since
    `get_quoted_string` steps over its first byte without looking at it. -/
theorem key_without_quote_parsed (lib : Libc) :
    jsonParseString lib ⟨[123, 120, 34, 58, 116, 114, 117, 101, 125], by decide⟩ =
      some (.object ⟨[(CStr.empty, .boolean true)], 1⟩) :=
  rfl

/-- `json_parse_string` reads every RFC 4627 text whose root is a container, nested at most
    `MAX_NESTING` deep, with distinct names, within the caps and with no number token that
    `is_decimal` refuses, after any whitespace and before any bytes. -/
theorem jsonParseString_complete (lib : Libc) (c : Cst) (hc : c.IsContainer)
    (hwf : c.Forall fun n => rfc.Local n ∧ n.NoLeadingZero ∧ n.Storable)
    (hdepth : (c.value lib).depth ≤ maxNesting) (g rest : Bytes) (hg : rfc.gap g) (s : CStr)
    (hs : s.bytes = g ++ c.text ++ rest) :
    jsonParseString lib s = some (c.value lib).toValue :=
  jsonParseString_of_parsable lib hc
    (hwf.imp fun _ h => ⟨parsable_local_of_rfc h.1 h.2.1, h.2.2⟩)
    (by have := (c.value lib).levels_le_depth; omega) (parsable_gap_of_rfc hg) hs

theorem jsonParseString_complete_object :
    jsonParseString ⟨fun _ => Double.zero, fun _ => CStr.empty, fun _ _ => false⟩
        ⟨(Cst.object [] [⟨[32], 34, [97], [], [32], .array [] [⟨[], .bool true, []⟩], []⟩]).text,
          by decide⟩ =
      some (.object ⟨[(⟨[97], by decide⟩, .array ⟨[some (.boolean true)], 1⟩)], 1⟩) :=
  jsonParseString_complete _
    (.object [] [⟨[32], 34, [97], [], [32], .array [] [⟨[], .bool true, []⟩], []⟩]) trivial
    (by simp [Cst.Forall, Cst.membersForall, Cst.itemsForall, Dialect.Local, rfc, isRfcSpace,
      Cst.NoLeadingZero, Cst.Storable, arrayMaxCapacity, objectMaxCapacity, decodeLit])
    (by decide) [] [] (by simp [rfc]) _ (by simp)

end Parson
