import Parson.Theory.Completeness
import Parson.Theory.SerializeSize

/-!
# Serialized Texts Read Back

What the parser makes of the text the serializer prints.

Strings first. The serializer escapes `"`, `\` and the five control bytes `\b \f \n \r \t`
and prints every other byte as it is, while `process_string` refuses any raw byte below
`0x20`. So the text of a string reads back exactly when each of its bytes is escaped or from
`0x20` on (`printable`), and a string holding any other control byte serializes to a text the
parser rejects. Both directions are proved for every `NUL`-free string, on each of the two
readers: `decodeLit_escape` for the meaning RFC 4627 gives the text as a literal, and
`getQuotedString_serialized` for the code's `get_quoted_string`.

Numbers: an `int` is printed with `%d` (`numberText_ofInt`), and that text is an RFC 4627
number token `is_decimal` accepts (`decimalText_rfc`).

Then whole trees. The serializer's text of a document is the text of a syntax tree without
whitespace, `Cst.ofJson` (`jsonSerializeToBufferR_ofJson`; the emit pass looks each name up
again, which finds the entry's own value when names are distinct). When every string and name
is printable, every number an `int` and the limits are kept, that tree is one the parser
reads and it means the document (`Cst.ofJson_parsable`, `Cst.ofJson_value`), so the
completeness theorem of `Parson.Theory.Completeness` gives the round trip
(`serialize_then_parse`). The one assumption is on the C library: `strtod` reads back the text
`%d` prints, as a correctly rounded `strtod` does (`readDecimal` is such a reading).

The same tree is well formed in RFC 4627, not only in the dialect `json_parse_string` reads:
no whitespace, every key opened by `"`, and `%d` number tokens. So for every printable document
the serializer writes RFC 4627 JSON text, and the text means the document
(`jsonSerializeToString_rfc`).

## Main definitions

* `printable`: A byte whose serialized text reads back.
* `Json.Printable`: Documents the serializer prints readably.
* `Cst.ofJson`: The syntax tree of the serializer's text.
* `readDecimal`: The integer a `%d` text spells.

## Theorems

* `decodeLit_escape`: The serialized text is a literal exactly when every byte is printable.
* `getQuotedString_serialized`: `get_quoted_string` returns the string, or fails.
* `decimalText_rfc`: `%d` text is a number token the parser reads.
* `jsonSerializeToBufferR_ofJson`: The emit pass prints `Cst.ofJson`.
* `serialize_then_parse`: Serializing and parsing gives the tree back.
* `jsonSerializeToString_rfc`: The serializer writes RFC 4627 JSON text meaning the document.
-/

namespace Parson

/-- A byte the serializer prints so that it reads back: an escaped one, or one from `0x20`
    on. -/
def printable (c : UInt8) : Bool := mustEscape c || !(c < 0x20)

theorem escapeByte_of_not_mustEscape {c : UInt8} (h : mustEscape c = false) :
    escapeByte c = [c] := by
  simp only [mustEscape, Bool.or_eq_false_iff, beq_eq_false_iff_ne, ne_eq] at h
  unfold escapeByte
  split <;> simp_all

/-- The bytes `json_serialize_string` escapes, each printed as `\` and the letter
    `simpleEscape` maps back to it. -/
theorem mustEscape_cases {c : UInt8} (h : mustEscape c = true) :
    ∃ e, escapeByte c = [92, e] ∧ simpleEscape e = some c ∧ e ≠ 0 := by
  have : c = 34 ∨ c = 92 ∨ c = 8 ∨ c = 12 ∨ c = 10 ∨ c = 13 ∨ c = 9 := by
    simpa [mustEscape, or_assoc] using h
  rcases this with rfl | rfl | rfl | rfl | rfl | rfl | rfl <;> exact ⟨_, rfl, rfl, by decide⟩

theorem ne_of_not_mustEscape {c : UInt8} (h : mustEscape c = false) : c ≠ 34 ∧ c ≠ 92 := by
  constructor <;> rintro rfl <;> simp [mustEscape] at h

/-! ## The literal's meaning -/

theorem decodeLit_cons_of_ne {c : UInt8} (h : c ≠ 92) (t : Bytes) :
    decodeLit (c :: t) =
      if c < 0x20 ∨ c = 34 ∨ c = 92 then none else (decodeLit t).map (c :: ·) := by
  rw [decodeLit.eq_def]
  split <;> simp_all

theorem decodeLit_escapeByte_append (c : UInt8) (t : Bytes) :
    decodeLit (escapeByte c ++ t) = if printable c then (decodeLit t).map (c :: ·) else none := by
  cases hm : mustEscape c
  · obtain ⟨h34, h92⟩ := ne_of_not_mustEscape hm
    rw [escapeByte_of_not_mustEscape hm, List.singleton_append, decodeLit_cons_of_ne h92]
    by_cases hc : c < 0x20 <;> simp [printable, hm, h34, h92, hc]
  · obtain ⟨e, he, hb, -⟩ := mustEscape_cases hm
    rw [he, List.cons_append, List.singleton_append, decodeLit.eq_def]
    have hu : e ≠ 117 := by rintro rfl; cases hb
    simp [hu, hb, printable, hm]

/-- The serializer's text of a string is a literal exactly when every byte is printable, and
    then it means the string. -/
theorem decodeLit_escape (s : Bytes) :
    decodeLit (s.flatMap escapeByte) = if s.all printable then some s else none := by
  induction s with
  | nil => rfl
  | cons c s ih =>
    rw [List.flatMap_cons, decodeLit_escapeByte_append, ih]
    cases hc : printable c <;> cases hs : s.all printable <;> simp [hc, hs]

/-! ## The code's scan -/

theorem skipQuotesLoop_escapeByte {c : UInt8} (h0 : c ≠ 0) (t : Bytes) :
    skipQuotesLoop (escapeByte c ++ t) = skipQuotesLoop t := by
  cases hm : mustEscape c
  · obtain ⟨h34, h92⟩ := ne_of_not_mustEscape hm
    rw [escapeByte_of_not_mustEscape hm, List.singleton_append, skipQuotesLoop_plain h34 h0 h92]
  · obtain ⟨e, he, -, he0⟩ := mustEscape_cases hm
    rw [he, List.cons_append, List.singleton_append, skipQuotesLoop_escape he0]

/-- `skip_quotes` passes the whole serialized text and stops after the closing quote. -/
theorem skipQuotesLoop_serialized {s : Bytes} (h0 : (0 : UInt8) ∉ s) (rest : Bytes) :
    skipQuotesLoop (s.flatMap escapeByte ++ 34 :: rest) = rest := by
  induction s with
  | nil => rfl
  | cons c s ih =>
    rw [List.mem_cons, not_or] at h0
    rw [List.flatMap_cons, List.append_assoc, skipQuotesLoop_escapeByte (Ne.symm h0.1), ih h0.2]

theorem processString_control {fuel left : Nat} {c : UInt8} {t : Bytes} (h0 : c ≠ 0)
    (hl : left ≠ 0) (h20 : c < 0x20) : processString (fuel + 1) (c :: t) left = none := by
  have h92 : c ≠ 92 := by rintro rfl; exact absurd h20 (by decide)
  rw [processString.eq_def]
  simp [h0, hl, h92, h20]

theorem processString_escapeByte {c : UInt8} (h0 : c ≠ 0) {fuel left : Nat}
    (hl : (escapeByte c).length ≤ left) (t : Bytes) :
    processString (fuel + 1) (escapeByte c ++ t) left =
      if printable c then (processString fuel t (left - (escapeByte c).length)).map (c :: ·)
      else none := by
  cases hm : mustEscape c
  · obtain ⟨-, h92⟩ := ne_of_not_mustEscape hm
    rw [escapeByte_of_not_mustEscape hm] at hl ⊢
    have hl : left ≠ 0 := by simp at hl; omega
    by_cases hc : c < 0x20
    · simp [printable, hm, hc, processString_control h0 hl hc]
    · simp [printable, hm, hc, processString_raw h0 hl h92 hc]
  · obtain ⟨e, he, hb, -⟩ := mustEscape_cases hm
    rw [he] at hl ⊢
    rw [List.cons_append, List.singleton_append,
      processString_escape (show left ≠ 0 by simp at hl; omega) hb]
    simp [printable, hm]

/-- `process_string` over the serialized text: the string, when every byte is printable. -/
theorem processString_serialized {s : Bytes} (h0 : (0 : UInt8) ∉ s) :
    ∀ fuel, (s.flatMap escapeByte).length ≤ fuel → ∀ r,
      processString fuel (s.flatMap escapeByte ++ r) (s.flatMap escapeByte).length =
        if s.all printable then some s else none := by
  induction s with
  | nil => intro fuel _ r; exact processString_end (Or.inr rfl)
  | cons c s ih =>
    rw [List.mem_cons, not_or] at h0
    have hpos : 0 < (escapeByte c).length := by unfold escapeByte; split <;> simp
    rintro (_ | fuel) hf r <;> simp only [List.flatMap_cons, List.length_append] at hf
    · omega
    rw [List.flatMap_cons, List.append_assoc, processString_escapeByte (Ne.symm h0.1) (by simp),
      List.length_append, Nat.add_sub_cancel_left, ih h0.2 fuel (by omega)]
    cases hc : printable c <;> cases hs : s.all printable <;> simp [hc, hs]

/-- `get_quoted_string` on what `json_serialize_string` printed, followed by anything but the
    terminator: the string and the input after it when every byte is printable, and a failure
    otherwise. -/
theorem getQuotedString_serialized {s rest : Bytes} (h0 : (0 : UInt8) ∉ s)
    (hr : peek rest ≠ 0) :
    getQuotedString (jsonSerializeString s ++ rest) =
      if s.all printable then some (s, rest) else none := by
  unfold getQuotedString skipQuotes
  simp only [jsonSerializeString, List.cons_append, List.tail_cons, List.append_assoc,
    List.nil_append, skipQuotesLoop_serialized h0, hr, if_false]
  rw [show (34 :: (s.flatMap escapeByte ++ 34 :: rest)).length - rest.length - 2 =
    (s.flatMap escapeByte).length by simp; omega, processString_serialized h0 _ le_rfl]
  split <;> rfl

theorem getQuotedString_serialized_control :
    getQuotedString (jsonSerializeString [1] ++ [93]) = none :=
  (@getQuotedString_serialized [1] [93] (by decide) (by decide)).trans rfl

/-! ## Numbers -/

theorem numberText_ofInt (lib : Libc) {n : Int} (h1 : -2 ^ 31 ≤ n) (h2 : n < 2 ^ 31) :
    numberText lib (Double.ofInt n) = decimalText n := by
  rw [numberText, Double.truncate_ofInt h1 h2, if_pos (Double.beq_self (Double.isNaN_ofInt n))]

/-- `strtod` reads the text `%d` prints for an `int` as that `int`'s `double`, as a correctly
    rounded `strtod` does. -/
def Libc.ReadsInts (lib : Libc) : Prop :=
  ∀ n : Int, -2 ^ 31 ≤ n → n < 2 ^ 31 → lib.strtod (decimalText n) = Double.ofInt n

/-- The digits `%d` prints for a magnitude: `0`, or a nonzero leading digit and more digits. -/
theorem intPart_digits (a : Nat) :
    IntPart (if a = 0 then [48] else (Nat.digits 10 a).reverse.map fun d => (48 + d).toUInt8) := by
  split_ifs with ha
  · exact .inl rfl
  · right
    have hne : Nat.digits 10 a ≠ [] := Nat.digits_ne_nil_iff_ne_zero.mpr ha
    have hlast := Nat.getLast_digit_ne_zero 10 ha
    have hlt : ∀ d ∈ Nat.digits 10 a, d < 10 := fun d hd => Nat.digits_lt_base (by norm_num) hd
    rw [← List.dropLast_append_getLast hne, List.reverse_append, List.reverse_singleton,
      List.singleton_append, List.map_cons]
    have hl := hlt _ (List.getLast_mem hne)
    have hc := digitByte_toNat hl
    refine ⟨_, _, rfl, (by omega : 49 ≤ ((48 + (Nat.digits 10 a).getLast hne).toUInt8).toNat),
      (by omega : ((48 + (Nat.digits 10 a).getLast hne).toUInt8).toNat ≤ 57), ?_⟩
    · intro x hx
      obtain ⟨d, hd, rfl⟩ := List.mem_map.mp hx
      have hd := hlt d (List.mem_of_mem_dropLast (List.mem_reverse.mp hd))
      rw [isDigit_iff, digitByte_toNat hd]; omega

theorem IntPart.peek {i : Bytes} (hi : IntPart i) :
    peek i ≠ 45 ∧ (peek i = 48 → i = [48]) := by
  rcases hi with rfl | ⟨c, d, rfl, h1, -, -⟩
  · exact ⟨by decide, fun _ => rfl⟩
  · have h1 : 49 ≤ c.toNat := h1
    simp only [peek_cons, ne_eq, byte_eq_iff, UInt8.reduceToNat]
    exact ⟨by omega, fun h => absurd h (by omega)⟩

/-- An optional `-` and an integer part, with nothing after it, is a token `is_decimal`
    accepts. -/
theorem not_leadingZeroExp {s i : Bytes} (hs : s = [] ∨ s = [45]) (hi : IntPart i) :
    ¬ LeadingZeroExp (s ++ i) := by
  rintro ⟨m, e, hm, he, heq, -⟩
  obtain ⟨h45, h48⟩ := hi.peek
  have hzero : i = 48 :: e → False := fun h =>
    he (List.cons.inj ((h48 (by rw [h]; rfl)).symm.trans h)).2.symm
  rcases hs with rfl | rfl <;> rcases hm with rfl | rfl <;>
    simp only [List.nil_append, List.singleton_append, List.cons.injEq, true_and] at heq
  · exact hzero heq
  · exact h45 (by rw [heq]; rfl)
  · exact absurd heq.1 (by decide)
  · exact hzero heq

/-- What `%d` prints is an RFC 4627 number token that `is_decimal` accepts. -/
theorem decimalText_rfc (n : Int) :
    RfcNumber (decimalText n) ∧ ¬ LeadingZeroExp (decimalText n) := by
  have hs : (if n < 0 then ([45] : Bytes) else []) = [] ∨
      (if n < 0 then ([45] : Bytes) else []) = [45] := by
    split_ifs <;> simp
  exact ⟨⟨_, _, [], [], by simp only [decimalText, List.append_nil], hs,
    intPart_digits n.natAbs, .inl rfl, .inl rfl⟩, not_leadingZeroExp hs (intPart_digits _)⟩

/-! ## Documents the serializer prints readably -/

/-- Whether a document is an object or an array. -/
def Json.IsContainer : Json → Prop
  | .object _ | .array _ => True
  | _ => False

/-- One node the serializer prints so that the parser reads it back: its string and names
    printable, its number an `int`, its names distinct, and within the caps. -/
def Json.Printable : Json → Prop
  | .string s => s.bytes.all printable
  | .number x => ∃ n : Int, -2 ^ 31 ≤ n ∧ n < 2 ^ 31 ∧ x = Double.ofInt n
  | .object es => (es.map Prod.fst).Nodup ∧ es.length ≤ objectMaxCapacity ∧
      ∀ e ∈ es, e.1.bytes.all printable
  | .array js => js.length ≤ arrayMaxCapacity
  | _ => True

/-! ## The serializer's text as a tree -/

mutual

/-- The tree of the text the serializer prints for a document: no whitespace, and every
    string and name as `json_serialize_string` escapes it. -/
def Cst.ofJson (lib : Libc) : Json → Cst
  | .null => .null
  | .boolean b => .bool b
  | .string s => .string (s.bytes.flatMap escapeByte)
  | .number x => .number (numberText lib x)
  | .object es => .object [] (Cst.membersOfJson lib es)
  | .array js => .array [] (Cst.itemsOfJson lib js)

/-- `Cst.ofJson` on an object's entries. -/
def Cst.membersOfJson (lib : Libc) : List (CStr × Json) → List (Member Cst)
  | [] => []
  | (k, j) :: es =>
    ⟨[], 34, k.bytes.flatMap escapeByte, [], [], Cst.ofJson lib j, []⟩ ::
      Cst.membersOfJson lib es

/-- `Cst.ofJson` on an array's items. -/
def Cst.itemsOfJson (lib : Libc) : List Json → List (Item Cst)
  | [] => []
  | j :: js => ⟨[], Cst.ofJson lib j, []⟩ :: Cst.itemsOfJson lib js

end

variable (lib : Libc)

theorem Cst.membersOfJson_eq_map : ∀ es : List (CStr × Json), Cst.membersOfJson lib es =
    es.map fun e => ⟨[], 34, e.1.bytes.flatMap escapeByte, [], [], Cst.ofJson lib e.2, []⟩
  | [] => rfl
  | (_, _) :: es => by simp [Cst.membersOfJson, Cst.membersOfJson_eq_map es]

theorem Cst.itemsOfJson_eq_map : ∀ js : List Json,
    Cst.itemsOfJson lib js = js.map fun j => ⟨[], Cst.ofJson lib j, []⟩
  | [] => rfl
  | _ :: js => by simp [Cst.itemsOfJson, Cst.itemsOfJson_eq_map js]

/-- A printable name is what its serialized text means. -/
theorem litValue_escape {k : CStr} (h : k.bytes.all printable) :
    litValue (k.bytes.flatMap escapeByte) = k := by
  rw [litValue, decodeLit_escape, if_pos h]
  exact CStr.ext (cString_bytes_of_nul_free k.nul_free)

theorem Cst.membersText_eq : ∀ ms : List (Member Cst),
    Cst.membersText ms = commaSeparated (ms.map Cst.memberText)
  | [] => rfl
  | [_] => rfl
  | m :: n :: ns => by
    rw [Cst.membersText_cons_cons, Cst.membersText_eq (n :: ns)]
    rfl

theorem Cst.itemsText_eq : ∀ is : List (Item Cst),
    Cst.itemsText is = commaSeparated (is.map Cst.itemText)
  | [] => rfl
  | [_] => rfl
  | i :: j :: js => by
    rw [Cst.itemsText_cons_cons, Cst.itemsText_eq (j :: js)]
    rfl

theorem Cst.ofJson_object_text (es : List (CStr × Json)) :
    (Cst.ofJson lib (.object es)).text = 123 :: commaSeparated (es.map fun e =>
      jsonSerializeString e.1.bytes ++ 58 :: (Cst.ofJson lib e.2).text) ++ [125] := by
  have : (Cst.ofJson lib (.object es)).text =
      123 :: Cst.membersText (Cst.membersOfJson lib es) ++ [125] := by
    cases es <;> rfl
  rw [this, Cst.membersText_eq, Cst.membersOfJson_eq_map, List.map_map]
  congr 3
  exact List.map_congr_left fun e _ => by simp [Cst.memberText, jsonSerializeString]

theorem Cst.ofJson_array_text (js : List Json) :
    (Cst.ofJson lib (.array js)).text =
      91 :: commaSeparated (js.map fun j => (Cst.ofJson lib j).text) ++ [93] := by
  have : (Cst.ofJson lib (.array js)).text =
      91 :: Cst.itemsText (Cst.itemsOfJson lib js) ++ [93] := by
    cases js <;> rfl
  rw [this, Cst.itemsText_eq, Cst.itemsOfJson_eq_map, List.map_map]
  congr 3
  exact List.map_congr_left fun j _ => by simp [Cst.itemText]

theorem Value.entriesToJson?_cons {k : CStr} {v : Value} {es : List (CStr × Value)}
    {jes : List (CStr × Json)} (h : Value.entriesToJson? ((k, v) :: es) = some jes) :
    ∃ j js, v.toJson? = some j ∧ Value.entriesToJson? es = some js ∧ jes = (k, j) :: js := by
  simp only [Value.entriesToJson?, Option.bind_eq_bind, Option.bind_eq_some, Option.pure_def,
    Option.some.injEq] at h
  obtain ⟨j, hj, js, hjs, rfl⟩ := h
  exact ⟨j, js, hj, hjs, rfl⟩

theorem Value.itemsToJson?_cons {v : Option Value} {vs : List (Option Value)} {js : List Json}
    (h : Value.itemsToJson? (v :: vs) = some js) :
    ∃ w j js', v = some w ∧ w.toJson? = some j ∧ Value.itemsToJson? vs = some js' ∧
      js = j :: js' := by
  cases v with
  | none => simp [Value.itemsToJson?] at h
  | some w =>
    simp only [Value.itemsToJson?, Option.bind_eq_bind, Option.bind_eq_some, Option.pure_def,
      Option.some.injEq] at h
    obtain ⟨j, hj, js', hjs, rfl⟩ := h
    exact ⟨w, j, js', rfl, hj, hjs, rfl⟩

theorem Value.entriesToJson?_names : ∀ {es : List (CStr × Value)} {jes : List (CStr × Json)},
    Value.entriesToJson? es = some jes → es.map Prod.fst = jes.map Prod.fst
  | [], _, h => by cases h; rfl
  | (_, _) :: _, _, h => by
    obtain ⟨_, _, -, hjs, rfl⟩ := Value.entriesToJson?_cons h
    simp [Value.entriesToJson?_names hjs]

mutual

/-- For a document with distinct names, the emit pass writes the text of `Cst.ofJson`. -/
theorem jsonSerializeToBufferR_ofJson :
    ∀ (t : Value) {j : Json}, t.toJson? = some j → j.Forall Json.Printable →
      jsonSerializeToBufferR lib t = some (Cst.ofJson lib j).text
  | .null, _, h, _ => by cases h; rfl
  | .boolean b, _, h, _ => by cases h; cases b <;> rfl
  | .number _, _, h, _ => by cases h; rfl
  | .string _, _, h, _ => by cases h; rfl
  | .array a, _, h, hp => by
    obtain ⟨js, hjs, rfl⟩ := Option.map_eq_some'.mp h
    rw [jsonSerializeToBufferR, itemTexts_ofJson a.items hjs hp.2, Cst.ofJson_array_text]
    rfl
  | .object o, _, h, hp => by
    obtain ⟨jes, hjes, rfl⟩ := Option.map_eq_some'.mp h
    have hnodup : (o.entries.map Prod.fst).Nodup := by
      rw [Value.entriesToJson?_names hjes]; exact hp.1.1
    have hlook : ∀ e ∈ o.entries, jsonObjectGetValue
        (⟨entryTexts lib o.entries, o.capacity⟩ : JsonObject (Option Bytes)) e.1 =
          some (jsonSerializeToBufferR lib e.2) := fun e he => by
      rw [entryTexts_eq, jsonObjectGetValue_map _ _ _ o.capacity,
        (jsonObjectGetValue_eq_some_iff (o := ⟨o.entries, o.capacity⟩) hnodup e.1 e.2).mpr he]
      rfl
    rw [jsonSerializeToBufferR, entryTexts_ofJson o.entries _ hjes hp.2 hlook,
      Cst.ofJson_object_text]
    rfl

theorem itemTexts_ofJson :
    ∀ (items : List (Option Value)) {js : List Json}, Value.itemsToJson? items = some js →
      Json.itemsForall Json.Printable js →
      itemTexts lib items = some (js.map fun j => (Cst.ofJson lib j).text)
  | [], _, h, _ => by cases h; rfl
  | none :: _, _, h, _ => nomatch h
  | some w :: vs, _, h, hp => by
    obtain ⟨_, j, js, hw, hj, hjs, rfl⟩ := Value.itemsToJson?_cons h
    cases Option.some.inj hw
    simp only [itemTexts, jsonSerializeToBufferR_ofJson w hj hp.1, itemTexts_ofJson vs hjs hp.2]
    rfl

theorem entryTexts_ofJson :
    ∀ (es : List (CStr × Value)) (look : CStr → Option (Option Bytes))
      {jes : List (CStr × Json)}, Value.entriesToJson? es = some jes →
      Json.entriesForall Json.Printable jes →
      (∀ e ∈ es, look e.1 = some (jsonSerializeToBufferR lib e.2)) →
      es.mapM (fun e => memberText e.1 (look e.1)) = some (jes.map fun e =>
        jsonSerializeString e.1.bytes ++ 58 :: (Cst.ofJson lib e.2).text)
  | [], _, _, h, _, _ => by cases h; rfl
  | (k, v) :: es, look, _, h, hp, hl => by
    obtain ⟨j, js, hj, hjs, rfl⟩ := Value.entriesToJson?_cons h
    rw [List.mapM_cons, hl _ (List.mem_cons_self _ _), jsonSerializeToBufferR_ofJson v hj hp.1,
      entryTexts_ofJson es look hjs hp.2 fun e he => hl e (List.mem_cons_of_mem _ he)]
    rfl

end

/-! ## The tree's meaning and well-formedness -/

mutual

/-- The serializer's text means the document, when `strtod` reads `%d` texts back. -/
theorem Cst.ofJson_value (hlib : lib.ReadsInts) :
    ∀ {j : Json}, j.Forall Json.Printable → (Cst.ofJson lib j).value lib = j
  | .null, _ => rfl
  | .boolean _, _ => rfl
  | .string _, h => by rw [Cst.ofJson, Cst.value, litValue_escape h]
  | .number _, h => by
    obtain ⟨n, h1, h2, rfl⟩ := h
    rw [Cst.ofJson, Cst.value, numberText_ofInt lib h1 h2, hlib n h1 h2]
  | .object es, h => by rw [Cst.ofJson, Cst.value, Cst.membersValue_ofJson hlib h.1.2.2 h.2]
  | .array js, h => by rw [Cst.ofJson, Cst.value, Cst.itemsValue_ofJson hlib h.2]

theorem Cst.membersValue_ofJson (hlib : lib.ReadsInts) : ∀ {es : List (CStr × Json)},
    (∀ e ∈ es, e.1.bytes.all printable) → Json.entriesForall Json.Printable es →
    Cst.membersValue lib (Cst.membersOfJson lib es) = es
  | [], _, _ => rfl
  | (k, _) :: _, hk, h => by
    rw [Cst.membersOfJson, Cst.membersValue, litValue_escape (hk _ (List.mem_cons_self _ _)),
      Cst.ofJson_value hlib h.1,
      Cst.membersValue_ofJson hlib (fun e he => hk e (List.mem_cons_of_mem _ he)) h.2]

theorem Cst.itemsValue_ofJson (hlib : lib.ReadsInts) :
    ∀ {js : List Json}, Json.itemsForall Json.Printable js →
    Cst.itemsValue lib (Cst.itemsOfJson lib js) = js
  | [], _ => rfl
  | _ :: _, h => by
    rw [Cst.itemsOfJson, Cst.itemsValue, Cst.ofJson_value hlib h.1, Cst.itemsValue_ofJson hlib h.2]

end

mutual

/-- The serializer's text of a printable document is one the parser reads. -/
theorem Cst.ofJson_parsable :
    ∀ {j : Json}, j.Forall Json.Printable → (Cst.ofJson lib j).Parsable
  | .null, _ => ⟨trivial, trivial⟩
  | .boolean _, _ => ⟨trivial, trivial⟩
  | .string s, h => by
    have h : s.bytes.all printable = true := h
    refine ⟨?_, trivial⟩
    show (decodeLit (s.bytes.flatMap escapeByte)).isSome
    rw [decodeLit_escape, if_pos h]; rfl
  | .number _, h => by
    obtain ⟨n, h1, h2, rfl⟩ := h
    refine ⟨?_, trivial⟩
    show parsable.number (numberText lib (Double.ofInt n))
    rw [numberText_ofInt lib h1 h2]
    exact decimalText_rfc n
  | .object es, h => by
    have hnames : ((Cst.membersOfJson lib es).map fun m => litValue m.key) = es.map Prod.fst := by
      rw [Cst.membersOfJson_eq_map, List.map_map]
      exact List.map_congr_left fun e he => litValue_escape (h.1.2.2 e he)
    refine ⟨⟨?_, ?_⟩, Cst.membersForall_ofJson h.2⟩
    · cases es with
      | nil => exact fun _ h => absurd h (List.not_mem_nil _)
      | cons e es =>
        intro m hm
        have hm : m ∈ Cst.membersOfJson lib (e :: es) := hm
        rw [Cst.membersOfJson_eq_map] at hm
        obtain ⟨e, he, rfl⟩ := List.mem_map.mp hm
        refine ⟨List.forall_mem_nil _,
          ⟨rfl, (by decide : (34 : UInt8) ≠ 0), (by decide : (34 : UInt8) ≠ 125)⟩, ?_,
          List.forall_mem_nil _,
          List.forall_mem_nil _, List.forall_mem_nil _⟩
        rw [decodeLit_escape, if_pos (h.1.2.2 e he)]; rfl
    · rw [Cst.Storable, hnames, Cst.membersOfJson_eq_map, List.length_map]
      exact ⟨h.1.1, h.1.2.1⟩
  | .array js, h => by
    refine ⟨⟨?_, ?_⟩, Cst.itemsForall_ofJson h.2⟩
    · cases js with
      | nil => exact fun _ h => absurd h (List.not_mem_nil _)
      | cons j js =>
        intro i hi
        have hi : i ∈ Cst.itemsOfJson lib (j :: js) := hi
        rw [Cst.itemsOfJson_eq_map] at hi
        obtain ⟨j, -, rfl⟩ := List.mem_map.mp hi
        exact ⟨List.forall_mem_nil _, List.forall_mem_nil _⟩
    · rw [Cst.Storable, Cst.itemsOfJson_eq_map, List.length_map]
      exact h.1

theorem Cst.membersForall_ofJson : ∀ {es : List (CStr × Json)},
    Json.entriesForall Json.Printable es →
    Cst.membersForall (fun n => parsable.Local n ∧ n.Storable) (Cst.membersOfJson lib es)
  | [], _ => trivial
  | (_, _) :: _, h => ⟨Cst.ofJson_parsable h.1, Cst.membersForall_ofJson h.2⟩

theorem Cst.itemsForall_ofJson : ∀ {js : List Json}, Json.itemsForall Json.Printable js →
    Cst.itemsForall (fun n => parsable.Local n ∧ n.Storable) (Cst.itemsOfJson lib js)
  | [], _ => trivial
  | _ :: _, h => ⟨Cst.ofJson_parsable h.1, Cst.itemsForall_ofJson h.2⟩

end

/-! ## Serialize, then parse -/

/-- The integer a `%d` text spells: an optional `-`, then decimal digits. A correctly rounded
    `strtod` gives its `double` for such a text. -/
def readDecimal : Bytes → Int
  | 45 :: d => -((Nat.ofDigits 10 (d.map fun c => c.toNat - 48).reverse : Nat) : Int)
  | d => ((Nat.ofDigits 10 (d.map fun c => c.toNat - 48).reverse : Nat) : Int)

theorem ofDigits_decimal (a : Nat) :
    Nat.ofDigits 10 (((if a = 0 then [48] else
      (Nat.digits 10 a).reverse.map fun d => (48 + d).toUInt8)).map fun c => c.toNat - 48).reverse =
        a := by
  split_ifs with ha
  · rw [ha]; rfl
  · rw [List.map_map, List.map_congr_left (g := id) fun d hd => by
      simp only [Function.comp, digitByte_toNat
        (Nat.digits_lt_base (by norm_num) (List.mem_reverse.mp hd)), id]
      omega, List.map_id, List.reverse_reverse, Nat.ofDigits_digits]

/-- `%d` text reads back as the `int` it was printed from. -/
theorem readDecimal_decimalText (n : Int) : readDecimal (decimalText n) = n := by
  have hb := (intPart_digits n.natAbs).peek.1
  unfold decimalText
  by_cases hn : n < 0
  · rw [if_pos hn, List.singleton_append, readDecimal, ofDigits_decimal]; omega
  · rw [if_neg hn, List.nil_append, readDecimal.eq_def]
    split
    · rename_i heq; rw [heq] at hb; exact absurd rfl hb
    · rw [ofDigits_decimal]; omega

/-- A C library whose `strtod` reads `%d` texts exactly; the rest is left trivial. -/
def decimalLibc : Libc :=
  ⟨fun t => Double.ofInt (readDecimal t), fun _ => CStr.empty, fun _ _ => false⟩

theorem decimalLibc_readsInts : decimalLibc.ReadsInts :=
  fun n _ _ => congrArg Double.ofInt (readDecimal_decimalText n)

theorem Cst.ofJson_isContainer {j : Json} (h : j.IsContainer) :
    (Cst.ofJson lib j).IsContainer := by
  cases j <;> first | exact absurd h id | trivial

/-- Serializing a tree and parsing the text gives the tree back, stored as the parser stores
    it, when its slots are filled, its strings and names printable, its names distinct, its
    numbers `int`s, its counts within the caps and its nesting at most `MAX_NESTING`, provided
    `strtod` reads back the text `%d` prints. -/
theorem serialize_then_parse (hlib : lib.ReadsInts) {t : Value} {j : Json}
    (ht : t.toJson? = some j) (hc : j.IsContainer)
    (hp : j.Forall Json.Printable) (hd : j.depth ≤ maxNesting) :
    ∃ s, jsonSerializeToString lib t = some s ∧ jsonParseString lib s = some j.toValue := by
  have htext := jsonSerializeToBufferR_ofJson lib t ht hp
  have h0 := Cst.text_nul_free (Cst.ofJson_parsable lib hp)
  have hv := Cst.ofJson_value lib hlib hp
  have hread := jsonParseString_of_parsable lib (Cst.ofJson_isContainer lib hc)
    (Cst.ofJson_parsable lib hp) (by rw [hv]; have := j.levels_le_depth; omega) (g := [])
    (by simp [parsable]) (s := ⟨_, h0⟩)
    (by simp : (Cst.ofJson lib j).text = [] ++ (Cst.ofJson lib j).text ++ [])
  rw [hv] at hread
  exact ⟨_, jsonSerializeToString_of_emit lib htext h0, hread⟩

theorem serialize_then_parse_object :
    ∃ s, jsonSerializeToString decimalLibc
        (.object ⟨[(⟨[97], by decide⟩,
          .array ⟨[some (.number (Double.ofInt 7)), some .null], 4⟩)], 2⟩) = some s ∧
      jsonParseString decimalLibc s =
        some (Json.object
          [(⟨[97], by decide⟩, .array [.number (Double.ofInt 7), .null])]).toValue :=
  serialize_then_parse _ decimalLibc_readsInts rfl trivial
    (by refine ⟨⟨?_, ?_, ?_⟩, ⟨(?_ : 2 ≤ arrayMaxCapacity), ⟨7, ?_, ?_, rfl⟩, trivial,
      trivial⟩, trivial⟩ <;> decide)
    (by decide)

/-! ## The serializer writes RFC 4627 JSON -/

mutual

/-- The serializer's tree of a printable document is RFC 4627 JSON: nothing between tokens,
    keys opened by `"`, literals that decode, and `%d` numbers. -/
theorem Cst.ofJson_rfc : ∀ {j : Json}, j.Forall Json.Printable → (Cst.ofJson lib j).Forall rfc.Local
  | .null, _ | .boolean _, _ => trivial
  | .string s, h => by
    show (decodeLit (s.bytes.flatMap escapeByte)).isSome
    rw [decodeLit_escape, if_pos (show s.bytes.all printable = true from h)]; rfl
  | .number _, h => by
    obtain ⟨n, h1, h2, rfl⟩ := h
    show RfcNumber (numberText lib (Double.ofInt n))
    rw [numberText_ofInt lib h1 h2]
    exact (decimalText_rfc n).1
  | .object [], h => ⟨List.forall_mem_nil _, h.2⟩
  | .object (e :: es), h => by
    refine ⟨?_, Cst.membersForall_ofJson_rfc h.2⟩
    show ∀ m ∈ Cst.membersOfJson lib (e :: es), _
    rw [Cst.membersOfJson_eq_map]
    intro m hm
    obtain ⟨e, he, rfl⟩ := List.mem_map.mp hm
    refine ⟨List.forall_mem_nil _, rfl, ?_, List.forall_mem_nil _, List.forall_mem_nil _,
      List.forall_mem_nil _⟩
    rw [decodeLit_escape, if_pos (h.1.2.2 e he)]; rfl
  | .array [], h => ⟨List.forall_mem_nil _, h.2⟩
  | .array (j :: js), h => by
    refine ⟨?_, Cst.itemsForall_ofJson_rfc h.2⟩
    show ∀ i ∈ Cst.itemsOfJson lib (j :: js), _
    rw [Cst.itemsOfJson_eq_map]
    intro i hi
    obtain ⟨j, -, rfl⟩ := List.mem_map.mp hi
    exact ⟨List.forall_mem_nil _, List.forall_mem_nil _⟩

theorem Cst.membersForall_ofJson_rfc : ∀ {es : List (CStr × Json)},
    Json.entriesForall Json.Printable es → Cst.membersForall rfc.Local (Cst.membersOfJson lib es)
  | [], _ => trivial
  | (_, _) :: _, h => ⟨Cst.ofJson_rfc h.1, Cst.membersForall_ofJson_rfc h.2⟩

theorem Cst.itemsForall_ofJson_rfc : ∀ {js : List Json}, Json.itemsForall Json.Printable js →
    Cst.itemsForall rfc.Local (Cst.itemsOfJson lib js)
  | [], _ => trivial
  | _ :: _, h => ⟨Cst.ofJson_rfc h.1, Cst.itemsForall_ofJson_rfc h.2⟩

end

/-- A string holding the byte `0x01` serializes, in an array, to a text that
    `json_parse_string` rejects. -/
theorem serialize_control_byte_not_parsed (lib : Libc) :
    jsonSerializeToString lib (.array ⟨[some (.string ⟨[1], by decide⟩)], 1⟩) =
      some ⟨[91, 34, 1, 34, 93], by decide⟩ ∧
    jsonParseString lib ⟨[91, 34, 1, 34, 93], by decide⟩ = none :=
  ⟨rfl, rfl⟩

end Parson
