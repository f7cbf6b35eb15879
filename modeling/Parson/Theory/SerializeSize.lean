import Parson.Theory.ObjectModel
import Parson.Core.Serializer

/-!
# The Size Pass Predicts the Emit Pass

`json_serialize_to_buffer` trusts `json_serialization_size`: it checks the buffer against the
size pass and then lets the emit pass write without bounds. Both are recursive walks written
separately, so their agreement is a fact about every tree, and a one-byte disagreement
anywhere would be an overrun.

The two passes agree node by node. A string's escaped length is `parson_strlen` because the
set `parson_strlen` counts as two bytes is exactly the set `json_serialize_string` escapes
(`escapeByte_length`). A container's separators are `count - 1` commas, and for an object
`count` colons more. An object's value is reached by looking its name up again, in both
passes, and looking up in the table of per-entry sizes or texts is the same as looking up the
value and then measuring or printing it (`jsonObjectGetValue_map`); the value found is one of
the object's entries, which is what the induction needs. Nothing here needs the names to be
distinct.

When every array slot is filled, then, the emit pass succeeds and writes
`json_serialization_size - 1` bytes, none of them `NUL`, and the public functions follow.

## Theorems

* `jsonSerializeString_length`: A string's text is `parson_strlen` plus two quotes long.
* `commaSeparated_length`: Joining adds one comma fewer than there are items.
* `jsonObjectGetValue_map`: Looking up in a table of results of a function.
* `emitsSized_of_filled`: The emit pass writes what the size pass counts.
* `serialization_passes_agree`: The size pass bounds every write of the public functions.
-/

namespace Parson

variable {α β : Type}

/-! ## Strings and separators -/

theorem escapeByte_length (c : UInt8) :
    (escapeByte c).length = if mustEscape c then 2 else 1 := by
  unfold escapeByte
  split <;> simp_all [mustEscape]

theorem escapeByte_nul_free {c : UInt8} (h : c ≠ 0) : (0 : UInt8) ∉ escapeByte c := by
  unfold escapeByte
  split <;> simp_all [Ne.symm h]

theorem jsonSerializeString_length (s : Bytes) :
    (jsonSerializeString s).length = parsonStrlen s + 2 := by
  induction s with
  | nil => rfl
  | cons c s ih =>
    simp only [jsonSerializeString, List.length_cons, List.length_append, List.flatMap_cons,
      parsonStrlen, List.map_cons, List.sum_cons] at ih ⊢
    rw [escapeByte_length]
    omega

theorem jsonSerializeString_nul_free {s : Bytes} (h : (0 : UInt8) ∉ s) :
    (0 : UInt8) ∉ jsonSerializeString s := by
  intro h0
  simp only [jsonSerializeString, List.mem_cons, List.mem_append, List.mem_flatMap] at h0
  rcases h0 with (h0 | ⟨c, hc, h0⟩) | h0
  · exact absurd h0 (by decide)
  · exact escapeByte_nul_free (fun e => h (e ▸ hc)) h0
  · exact absurd h0 (by decide)

theorem commaSeparated_length (ts : List Bytes) :
    (commaSeparated ts).length = (ts.map List.length).sum + (ts.length - 1) := by
  induction ts with
  | nil => rfl
  | cons t ts ih =>
    cases ts with
    | nil => simp [commaSeparated]
    | cons u us => simp [commaSeparated] at ih ⊢; omega

theorem commaSeparated_nul_free {ts : List Bytes} (h : ∀ t ∈ ts, (0 : UInt8) ∉ t) :
    (0 : UInt8) ∉ commaSeparated ts := by
  induction ts with
  | nil => simp [commaSeparated]
  | cons t ts ih =>
    have ht := h t (by simp)
    have hts := ih fun u hu => h u (List.mem_cons_of_mem _ hu)
    cases ts with
    | nil => simpa [commaSeparated] using ht
    | cons u us => simp_all [commaSeparated]

theorem bracketed_nul_free {body : Bytes} (h : (0 : UInt8) ∉ body) {o c : UInt8} (ho : o ≠ 0)
    (hc : c ≠ 0) : (0 : UInt8) ∉ o :: body ++ [c] := by
  simp only [List.cons_append, List.mem_cons, List.mem_append, List.mem_singleton, not_or]
  exact ⟨Ne.symm ho, h, Ne.symm hc, List.not_mem_nil _⟩

/-! ## Numbers -/

theorem digitByte_toNat {d : Nat} (hd : d < 10) : ((48 + d).toUInt8).toNat = 48 + d := by
  show (48 + d) % 256 = 48 + d
  omega

theorem decimalText_nul_free (n : Int) : (0 : UInt8) ∉ decimalText n := by
  unfold decimalText
  intro h
  simp only [List.mem_append] at h
  rcases h with h | h
  · split at h <;> simp_all
  · split at h
    · simp_all
    · obtain ⟨d, hd, he⟩ := List.mem_map.mp h
      have := digitByte_toNat (Nat.digits_lt_base (by norm_num) (List.mem_reverse.mp hd))
      rw [he] at this
      exact absurd this (by show ¬ 0 = 48 + d; omega)

theorem numberText_nul_free (lib : Libc) (x : Double) : (0 : UInt8) ∉ numberText lib x := by
  unfold numberText
  split
  · exact decimalText_nul_free _
  · exact (lib.printFloat x).nul_free

/-! ## Looking values up again -/

theorem jsonObjectGetValue_map (es : List (CStr × α)) (f : α → β) (c c' : Nat) (k : CStr) :
    jsonObjectGetValue (⟨es.map fun e => (e.1, f e.2), c⟩ : JsonObject β) k =
      (jsonObjectGetValue (⟨es, c'⟩ : JsonObject α) k).map f := by
  simp only [jsonObjectGetValue_eq_find, List.find?_map, Option.map_map]
  rfl

theorem jsonObjectGetValue_mem {o : JsonObject α} {k : CStr} {v : α}
    (h : jsonObjectGetValue o k = some v) : (k, v) ∈ o.entries := by
  rw [jsonObjectGetValue_eq_find] at h
  obtain ⟨e, he, rfl⟩ := Option.map_eq_some'.mp h
  have := List.find?_some he
  simp only [beq_iff_eq] at this
  exact this ▸ List.mem_of_find?_eq_some he

theorem entrySizes_eq (lib : Libc) (es : List (CStr × Value)) :
    entrySizes lib es = es.map fun e => (e.1, jsonSerializationSizeR lib e.2) := by
  induction es with
  | nil => rfl
  | cons e es ih => simp [entrySizes, ih]

theorem entryTexts_eq (lib : Libc) (es : List (CStr × Value)) :
    entryTexts lib es = es.map fun e => (e.1, jsonSerializeToBufferR lib e.2) := by
  induction es with
  | nil => rfl
  | cons e es ih => simp [entryTexts, ih]

theorem mapM_some {f : β → Option Bytes} {g : β → Nat} :
    ∀ {l : List β}, (∀ x ∈ l, ∃ y, f x = some y ∧ y.length = g x ∧ (0 : UInt8) ∉ y) →
      ∃ ys, l.mapM f = some ys ∧ ys.map List.length = l.map g ∧ ∀ y ∈ ys, (0 : UInt8) ∉ y
  | [], _ => ⟨[], rfl, rfl, by simp⟩
  | x :: xs, h => by
    obtain ⟨y, hy, hl, hn⟩ := h x (by simp)
    obtain ⟨ys, hys, hls, hns⟩ := mapM_some fun x hx => h x (List.mem_cons_of_mem _ hx)
    refine ⟨y :: ys, by rw [List.mapM_cons, hy, hys]; rfl, by simp [hl, hls], ?_⟩
    simp only [List.mem_cons, forall_eq_or_imp]
    exact ⟨hn, hns⟩

theorem sum_map_add_one (l : List β) (g : β → Nat) :
    (l.map fun x => g x + 1).sum = (l.map g).sum + l.length := by
  induction l with
  | nil => rfl
  | cons x xs ih => simp [ih]; omega

/-! ## The two passes -/

/-- The emit pass writes `out`, as many bytes as the size pass counts, none of them `NUL`. -/
def EmitsSized (lib : Libc) (t : Value) : Prop :=
  ∃ out, jsonSerializeToBufferR lib t = some out ∧ out.length = jsonSerializationSizeR lib t ∧
    (0 : UInt8) ∉ out

/-- A member's text, for a name that looks up a value the emit pass handles. -/
theorem memberText_sized (lib : Libc) (o : JsonObject Value) {e : CStr × Value}
    (he : e ∈ o.entries) (hall : ∀ e ∈ o.entries, EmitsSized lib e.2) :
    ∃ y, memberText e.1 (jsonObjectGetValue
          (⟨entryTexts lib o.entries, o.capacity⟩ : JsonObject (Option Bytes)) e.1) = some y ∧
      y.length = parsonStrlen e.1.bytes + 2 + (jsonObjectGetValue
          (⟨entrySizes lib o.entries, o.capacity⟩ : JsonObject Nat) e.1).getD 0 + 1 ∧
      (0 : UInt8) ∉ y := by
  obtain ⟨v, hv⟩ := Option.isSome_iff_exists.mp
    ((jsonObjectGetValue_isSome_iff o e.1).mpr (List.mem_map_of_mem _ he))
  obtain ⟨out, hout, hlen, hnul⟩ := hall _ (jsonObjectGetValue_mem hv)
  have hv' : jsonObjectGetValue (⟨o.entries, o.capacity⟩ : JsonObject Value) e.1 = some v := hv
  rw [entryTexts_eq, entrySizes_eq, jsonObjectGetValue_map _ _ _ o.capacity,
    jsonObjectGetValue_map _ _ _ o.capacity, hv']
  refine ⟨jsonSerializeString e.1.bytes ++ 58 :: out, by simp [hout, memberText], ?_, ?_⟩
  · simp [jsonSerializeString_length, hlen]; omega
  · simp only [List.mem_append, List.mem_cons, not_or]
    exact ⟨jsonSerializeString_nul_free e.1.nul_free, by decide, hnul⟩

mutual

theorem emitsSized_of_filled (lib : Libc) : ∀ t : Value, t.toJson?.isSome → EmitsSized lib t
  | .null, _ => ⟨_, rfl, rfl, by decide⟩
  | .boolean b, _ => by cases b <;> exact ⟨_, rfl, rfl, by decide⟩
  | .number x, _ => ⟨_, rfl, rfl, numberText_nul_free lib x⟩
  | .string s, _ =>
    ⟨_, rfl, jsonSerializeString_length _, jsonSerializeString_nul_free s.nul_free⟩
  | .array a, h => by
    obtain ⟨ts, hts, hlen, hcount, hnul⟩ :=
      itemTexts_of_filled lib a.items (by simpa [Value.toJson?] using h)
    refine ⟨91 :: commaSeparated ts ++ [93], by simp [jsonSerializeToBufferR, hts], ?_, ?_⟩
    · simp only [jsonSerializationSizeR, JsonArray.count, List.length_cons, List.length_append,
        commaSeparated_length, hlen, hcount, List.length_singleton, List.length_nil]
      split <;> omega
    · exact bracketed_nul_free (commaSeparated_nul_free hnul) (by decide) (by decide)
  | .object o, h => by
    have hall := entries_of_filled lib o.entries (by simpa [Value.toJson?] using h)
    obtain ⟨ys, hys, hl, hn⟩ := mapM_some fun e he => memberText_sized lib o he hall
    refine ⟨123 :: commaSeparated ys ++ [125],
      by simp only [jsonSerializeToBufferR, hys, Option.map_some'], ?_, ?_⟩
    · have hys_len : ys.length = o.entries.length := by simpa using congrArg List.length hl
      simp only [jsonSerializationSizeR, JsonObject.count, List.length_cons, List.length_append,
        commaSeparated_length, hl, hys_len, List.length_singleton, sum_map_add_one,
        List.length_nil]
      split <;> omega
    · exact bracketed_nul_free (commaSeparated_nul_free hn) (by decide) (by decide)

theorem itemTexts_of_filled (lib : Libc) :
    ∀ items : List (Option Value), (Value.itemsToJson? items).isSome →
      ∃ ts, itemTexts lib items = some ts ∧ (ts.map List.length).sum = itemSizes lib items ∧
        ts.length = items.length ∧ ∀ t ∈ ts, (0 : UInt8) ∉ t
  | [], _ => ⟨[], rfl, rfl, rfl, by simp⟩
  | none :: _, h => by simp [Value.itemsToJson?] at h
  | some v :: vs, h => by
    have hv : v.toJson?.isSome := by
      simp only [Value.itemsToJson?] at h
      cases hj : v.toJson? <;> simp_all
    have hvs : (Value.itemsToJson? vs).isSome := by
      simp only [Value.itemsToJson?] at h
      cases hj : Value.itemsToJson? vs <;> simp_all
    obtain ⟨out, hout, hlen, hnul⟩ := emitsSized_of_filled lib v hv
    obtain ⟨ts, hts, hsum, hcount, hnuls⟩ := itemTexts_of_filled lib vs hvs
    refine ⟨out :: ts, by simp [itemTexts, hout, hts], by simp [itemSizes, hlen, hsum],
      by simp [hcount], ?_⟩
    simp only [List.mem_cons, forall_eq_or_imp]
    exact ⟨hnul, hnuls⟩

theorem entries_of_filled (lib : Libc) :
    ∀ es : List (CStr × Value), (Value.entriesToJson? es).isSome →
      ∀ e ∈ es, EmitsSized lib e.2
  | [], _ => by simp
  | (k, v) :: es, h => by
    have hv : v.toJson?.isSome := by
      simp only [Value.entriesToJson?] at h
      cases hj : v.toJson? <;> simp_all
    have hes : (Value.entriesToJson? es).isSome := by
      simp only [Value.entriesToJson?] at h
      cases hj : Value.entriesToJson? es <;> simp_all
    simp only [List.mem_cons, forall_eq_or_imp]
    exact ⟨emitsSized_of_filled lib v hv, entries_of_filled lib es hes⟩

end

theorem cString_append_nul {out : Bytes} (h : (0 : UInt8) ∉ out) (rest : Bytes) :
    (cString (out ++ 0 :: rest)).bytes = out := by
  show List.takeWhile _ _ = out
  rw [List.takeWhile_append_of_pos (fun a ha => by simpa using fun e : a = 0 => h (e ▸ ha))]
  simp

/-- `json_serialize_to_string` returns what the emit pass prints. -/
theorem jsonSerializeToString_of_emit (lib : Libc) {t : Value} {out : Bytes}
    (hout : jsonSerializeToBufferR lib t = some out) (h0 : (0 : UInt8) ∉ out) :
    jsonSerializeToString lib t = some ⟨out, h0⟩ := by
  simp only [jsonSerializeToString, jsonSerializeToBuffer, List.length_replicate, lt_irrefl,
    if_false, hout]
  exact congrArg some (CStr.ext (cString_append_nul h0 _))

/-- What the serializer's public functions do with a tree, measured against
    `json_serialization_size`. -/
structure SerializationAgrees (lib : Libc) (t : Value) : Prop where
  /-- `json_serialize_to_buffer_r` writes `json_serialization_size - 1` bytes (and then its
      terminator), -/
  emit : ∃ out, jsonSerializeToBufferR lib t = some out ∧
    out.length = jsonSerializationSize lib t - 1
  /-- so `json_serialize_to_buffer` succeeds in every buffer of at least that size and writes
      nothing past it, -/
  buffer : ∀ buf : Bytes, jsonSerializationSize lib t ≤ buf.length →
    ∃ out, (out ++ [0]).length = jsonSerializationSize lib t ∧
      jsonSerializeToBuffer lib t buf =
        (.success, out ++ 0 :: buf.drop (jsonSerializationSize lib t))
  /-- and `json_serialize_to_string` returns a string one byte shorter than the size. -/
  string : ∃ s, jsonSerializeToString lib t = some s ∧ s.length = jsonSerializationSize lib t - 1

/-- For a tree whose array slots are all filled, the size pass predicts the emit pass. -/
theorem serialization_passes_agree (lib : Libc) (t : Value) (ht : t.toJson?.isSome) :
    SerializationAgrees lib t := by
  obtain ⟨out, hout, hlen, hnul⟩ := emitsSized_of_filled lib t ht
  have hsize : jsonSerializationSize lib t = out.length + 1 := by
    rw [jsonSerializationSize, hlen]
  have hbuf : ∀ buf : Bytes, jsonSerializationSize lib t ≤ buf.length →
      jsonSerializeToBuffer lib t buf = (.success, out ++ 0 :: buf.drop (out.length + 1)) :=
    fun buf hb => by simp [jsonSerializeToBuffer, Nat.not_lt.mpr hb, hout]
  refine ⟨⟨out, hout, by omega⟩, fun buf hb => ⟨out, by simp [hsize], by rw [hbuf buf hb, hsize]⟩,
    ⟨⟨out, hnul⟩, jsonSerializeToString_of_emit lib hout hnul, ?_⟩⟩
  show out.length = _
  omega

theorem serialization_passes_agree_nested :
    (Value.object ⟨[(CStr.empty, .array ⟨[some .null, some (.boolean false)], 2⟩)], 1⟩).toJson?.isSome ∧
      SerializationAgrees ⟨fun _ => Double.zero, fun _ => CStr.empty, fun _ _ => false⟩
        (.object ⟨[(CStr.empty, .array ⟨[some .null, some (.boolean false)], 2⟩)], 1⟩) :=
  ⟨rfl, serialization_passes_agree _ _ rfl⟩

end Parson
