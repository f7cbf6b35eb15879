import Parson.Core.Comments
import Parson.Theory.Limits

/-!
# What the Comment Stripper Leaves

`remove_comments` overwrites bytes of its buffer with spaces and never moves one
(`removeComments_blanked`). The text `json_parse_string_with_comments` parses is therefore a
C string again, and the function is `json_parse_string` of it
(`jsonParseStringWithComments_eq`). What is proved of `json_parse_string` carries over: the
nesting bound holds for both entry points (`parsed_depth_le`), and on a text with no `/*` and
no `//` the two agree (`jsonParseStringWithComments_of_comment_free`).

The two passes do not agree on where strings are. Each scan tracks quotes on its own, and the
block pass does not know line comments: a `"` inside a `//` comment opens a string for it, and
what that pass then takes for a comment can lie inside a real string, which it blanks
(`line_comment_quote`).

## Main definitions

* `Blanked`: One text is another with some bytes overwritten by spaces.
* `stripComments`: The text both passes leave, as a C string.

## Theorems

* `removeCommentsLoop_blanked`: A pass only writes spaces.
* `removeCommentsLoop_of_not_infix`: A pass over a text without its start token changes
  nothing.
* `jsonParseStringWithComments_eq`: The entry point parses what the passes leave.
-/

namespace Parson

/-- `t` is `s` with some of its bytes overwritten by spaces. -/
def Blanked (s t : Bytes) : Prop := List.Forall₂ (fun a b => b = a ∨ b = 32) s t

theorem Blanked.refl (s : Bytes) : Blanked s s := List.forall₂_same.mpr fun _ _ => .inl rfl

theorem Blanked.append {s t s' t' : Bytes} (h : Blanked s t) (h' : Blanked s' t') :
    Blanked (s ++ s') (t ++ t') :=
  List.rel_append h h'

theorem blanked_replicate : ∀ s : Bytes, Blanked s (List.replicate s.length 32)
  | [] => .nil
  | _ :: s => .cons (.inr rfl) (blanked_replicate s)

theorem Blanked.nul_free {s t : Bytes} (h : Blanked s t) (h0 : (0 : UInt8) ∉ s) :
    (0 : UInt8) ∉ t := by
  induction h with
  | nil => exact List.not_mem_nil _
  | cons hab _ ih =>
    rw [List.mem_cons, not_or] at h0 ⊢
    refine ⟨?_, ih h0.2⟩
    rcases hab with rfl | rfl
    exacts [h0.1, by decide]

/-- `strstr` finds the token within the text. -/
theorem strstr_le {tok : Bytes} : ∀ {s : Bytes} {k : Nat},
    strstr s tok = some k → k + tok.length ≤ s.length
  | s, k, h => by
    unfold strstr at h
    split_ifs at h with hp
    · cases h
      simpa using (List.isPrefixOf_iff_prefix.mp hp).length_le
    · match s, h with
      | _ :: t, h =>
        obtain ⟨k', hk, rfl⟩ := Option.map_eq_some'.mp h
        have := strstr_le hk
        simp only [List.length_cons]; omega

/-! ## One pass -/

section Pass

variable (start stop : Bytes)

/-- A pass overwrites bytes with spaces and moves none. -/
theorem removeCommentsLoop_blanked :
    ∀ fuel inString escaped s, Blanked s (removeCommentsLoop start stop fuel inString escaped s)
  | 0, _, _, s => Blanked.refl s
  | _ + 1, _, _, [] => .nil
  | fuel + 1, inString, escaped, c :: s => by
    have ih := removeCommentsLoop_blanked fuel
    rw [removeCommentsLoop]
    split_ifs with h92 h34 hstart
    · exact .cons (.inl h92.1.symm) (ih _ _ _)
    · exact .cons (.inl h34.1.symm) (ih _ _ _)
    · have hle := (List.isPrefixOf_iff_prefix.mp hstart.2).length_le
      dsimp only
      split
      · have := (blanked_replicate ((c :: s).take start.length)).append
          (Blanked.refl ((c :: s).drop start.length))
        rwa [List.take_append_drop, List.length_take_of_le hle] at this
      · rename_i k hk
        have hk := strstr_le hk
        rw [List.length_drop] at hk
        have := (blanked_replicate ((c :: s).take (start.length + (k + stop.length)))).append
          (ih inString false ((c :: s).drop (start.length + (k + stop.length))))
        rw [List.drop_drop]
        rwa [List.take_append_drop, List.length_take_of_le (by omega)] at this
    · exact .cons (.inl rfl) (ih _ _ _)

/-- A pass over a text in which its start token does not occur changes nothing. -/
theorem removeCommentsLoop_of_not_infix :
    ∀ fuel inString escaped s, ¬ start <:+: s →
      removeCommentsLoop start stop fuel inString escaped s = s
  | 0, _, _, _, _ => rfl
  | _ + 1, _, _, [], _ => rfl
  | fuel + 1, inString, escaped, c :: s, h => by
    have ih := removeCommentsLoop_of_not_infix fuel
    have hs : ¬ start <:+: s := fun hi => h (hi.trans (List.suffix_cons c s).isInfix)
    rw [removeCommentsLoop]
    split_ifs with h92 h34 hstart
    · rw [ih _ _ _ hs, h92.1]
    · rw [ih _ _ _ hs, h34.1]
    · exact absurd (List.isPrefixOf_iff_prefix.mp hstart.2).isInfix h
    · rw [ih _ _ _ hs]

theorem removeComments_blanked (s : Bytes) : Blanked s (removeComments s start stop) := by
  unfold removeComments
  split_ifs
  exacts [Blanked.refl s, removeCommentsLoop_blanked start stop _ _ _ s]

theorem removeComments_of_not_infix {s : Bytes} (h : ¬ start <:+: s) :
    removeComments s start stop = s := by
  unfold removeComments
  split_ifs
  exacts [rfl, removeCommentsLoop_of_not_infix start stop _ _ _ s h]

end Pass

/-! ## Both passes -/

/-- The text the two passes of `json_parse_string_with_comments` leave: a C string, since each
    pass only writes spaces. -/
def stripComments (s : CStr) : CStr :=
  ⟨removeComments (removeComments s.bytes (Bytes.ofString "/*") (Bytes.ofString "*/"))
      (Bytes.ofString "//") (Bytes.ofString "\n"),
    (removeComments_blanked _ _ _).nul_free ((removeComments_blanked _ _ _).nul_free s.nul_free)⟩

theorem jsonParseStringWithComments_eq (lib : Libc) (s : CStr) :
    jsonParseStringWithComments lib s = jsonParseString lib (stripComments s) :=
  rfl

/-- Both entry points return trees at most `MAX_NESTING + 1` containers deep. -/
theorem parsed_depth_le {lib : Libc} {s : CStr} {v : Value}
    (h : jsonParseString lib s = some v ∨ jsonParseStringWithComments lib s = some v) :
    v.depth ≤ maxNesting + 1 :=
  h.elim jsonParseString_depth_le fun h =>
    jsonParseString_depth_le ((jsonParseStringWithComments_eq lib s).symm.trans h)

theorem parsed_depth_le_empty_array :
    jsonParseStringWithComments ⟨fun _ => Double.zero, fun _ => CStr.empty, fun _ _ => false⟩
        ⟨[91, 93], by decide⟩ = some (.array ⟨[], 0⟩) ∧
      (Value.array ⟨[], 0⟩).depth ≤ maxNesting + 1 :=
  ⟨rfl, @parsed_depth_le ⟨fun _ => Double.zero, fun _ => CStr.empty, fun _ _ => false⟩
    ⟨[91, 93], by decide⟩ _ (.inr (by rfl))⟩

/-- On a text with no `/*` and no `//` the two entry points agree. -/
theorem jsonParseStringWithComments_of_comment_free (lib : Libc) {s : CStr}
    (hb : ¬ Bytes.ofString "/*" <:+: s.bytes) (hl : ¬ Bytes.ofString "//" <:+: s.bytes) :
    jsonParseStringWithComments lib s = jsonParseString lib s := by
  rw [jsonParseStringWithComments_eq]
  congr 1
  ext1
  simp only [stripComments, removeComments_of_not_infix _ _ hb, removeComments_of_not_infix _ _ hl]

theorem jsonParseStringWithComments_of_comment_free_array :
    jsonParseStringWithComments ⟨fun _ => Double.zero, fun _ => CStr.empty, fun _ _ => false⟩
        ⟨[91, 93], by decide⟩ =
      jsonParseString ⟨fun _ => Double.zero, fun _ => CStr.empty, fun _ _ => false⟩
        ⟨[91, 93], by decide⟩ :=
  jsonParseStringWithComments_of_comment_free _ (by decide) (by decide)

/-- A line comment holding a quote, inserted after the `[` of `["/**/"]`: the block pass takes
    the quote for the start of a string, so the string's `/**/` looks like a comment to it and
    is blanked. -/
theorem line_comment_quote (lib : Libc) :
    jsonParseStringWithComments lib
        ⟨[91, 47, 47, 32, 34, 10, 34, 47, 42, 42, 47, 34, 93], by decide⟩ =
      some (.array ⟨[some (.string ⟨[32, 32, 32, 32], by decide⟩)], 1⟩) ∧
    jsonParseString lib ⟨[91, 34, 47, 42, 42, 47, 34, 93], by decide⟩ =
      some (.array ⟨[some (.string ⟨[47, 42, 42, 47], by decide⟩)], 1⟩) :=
  ⟨rfl, rfl⟩

end Parson
