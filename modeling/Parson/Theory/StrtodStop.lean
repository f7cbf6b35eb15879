import Parson.Theory.Tokens

/-!
# Where `strtod` Stops

`strtod` consumes the longest initial part of its input that has one of the expected forms, so
where it stops does not depend on the bytes after that point: if it stops within `t` when `t`
is followed by `r`, it stops at the same place on `t` alone (`strtodEnd_prefixStable`). Each part
of `strtodEnd` has this property, and each way the parts are combined keeps it.

The parser's soundness uses this to say which number tokens the parser reads without saying
what follows them: the bytes `strtod` consumes in place are a token it consumes whole.

## Main definitions

* `PrefixStable`: A length measured at the front that ignores the bytes after it.
* `nanTail`: The part of `infNanForm` after `nan`.
* `signLength`, `signedBody`: The sign and the form after it, as `strtodEnd` measures them.

## Theorems

* `takeWhile_prefixStable`, `exponentPart_prefixStable`, `mantissaPart_prefixStable`: The
  parts.
* `PrefixStable.orElse`: The first nonzero of two measures.
* `strtodEnd_prefixStable`: Where `strtod` stops.
-/

namespace Parson

/-- A length measured at the front of the input that ignores the bytes after it: when the
    measure of `t ++ r` stays within `t`, `t` alone measures the same. -/
def PrefixStable (f : Bytes → Nat) : Prop :=
  ∀ t r, f (t ++ r) ≤ t.length → f t = f (t ++ r)

theorem peek_append_of_ne_nil {t : Bytes} (h : t ≠ []) (r : Bytes) : peek (t ++ r) = peek t := by
  obtain ⟨x, u, rfl⟩ := List.exists_cons_of_ne_nil h
  rfl

theorem peek_drop_append {t : Bytes} {i : Nat} (h : i < t.length) (r : Bytes) :
    peek ((t ++ r).drop i) = peek (t.drop i) := by
  rw [List.drop_append_of_le_length h.le,
    peek_append_of_ne_nil (by simpa [List.drop_eq_nil_iff] using h)]

namespace PrefixStable

variable {f g : Bytes → Nat}

theorem zero (hf : PrefixStable f) {t r : Bytes} (h : f (t ++ r) = 0) : f t = 0 :=
  (hf t r (by omega)).trans h

/-- The measure after the first `k` bytes, for `k` within `t`. -/
theorem drop (hf : PrefixStable f) {t : Bytes} (r : Bytes) {k : Nat} (hk : k ≤ t.length)
    (h : f ((t ++ r).drop k) + k ≤ t.length) : f (t.drop k) = f ((t ++ r).drop k) := by
  rw [List.drop_append_of_le_length hk] at h ⊢
  exact hf _ _ (by rw [List.length_drop]; omega)

/-- The first nonzero of two measures. -/
theorem orElse (hf : PrefixStable f) (hg : PrefixStable g) :
    PrefixStable fun s => if f s ≠ 0 then f s else g s := by
  intro t r h
  dsimp only at h ⊢
  by_cases h0 : f (t ++ r) = 0
  · simp only [h0, hf.zero h0, ne_eq, not_true_eq_false, if_false] at h ⊢
    exact hg t r h
  · simp only [h0, ne_eq, not_false_eq_true, if_true] at h ⊢
    rw [hf t r h, if_pos h0]

end PrefixStable

/-! ## The parts -/

theorem takeWhile_prefixStable (p : UInt8 → Bool) :
    PrefixStable fun s => (s.takeWhile p).length := by
  intro t r h
  dsimp only at h ⊢
  rw [List.takeWhile_append] at h ⊢
  split_ifs at h ⊢ with ht
  · simp only [List.length_append] at h ⊢
    omega
  · rfl

theorem digitRun_prefixStable : PrefixStable digitRun := takeWhile_prefixStable isDigit

theorem hexRun_prefixStable : PrefixStable hexRun := takeWhile_prefixStable _

theorem exponentPart_single (marks : Bytes) (c : UInt8) : exponentPart marks [c] = 0 := by
  simp [exponentPart, digitRun]

theorem exponentPart_ne_one (marks s : Bytes) : exponentPart marks s ≠ 1 := by
  unfold exponentPart
  split
  · dsimp only
    split_ifs <;> omega
  · omega

theorem exponentPart_prefixStable (marks : Bytes) : PrefixStable (exponentPart marks) := by
  rintro (_ | ⟨c, _ | ⟨x, t⟩⟩) r h
  · exact (Nat.eq_zero_of_le_zero h).symm
  · have := exponentPart_ne_one marks (c :: r)
    simp only [List.length_singleton, List.singleton_append] at h ⊢
    rw [exponentPart_single]
    omega
  · simp only [List.cons_append, List.length_cons, exponentPart, peek_cons] at h ⊢
    by_cases hc : c ∈ marks
    · simp only [hc, if_true] at h ⊢
      by_cases hx : x = 43 ∨ x = 45
      · simp only [hx, if_true, List.drop_one, List.tail_cons] at h ⊢
        rw [digitRun_prefixStable t r (by split_ifs at h <;> omega)]
      · simp only [hx, if_false, List.drop_zero] at h ⊢
        rw [← List.cons_append, digitRun_prefixStable (x :: t) r (by
          simp only [List.cons_append, List.length_cons]; split_ifs at h <;> omega)]
    · simp only [hc, if_false]

theorem run_le_mantissaPart (run : Bytes → Nat) (s : Bytes) : run s ≤ mantissaPart run s := by
  unfold mantissaPart
  dsimp only
  split_ifs <;> omega

theorem mantissaPart_prefixStable {run : Bytes → Nat} (hrun : PrefixStable run) :
    PrefixStable (mantissaPart run) := by
  intro t r h
  have hle : run (t ++ r) ≤ t.length := (run_le_mantissaPart run _).trans h
  unfold mantissaPart at h ⊢
  dsimp only at h ⊢
  rw [hrun t r hle]
  generalize run (t ++ r) = d at *
  by_cases hlt : d < t.length
  · rw [peek_drop_append hlt] at h ⊢
    by_cases h46 : peek (t.drop d) = 46
    · simp only [h46, if_true] at h ⊢
      rw [hrun.drop (t := t) r (by omega) (by split_ifs at h <;> omega)]
    · simp only [h46, if_false]
  · obtain rfl : d = t.length := by omega
    rw [List.drop_length, peek_nil, if_neg (by decide)]
    split_ifs at h ⊢ <;> omega

theorem decimalForm_prefixStable : PrefixStable decimalForm := by
  intro t r h
  simp only [decimalForm] at h ⊢
  rw [mantissaPart_prefixStable digitRun_prefixStable t r (by split_ifs at h <;> omega)]
  split_ifs at h ⊢
  · rfl
  · rw [(exponentPart_prefixStable _).drop r (by omega) (by omega)]

theorem hexForm_eq_zero_or (s : Bytes) : hexForm s = 0 ∨ 3 ≤ hexForm s := by
  unfold hexForm
  split
  · dsimp only
    split_ifs <;> omega
  · exact Or.inl rfl

theorem hexForm_single (c : UInt8) : hexForm [c] = 0 := by
  unfold hexForm
  split
  · simp_all
  · rfl

theorem hexForm_prefixStable : PrefixStable hexForm := by
  rintro (_ | ⟨c, _ | ⟨x, t⟩⟩) r h
  · exact (Nat.eq_zero_of_le_zero h).symm
  · have := hexForm_eq_zero_or (c :: r)
    simp only [List.length_singleton, List.singleton_append] at h ⊢
    rw [hexForm_single]
    omega
  · by_cases hc : c = 48
    · subst hc
      simp only [List.cons_append, List.length_cons, hexForm.eq_1] at h ⊢
      by_cases hx : x = 120 ∨ x = 88
      · simp only [hx, if_true] at h ⊢
        rw [mantissaPart_prefixStable hexRun_prefixStable t r (by split_ifs at h <;> omega)]
        split_ifs at h ⊢
        · rfl
        · rw [(exponentPart_prefixStable _).drop r (by omega) (by omega)]
      · simp only [hx, if_false]
    · simp only [List.cons_append, hexForm_of_ne hc]

/-! ## Infinity and `NaN` -/

theorem startsWithIgnoreCase_append {w t : Bytes} (h : w.length ≤ t.length) (r : Bytes) :
    startsWithIgnoreCase w (t ++ r) = startsWithIgnoreCase w t := by
  simp only [startsWithIgnoreCase, List.take_append_of_le_length h]

theorem startsWithIgnoreCase_length {w s : Bytes} (h : startsWithIgnoreCase w s = true) :
    w.length ≤ s.length := by
  have := (List.isPrefixOf_iff_prefix.mp h).length_le
  simp only [List.length_map, List.length_take] at this
  omega

theorem startsWithIgnoreCase_of_append {w t r : Bytes}
    (h : startsWithIgnoreCase w t = true) : startsWithIgnoreCase w (t ++ r) = true := by
  rwa [startsWithIgnoreCase_append (startsWithIgnoreCase_length h)]

/-- The bytes `strtod` allows in the parentheses of `NAN(...)`. -/
def nanChar (c : UInt8) : Bool :=
  isDigit c || (97 ≤ toLower c && toLower c ≤ 122) || c == 95

/-- The part of `infNanForm` after `nan`: `(`, a run of letters, digits and `_`, and `)`, or
    else nothing after the `nan`. -/
def nanTail (t : Bytes) : Nat :=
  if peek t = 40 then
    let k := (t.tail.takeWhile nanChar).length
    if peek (t.drop (k + 1)) = 41 then k + 5 else 3
  else 3

theorem infNanForm_eq (s : Bytes) : infNanForm s =
    if startsWithIgnoreCase (Bytes.ofString "infinity") s then 8
    else if startsWithIgnoreCase (Bytes.ofString "inf") s then 3
    else if startsWithIgnoreCase (Bytes.ofString "nan") s then nanTail (s.drop 3)
    else 0 :=
  rfl

theorem three_le_nanTail (t : Bytes) : 3 ≤ nanTail t := by
  unfold nanTail
  dsimp only
  split_ifs <;> omega

theorem nanTail_stable {u r : Bytes} (h : nanTail (u ++ r) ≤ u.length + 3) :
    nanTail u = nanTail (u ++ r) := by
  rcases u with _ | ⟨y, u⟩
  · have := three_le_nanTail r
    simp only [List.nil_append, List.length_nil] at h ⊢
    rw [show nanTail [] = 3 from rfl]
    omega
  · unfold nanTail at h ⊢
    simp only [List.cons_append, peek_cons, List.tail_cons, List.drop_succ_cons,
      List.length_cons] at h ⊢
    by_cases hy : y = 40
    · simp only [hy, if_true] at h ⊢
      rw [List.takeWhile_append] at h ⊢
      by_cases hall : (u.takeWhile nanChar).length = u.length
      · simp only [hall, if_true, List.drop_length, peek_nil, List.length_append] at h ⊢
        rw [if_neg (by decide : (0 : UInt8) ≠ 41)]
        split_ifs at h ⊢ <;> omega
      · have hk : (u.takeWhile nanChar).length < u.length :=
          lt_of_le_of_ne (List.takeWhile_prefix _).length_le hall
        simp only [hall, if_false, peek_drop_append hk]
    · simp only [hy, if_false]

/-- `infNanForm` reads `infinity`, `inf` or `nan` and what follows it, all ignoring case. -/
theorem infNanForm_prefixStable : PrefixStable infNanForm := by
  intro t r h
  have hin : ∀ w : Bytes, startsWithIgnoreCase w (t ++ r) = true → w.length ≤ t.length →
      startsWithIgnoreCase w t = true := fun w hw hl => by
    rwa [← startsWithIgnoreCase_append hl r]
  have hout : ∀ w : Bytes, startsWithIgnoreCase w (t ++ r) = false →
      startsWithIgnoreCase w t = false := fun w hw =>
    Bool.eq_false_iff.mpr fun ht => by simp [startsWithIgnoreCase_of_append ht] at hw
  rw [infNanForm_eq, infNanForm_eq] at *
  cases h8 : startsWithIgnoreCase (Bytes.ofString "infinity") (t ++ r)
  · rw [hout _ h8]
    cases h3 : startsWithIgnoreCase (Bytes.ofString "inf") (t ++ r)
    · rw [hout _ h3]
      cases hn : startsWithIgnoreCase (Bytes.ofString "nan") (t ++ r)
      · simp only [hout _ hn, Bool.false_eq_true, if_false]
      · simp only [h8, h3, hn, Bool.false_eq_true, if_false, if_true] at h ⊢
        have h3t : 3 ≤ t.length := (three_le_nanTail _).trans h
        rw [hin _ hn h3t, if_pos rfl, List.drop_append_of_le_length h3t] at *
        exact nanTail_stable (by rw [List.length_drop]; omega)
    · simp only [h8, h3, Bool.false_eq_true, if_false, if_true] at h ⊢
      rw [hin _ h3 h, if_pos rfl]
  · simp only [h8, if_true] at h ⊢
    rw [hin _ h8 h, if_pos rfl]

theorem subjectBody_prefixStable : PrefixStable subjectBody :=
  hexForm_prefixStable.orElse (decimalForm_prefixStable.orElse infNanForm_prefixStable)

/-! ## `strtod` -/

theorem subjectBody_nil : subjectBody [] = 0 := by decide

/-- The length of the sign `strtod` reads after the white space. -/
def signLength (t : Bytes) : Nat := if peek t = 43 ∨ peek t = 45 then 1 else 0

/-- What `strtod` consumes from the end of `w` bytes of white space on: the sign and the subject
    sequence, counted with the white space, or nothing. -/
def signedBody (w : Nat) (t : Bytes) : Nat :=
  if subjectBody (t.drop (signLength t)) = 0 then 0
  else w + signLength t + subjectBody (t.drop (signLength t))

theorem strtodEnd_eq (s : Bytes) :
    strtodEnd s = signedBody (s.takeWhile isSpace).length (s.drop (s.takeWhile isSpace).length) :=
  rfl

theorem signedBody_stable {u r : Bytes} {w : Nat} (h : signedBody w (u ++ r) ≤ w + u.length) :
    signedBody w u = signedBody w (u ++ r) := by
  unfold signedBody at h ⊢
  rcases u with _ | ⟨y, u⟩
  · simp only [signLength, peek_nil, List.drop_nil, subjectBody_nil, List.nil_append,
      List.length_nil] at h ⊢
    split_ifs at h ⊢ <;> omega
  · have hsg : signLength (y :: u ++ r) = signLength (y :: u) := by
      simp only [signLength, peek_append_of_ne_nil (List.cons_ne_nil y u)]
    have hsg1 : signLength (y :: u) ≤ 1 := by unfold signLength; split_ifs <;> omega
    have hlen : (y :: u).length = u.length + 1 := rfl
    rw [hsg] at h ⊢
    rw [subjectBody_prefixStable.drop (t := y :: u) r (by omega) (by split_ifs at h <;> omega)]

theorem strtodEnd_prefixStable : PrefixStable strtodEnd := by
  intro t r h
  rw [strtodEnd_eq, strtodEnd_eq] at *
  by_cases hw : ((t ++ r).takeWhile isSpace).length ≤ t.length
  · have hw' : (t.takeWhile isSpace).length = ((t ++ r).takeWhile isSpace).length :=
      takeWhile_prefixStable isSpace t r hw
    rw [hw', List.drop_append_of_le_length hw] at *
    exact signedBody_stable (by rw [List.length_drop]; omega)
  · have hall : (t.takeWhile isSpace).length = t.length := by
      rw [List.takeWhile_append] at hw
      split_ifs at hw with ht
      · exact ht
      · exact absurd (List.takeWhile_prefix _).length_le hw
    rw [hall, List.drop_length]
    unfold signedBody at h ⊢
    rw [List.drop_nil, subjectBody_nil, if_pos rfl]
    split_ifs at h ⊢ <;> omega

end Parson
