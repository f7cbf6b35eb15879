import Parson.Theory.Grammar

/-!
# Tokens

The scanners on single tokens, against the grammar. For string literals the grammar is
`LitChars`, the relation between a literal's text and the bytes it stands for, one
constructor per alternative of RFC 4627 §2.5; `decodeLit` computes it
(`decodeLit_eq_some_iff`). The code's side is `skip_quotes`, which finds the closing quote,
`process_string` with `parse_utf_16`, which decode, and `get_quoted_string`, which runs both.
`parse_utf_16` builds its UTF-8 bytes with shifts and masks, and they are RFC 3629's
(`shift_and_or_eq`, `and_or_eq`). `get_quoted_string` never looks at the byte it starts on,
so a key is read whatever byte opens it (`getQuotedString_lit` holds for every opener).

For numbers the grammar is `RfcNumber`; `parse_number_value` reads such a token, followed by
whatever may follow a value in a container, as `strtod` of the token
(`parseNumberValue_rfc`). The literal names are read by prefix comparison.

## Main definitions

* `LitChars`: The grammar of a string literal's text, with its meaning.
* `Follows`: What may follow a value inside a container.

## Theorems

* `decodeLit_eq_some_iff`: `decodeLit` computes `LitChars`.
* `LitChars.length_le`: A literal stands for no more bytes than its text has.
* `parseUtf16_bmp`, `parseUtf16_pair`: `parse_utf_16` writes the UTF-8 encoding.
* `skipQuotesLoop_lit`: `skip_quotes` stops at the quote that closes a literal.
* `processString_lit`: `process_string` decodes a literal.
* `getQuotedString_lit`: `get_quoted_string` reads a literal.
* `strtodEnd_rfc`: `strtod` consumes exactly an RFC 4627 number token.
* `parseNumberValue_rfc`: `parse_number_value` reads one that `is_decimal` accepts.
* `parseNullValue_text`, `parseBooleanValue_true`, `parseBooleanValue_false`: The names.
-/

namespace Parson

/-! ## The grammar of string literals -/

/-- The text of a string literal between its quotes, and the bytes it stands for: a raw byte
    other than `"`, `\` and the controls, a two-character escape, `\uXXXX` outside the
    surrogates, or a surrogate pair. -/
inductive LitChars : Bytes → Bytes → Prop
  | nil : LitChars [] []
  | raw {c : UInt8} {t d : Bytes} : ¬ c < 0x20 → c ≠ 34 → c ≠ 92 → LitChars t d →
      LitChars (c :: t) (c :: d)
  | escape {e b : UInt8} {t d : Bytes} : simpleEscape e = some b → LitChars t d →
      LitChars (92 :: e :: t) (b :: d)
  | unicode {a b c e : UInt8} {cp : Nat} {t d : Bytes} : hexQuad a b c e = some cp →
      (cp < 0xD800 ∨ 0xDFFF < cp) → LitChars t d →
      LitChars (92 :: 117 :: a :: b :: c :: e :: t) (utf8 cp ++ d)
  | pair {a b c e f g h i : UInt8} {hi lo : Nat} {t d : Bytes} : hexQuad a b c e = some hi →
      0xD800 ≤ hi → hi ≤ 0xDBFF → hexQuad f g h i = some lo → 0xDC00 ≤ lo →
      lo ≤ 0xDFFF → LitChars t d →
      LitChars (92 :: 117 :: a :: b :: c :: e :: 92 :: 117 :: f :: g :: h :: i :: t)
        (utf8 (0x10000 + (hi - 0xD800) * 0x400 + (lo - 0xDC00)) ++ d)

theorem simpleEscape_ne_u : simpleEscape 117 = none := rfl

theorem decodeLit_of_litChars {lit d : Bytes} (h : LitChars lit d) : decodeLit lit = some d := by
  induction h with
  | nil => rfl
  | raw h20 h34 h92 _ ih =>
    rw [decodeLit, if_neg (by simp [h20, h34, h92]), ih]
    · rfl
    all_goals intros; simp_all
  | @escape e b t d he _ ih =>
    rw [decodeLit, he]
    · simp [ih]
    · rintro - - - - - rfl; simp [simpleEscape_ne_u] at he
  | unicode hq hs _ ih =>
    rw [decodeLit, hq]
    dsimp only
    rw [if_neg (by omega), if_neg (by omega), ih]
    rfl
  | pair h1 h2 h3 h4 h5 h6 _ ih =>
    rw [decodeLit, h1]
    dsimp only
    rw [if_pos ⟨h2, h3⟩]
    simp only [h4, if_pos (And.intro h5 h6), ih]
    rfl
theorem litChars_of_decodeLit {lit d : Bytes} (h : decodeLit lit = some d) : LitChars lit d := by
  induction lit using decodeLit.induct generalizing d with
  | case1 => cases h; exact .nil
  | case2 a b c e t hq => rw [decodeLit, hq] at h; cases h
  | case3 a b c e hi hq hhi f g k i t hq' =>
    rw [decodeLit, hq] at h; simp [hhi, hq'] at h
  | case4 a b c e hi hq hhi f g k i t lo hq' hlo ih =>
    rw [decodeLit, hq] at h
    simp only [hhi, hq', hlo, and_self, if_true] at h
    obtain ⟨d', hd', rfl⟩ := Option.map_eq_some'.mp h
    exact .pair hq hhi.1 hhi.2 hq' hlo.1 hlo.2 (ih hd')
  | case5 a b c e hi hq hhi f g k i t lo hq' hlo =>
    rw [decodeLit, hq] at h; simp [hhi, hq', hlo] at h
  | case6 a b c e t hi hq hhi ht =>
    rw [decodeLit, hq] at h
    simp only [hhi, and_self, if_true] at h
    cases h
  | case7 a b c e t hi hq hhi hlo => rw [decodeLit, hq] at h; simp [hhi, hlo] at h
  | case8 a b c e t hi hq hhi hlo ih =>
    rw [decodeLit, hq] at h
    simp only [hhi, hlo, if_false] at h
    obtain ⟨d', hd', rfl⟩ := Option.map_eq_some'.mp h
    exact .unicode hq (by omega) (ih hd')
  | case9 e t hnot ih =>
    rw [decodeLit] at h
    · obtain ⟨b, hb, h⟩ := Option.bind_eq_some.mp h
      obtain ⟨d', hd', rfl⟩ := Option.map_eq_some'.mp h
      exact .escape hb (ih hd')
    · exact hnot
  | case10 c t h1 h2 hbad =>
    rw [decodeLit, if_pos hbad] at h
    · cases h
    · exact h1
    · exact h2
  | case11 c t h1 h2 hgood ih =>
    rw [decodeLit, if_neg hgood] at h
    · obtain ⟨d', hd', rfl⟩ := Option.map_eq_some'.mp h
      simp only [not_or] at hgood
      exact .raw hgood.1 hgood.2.1 hgood.2.2 (ih hd')
    · exact h1
    · exact h2

theorem decodeLit_eq_some_iff {lit d : Bytes} : decodeLit lit = some d ↔ LitChars lit d :=
  ⟨litChars_of_decodeLit, decodeLit_of_litChars⟩

theorem utf8_length_le (cp : Nat) : (utf8 cp).length ≤ 4 := by
  unfold utf8; split_ifs <;> simp

/-- A literal stands for at most as many bytes as its text has: a raw byte or a two-character
    escape for one byte, the six bytes of `\uXXXX` and the twelve of a surrogate pair for at
    most four. -/
theorem LitChars.length_le {lit d : Bytes} (h : LitChars lit d) : d.length ≤ lit.length := by
  induction h with
  | nil => exact le_rfl
  | raw _ _ _ _ ih | escape _ _ ih => simp only [List.length_cons]; omega
  | @unicode _ _ _ _ cp _ _ _ _ _ ih =>
    have := utf8_length_le cp
    simp only [List.length_append, List.length_cons]; omega
  | @pair _ _ _ _ _ _ _ _ hi lo _ _ _ _ _ _ _ _ _ ih =>
    have := utf8_length_le (0x10000 + (hi - 0xD800) * 0x400 + (lo - 0xDC00))
    simp only [List.length_append, List.length_cons]; omega

/-! ## UTF-8 by shifts and masks -/

theorem shift_and_or_eq {x s mask lead b : Nat} (hb : mask + 1 = 2 ^ b)
    (hlead : mask + 1 ∣ lead) :
    x >>> s &&& mask ||| lead = lead + x / 2 ^ s % (mask + 1) := by
  have hm : mask = 2 ^ b - 1 := by omega
  rw [Nat.shiftRight_eq_div_pow, hm, Nat.and_pow_two_sub_one_eq_mod, ← hm, hb]
  rw [hb] at hlead
  obtain ⟨m, rfl⟩ := hlead
  rw [Nat.or_comm, ← Nat.mul_add_lt_is_or (Nat.mod_lt _ (Nat.two_pow_pos b))]

theorem and_or_eq {x mask lead b : Nat} (hb : mask + 1 = 2 ^ b) (hlead : mask + 1 ∣ lead) :
    x &&& mask ||| lead = lead + x % (mask + 1) := by
  simpa using shift_and_or_eq (x := x) (s := 0) hb hlead

theorem hexDigitValue_lt {c : UInt8} {v : Nat} (h : hexDigitValue c = some v) : v < 16 := by
  unfold hexDigitValue at h
  split_ifs at h with h1 h2 h3 <;> cases h
  · have : c.toNat ≤ 57 := h1.2; omega
  · have : c.toNat ≤ 70 := h2.2; omega
  · have : c.toNat ≤ 102 := h3.2; omega

theorem hexQuad_lt {a b c e : UInt8} {cp : Nat} (h : hexQuad a b c e = some cp) : cp < 0x10000 := by
  unfold hexQuad at h
  simp only [Option.bind_eq_bind, Option.bind_eq_some, Option.pure_def, Option.some.injEq] at h
  obtain ⟨x, hx, y, hy, z, hz, w, hw, rfl⟩ := h
  have := hexDigitValue_lt hx; have := hexDigitValue_lt hy
  have := hexDigitValue_lt hz; have := hexDigitValue_lt hw
  omega

theorem hex4_cons (a b c e : UInt8) (s : Bytes) : hex4 (a :: b :: c :: e :: s) = hexQuad a b c e :=
  rfl

theorem parseUtf16_bmp {a b c e : UInt8} {cp : Nat} (hq : hexQuad a b c e = some cp)
    (hs : cp < 0xD800 ∨ 0xDFFF < cp) (s : Bytes) :
    parseUtf16 (a :: b :: c :: e :: s) = some (utf8 cp, s) := by
  have hlt := hexQuad_lt hq
  unfold parseUtf16
  rw [hex4_cons, hq]
  simp only [Option.bind_eq_bind, Option.some_bind, List.drop_succ_cons, List.drop_zero]
  unfold utf8
  by_cases h1 : cp < 0x80
  · simp [h1]
  have e0 : cp &&& 0x3F ||| 0x80 = 0x80 + cp % 0x40 := and_or_eq (b := 6) rfl (by norm_num)
  have e1 : cp >>> 6 &&& 0x3F ||| 0x80 = 0x80 + cp / 0x40 % 0x40 :=
    shift_and_or_eq (b := 6) rfl (by norm_num)
  by_cases h2 : cp < 0x800
  · have e2 : cp >>> 6 &&& 0x1F ||| 0xC0 = 0xC0 + cp / 0x40 := by
      rw [shift_and_or_eq (b := 5) rfl (by norm_num)]; omega
    simp [h1, h2, e0, e2]
  · have e3 : cp >>> 12 &&& 0x0F ||| 0xE0 = 0xE0 + cp / 0x1000 := by
      rw [shift_and_or_eq (b := 4) rfl (by norm_num)]; omega
    simp [h1, h2, hs, hlt, e0, e1, e3]
theorem surrogate_combine {x y : Nat} (hx : x < 0x400) (hy : y < 0x400) :
    (x &&& 0x3FF) <<< 10 ||| (y &&& 0x3FF) = x * 0x400 + y := by
  have ex : x &&& 0x3FF = x := by
    rw [show (0x3FF : Nat) = 2 ^ 10 - 1 from rfl, Nat.and_pow_two_sub_one_eq_mod]; omega
  have ey : y &&& 0x3FF = y := by
    rw [show (0x3FF : Nat) = 2 ^ 10 - 1 from rfl, Nat.and_pow_two_sub_one_eq_mod]; omega
  rw [ex, ey, Nat.shiftLeft_eq, Nat.mul_comm, ← Nat.mul_add_lt_is_or (i := 10) hy]

theorem parseUtf16_pair {a b c e f g h i : UInt8} {hi lo : Nat} (h1 : hexQuad a b c e = some hi)
    (h2 : 0xD800 ≤ hi) (h3 : hi ≤ 0xDBFF) (h4 : hexQuad f g h i = some lo) (h5 : 0xDC00 ≤ lo)
    (h6 : lo ≤ 0xDFFF) (s : Bytes) :
    parseUtf16 (a :: b :: c :: e :: 92 :: 117 :: f :: g :: h :: i :: s) =
      some (utf8 (0x10000 + (hi - 0xD800) * 0x400 + (lo - 0xDC00)), s) := by
  unfold parseUtf16
  rw [hex4_cons, h1]
  simp only [Option.bind_eq_bind, Option.some_bind, List.drop_succ_cons, List.drop_zero]
  rw [if_neg (by omega), if_neg (by omega), if_neg (by omega), if_pos h3]
  simp only [hex4_cons, h4, Option.some_bind]
  rw [if_neg (by omega), surrogate_combine (by omega) (by omega)]
  generalize hcp : 0x10000 + (hi - 0xD800) * 0x400 + (lo - 0xDC00) = cp
  have hcp' : (hi - 55296) * 1024 + (lo - 56320) + 65536 = cp := by omega
  rw [hcp']
  have hlo : 0x10000 ≤ cp := by omega
  have hhi : cp < 0x110000 := by omega
  have e0 : cp &&& 0x3F ||| 0x80 = 0x80 + cp % 0x40 := and_or_eq (b := 6) rfl (by norm_num)
  have e1 : cp >>> 6 &&& 0x3F ||| 0x80 = 0x80 + cp / 0x40 % 0x40 :=
    shift_and_or_eq (b := 6) rfl (by norm_num)
  have e2 : cp >>> 12 &&& 0x3F ||| 0x80 = 0x80 + cp / 0x1000 % 0x40 :=
    shift_and_or_eq (b := 6) rfl (by norm_num)
  have e3 : cp >>> 18 &&& 0x07 ||| 0xF0 = 0xF0 + cp / 0x40000 := by
    rw [shift_and_or_eq (b := 3) rfl (by norm_num)]; omega
  simp [utf8, e0, e1, e2, e3, show ¬ cp < 0x80 by omega, show ¬ cp < 0x800 by omega,
    show ¬ cp < 0x10000 by omega]
/-! ## Scanning and decoding a literal -/

theorem hexDigit_plain {c : UInt8} {v : Nat} (h : hexDigitValue c = some v) :
    c ≠ 34 ∧ c ≠ 0 ∧ c ≠ 92 := by
  unfold hexDigitValue at h
  split_ifs at h with h1 h2 h3 <;> refine ⟨?_, ?_, ?_⟩ <;> rintro rfl <;> simp_all

theorem hexQuad_plain {a b c e : UInt8} {cp : Nat} (h : hexQuad a b c e = some cp) :
    (a ≠ 34 ∧ a ≠ 0 ∧ a ≠ 92) ∧ (b ≠ 34 ∧ b ≠ 0 ∧ b ≠ 92) ∧
      (c ≠ 34 ∧ c ≠ 0 ∧ c ≠ 92) ∧ (e ≠ 34 ∧ e ≠ 0 ∧ e ≠ 92) := by
  unfold hexQuad at h
  simp only [Option.bind_eq_bind, Option.bind_eq_some, Option.pure_def] at h
  obtain ⟨x, hx, y, hy, z, hz, w, hw, -⟩ := h
  exact ⟨hexDigit_plain hx, hexDigit_plain hy, hexDigit_plain hz, hexDigit_plain hw⟩

theorem LitChars.nul_free {lit d : Bytes} (h : LitChars lit d) : (0 : UInt8) ∉ lit := by
  induction h with
  | nil => simp
  | raw h20 _ _ _ ih =>
    exact List.not_mem_cons_of_ne_of_not_mem (by rintro rfl; exact h20 (by decide)) ih
  | @escape e _ _ _ he _ ih =>
    have : e ≠ 0 := by rintro rfl; cases he
    simp [ih, Ne.symm this]
  | unicode hq _ _ ih =>
    obtain ⟨ha, hb, hc, he⟩ := hexQuad_plain hq
    simp [ih, Ne.symm ha.2.1, Ne.symm hb.2.1, Ne.symm hc.2.1, Ne.symm he.2.1]
  | pair h1 _ _ h4 _ _ _ ih =>
    obtain ⟨ha, hb, hc, he⟩ := hexQuad_plain h1
    obtain ⟨hf, hg, hh, hi⟩ := hexQuad_plain h4
    simp [ih, Ne.symm ha.2.1, Ne.symm hb.2.1, Ne.symm hc.2.1, Ne.symm he.2.1, Ne.symm hf.2.1,
      Ne.symm hg.2.1, Ne.symm hh.2.1, Ne.symm hi.2.1]

theorem skipQuotesLoop_plain {c : UInt8} (h34 : c ≠ 34) (h0 : c ≠ 0) (h92 : c ≠ 92)
    (s : Bytes) :
    skipQuotesLoop (c :: s) = skipQuotesLoop s := by
  rw [skipQuotesLoop] <;> simp_all

theorem skipQuotesLoop_escape {e : UInt8} (h0 : e ≠ 0) (s : Bytes) :
    skipQuotesLoop (92 :: e :: s) = skipQuotesLoop s := by
  rw [skipQuotesLoop]; simp_all
theorem skipQuotesLoop_lit {lit d : Bytes} (h : LitChars lit d) (s : Bytes) :
    skipQuotesLoop (lit ++ 34 :: s) = s := by
  induction h with
  | nil => rfl
  | raw h20 h34 h92 _ ih =>
    rw [List.cons_append, skipQuotesLoop_plain h34 (by rintro rfl; exact h20 (by decide)) h92, ih]
  | escape he _ ih =>
    rw [List.cons_append, List.cons_append, skipQuotesLoop_escape (by rintro rfl; cases he), ih]
  | unicode hq _ _ ih =>
    obtain ⟨ha, hb, hc, he⟩ := hexQuad_plain hq
    simp only [List.cons_append, skipQuotesLoop_escape (show (117 : UInt8) ≠ 0 by decide),
      skipQuotesLoop_plain ha.1 ha.2.1 ha.2.2, skipQuotesLoop_plain hb.1 hb.2.1 hb.2.2,
      skipQuotesLoop_plain hc.1 hc.2.1 hc.2.2, skipQuotesLoop_plain he.1 he.2.1 he.2.2, ih]
  | pair h1 _ _ h4 _ _ _ ih =>
    obtain ⟨ha, hb, hc, he⟩ := hexQuad_plain h1
    obtain ⟨hf, hg, hh, hi⟩ := hexQuad_plain h4
    simp only [List.cons_append, skipQuotesLoop_escape (show (117 : UInt8) ≠ 0 by decide),
      skipQuotesLoop_plain ha.1 ha.2.1 ha.2.2, skipQuotesLoop_plain hb.1 hb.2.1 hb.2.2,
      skipQuotesLoop_plain hc.1 hc.2.1 hc.2.2, skipQuotesLoop_plain he.1 he.2.1 he.2.2,
      skipQuotesLoop_plain hf.1 hf.2.1 hf.2.2, skipQuotesLoop_plain hg.1 hg.2.1 hg.2.2,
      skipQuotesLoop_plain hh.1 hh.2.1 hh.2.2, skipQuotesLoop_plain hi.1 hi.2.1 hi.2.2, ih]

theorem processString_end {fuel left : Nat} {s : Bytes} (h : peek s = 0 ∨ left = 0) :
    processString fuel s left = some [] := by
  unfold processString
  cases s with
  | nil => rfl
  | cons c t => simp only [peek_cons] at h; simp [h]

theorem processString_raw {fuel left : Nat} {c : UInt8} {t : Bytes} (h0 : c ≠ 0) (hl : left ≠ 0)
    (h92 : c ≠ 92) (h20 : ¬ c < 0x20) :
    processString (fuel + 1) (c :: t) left = (processString fuel t (left - 1)).map (c :: ·) := by
  rw [processString.eq_def]; simp [h0, hl, h92, h20]

theorem processString_escape {fuel left : Nat} {e b : UInt8} {t : Bytes} (hl : left ≠ 0)
    (he : simpleEscape e = some b) :
    processString (fuel + 1) (92 :: e :: t) left =
      (processString fuel t (left - 2)).map (b :: ·) := by
  have hu : e ≠ 117 := by rintro rfl; cases he
  rw [processString.eq_def]
  simp [hl, hu, he]

theorem processString_unicode {fuel left : Nat} {r r' out : Bytes} (hl : left ≠ 0)
    (h : parseUtf16 r = some (out, r')) :
    processString (fuel + 1) (92 :: 117 :: r) left =
      (processString fuel r' (left - ((92 :: 117 :: r).length - r'.length))).map (out ++ ·) := by
  rw [processString.eq_def]
  simp [hl, h]

theorem processString_lit {lit d : Bytes} (h : LitChars lit d) :
    ∀ (fuel : Nat), lit.length ≤ fuel → ∀ s,
      processString fuel (lit ++ s) lit.length = some d := by
  induction h with
  | nil => intro fuel _ s; exact processString_end (Or.inr rfl)
  | @raw c t d h20 h34 h92 _ ih =>
    rintro (_ | fuel) hf s
    · simp at hf
    rw [List.cons_append,
      processString_raw (by rintro rfl; exact h20 (by decide)) (by simp) h92 h20,
      List.length_cons, Nat.add_sub_cancel, ih fuel (by simpa using hf)]
    rfl
  | @escape e b t d he _ ih =>
    rintro (_ | fuel) hf s
    · simp at hf
    rw [List.cons_append, List.cons_append, processString_escape (by simp) he, List.length_cons,
      List.length_cons, show t.length + 1 + 1 - 2 = t.length by omega,
      ih fuel (by simp at hf; omega)]
    rfl
  | @unicode a b c e cp t d hq hs _ ih =>
    rintro (_ | fuel) hf s
    · simp at hf
    simp only [List.cons_append]
    rw [processString_unicode (by simp) (parseUtf16_bmp hq hs (t ++ s))]
    simp only [List.length_cons, List.length_append]
    rw [show t.length + 1 + 1 + 1 + 1 + 1 + 1 - (t.length + s.length + 1 + 1 + 1 + 1 + 1 + 1 -
      (t.length + s.length)) = t.length by omega, ih fuel (by simp at hf; omega)]
    rfl
  | @pair a b c e f g k i hi lo t d h1 h2 h3 h4 h5 h6 _ ih =>
    rintro (_ | fuel) hf s
    · simp at hf
    simp only [List.cons_append]
    rw [processString_unicode (by simp) (parseUtf16_pair h1 h2 h3 h4 h5 h6 (t ++ s))]
    simp only [List.length_cons, List.length_append]
    rw [show t.length + 1 + 1 + 1 + 1 + 1 + 1 + 1 + 1 + 1 + 1 + 1 + 1 -
      (t.length + s.length + 1 + 1 + 1 + 1 + 1 + 1 + 1 + 1 + 1 + 1 + 1 + 1 -
      (t.length + s.length)) = t.length by omega, ih fuel (by simp at hf; omega)]
    rfl

theorem litValue_of_litChars {lit d : Bytes} (h : LitChars lit d) : litValue lit = cString d := by
  rw [litValue, decodeLit_of_litChars h]; rfl

/-- Without a `\u0000` a literal's meaning has no `NUL`, and the C string is all of it. -/
theorem litValue_bytes {lit d : Bytes} (h : decodeLit lit = some d) (h0 : (0 : UInt8) ∉ d) :
    (litValue lit).bytes = d := by
  rw [litValue, h]; exact cString_bytes_of_nul_free h0

theorem getQuotedString_lit {lit d s : Bytes} (h : LitChars lit d) (hs : peek s ≠ 0) (o : UInt8) :
    getQuotedString (o :: (lit ++ 34 :: s)) = some (d, s) := by
  unfold getQuotedString skipQuotes
  simp only [List.tail_cons, skipQuotesLoop_lit h, hs, if_false]
  rw [show (o :: (lit ++ 34 :: s)).length - s.length - 2 = lit.length by simp; omega,
    processString_lit h _ le_rfl]
  rfl

/-! ## Number tokens

`parse_number_value` hands the input to `strtod` and then judges the span it consumed. An RFC
4627 number token followed by what may follow a value in a container is exactly the span
`strtod` consumes (`strtodEnd_rfc`), and `is_decimal` accepts it unless it starts `0` or `-0`
and goes on with something other than `.` (`isDecimal_of`). -/

/-- What may follow a value inside a container: whitespace, `,`, `]` or `}`. -/
def Follows (s : Bytes) : Prop :=
  isSpace (peek s) ∨ peek s = 44 ∨ peek s = 93 ∨ peek s = 125

theorem Follows.toNat {s : Bytes} (h : Follows s) :
    (peek s).toNat = 32 ∨ (9 ≤ (peek s).toNat ∧ (peek s).toNat ≤ 13) ∨
      (peek s).toNat = 44 ∨ (peek s).toNat = 93 ∨ (peek s).toNat = 125 := by
  rcases h with h | h | h | h
  · exact ((isSpace_iff _).mp h).elim Or.inl (Or.inr ∘ Or.inl)
  all_goals rw [h]; decide

theorem Follows.ne {s : Bytes} (h : Follows s) {c : UInt8}
    (hc : c.toNat ∉ [32, 9, 10, 11, 12, 13, 44, 93, 125]) : peek s ≠ c := by
  rintro rfl
  have := h.toNat
  simp only [List.mem_cons, List.not_mem_nil] at hc
  omega

theorem Follows.not_digit {s : Bytes} (h : Follows s) : isDigit (peek s) = false := by
  have := h.toNat
  cases hd : isDigit (peek s)
  · rfl
  · have := (isDigit_iff _).mp hd; omega

theorem digitRun_append {d s : Bytes} (hd : ∀ c ∈ d, isDigit c)
    (hs : isDigit (peek s) = false) :
    digitRun (d ++ s) = d.length := by
  unfold digitRun
  rw [List.takeWhile_append_of_pos hd]
  cases s with
  | nil => simp
  | cons c s => simp at hs; simp [List.takeWhile_cons, hs]

theorem digits_head {d : Bytes} (hd : Digits d) (s : Bytes) :
    48 ≤ (peek (d ++ s)).toNat ∧ (peek (d ++ s)).toNat ≤ 57 := by
  obtain ⟨hne, hdig⟩ := hd
  obtain ⟨c, d', rfl⟩ := List.exists_cons_of_ne_nil hne
  exact (isDigit_iff c).mp (hdig c (List.mem_cons_self _ _))

theorem exponentPart_rfc {e s : Bytes} (he : ExpPart e) (hs : Follows s) :
    exponentPart (Bytes.ofString "eE") (e ++ s) = e.length := by
  rcases he with rfl | ⟨m, sg, d, rfl, hm, hsg, hd⟩
  · cases s with
    | nil => rfl
    | cons c t =>
      have h1 : c ∉ Bytes.ofString "eE" := by
        simp only [show Bytes.ofString "eE" = [101, 69] from rfl, List.mem_cons, List.not_mem_nil,
          or_false, not_or]
        exact ⟨hs.ne (by decide), hs.ne (by decide)⟩
      simp [exponentPart, h1]
  · have hrun := digitRun_append hd.2 hs.not_digit
    have hne : d.length ≠ 0 := by simpa using hd.1
    have hm' : m ∈ Bytes.ofString "eE" := by rcases hm with rfl | rfl <;> decide
    have hh := digits_head hd s
    rcases hsg with rfl | rfl | rfl
    · have : ¬ (peek (d ++ s) = 43 ∨ peek (d ++ s) = 45) := by
        simp only [byte_eq_iff, UInt8.reduceToNat]; omega
      simp [exponentPart, hm', this, hrun, hne, Nat.add_comm]
    all_goals simp [exponentPart, hm', hrun, hne]; omega

theorem ExpPart.peek_append {e s : Bytes} (he : ExpPart e) (hs : Follows s) :
    (peek (e ++ s)).toNat = 101 ∨ (peek (e ++ s)).toNat = 69 ∨ (peek (e ++ s)).toNat = 32 ∨
      (9 ≤ (peek (e ++ s)).toNat ∧ (peek (e ++ s)).toNat ≤ 13) ∨
      (peek (e ++ s)).toNat = 44 ∨ (peek (e ++ s)).toNat = 93 ∨
      (peek (e ++ s)).toNat = 125 := by
  rcases he with rfl | ⟨m, sg, d, rfl, hm, -, -⟩
  · exact Or.inr (Or.inr hs.toNat)
  · rcases hm with rfl | rfl <;> simp

theorem FracPart.peek_append {f r : Bytes} (hf : FracPart f) :
    f = [] ∨ peek (f ++ r) = 46 := by
  rcases hf with rfl | ⟨d, rfl, -⟩ <;> simp

theorem IntPart.digits {i : Bytes} (hi : IntPart i) : Digits i := by
  rcases hi with rfl | ⟨c, d, rfl, h1, h2, hd⟩
  · exact ⟨by simp, by simp [isDigit]⟩
  · refine ⟨by simp, ?_⟩
    simp only [List.mem_cons, forall_eq_or_imp]
    have h49 : (49 : UInt8).toNat ≤ c.toNat := h1
    simp only [UInt8.reduceToNat] at h49
    exact ⟨(isDigit_iff c).mpr ⟨by omega, h2⟩, hd⟩

theorem not_digit_of_toNat {c : UInt8} (h : c.toNat < 48 ∨ 57 < c.toNat) : isDigit c = false :=
  Bool.eq_false_iff.mpr fun hd => by have := (isDigit_iff c).mp hd; omega

theorem ExpPart.rest {e s : Bytes} (he : ExpPart e) (hs : Follows s) :
    isDigit (peek (e ++ s)) = false ∧ peek (e ++ s) ≠ 46 := by
  have := he.peek_append hs
  refine ⟨not_digit_of_toNat (by omega), fun h46 => ?_⟩
  simp only [h46, UInt8.reduceToNat] at this
  omega

theorem mantissaPart_rfc {i f r : Bytes} (hi : IntPart i) (hf : FracPart f)
    (hr : isDigit (peek r) = false ∧ peek r ≠ 46) :
    mantissaPart digitRun (i ++ f ++ r) = (i ++ f).length := by
  have hi' := hi.digits
  rcases hf with rfl | ⟨d, rfl, hd⟩
  · simp [mantissaPart, digitRun_append hi'.2 hr.1, hr.2]
  · have h1 : digitRun (i ++ 46 :: (d ++ r)) = i.length := digitRun_append hi'.2 rfl
    have h2 : digitRun (d ++ r) = d.length := digitRun_append hd.2 hr.1
    simp [mantissaPart, h1, h2, hi'.1]
    omega

theorem hexForm_zero {t : Bytes} (h : peek t ≠ 120 ∧ peek t ≠ 88) :
    hexForm (48 :: t) = 0 := by
  rcases t with _ | ⟨x, t⟩
  · rfl
  · simp only [peek_cons] at h
    simp [hexForm, h.1, h.2]

theorem hexForm_of_ne {c : UInt8} (hc : c ≠ 48) (t : Bytes) : hexForm (c :: t) = 0 := by
  unfold hexForm
  split <;> simp_all

theorem strtodEnd_unsigned {c : UInt8} (hsp : isSpace c = false) (hsg : ¬ (c = 43 ∨ c = 45))
    (t : Bytes) : strtodEnd (c :: t) = subjectBody (c :: t) := by
  simp only [strtodEnd, List.takeWhile_cons, hsp]
  simp only [Bool.false_eq_true, if_false, List.length_nil, List.drop_zero, peek_cons, hsg]
  split_ifs <;> omega

theorem strtodEnd_neg (t : Bytes) :
    strtodEnd (45 :: t) = if subjectBody t = 0 then 0 else 1 + subjectBody t := by
  simp only [strtodEnd, List.takeWhile_cons, show isSpace 45 = false from rfl]
  simp

section RfcNumber

variable {i f e s : Bytes} (hi : IntPart i) (hf : FracPart f) (he : ExpPart e) (hs : Follows s)
include hi hf he hs

theorem decimalForm_rfc : decimalForm (i ++ f ++ e ++ s) = (i ++ f ++ e).length := by
  have hm := mantissaPart_rfc hi hf (he.rest hs)
  rw [List.append_assoc (i ++ f)] at *
  have hne : (i ++ f).length ≠ 0 := by simp [hi.digits.1]
  simp only [decimalForm, hm, hne, if_false]
  rw [List.drop_left, exponentPart_rfc he hs]
  simp [Nat.add_assoc]

theorem hexForm_rfc : hexForm (i ++ f ++ e ++ s) = 0 := by
  rcases hi with rfl | ⟨c, d, rfl, h1, -, -⟩
  · rw [show [48] ++ f ++ e ++ s = 48 :: (f ++ (e ++ s)) by simp]
    apply hexForm_zero
    rcases hf.peek_append (r := e ++ s) with rfl | h46
    · have h := he.peek_append hs
      simp only [List.nil_append, ne_eq, byte_eq_iff, UInt8.reduceToNat]
      omega
    · rw [h46]; decide
  · exact hexForm_of_ne (fun h => absurd h1 (by subst h; decide)) _

theorem subjectBody_rfc : subjectBody (i ++ f ++ e ++ s) = (i ++ f ++ e).length := by
  simp only [subjectBody, hexForm_rfc hi hf he hs, decimalForm_rfc hi hf he hs]
  simp [hi.digits.1]

theorem strtodEnd_rfc {m : Bytes} (hm : m = [] ∨ m = [45]) :
    strtodEnd (m ++ i ++ f ++ e ++ s) = (m ++ i ++ f ++ e).length := by
  have hb := subjectBody_rfc hi hf he hs
  have hne : (i ++ f ++ e).length ≠ 0 := by simp [hi.digits.1]
  obtain ⟨c, i', rfl⟩ := List.exists_cons_of_ne_nil hi.digits.1
  have hc := (isDigit_iff c).mp (hi.digits.2 c (List.mem_cons_self _ _))
  have hsp : isSpace c = false :=
    Bool.eq_false_iff.mpr fun h => by have := (isSpace_iff c).mp h; omega
  have hsg : ¬ (c = 43 ∨ c = 45) := by simp only [byte_eq_iff, UInt8.reduceToNat]; omega
  rcases hm with rfl | rfl
  · rw [List.nil_append, List.cons_append, List.cons_append, List.cons_append,
      strtodEnd_unsigned hsp hsg]
    simpa using hb
  · rw [show [45] ++ c :: i' ++ f ++ e ++ s = 45 :: (c :: i' ++ f ++ e ++ s) from rfl,
      strtodEnd_neg, hb, if_neg hne]
    simp [Nat.add_comm]

end RfcNumber

theorem isDecimal_of {t : Bytes} (hz : ¬ LeadingZeroExp t)
    (hx : ∀ c ∈ t, c ≠ 120 ∧ c ≠ 88 ∧ c ≠ 0) : isDecimal t = true := by
  have h1 : ∀ c r, t = 48 :: c :: r → c = 46 := fun c r h => by
    by_contra hc; exact hz ⟨[], c :: r, Or.inl rfl, by simp, by simp [h], hc⟩
  have h2 : ∀ c r, t = 45 :: 48 :: c :: r → c = 46 := fun c r h => by
    by_contra hc; exact hz ⟨[45], c :: r, Or.inr rfl, by simp, by simp [h], hc⟩
  have h3 : (t.any fun c => c == 120 || c == 88 || c == 0) = false := by
    simpa [List.any_eq_false, and_assoc] using hx
  unfold isDecimal
  simp only [h3, Bool.not_false, Bool.and_true]
  split
  · rw [h1 _ _ rfl]; rfl
  · split
    · rw [h2 _ _ rfl]; rfl
    · rfl

theorem RfcNumber.mem {t : Bytes} (ht : RfcNumber t) {c : UInt8} (hc : c ∈ t) :
    (48 ≤ c.toNat ∧ c.toNat ≤ 57) ∨ c.toNat = 46 ∨ c.toNat = 101 ∨ c.toNat = 69 ∨
      c.toNat = 43 ∨ c.toNat = 45 := by
  obtain ⟨m, i, f, e, rfl, hm, hi, hf, he⟩ := ht
  have digit : ∀ {d : Bytes}, (∀ x ∈ d, isDigit x) → c ∈ d →
      48 ≤ c.toNat ∧ c.toNat ≤ 57 :=
    fun hd hc => (isDigit_iff c).mp (hd c hc)
  simp only [List.mem_append] at hc
  rcases hc with ((hc | hc) | hc) | hc
  · rcases hm with rfl | rfl <;> simp_all
  · exact Or.inl (digit hi.digits.2 hc)
  · rcases hf with rfl | ⟨d, rfl, hd⟩
    · simp at hc
    · rcases List.mem_cons.mp hc with rfl | hc
      · simp
      · exact Or.inl (digit hd.2 hc)
  · rcases he with rfl | ⟨x, sg, d, rfl, hx, hsg, hd⟩
    · simp at hc
    · simp only [List.cons_append, List.mem_cons, List.mem_append] at hc
      rcases hc with rfl | hc | hc
      · rcases hx with rfl | rfl <;> simp
      · rcases hsg with rfl | rfl | rfl <;> simp_all
      · exact Or.inl (digit hd.2 hc)

theorem RfcNumber.nul_free {t : Bytes} (ht : RfcNumber t) : (0 : UInt8) ∉ t :=
  fun h => by have := ht.mem h; simp at this

theorem parseNumberValue_rfc (lib : Libc) {t s : Bytes} (ht : RfcNumber t)
    (hz : ¬ LeadingZeroExp t) (hs : Follows s) :
    parseNumberValue lib (t ++ s) = some (.number (lib.strtod t), s) := by
  have hdec : isDecimal t = true := isDecimal_of hz fun c hc => by
    have := ht.mem hc
    simp only [ne_eq, byte_eq_iff, UInt8.reduceToNat]
    omega
  obtain ⟨m, i, f, e, rfl, hm, hi, hf, he⟩ := ht
  simp only [parseNumberValue, strtodEnd_rfc hi hf he hs hm, List.take_left, List.drop_left, hdec,
    if_true]

theorem RfcNumber.head {t : Bytes} (ht : RfcNumber t) :
    ∃ c r, t = c :: r ∧ isSpace c = false ∧ (c = 45 ∨ isDigit c) := by
  obtain ⟨m, i, f, e, rfl, hm, hi, -, -⟩ := ht
  obtain ⟨c, i', rfl⟩ := List.exists_cons_of_ne_nil hi.digits.1
  have hc := hi.digits.2 c (List.mem_cons_self _ _)
  rcases hm with rfl | rfl
  · refine ⟨c, _, rfl, Bool.eq_false_iff.mpr fun h => ?_, Or.inr hc⟩
    have := (isSpace_iff c).mp h; have := (isDigit_iff c).mp hc; omega
  · exact ⟨45, _, rfl, rfl, Or.inl rfl⟩

/-! ## Literal names -/

theorem parseNullValue_text (s : Bytes) :
    parseNullValue (Bytes.ofString "null" ++ s) = some (.null, s) := by
  simp [parseNullValue, List.isPrefixOf_iff_prefix]; rfl

theorem parseBooleanValue_true (s : Bytes) :
    parseBooleanValue (Bytes.ofString "true" ++ s) = some (.boolean true, s) := by
  simp [parseBooleanValue, List.isPrefixOf_iff_prefix]; rfl

theorem parseBooleanValue_false (s : Bytes) :
    parseBooleanValue (Bytes.ofString "false" ++ s) = some (.boolean false, s) := by
  simp [parseBooleanValue, List.isPrefixOf_iff_prefix]; rfl

end Parson
