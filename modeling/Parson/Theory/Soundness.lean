import Parson.Theory.StrtodStop
import Parson.Theory.ParseResult
import Parson.Theory.Comments

/-!
# Soundness of the Parser

What `json_parse_string` accepts is whitespace, then the text of an object or an array, then
any bytes, and the tree it returns is that text's document (`jsonParseString_sound`). The
text belongs to the dialect the code reads (`accepted`), which is wider than RFC 4627 in three
ways: any `isspace` byte between tokens, a key opened by any byte that is not whitespace or
`NUL` (`skip_quotes` never looks at it), and any number token `strtod` consumes whole and
`is_decimal` lets through, such as `1.`, `-.5`, `1E5` or `-inf`. String literals are RFC 4627's.

The leaves come first: each scanner, run forward, is read back as a token. A string literal is
what `skip_quotes` passes over (`QuoteSpan`), and on such a span `process_string` succeeds only
where the literal grammar `LitChars` holds (`processString_span`); since a literal stands for
no more bytes than its text has, what it writes fits in its `len + 1` bytes. A number token is the span
`strtod` consumed, which by `Parson.Theory.StrtodStop` it also consumes on its own; the one span
that is not a token, the empty one left by a lone `-`, is never followed by what may follow a
value. Then the loops, by induction on their fuel, and `parse_value`, by induction on its levels,
as in `Parson.Theory.Completeness`, with the outcome lemmas of `Parson.Theory.ParseResult`.

## Main definitions

* `QuoteSpan`: The bytes `skip_quotes` passes over before a closing quote.
* `StrtodNumber`: The number tokens `parse_number_value` reads.
* `accepted`: The dialect of the texts the parser accepts.
* `ReadsAs`: An input is the text of an accepted tree, then the rest.

## Theorems

* `getQuotedString_sound`, `parseNumberValue_sound`: The scanners.
* `processString_within_len`: `process_string` stays within the buffer it allocates.
* `accepted_local_of_parsable`: The dialect of `Parson.Theory.Completeness` lies within this one.
* `parseArrayItems_sound`, `parseObjectMembers_sound`: The loops.
* `parseValue_sound`: `parse_value`.
* `jsonParseString_sound`: What `json_parse_string` accepts.
-/

namespace Parson

/-! ## Whitespace -/

theorem skipWhitespaces_split (s : Bytes) :
    ∃ g, (∀ c ∈ g, isSpace c) ∧ s = g ++ skipWhitespaces s := by
  induction s with
  | nil => exact ⟨[], by simp, rfl⟩
  | cons c s ih =>
    rw [skipWhitespaces]
    split_ifs with hc
    · obtain ⟨g, hg, hs⟩ := ih
      refine ⟨c :: g, ?_, by rw [List.cons_append, ← hs]⟩
      simpa [hc] using hg
    · exact ⟨[], by simp, rfl⟩

theorem skipWhitespaces_idem (s : Bytes) : skipWhitespaces (skipWhitespaces s) = skipWhitespaces s :=
  skipWhitespaces_of_not_space (peek_skipWhitespaces s)

theorem eq_cons_of_peek {s : Bytes} {c : UInt8} (h : peek s = c) (hc : c ≠ 0) :
    ∃ t, s = c :: t := by
  cases s with
  | nil => exact absurd h.symm hc
  | cons x t => exact ⟨t, by rw [← h]; rfl⟩

/-- Before a `,`, `]` or `}` that the cursor reaches past whitespace stands what may follow a
    value. -/
theorem follows_of_skipWhitespaces {s : Bytes}
    (h : peek (skipWhitespaces s) = 44 ∨ peek (skipWhitespaces s) = 93 ∨
      peek (skipWhitespaces s) = 125) : Follows s := by
  cases s with
  | nil => simp [skipWhitespaces] at h
  | cons c t =>
    by_cases hc : isSpace c
    · exact Or.inl hc
    · rw [skipWhitespaces_of_not_space (s := c :: t) (by simpa using hc)] at h
      exact Or.inr h

theorem not_follows_nil : ¬ Follows [] := fun h => absurd h.toNat (by simp)

/-! ## String literals -/

/-- The bytes `skip_quotes` passes over before a closing quote: no `NUL`, no `"` that is not
    escaped, and every `\` followed by a byte that is not `NUL`. -/
inductive QuoteSpan : Bytes → Prop
  | nil : QuoteSpan []
  | plain {c : UInt8} {t : Bytes} : c ≠ 34 → c ≠ 0 → c ≠ 92 → QuoteSpan t → QuoteSpan (c :: t)
  | escape {e : UInt8} {t : Bytes} : e ≠ 0 → QuoteSpan t → QuoteSpan (92 :: e :: t)

theorem QuoteSpan.tail {c : UInt8} {t : Bytes} (h : QuoteSpan (c :: t)) (hc : c ≠ 92) :
    QuoteSpan t := by
  cases h with
  | plain _ _ _ h => exact h
  | escape => exact absurd rfl hc

theorem QuoteSpan.of_escape {e : UInt8} {t : Bytes} (h : QuoteSpan (92 :: e :: t)) :
    QuoteSpan t := by
  cases h with
  | plain _ _ h92 => exact absurd rfl h92
  | escape _ h => exact h

/-- Where `skip_quotes` stops on a quote, it has passed over a `QuoteSpan`. -/
theorem skipQuotesLoop_span : ∀ x : Bytes, peek (skipQuotesLoop x) ≠ 0 →
    ∃ lit, x = lit ++ 34 :: skipQuotesLoop x ∧ QuoteSpan lit
  | [], h => absurd rfl h
  | c :: s, h => by
    by_cases h34 : c = 34
    · subst h34; exact ⟨[], rfl, .nil⟩
    by_cases h0 : c = 0
    · subst h0; exact absurd rfl h
    by_cases h92 : c = 92
    · subst h92
      match s, h with
      | [], h => exact absurd rfl h
      | e :: s, h =>
        by_cases he : e = 0
        · subst he; exact absurd rfl h
        rw [skipQuotesLoop_escape he] at h ⊢
        obtain ⟨lit, hs, hl⟩ := skipQuotesLoop_span s h
        exact ⟨92 :: e :: lit, by rw [List.cons_append, List.cons_append, ← hs], .escape he hl⟩
    · rw [skipQuotesLoop_plain h34 h0 h92] at h ⊢
      obtain ⟨lit, hs, hl⟩ := skipQuotesLoop_span s h
      exact ⟨c :: lit, by rw [List.cons_append, ← hs], .plain h34 h0 h92 hl⟩

/-- Bytes read from the front of `t ++ "…` without meeting a quote lie within `t`. -/
theorem append_quote_split {t r x y : Bytes} (hx : (34 : UInt8) ∉ x)
    (h : t ++ 34 :: r = x ++ y) : ∃ t', t = x ++ t' ∧ y = t' ++ 34 :: r := by
  rcases List.append_eq_append_iff.mp h with ⟨a, rfl, h'⟩ | ⟨c, rfl, h'⟩
  · cases a with
    | nil => exact ⟨[], by simp, by simpa using h'.symm⟩
    | cons a a' =>
      obtain ⟨rfl, -⟩ := List.cons.inj h'
      simp at hx
  · exact ⟨c, rfl, h'⟩

theorem hex4_eq_some {t : Bytes} {v : Nat} (h : hex4 t = some v) :
    ∃ f g k i z, t = f :: g :: k :: i :: z ∧ hexQuad f g k i = some v := by
  match t, h with
  | f :: g :: k :: i :: z, h => exact ⟨f, g, k, i, z, rfl, h⟩
  | [], h | [_], h | [_, _], h | [_, _, _], h => cases h

/-- What `parse_utf_16` can read: four hex digits outside the surrogates, or a lead surrogate,
    `\u` and a trail surrogate; it writes the UTF-8 encoding of the code point. -/
theorem parseUtf16_cases {x out x' : Bytes} (h : parseUtf16 x = some (out, x')) :
    (∃ a b c e cp, x = a :: b :: c :: e :: x' ∧ hexQuad a b c e = some cp ∧
      (cp < 0xD800 ∨ 0xDFFF < cp) ∧ out = utf8 cp) ∨
    (∃ a b c e f g k i hi lo, x = a :: b :: c :: e :: 92 :: 117 :: f :: g :: k :: i :: x' ∧
      hexQuad a b c e = some hi ∧ 0xD800 ≤ hi ∧ hi ≤ 0xDBFF ∧ hexQuad f g k i = some lo ∧
      0xDC00 ≤ lo ∧ lo ≤ 0xDFFF ∧
      out = utf8 (0x10000 + (hi - 0xD800) * 0x400 + (lo - 0xDC00))) := by
  obtain ⟨cp, hcp, -⟩ := Option.bind_eq_some.mp h
  obtain ⟨a, b, c, e, y, rfl, hq⟩ := hex4_eq_some hcp
  by_cases hs : cp < 0xD800 ∨ 0xDFFF < cp
  · rw [parseUtf16_bmp hq hs] at h
    obtain ⟨rfl, rfl⟩ := Prod.mk.inj (Option.some.inj h)
    exact .inl ⟨a, b, c, e, cp, rfl, hq, hs, rfl⟩
  have h' := h
  unfold parseUtf16 at h'
  rw [hex4_cons, hq] at h'
  simp only [Option.bind_eq_bind, Option.some_bind, List.drop_succ_cons, List.drop_zero] at h'
  rw [if_neg (by omega), if_neg (by omega), if_neg hs] at h'
  split_ifs at h' with hhi
  split at h'
  · rename_i t _
    obtain ⟨lo, hlo4, h'⟩ := Option.bind_eq_some.mp h'
    obtain ⟨f, g, k, i, z, rfl, hq'⟩ := hex4_eq_some hlo4
    split_ifs at h' with hlo
    rw [parseUtf16_pair hq (by omega) hhi hq' (by omega) (by omega)] at h
    obtain ⟨rfl, rfl⟩ := Prod.mk.inj (Option.some.inj h)
    exact .inr ⟨a, b, c, e, f, g, k, i, cp, lo, rfl, hq, by omega, hhi, hq', by omega, by omega,
      rfl⟩
  · cases h'

/-- Every way `process_string` can take a step from a byte that is not `NUL`, with bytes left
    to read. -/
theorem processString_cases {fuel left : Nat} {c : UInt8} {t d : Bytes} (h0 : c ≠ 0)
    (hl : left ≠ 0) (h : processString fuel (c :: t) left = some d) :
    ∃ fuel', fuel = fuel' + 1 ∧
      ((c ≠ 92 ∧ ¬ c < 0x20 ∧ ∃ d', processString fuel' t (left - 1) = some d' ∧ d = c :: d') ∨
        (∃ x out x' d', c = 92 ∧ t = 117 :: x ∧ parseUtf16 x = some (out, x') ∧
          processString fuel' x' (left - ((c :: t).length - x'.length)) = some d' ∧
          d = out ++ d') ∨
        (∃ e b x d', c = 92 ∧ t = e :: x ∧ e ≠ 117 ∧ simpleEscape e = some b ∧
          processString fuel' x (left - 2) = some d' ∧ d = b :: d')) := by
  rw [processString.eq_def] at h
  simp only [h0, hl, or_self, if_false] at h
  rcases fuel with _ | fuel'
  · cases h
  refine ⟨fuel', rfl, ?_⟩
  simp only at h
  split_ifs at h with h92 h20
  · subst h92
    split at h
    · rename_i x
      split at h
      · cases h
      · rename_i out x' hp
        obtain ⟨d', hd', rfl⟩ := Option.map_eq_some'.mp h
        exact .inr (.inl ⟨x, out, x', d', rfl, rfl, hp, hd', rfl⟩)
    · rename_i e x hu
      split at h
      · cases h
      · rename_i b hb
        obtain ⟨d', hd', rfl⟩ := Option.map_eq_some'.mp h
        exact .inr (.inr ⟨e, b, x, d', rfl, rfl, hu, hb, hd', rfl⟩)
    · cases h
  · obtain ⟨d', hd', rfl⟩ := Option.map_eq_some'.mp h
    exact .inl ⟨h92, h20, d', hd', rfl⟩

/-- On the span `skip_quotes` passed over, `process_string` succeeds only on the text of a
    literal, and writes what it stands for. -/
theorem processString_span (r : Bytes) :
    ∀ (fuel : Nat) {lit d : Bytes}, QuoteSpan lit →
      processString fuel (lit ++ 34 :: r) lit.length = some d → LitChars lit d := by
  intro fuel
  induction fuel with
  | zero =>
    intro lit d hs h
    cases hs with
    | nil =>
      rw [List.nil_append, List.length_nil, processString_end (Or.inr rfl)] at h
      cases h; exact .nil
    | plain _ h0 => obtain ⟨_, h, -⟩ := processString_cases h0 (by simp) h; cases h
    | escape => obtain ⟨_, h, -⟩ := processString_cases (by decide) (by simp) h; cases h
  | succ fuel ih =>
    intro lit d hs h
    cases hs with
    | nil =>
      rw [List.nil_append, List.length_nil, processString_end (Or.inr rfl)] at h
      cases h; exact .nil
    | @plain c t h34 h0 h92 hs =>
      obtain ⟨_, hf, hcase⟩ := processString_cases h0 (by simp) h
      cases hf
      rcases hcase with ⟨-, h20, d', hd', rfl⟩ | ⟨_, _, _, _, h', -⟩ | ⟨_, _, _, _, h', -⟩
      · exact .raw h20 h34 h92 (ih hs (by simpa using hd'))
      all_goals exact absurd h' h92
    | @escape e t he hs =>
      obtain ⟨_, hf, hcase⟩ := processString_cases (by decide) (by simp) h
      cases hf
      rcases hcase with ⟨h92, -⟩ | ⟨x, out, x', d', -, hx, hp, hd', rfl⟩ |
        ⟨e', b, x, d', -, hx, -, hb, hd', rfl⟩
      · exact absurd rfl h92
      · obtain ⟨rfl, rfl⟩ := List.cons.inj hx
        rcases parseUtf16_cases hp with ⟨a, b, c, e, cp, hx', hq, hsur, hout⟩ |
          ⟨a, b, c, e, f, g, k, i, hi, lo, hx', h1, h2, h3, h4, h5, h6, hout⟩
        · obtain ⟨ha, hb, hc, he⟩ := hexQuad_plain hq
          obtain ⟨t', rfl, rfl⟩ := append_quote_split (x := [a, b, c, e])
            (by simp only [List.mem_cons, List.not_mem_nil, or_false, not_or]
                exact ⟨Ne.symm ha.1, Ne.symm hb.1, Ne.symm hc.1, Ne.symm he.1⟩) hx'
          have hs' := ((((hs.tail ha.2.2).tail hb.2.2).tail hc.2.2).tail he.2.2)
          rw [hout]
          refine .unicode hq hsur (ih hs' ?_)
          convert hd' using 2
          simp only [List.append_eq, List.cons_append, List.nil_append, List.length_cons,
            List.length_append]
          omega
        · obtain ⟨ha, hb, hc, he⟩ := hexQuad_plain h1
          obtain ⟨hf, hg, hk, hi'⟩ := hexQuad_plain h4
          obtain ⟨t', rfl, rfl⟩ := append_quote_split (x := [a, b, c, e, 92, 117, f, g, k, i])
            (by simp only [List.mem_cons, List.not_mem_nil, or_false, not_or]
                exact ⟨Ne.symm ha.1, Ne.symm hb.1, Ne.symm hc.1, Ne.symm he.1, by decide, by decide,
                  Ne.symm hf.1, Ne.symm hg.1, Ne.symm hk.1, Ne.symm hi'.1⟩) hx'
          have hs' := (((((((((hs.tail ha.2.2).tail hb.2.2).tail hc.2.2).tail he.2.2).of_escape
            ).tail hf.2.2).tail hg.2.2).tail hk.2.2).tail hi'.2.2)
          rw [hout]
          refine .pair h1 h2 h3 h4 h5 h6 (ih hs' ?_)
          convert hd' using 2
          simp only [List.append_eq, List.cons_append, List.nil_append, List.length_cons,
            List.length_append]
          omega
      · obtain ⟨rfl, rfl⟩ := List.cons.inj hx
        exact .escape hb (ih hs (by simpa using hd'))

/-- `get_quoted_string` reads an opening byte, the text of a literal, and its closing quote,
    and returns what the literal stands for. -/
theorem getQuotedString_sound {s d r : Bytes} (h : getQuotedString s = some (d, r)) :
    ∃ o lit, s = o :: (lit ++ 34 :: r) ∧ LitChars lit d := by
  unfold getQuotedString skipQuotes at h
  dsimp only at h
  split_ifs at h with h0
  obtain ⟨d', hp, hd⟩ := Option.map_eq_some'.mp h
  obtain ⟨rfl, rfl⟩ := Prod.mk.inj hd
  obtain ⟨lit, hs, hspan⟩ := skipQuotesLoop_span s.tail h0
  cases s with
  | nil => simp at hs
  | cons o t =>
    simp only [List.tail_cons] at hs hp ⊢
    generalize skipQuotesLoop t = r at hs hp ⊢
    subst hs
    refine ⟨o, lit, rfl, processString_span r lit.length hspan ?_⟩
    rwa [show (o :: (lit ++ 34 :: r)).length - r.length - 2 = lit.length by simp; omega] at hp

/-- `process_string` writes no more bytes than the text between the quotes `skip_quotes`
    found has, so they and the terminating `NUL` fit in the `len + 1` bytes it allocates. -/
theorem processString_within_len {s out : Bytes} (h0 : peek (skipQuotes s) ≠ 0)
    (h : processString (s.length - (skipQuotes s).length - 2) s.tail
      (s.length - (skipQuotes s).length - 2) = some out) :
    out.length ≤ s.length - (skipQuotes s).length - 2 := by
  have hq : getQuotedString s = some (out, skipQuotes s) := by
    unfold getQuotedString
    rw [if_neg h0]
    dsimp only
    rw [h]
    rfl
  obtain ⟨o, lit, hs, hlit⟩ := getQuotedString_sound hq
  have hlen : s.length - (skipQuotes s).length - 2 = lit.length := by
    nth_rewrite 1 [hs]
    simp only [List.length_cons, List.length_append]
    omega
  exact hlen ▸ hlit.length_le

/-- The text `\uD83D\uDE00` between quotes, followed by `]`: twelve bytes of text, four
    written. -/
theorem processString_within_len_pair :
    processString 12 [92, 117, 68, 56, 51, 68, 92, 117, 68, 69, 48, 48, 34, 93] 12 =
      some [240, 159, 152, 128] ∧ [240, 159, 152, 128].length ≤ 12 :=
  ⟨rfl, processString_within_len
    (s := [34, 92, 117, 68, 56, 51, 68, 92, 117, 68, 69, 48, 48, 34, 93]) (by decide) rfl⟩

/-! ## Numbers and names -/

/-- A number token `parse_number_value` reads: it starts with `-` or a digit, `strtod`
    consumes all of it, and `is_decimal` accepts it. -/
def StrtodNumber (t : Bytes) : Prop :=
  (peek t = 45 ∨ isDigit (peek t)) ∧ strtodEnd t = t.length ∧ isDecimal t = true

theorem peek_take {s : Bytes} {n : Nat} (hn : n ≠ 0) : peek (s.take n) = peek s := by
  cases s with
  | nil => simp
  | cons c s => cases n with
    | zero => exact absurd rfl hn
    | succ n => rfl

/-- Before what may follow a value, `parse_number_value` has read a number token, and the
    value is `strtod` of it. -/
theorem parseNumberValue_sound {lib : Libc} {s r : Bytes} {v : Value}
    (h : parseNumberValue lib s = some (v, r)) (hs : peek s = 45 ∨ isDigit (peek s))
    (hr : Follows r) : ∃ t, s = t ++ r ∧ StrtodNumber t ∧ v = .number (lib.strtod t) := by
  unfold parseNumberValue at h
  dsimp only at h
  split_ifs at h with hdec
  obtain ⟨rfl, rfl⟩ := Prod.mk.inj (Option.some.inj h)
  have hn : strtodEnd s ≤ s.length := by
    by_contra hlt
    rw [List.drop_eq_nil_iff.mpr (by omega)] at hr
    exact not_follows_nil hr
  have hn0 : strtodEnd s ≠ 0 := fun h0 => by
    rw [h0, List.drop_zero] at hr
    rcases hs with h45 | hd
    · exact hr.ne (by decide) h45
    · rw [hr.not_digit] at hd; cases hd
  have hstop := strtodEnd_prefixStable (s.take (strtodEnd s)) (s.drop (strtodEnd s))
    (by rw [List.take_append_drop, List.length_take_of_le hn])
  rw [List.take_append_drop] at hstop
  refine ⟨_, (List.take_append_drop _ _).symm, ⟨by rw [peek_take hn0]; exact hs, ?_, hdec⟩, rfl⟩
  rw [hstop, List.length_take_of_le hn]

theorem parseNullValue_sound {s r : Bytes} {v : Value} (h : parseNullValue s = some (v, r)) :
    s = (Cst.null).text ++ r ∧ v = .null := by
  unfold parseNullValue at h
  split_ifs at h with hp
  obtain ⟨rfl, rfl⟩ := Prod.mk.inj (Option.some.inj h)
  obtain ⟨u, rfl⟩ := List.isPrefixOf_iff_prefix.mp hp
  have h4 : List.drop 4 (Bytes.ofString "null" ++ u) = u := List.drop_left' rfl
  exact ⟨by rw [h4]; rfl, rfl⟩

theorem parseBooleanValue_sound {s r : Bytes} {v : Value}
    (h : parseBooleanValue s = some (v, r)) : ∃ b, s = (Cst.bool b).text ++ r ∧ v = .boolean b := by
  unfold parseBooleanValue at h
  split_ifs at h with ht hf
  · obtain ⟨rfl, rfl⟩ := Prod.mk.inj (Option.some.inj h)
    obtain ⟨u, rfl⟩ := List.isPrefixOf_iff_prefix.mp ht
    have h4 : List.drop 4 (Bytes.ofString "true" ++ u) = u := List.drop_left' rfl
    exact ⟨true, by rw [h4]; rfl, rfl⟩
  · obtain ⟨rfl, rfl⟩ := Prod.mk.inj (Option.some.inj h)
    obtain ⟨u, rfl⟩ := List.isPrefixOf_iff_prefix.mp hf
    have h5 : List.drop 5 (Bytes.ofString "false" ++ u) = u := List.drop_left' rfl
    exact ⟨false, by rw [h5]; rfl, rfl⟩

/-! ## The accepted dialect -/

/-- The texts the parser accepts: any `isspace` byte between tokens, keys opened by any byte
    that is not whitespace or `NUL`, and the number tokens `parse_number_value` reads. -/
def accepted : Dialect where
  gap g := ∀ c ∈ g, isSpace c
  opener c := isSpace c = false ∧ c ≠ 0
  number := StrtodNumber

/-- `s` is whitespace, then the text of a tree of the accepted dialect whose document, stored
    as the parser stores it, is `v`, then `r`. -/
def ReadsAs (lib : Libc) (s : Bytes) (v : Value) (r : Bytes) : Prop :=
  ∃ (g : Bytes) (c : Cst), s = g ++ c.text ++ r ∧ accepted.gap g ∧ c.Forall accepted.Local ∧
    v = (c.value lib).toValue

theorem accepted_gap_append {g g' : Bytes} (h : accepted.gap g) (h' : accepted.gap g') :
    accepted.gap (g ++ g') := by
  simpa [accepted, or_imp, forall_and] using And.intro h h'

/-- An RFC 4627 number token that `is_decimal` accepts is one `parse_number_value` reads:
    reading it forward and back gives the token again. -/
theorem strtodNumber_of_rfc {t : Bytes} (ht : RfcNumber t) (hz : ¬ LeadingZeroExp t) :
    StrtodNumber t := by
  have hsp : Follows [32] := Or.inl rfl
  obtain ⟨c, u, rfl, -, hc⟩ := ht.head
  obtain ⟨t', ht', htok, -⟩ := parseNumberValue_sound
    (parseNumberValue_rfc ⟨fun _ => Double.zero, fun _ => CStr.empty, fun _ _ => false⟩ ht hz hsp)
    (by rcases hc with rfl | hc; exacts [Or.inl rfl, Or.inr hc]) hsp
  rwa [List.append_cancel_right ht']

/-- The dialect the parser is complete for (`parsable`) lies within the one it is sound for. -/
theorem accepted_local_of_parsable {c : Cst} (h : parsable.Local c) : accepted.Local c := by
  cases c with
  | number tok => exact strtodNumber_of_rfc h.1 h.2
  | object gap ms =>
    cases ms with
    | nil => exact h
    | cons m ms =>
      intro n hn
      obtain ⟨h1, h2, h3, h4, h5, h6⟩ := h n hn
      exact ⟨h1, ⟨h2.1, h2.2.1⟩, h3, h4, h5, h6⟩
  | array gap is => cases is <;> exact h
  | null | bool _ | string _ => exact h

/-! ## The loops -/

section Loops

variable {lib : Libc} {pv : Bytes → Option (Value × Bytes)}
  (hpv : ∀ {s v r}, pv s = some (v, r) → Follows r → ReadsAs lib s v r)
include hpv

/-- The item loop, started after whitespace and stopped before a `]`, has read a nonempty list
    of accepted items separated by commas, and appended their documents. -/
theorem parseArrayItems_sound {fuel : Nat} :
    ∀ {a a' : JsonArray Value} {x r rest : Bytes},
    parseArrayItems pv fuel a (skipWhitespaces x) = some (a', r) →
    skipWhitespaces r = 93 :: rest →
    ∃ is : List (Item Cst), is ≠ [] ∧ x = Cst.itemsText is ++ 93 :: rest ∧
      (∀ i ∈ is, accepted.gap i.before ∧ accepted.gap i.after) ∧
      Cst.itemsForall accepted.Local is ∧
      a'.items = a.items ++ Json.itemsToValue (Cst.itemsValue lib is) := by
  induction fuel with
  | zero =>
    intro a a' x r rest h h93
    rcases parseArrayItems_cases h with ⟨h0, -, rfl⟩ | ⟨_, _, _, _, hf, -⟩
    · rw [skipWhitespaces_idem] at h93; rw [h93] at h0; cases h0
    · cases hf
  | succ fuel ih =>
    intro a a' x r rest h h93
    obtain ⟨g, hg, hx⟩ := skipWhitespaces_split x
    rcases parseArrayItems_cases h with ⟨h0, -, rfl⟩ |
      ⟨_, v, s1, a1, hf, -, hv, hadd, hrest⟩
    · rw [skipWhitespaces_idem] at h93; rw [h93] at h0; cases h0
    cases hf
    have hitems : a1.items = a.items ++ [some v] := by
      simpa [hadd] using jsonArrayAdd_items a v
    obtain ⟨ga, hga, hs1⟩ := skipWhitespaces_split s1
    rcases hrest with ⟨s2, hc, hloop⟩ | ⟨-, rfl, rfl⟩
    · obtain ⟨g1, c, hs, hg1, hc1, rfl⟩ := hpv hv (follows_of_skipWhitespaces (by simp [hc]))
      obtain ⟨is, hne, hs2, hgaps, hall, hitems'⟩ := ih hloop h93
      obtain ⟨j, js, rfl⟩ := List.exists_cons_of_ne_nil hne
      refine ⟨⟨g ++ g1, c, ga⟩ :: j :: js, List.cons_ne_nil _ _, ?_, ?_, ⟨hc1, hall⟩, ?_⟩
      · rw [Cst.itemsText_cons_cons, Cst.itemText_eq, hx, hs, hs1, hc, hs2]
        simp
      · exact List.forall_mem_cons.mpr ⟨⟨accepted_gap_append hg hg1, hga⟩, hgaps⟩
      · rw [hitems', hitems]
        simp [Cst.itemsValue, Json.itemsToValue]
    · rw [skipWhitespaces_idem] at h93
      obtain ⟨g1, c, hs, hg1, hc1, rfl⟩ :=
        hpv hv (follows_of_skipWhitespaces (by simp [h93]))
      refine ⟨[⟨g ++ g1, c, ga⟩], List.cons_ne_nil _ _, ?_, ?_, ⟨hc1, trivial⟩, ?_⟩
      · rw [hx, hs, hs1, h93]
        simp [Cst.itemsText, Cst.itemText_eq]
      · simpa using ⟨accepted_gap_append hg hg1, hga⟩
      · rw [hitems]
        simp [Cst.itemsValue, Json.itemsToValue]

/-- The member loop, started after whitespace and stopped before a `}`, has read a nonempty
    list of accepted members separated by commas, and appended their names and documents. -/
theorem parseObjectMembers_sound {fuel : Nat} :
    ∀ {o o' : JsonObject Value} {x r rest : Bytes},
    parseObjectMembers pv fuel o (skipWhitespaces x) = some (o', r) →
    skipWhitespaces r = 125 :: rest →
    ∃ ms : List (Member Cst), ms ≠ [] ∧ x = Cst.membersText ms ++ 125 :: rest ∧
      (∀ m ∈ ms, accepted.gap m.before ∧ accepted.opener m.opener ∧
        (decodeLit m.key).isSome ∧ accepted.gap m.beforeColon ∧ accepted.gap m.afterColon ∧
        accepted.gap m.after) ∧
      Cst.membersForall accepted.Local ms ∧
      o'.entries = o.entries ++ Json.entriesToValue (Cst.membersValue lib ms) := by
  induction fuel with
  | zero =>
    intro o o' x r rest h h125
    rcases parseObjectMembers_cases h with ⟨h0, -, rfl⟩ | ⟨_, _, _, _, _, _, _, hf, -⟩
    · rw [skipWhitespaces_idem] at h125; rw [h125] at h0; cases h0
    · cases hf
  | succ fuel ih =>
    intro o o' x r rest h h125
    obtain ⟨g, hg, hx⟩ := skipWhitespaces_split x
    rcases parseObjectMembers_cases h with ⟨h0, -, rfl⟩ |
      ⟨_, key, s1, s2, v, s3, o1, hf, h0, hkey, hcolon, hv, hadd, hrest⟩
    · rw [skipWhitespaces_idem] at h125; rw [h125] at h0; cases h0
    cases hf
    obtain ⟨op, lit, hs, hlit⟩ := getQuotedString_sound hkey
    have hop : accepted.opener op := by
      have := peek_skipWhitespaces x
      rw [hs] at this h0
      exact ⟨this, h0⟩
    have hentries : o1.entries = o.entries ++ [(litValue lit, v)] := by
      simpa [hadd, litValue_of_litChars hlit] using jsonObjectAdd_entries o (cString key) v
    obtain ⟨gbc, hgbc, hs1⟩ := skipWhitespaces_split s1
    obtain ⟨ga, hga, hs3⟩ := skipWhitespaces_split s3
    have hk : (decodeLit lit).isSome := by rw [decodeLit_of_litChars hlit]; rfl
    rcases hrest with ⟨s4, hc, hloop⟩ | ⟨-, rfl, rfl⟩
    · obtain ⟨gac, c, hs2, hgac, hc1, rfl⟩ := hpv hv (follows_of_skipWhitespaces (by simp [hc]))
      obtain ⟨ms, hne, hs4, hok, hall, hentries'⟩ := ih hloop h125
      obtain ⟨n, ns, rfl⟩ := List.exists_cons_of_ne_nil hne
      refine ⟨⟨g, op, lit, gbc, gac, c, ga⟩ :: n :: ns, List.cons_ne_nil _ _, ?_, ?_,
        ⟨hc1, hall⟩, ?_⟩
      · rw [Cst.membersText_cons_cons, Cst.memberText_eq, hx, hs, hs1, hcolon, hs2, hs3, hc, hs4]
        simp
      · exact List.forall_mem_cons.mpr ⟨⟨hg, hop, hk, hgbc, hgac, hga⟩, hok⟩
      · rw [hentries', hentries]
        simp [Cst.membersValue, Json.entriesToValue]
    · rw [skipWhitespaces_idem] at h125
      obtain ⟨gac, c, hs2, hgac, hc1, rfl⟩ :=
        hpv hv (follows_of_skipWhitespaces (by simp [h125]))
      refine ⟨[⟨g, op, lit, gbc, gac, c, ga⟩], List.cons_ne_nil _ _, ?_, ?_, ⟨hc1, trivial⟩, ?_⟩
      · rw [hx, hs, hs1, hcolon, hs2, hs3, h125]
        simp [Cst.membersText, Cst.memberText_eq]
      · simpa using ⟨hg, hop, hk, hgbc, hgac, hga⟩
      · rw [hentries]
        simp [Cst.membersValue, Json.entriesToValue]

/-- An array `parse_array_value` returns is the text of an accepted array. -/
theorem parseArrayValue_sound {x r : Bytes} {v : Value}
    (h : parseArrayValue pv (91 :: x) = some (v, r)) :
    ∃ c : Cst, 91 :: x = c.text ++ r ∧ c.Forall accepted.Local ∧ v = (c.value lib).toValue := by
  rcases parseArrayValue_cases h with ⟨hclose, rfl⟩ | ⟨a, r1, -, hloop, hclose, -, rfl⟩
  · obtain ⟨g, hg, hx⟩ := skipWhitespaces_split x
    refine ⟨.array g [], ?_, ⟨hg, trivial⟩, rfl⟩
    rw [List.tail_cons] at hclose
    rw [hx, hclose]
    simp [Cst.text]
  · obtain ⟨is, hne, hx, hgaps, hall, hitems⟩ := parseArrayItems_sound hpv hloop hclose
    obtain ⟨j, js, rfl⟩ := List.exists_cons_of_ne_nil hne
    refine ⟨.array [] (j :: js), ?_, ⟨hgaps, hall⟩, ?_⟩
    · rw [List.tail_cons] at hx
      rw [hx]
      simp [Cst.text]
    · have hcount : a.count = (j :: js).length := by
        simp [JsonArray.count, hitems, Json.itemsToValue_length, Cst.itemsValue_eq_map]
      simp [Cst.value, Json.toValue, hitems, hcount, Cst.itemsValue_eq_map]

/-- An object `parse_object_value` returns is the text of an accepted object. -/
theorem parseObjectValue_sound {x r : Bytes} {v : Value}
    (h : parseObjectValue pv (123 :: x) = some (v, r)) :
    ∃ c : Cst, 123 :: x = c.text ++ r ∧ c.Forall accepted.Local ∧ v = (c.value lib).toValue := by
  rcases parseObjectValue_cases h with ⟨hclose, rfl⟩ | ⟨o, r1, -, hloop, hclose, -, rfl⟩
  · obtain ⟨g, hg, hx⟩ := skipWhitespaces_split x
    refine ⟨.object g [], ?_, ⟨hg, trivial⟩, rfl⟩
    rw [List.tail_cons] at hclose
    rw [hx, hclose]
    simp [Cst.text]
  · obtain ⟨ms, hne, hx, hok, hall, hentries⟩ := parseObjectMembers_sound hpv hloop hclose
    obtain ⟨n, ns, rfl⟩ := List.exists_cons_of_ne_nil hne
    refine ⟨.object [] (n :: ns), ?_, ⟨hok, hall⟩, ?_⟩
    · rw [List.tail_cons] at hx
      rw [hx]
      simp [Cst.text]
    · have hcount : o.count = (n :: ns).length := by
        simp [JsonObject.count, hentries, Json.entriesToValue_length, Cst.membersValue_eq_map]
      simp [Cst.value, Json.toValue, hentries, hcount, Cst.membersValue_eq_map]

end Loops

/-! ## `parse_value` and the entry point -/

/-- An accepted tree whose text starts with `{` or `[` is a container. -/
theorem Cst.isContainer_of_peek {c : Cst} (hc : accepted.Local c) {r : Bytes}
    (h : peek (c.text ++ r) = 123 ∨ peek (c.text ++ r) = 91) : c.IsContainer := by
  cases c with
  | null => rw [show peek (Cst.null.text ++ r) = 110 from rfl] at h; exact absurd h (by decide)
  | bool b =>
    cases b
    · rw [show peek ((Cst.bool false).text ++ r) = 102 from rfl] at h; exact absurd h (by decide)
    · rw [show peek ((Cst.bool true).text ++ r) = 116 from rfl] at h; exact absurd h (by decide)
  | string lit =>
    rw [show peek ((Cst.string lit).text ++ r) = 34 from rfl] at h; exact absurd h (by decide)
  | number tok =>
    have hne : tok ≠ [] := by rintro rfl; rcases hc.1 with h | h <;> exact absurd h (by decide)
    change peek (tok ++ r) = 123 ∨ peek (tok ++ r) = 91 at h
    rw [peek_append_of_ne_nil hne] at h
    rcases hc.1 with h1 | h1 <;> rcases h with h2 | h2 <;> rw [h2] at h1 <;>
      exact absurd h1 (by decide)
  | object | array => trivial

/-- What `parse_value` reads is whitespace and the text of an accepted tree, and it returns the
    tree's document; a number is read only before what may follow a value, and the entry point
    reads only containers, so the hypothesis holds wherever the code calls it. -/
theorem parseValue_sound (lib : Libc) : ∀ {l : Nat} {s r : Bytes} {v : Value},
    parseValue lib l s = some (v, r) →
    (Follows r ∨ peek (skipWhitespaces s) = 123 ∨ peek (skipWhitespaces s) = 91) →
    ReadsAs lib s v r
  | 0, _, _, _, h, _ => by simp [parseValue] at h
  | l + 1, s, r, v, h, hr => by
    have ih : ∀ {s v r}, parseValue lib l s = some (v, r) → Follows r → ReadsAs lib s v r :=
      fun h hr => parseValue_sound lib h (Or.inl hr)
    obtain ⟨g, hg, hs⟩ := skipWhitespaces_split s
    suffices hc : ∃ c : Cst, skipWhitespaces s = c.text ++ r ∧ c.Forall accepted.Local ∧
        v = (c.value lib).toValue by
      obtain ⟨c, hc, hf, hv⟩ := hc
      exact ⟨g, c, by rw [hs, hc, List.append_assoc], hg, hf, hv⟩
    rcases parseValue_cases h with ⟨h123, ho⟩ | ⟨h91, ha⟩ | ⟨h34, hstr⟩ | hb | ⟨hnum, hn⟩ | hz
    · obtain ⟨t, ht⟩ := eq_cons_of_peek h123 (by decide)
      rw [ht] at ho ⊢
      exact parseObjectValue_sound ih ho
    · obtain ⟨t, ht⟩ := eq_cons_of_peek h91 (by decide)
      rw [ht] at ha ⊢
      exact parseArrayValue_sound ih ha
    · obtain ⟨⟨d, r'⟩, hq, hv⟩ := Option.map_eq_some'.mp hstr
      obtain ⟨rfl, rfl⟩ := Prod.mk.inj hv
      obtain ⟨o, lit, hs', hlit⟩ := getQuotedString_sound hq
      obtain rfl : o = 34 := by rw [hs'] at h34; exact h34
      refine ⟨.string lit, by rw [hs']; simp [Cst.text], ?_, ?_⟩
      · show (decodeLit lit).isSome
        rw [decodeLit_of_litChars hlit]; rfl
      · simp [Cst.value, Json.toValue, litValue_of_litChars hlit]
    · obtain ⟨b, hb', rfl⟩ := parseBooleanValue_sound hb
      exact ⟨.bool b, hb', trivial, rfl⟩
    · have hf : Follows r := by
        rcases hr with hr | h | h
        · exact hr
        all_goals rcases hnum with h' | h' <;> rw [h] at h' <;> exact absurd h' (by decide)
      obtain ⟨t, ht, htok, rfl⟩ := parseNumberValue_sound hn hnum hf
      exact ⟨.number t, ht, htok, rfl⟩
    · obtain ⟨hz', rfl⟩ := parseNullValue_sound hz
      exact ⟨.null, hz', trivial, rfl⟩

/-- What `json_parse_string` accepts is whitespace, the text of an accepted object or array,
    and then any bytes; the tree it returns is that text's document, stored with every capacity
    trimmed to its count. -/
theorem jsonParseString_sound {lib : Libc} {s : CStr} {v : Value}
    (h : jsonParseString lib s = some v) :
    ∃ (g : Bytes) (c : Cst) (rest : Bytes), s.bytes = g ++ c.text ++ rest ∧ accepted.gap g ∧
      c.IsContainer ∧ c.Forall accepted.Local ∧ v = (c.value lib).toValue := by
  unfold jsonParseString at h
  dsimp only at h
  split_ifs at h with hroot
  obtain ⟨⟨v', r⟩, hp, rfl⟩ := Option.map_eq_some'.mp h
  have hpk : peek (skipWhitespaces s.bytes) = 123 ∨ peek (skipWhitespaces s.bytes) = 91 := by
    by_contra hn
    exact hroot (not_or.mp hn)
  obtain ⟨g, c, ht, hg, hc, rfl⟩ :=
    parseValue_sound lib hp (Or.inr (by rwa [skipWhitespaces_idem]))
  obtain ⟨g0, hg0, hs⟩ := skipWhitespaces_split s.bytes
  obtain rfl : g = [] := by
    cases g with
    | nil => rfl
    | cons x g =>
      have := peek_skipWhitespaces s.bytes
      rw [ht] at this
      exact absurd (hg x (List.mem_cons_self _ _)) (by simpa using this)
  refine ⟨g0, c, r, by rw [hs, ht, List.nil_append, List.append_assoc], hg0, ?_, hc, rfl⟩
  rw [ht, List.nil_append] at hpk
  exact Cst.isContainer_of_peek hc.self hpk

theorem jsonParseString_sound_inf :
    jsonParseString ⟨fun _ => Double.zero, fun _ => CStr.empty, fun _ _ => false⟩
        ⟨[91, 45, 105, 110, 102, 93], by decide⟩ =
      some (.array ⟨[some (.number Double.zero)], 1⟩) ∧
    ∃ (g : Bytes) (c : Cst) (rest : Bytes),
      CStr.bytes ⟨[91, 45, 105, 110, 102, 93], by decide⟩ = g ++ c.text ++ rest ∧
      accepted.gap g ∧ c.IsContainer ∧ c.Forall accepted.Local ∧
      Value.array ⟨[some (.number Double.zero)], 1⟩ =
        (c.value ⟨fun _ => Double.zero, fun _ => CStr.empty, fun _ _ => false⟩).toValue :=
  ⟨rfl, jsonParseString_sound rfl⟩

end Parson
