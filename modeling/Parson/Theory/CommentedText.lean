import Parson.Theory.Comments
import Parson.Theory.Completeness

/-!
# Texts with Comments

`json_parse_string_with_comments` is there to read a JSON text with comments between its
tokens as `json_parse_string` reads the text without them. `line_comment_quote` shows that it
does not always do so; this module says when it does. A gap between two tokens is a sequence
of whitespace bytes, block comments `/* ... */` and line comments `// ...` closed by a newline
(`GapPiece`). A block comment may hold anything but its end token. A line comment may hold no
newline and, since the block pass reads it byte by byte as if it were JSON, no `"` and no `/*`
(so it may not start with `*` either). For every well-formed text of that kind with a
container at its root, the entry point returns the document the text denotes
(`jsonParseStringWithComments_commented`).

The proof follows one pass of `remove_comments` segment by segment. `Scans start stop u w`
says that a pass entering `u` outside a string writes `w` for it and leaves `u` outside a
string, whatever follows; such facts compose over concatenation (`Scans.append`). A string
literal is written back because the pass follows its escapes as `skip_quotes` does
(`scans_lit`); every other token is written back because it holds no `\`, `"` or `/`. So a
pass rewrites the gaps of a tree and nothing else (`Cst.scans`): the block pass blanks the
block comments, the line pass the line comments, and what is left between the tokens is
whitespace that `json_parse_string` skips.

## Main definitions

* `Scans`: What a pass writes for a segment, whatever follows it.
* `GapPiece`: Whitespace, a block comment or a line comment.
* `commented`: The dialect of texts with comments between their tokens.
* `Cst.mapGaps`: A tree with every gap rewritten.

## Theorems

* `removeCommentsLoop_fuel`: Fuel beyond the text's length changes nothing.
* `Scans.append`: What a pass writes composes over concatenation.
* `scans_lit`: A pass writes a string literal back.
* `scans_comment`: A pass blanks a comment of its own kind.
* `Cst.scans`: A pass rewrites the gaps of a tree and nothing else.
* `jsonParseStringWithComments_commented`: The entry point reads a commented text as the
  document it denotes.
-/

namespace Parson

/-! ## One pass, segment by segment -/

section Pass

variable {r stop : Bytes}

@[simp] theorem removeCommentsLoop_nil (start stop : Bytes) (fuel : Nat) (inString escaped : Bool) :
    removeCommentsLoop start stop fuel inString escaped [] = [] := by
  cases fuel <;> rfl

/-- With a start token, a pass given at least as much fuel as its text has bytes runs to the
    text's end, so any two such fuels agree. -/
theorem removeCommentsLoop_fuel {start : Bytes} (hst : start ≠ []) :
    ∀ {fuel fuel' : Nat} {inString escaped : Bool} {s : Bytes}, s.length ≤ fuel →
      s.length ≤ fuel' → removeCommentsLoop start stop fuel inString escaped s =
        removeCommentsLoop start stop fuel' inString escaped s
  | _, _, _, _, [], _, _ => by simp
  | 0, _, _, _, _ :: _, h, _ => absurd h (by simp)
  | _ + 1, 0, _, _, _ :: _, _, h => absurd h (by simp)
  | fuel + 1, fuel' + 1, inString, escaped, c :: s, h, h' => by
    have ih := @removeCommentsLoop_fuel start hst fuel fuel'
    simp only [List.length_cons, Nat.add_le_add_iff_right] at h h'
    rw [removeCommentsLoop, removeCommentsLoop]
    split_ifs
    · rw [ih h h']
    · rw [ih h h']
    · dsimp only
      split
      · rfl
      · have : ((c :: s).drop start.length).length ≤ s.length := by
          have := List.length_pos.mpr hst
          simp only [List.length_drop, List.length_cons]; omega
        rw [ih (by simp only [List.length_drop] at this ⊢; omega)
          (by simp only [List.length_drop] at this ⊢; omega)]
    · rw [ih h h']

/-- A pass entering `u` outside a string writes `w` for it and leaves it outside a string,
    whatever follows. -/
def Scans (start stop u w : Bytes) : Prop :=
  ∀ t, removeCommentsLoop start stop (u ++ t).length false false (u ++ t) =
    w ++ removeCommentsLoop start stop t.length false false t

theorem Scans.nil : Scans (47 :: r) stop [] [] := fun _ => rfl

theorem Scans.append {u w u' w' : Bytes} (h : Scans (47 :: r) stop u w)
    (h' : Scans (47 :: r) stop u' w') : Scans (47 :: r) stop (u ++ u') (w ++ w') :=
  fun t => by rw [List.append_assoc, h, h', List.append_assoc]

/-- What a pass of `remove_comments` writes for a whole text. -/
theorem Scans.removeComments {u w : Bytes} (hstop : stop ≠ []) (h : Scans (47 :: r) stop u w) :
    removeComments u (47 :: r) stop = w := by
  have := h []
  simp only [List.append_nil, removeCommentsLoop_nil] at this
  simp [Parson.removeComments, hstop, this]

/-- A byte every pass copies whatever state it is in: not `\`, not `"` and not the `/` both
    start tokens begin with. -/
def Inert (x : UInt8) : Prop := x ≠ 92 ∧ x ≠ 34 ∧ x ≠ 47

instance (x : UInt8) : Decidable (Inert x) := inferInstanceAs (Decidable (_ ∧ _))

theorem removeCommentsLoop_inert {x : UInt8} (hx : Inert x) (fuel : Nat) (inString escaped : Bool)
    (t : Bytes) : removeCommentsLoop (47 :: r) stop (fuel + 1) inString escaped (x :: t) =
      x :: removeCommentsLoop (47 :: r) stop fuel inString false t := by
  obtain ⟨h92, h34, h47⟩ := hx
  rw [removeCommentsLoop, if_neg (by simp [h92]), if_neg (by simp [h34]), if_neg (by simp [Ne.symm h47])]

theorem scans_inert : ∀ {u : Bytes}, (∀ x ∈ u, Inert x) → Scans (47 :: r) stop u u
  | [], _ => Scans.nil
  | x :: u, h => by
    have hu := scans_inert fun y hy => h y (List.mem_cons_of_mem _ hy)
    intro t
    rw [List.cons_append, List.length_cons,
      removeCommentsLoop_inert (h x (List.mem_cons_self _ _)), hu]
    rfl

/-! ## Inside a string -/

theorem removeCommentsLoop_open (fuel : Nat) (t : Bytes) :
    removeCommentsLoop (47 :: r) stop (fuel + 1) false false (34 :: t) =
      34 :: removeCommentsLoop (47 :: r) stop fuel true false t := by
  rw [removeCommentsLoop, if_neg (by decide), if_pos ⟨rfl, rfl⟩]; rfl

theorem removeCommentsLoop_close (fuel : Nat) (t : Bytes) :
    removeCommentsLoop (47 :: r) stop (fuel + 1) true false (34 :: t) =
      34 :: removeCommentsLoop (47 :: r) stop fuel false false t := by
  rw [removeCommentsLoop, if_neg (by decide), if_pos ⟨rfl, rfl⟩]; rfl

theorem removeCommentsLoop_inside {c : UInt8} (h34 : c ≠ 34) (h92 : c ≠ 92) (fuel : Nat)
    (escaped : Bool) (t : Bytes) :
    removeCommentsLoop (47 :: r) stop (fuel + 1) true escaped (c :: t) =
      c :: removeCommentsLoop (47 :: r) stop fuel true false t := by
  rw [removeCommentsLoop, if_neg (by simp [h92]), if_neg (by simp [h34]), if_neg (by simp)]

/-- Inside a string a `\` and the byte after it are copied, whatever that byte is. -/
theorem removeCommentsLoop_escape (fuel : Nat) (e : UInt8) (t : Bytes) :
    removeCommentsLoop (47 :: r) stop (fuel + 2) true false (92 :: e :: t) =
      92 :: e :: removeCommentsLoop (47 :: r) stop fuel true false t := by
  rw [removeCommentsLoop, if_pos ⟨rfl, rfl⟩, removeCommentsLoop, if_neg (by simp),
    if_neg (by simp), if_neg (by simp)]

/-- Inside a string a pass follows a literal's escapes up to the quote that closes it, as
    `skip_quotes` does, and copies it. -/
theorem removeCommentsLoop_lit {lit d : Bytes} (h : LitChars lit d) (t : Bytes) :
    removeCommentsLoop (47 :: r) stop (lit ++ 34 :: t).length true false (lit ++ 34 :: t) =
      lit ++ 34 :: removeCommentsLoop (47 :: r) stop t.length false false t := by
  induction h with
  | nil => exact removeCommentsLoop_close _ t
  | raw _ h34 h92 _ ih =>
    rw [List.cons_append, List.length_cons, removeCommentsLoop_inside h34 h92, ih]
    rfl
  | escape _ _ ih =>
    simp only [List.cons_append, List.length_cons]
    rw [removeCommentsLoop_escape, ih]
  | unicode hq _ _ ih =>
    obtain ⟨ha, hb, hc, he⟩ := hexQuad_plain hq
    simp only [List.cons_append, List.length_cons]
    rw [removeCommentsLoop_escape, removeCommentsLoop_inside ha.1 ha.2.2,
      removeCommentsLoop_inside hb.1 hb.2.2, removeCommentsLoop_inside hc.1 hc.2.2,
      removeCommentsLoop_inside he.1 he.2.2, ih]
  | pair h1 _ _ h4 _ _ _ ih =>
    obtain ⟨ha, hb, hc, he⟩ := hexQuad_plain h1
    obtain ⟨hf, hg, hh, hi⟩ := hexQuad_plain h4
    simp only [List.cons_append, List.length_cons]
    rw [removeCommentsLoop_escape, removeCommentsLoop_inside ha.1 ha.2.2,
      removeCommentsLoop_inside hb.1 hb.2.2, removeCommentsLoop_inside hc.1 hc.2.2,
      removeCommentsLoop_inside he.1 he.2.2, removeCommentsLoop_escape,
      removeCommentsLoop_inside hf.1 hf.2.2, removeCommentsLoop_inside hg.1 hg.2.2,
      removeCommentsLoop_inside hh.1 hh.2.2, removeCommentsLoop_inside hi.1 hi.2.2, ih]

/-- A pass copies a string literal with its quotes. -/
theorem scans_lit {lit d : Bytes} (h : LitChars lit d) :
    Scans (47 :: r) stop (34 :: lit ++ [34]) (34 :: lit ++ [34]) := fun t => by
  simp only [List.cons_append, List.append_assoc, List.singleton_append, List.nil_append,
    List.length_cons]
  rw [removeCommentsLoop_open, removeCommentsLoop_lit h t]

/-! ## Comments -/

/-- `strstr` finds a token right after a prefix in which it does not start. -/
theorem strstr_append {tok u : Bytes} (hu : tok <+: u) :
    ∀ {b : Bytes}, (∀ i < b.length, ¬ tok <+: b.drop i ++ u) → strstr (b ++ u) tok = some b.length
  | [], _ => by rw [List.nil_append, strstr.eq_def, if_pos (List.isPrefixOf_iff_prefix.mpr hu)]; rfl
  | y :: b, h => by
    have hy : ¬ tok.isPrefixOf (y :: (b ++ u)) :=
      fun hp => h 0 (by simp) (List.isPrefixOf_iff_prefix.mp hp)
    rw [List.cons_append, strstr.eq_def, if_neg hy]
    dsimp only
    rw [strstr_append hu fun i hi => h (i + 1) (by simp; omega)]
    rfl

/-- A two-byte token does not start within `l`, whatever follows, if it is not in `l` and
    what follows does not open with its second byte. -/
theorem not_prefix_drop_append {a b : UInt8} {l t : Bytes} (hl : ¬ [a, b] <:+: l)
    (ht : t.head? ≠ some b) : ∀ i < l.length, ¬ [a, b] <+: l.drop i ++ t := by
  intro i hi hp
  rcases hd : l.drop i with _ | ⟨y, _ | ⟨z, w⟩⟩
  · have := congrArg List.length hd; simp at this; omega
  · rw [hd] at hp
    simp only [List.singleton_append, List.cons_prefix_cons] at hp
    obtain ⟨_, hp⟩ := hp
    cases t <;> simp_all [List.cons_prefix_cons]
  · rw [hd] at hp
    simp only [List.cons_append, List.cons_prefix_cons, List.nil_prefix, and_true] at hp
    have hpre : [a, b] <+: l.drop i := by rw [hd, hp.1, hp.2]; exact List.prefix_append _ _
    exact hl (hpre.isInfix.trans (List.drop_suffix i l).isInfix)

/-- A one-byte token not in `l` does not start within it. -/
theorem not_prefix_drop_of_not_mem {x : UInt8} {l : Bytes} (hx : x ∉ l) (t : Bytes) :
    ∀ i < l.length, ¬ [x] <+: l.drop i ++ t := by
  intro i hi hp
  rcases hd : l.drop i with _ | ⟨y, w⟩
  · have := congrArg List.length hd; simp at this; omega
  · have hy : y ∈ l := (List.drop_sublist i l).subset (hd ▸ List.mem_cons_self y w)
    rw [hd] at hp
    simp only [List.cons_append, List.cons_prefix_cons] at hp
    exact hx (hp.1 ▸ hy)

/-- A pass blanks a comment of its own kind: its start token, a body in which the end token
    does not start, and the end token. -/
theorem scans_comment {body : Bytes}
    (hb : ∀ t, ∀ i < body.length, ¬ stop <+: body.drop i ++ (stop ++ t)) :
    Scans (47 :: r) stop ((47 :: r) ++ body ++ stop)
      (List.replicate ((47 :: r) ++ body ++ stop).length 32) := fun t => by
  have hs : strstr (body ++ (stop ++ t)) stop = some body.length :=
    strstr_append (List.prefix_append _ _) (hb t)
  have hpre : (47 :: r).isPrefixOf (47 :: (r ++ (body ++ (stop ++ t)))) :=
    List.isPrefixOf_iff_prefix.mpr (List.prefix_append (47 :: r) _)
  simp only [List.append_assoc, List.cons_append, List.length_cons]
  rw [removeCommentsLoop, if_neg (by decide), if_neg (by decide), if_pos ⟨rfl, hpre⟩]
  simp only [List.length_cons, List.drop_succ_cons, List.drop_left, hs, List.drop_append]
  rw [removeCommentsLoop_fuel (List.cons_ne_nil _ _)
    (by simp only [List.length_append]; omega) le_rfl]
  congr 2
  simp only [List.length_cons, List.length_append]; omega

/-- A pass that meets no `"` and no start token reads its text byte by byte and copies it; a
    `\` only sets `escaped` for the next byte. -/
theorem removeCommentsLoop_text (escaped : Bool) :
    ∀ {u : Bytes} (t : Bytes), 34 ∉ u → (∀ i < u.length, ¬ (47 :: r) <+: u.drop i ++ t) →
      ∃ e, removeCommentsLoop (47 :: r) stop (u ++ t).length false escaped (u ++ t) =
        u ++ removeCommentsLoop (47 :: r) stop t.length false e t
  | [], _, _, _ => ⟨escaped, rfl⟩
  | x :: u, t, h34, hs => by
    have hu : 34 ∉ u := fun h => h34 (List.mem_cons_of_mem _ h)
    have hs' : ∀ i < u.length, ¬ (47 :: r) <+: u.drop i ++ t :=
      fun i hi => hs (i + 1) (Nat.succ_lt_succ hi)
    rw [List.cons_append, List.length_cons, removeCommentsLoop]
    split_ifs with h92 hq hst
    · obtain ⟨e, he⟩ := removeCommentsLoop_text true t hu hs'
      exact ⟨e, by rw [he, h92.1]; rfl⟩
    · exact absurd (hq.1 ▸ List.mem_cons_self _ _) h34
    · exact absurd (List.isPrefixOf_iff_prefix.mp hst.2) (hs 0 (by simp))
    · obtain ⟨e, he⟩ := removeCommentsLoop_text false t hu hs'
      exact ⟨e, by rw [he]; rfl⟩

/-- The block pass copies a line comment with no `"` and no `/*` in it. -/
theorem scans_line_blocks {body : Bytes} (h34 : 34 ∉ body) (hs : ¬ [47, 42] <:+: [47, 47] ++ body) :
    Scans [47, 42] stop ([47, 47] ++ body ++ [10]) ([47, 47] ++ body ++ [10]) := fun t => by
  obtain ⟨e, he⟩ := @removeCommentsLoop_text [42] stop false ([47, 47] ++ body)
    (10 :: t) (by simp [h34]) (not_prefix_drop_append hs (by simp))
  simp only [List.append_assoc, List.singleton_append] at he ⊢
  rw [he, List.length_cons, removeCommentsLoop_inert (by decide)]

end Pass

/-! ## Gaps with comments -/

/-- One piece of what may stand between two tokens of a commented text. -/
inductive GapPiece
  /-- A byte `isspace` accepts. -/
  | space (c : UInt8)
  /-- A block comment: `/*`, its body, `*/`. -/
  | block (body : Bytes)
  /-- A line comment: `//`, its body, the newline. -/
  | line (body : Bytes)

namespace GapPiece

/-- The piece as written. -/
def text : GapPiece → Bytes
  | space c => [c]
  | block body => Bytes.ofString "/*" ++ body ++ Bytes.ofString "*/"
  | line body => Bytes.ofString "//" ++ body ++ Bytes.ofString "\n"

/-- A piece both passes take for what it is: a block comment that ends at its first `*/`, and
    a line comment that ends at its first newline, with no `"` that would open a string and no
    `/*` that would open a block comment for the block pass. -/
def Ok : GapPiece → Prop
  | space c => isSpace c = true
  | block body => ¬ Bytes.ofString "*/" <:+: body
  | line body => 10 ∉ body ∧ 34 ∉ body ∧ ¬ Bytes.ofString "/*" <:+: Bytes.ofString "//" ++ body

instance : DecidablePred Ok
  | space c => inferInstanceAs (Decidable (isSpace c = true))
  | block body => inferInstanceAs (Decidable (¬ _ <:+: body))
  | line _ => inferInstanceAs (Decidable (_ ∧ _ ∧ _))

/-- The piece after the block pass: a block comment blanked, the rest as it was. -/
def afterBlocks : GapPiece → Bytes
  | block body => List.replicate (block body).text.length 32
  | p => p.text

/-- The piece after both passes: every comment blanked. -/
def blanked : GapPiece → Bytes
  | space c => [c]
  | p => List.replicate p.text.length 32

end GapPiece

theorem inert_of_isSpace {c : UInt8} (h : isSpace c = true) : Inert c := by
  have := (isSpace_iff c).mp h
  simp only [Inert, ne_eq, byte_eq_iff, UInt8.reduceToNat]; omega

theorem inert_of_rfcNumber {t : Bytes} (ht : RfcNumber t) : ∀ x ∈ t, Inert x := fun x hx => by
  have := ht.mem hx
  simp only [Inert, ne_eq, byte_eq_iff, UInt8.reduceToNat]; omega

theorem inert_replicate (n : Nat) : ∀ x ∈ List.replicate n (32 : UInt8), Inert x :=
  fun x hx => (List.eq_of_mem_replicate hx) ▸ by decide

theorem GapPiece.scans_blocks : ∀ {p : GapPiece}, p.Ok → Scans [47, 42] [42, 47] p.text p.afterBlocks
  | .space _, h => scans_inert (by simpa [GapPiece.text] using inert_of_isSpace h)
  | .block _, h => scans_comment fun _ => not_prefix_drop_append h (by simp)
  | .line _, h => scans_line_blocks h.2.1 h.2.2

theorem GapPiece.scans_lines : ∀ {p : GapPiece}, p.Ok → Scans [47, 47] [10] p.afterBlocks p.blanked
  | .space _, h => scans_inert (by simpa [GapPiece.afterBlocks, GapPiece.text] using inert_of_isSpace h)
  | .block _, _ => scans_inert (inert_replicate _)
  | .line _, h => scans_comment fun t => not_prefix_drop_of_not_mem h.1 _

theorem Scans.flatten {f g : GapPiece → Bytes} :
    ∀ {ps : List GapPiece}, (∀ p ∈ ps, Scans (47 :: r) stop (f p) (g p)) →
      Scans (47 :: r) stop (ps.map f).flatten (ps.map g).flatten
  | [], _ => Scans.nil
  | p :: _, h => (h p (List.mem_cons_self _ _)).append
      (Scans.flatten fun q hq => h q (List.mem_cons_of_mem _ hq))

/-- JSON with comments: between tokens any run of whitespace and comments both passes take for
    what they are, keys opened by `"`, and the numbers `json_parse_string` reads. -/
def commented : Dialect where
  gap g := ∃ ps : List GapPiece, (∀ p ∈ ps, p.Ok) ∧ g = (ps.map GapPiece.text).flatten
  opener c := c = 34
  number := parsable.number

/-- A commented text after the block pass: its line comments are still there. -/
def lineCommented : Dialect where
  gap g := ∃ ps : List GapPiece, (∀ p ∈ ps, p.Ok) ∧ g = (ps.map GapPiece.afterBlocks).flatten
  opener c := c = 34
  number := parsable.number

/-! ## Trees with their gaps rewritten -/

mutual

/-- The tree with every gap `g` rewritten to `f g`. -/
def Cst.mapGaps (f : Bytes → Bytes) : Cst → Cst
  | .object gap ms => .object (f gap) (Cst.membersMapGaps f ms)
  | .array gap is => .array (f gap) (Cst.itemsMapGaps f is)
  | c => c

/-- `Cst.mapGaps` on members. -/
def Cst.membersMapGaps (f : Bytes → Bytes) : List (Member Cst) → List (Member Cst)
  | [] => []
  | ⟨b, o, k, bc, ac, v, a⟩ :: ms =>
    ⟨f b, o, k, f bc, f ac, Cst.mapGaps f v, f a⟩ :: Cst.membersMapGaps f ms

/-- `Cst.mapGaps` on items. -/
def Cst.itemsMapGaps (f : Bytes → Bytes) : List (Item Cst) → List (Item Cst)
  | [] => []
  | ⟨b, v, a⟩ :: is => ⟨f b, Cst.mapGaps f v, f a⟩ :: Cst.itemsMapGaps f is

end

section MapGaps

variable {f : Bytes → Bytes}

theorem Cst.membersMapGaps_eq_map : ∀ ms : List (Member Cst), Cst.membersMapGaps f ms =
    ms.map fun m => ⟨f m.before, m.opener, m.key, f m.beforeColon, f m.afterColon,
      m.value.mapGaps f, f m.after⟩
  | [] => rfl
  | ⟨_, _, _, _, _, _, _⟩ :: ms => by
    rw [Cst.membersMapGaps, Cst.membersMapGaps_eq_map ms, List.map_cons]

theorem Cst.itemsMapGaps_eq_map : ∀ is : List (Item Cst), Cst.itemsMapGaps f is =
    is.map fun i => ⟨f i.before, i.value.mapGaps f, f i.after⟩
  | [] => rfl
  | ⟨_, _, _⟩ :: is => by rw [Cst.itemsMapGaps, Cst.itemsMapGaps_eq_map is, List.map_cons]

theorem Cst.IsContainer.mapGaps {c : Cst} (hc : c.IsContainer) : (c.mapGaps f).IsContainer := by
  rcases c with _ | _ | _ | _ | ⟨_, _⟩ | ⟨_, _⟩ <;> exact hc

mutual

/-- Gaps mean nothing: rewriting them leaves the document. -/
theorem Cst.value_mapGaps (lib : Libc) : ∀ c : Cst, (c.mapGaps f).value lib = c.value lib
  | .null => rfl
  | .bool _ => rfl
  | .string _ => rfl
  | .number _ => rfl
  | .object _ ms => by
    rw [Cst.mapGaps, Cst.value, Cst.value, Cst.membersValue_mapGaps lib ms]
  | .array _ is => by rw [Cst.mapGaps, Cst.value, Cst.value, Cst.itemsValue_mapGaps lib is]

theorem Cst.membersValue_mapGaps (lib : Libc) : ∀ ms : List (Member Cst),
    Cst.membersValue lib (Cst.membersMapGaps f ms) = Cst.membersValue lib ms
  | [] => rfl
  | ⟨_, _, _, _, _, v, _⟩ :: ms => by
    rw [Cst.membersMapGaps, Cst.membersValue, Cst.membersValue, Cst.value_mapGaps lib v,
      Cst.membersValue_mapGaps lib ms]

theorem Cst.itemsValue_mapGaps (lib : Libc) : ∀ is : List (Item Cst),
    Cst.itemsValue lib (Cst.itemsMapGaps f is) = Cst.itemsValue lib is
  | [] => rfl
  | ⟨_, v, _⟩ :: is => by
    rw [Cst.itemsMapGaps, Cst.itemsValue, Cst.itemsValue, Cst.value_mapGaps lib v,
      Cst.itemsValue_mapGaps lib is]

end

mutual

theorem Cst.Forall.mapGaps {P : Cst → Prop} :
    ∀ {c : Cst}, c.Forall (fun n => P (n.mapGaps f)) → (c.mapGaps f).Forall P
  | .null, h => h
  | .bool _, h => h
  | .string _, h => h
  | .number _, h => h
  | .object _ _, h => ⟨h.1, Cst.membersForall_mapGaps h.2⟩
  | .array _ _, h => ⟨h.1, Cst.itemsForall_mapGaps h.2⟩

theorem Cst.membersForall_mapGaps {P : Cst → Prop} : ∀ {ms : List (Member Cst)},
    Cst.membersForall (fun n => P (n.mapGaps f)) ms → Cst.membersForall P (Cst.membersMapGaps f ms)
  | [], _ => trivial
  | ⟨_, _, _, _, _, _, _⟩ :: _, h => ⟨Cst.Forall.mapGaps h.1, Cst.membersForall_mapGaps h.2⟩

theorem Cst.itemsForall_mapGaps {P : Cst → Prop} : ∀ {is : List (Item Cst)},
    Cst.itemsForall (fun n => P (n.mapGaps f)) is → Cst.itemsForall P (Cst.itemsMapGaps f is)
  | [], _ => trivial
  | ⟨_, _, _⟩ :: _, h => ⟨Cst.Forall.mapGaps h.1, Cst.itemsForall_mapGaps h.2⟩

end

/-- Rewriting gaps renames no key and drops no child. -/
theorem Cst.Storable.mapGaps {c : Cst} (h : c.Storable) : (c.mapGaps f).Storable := by
  rcases c with _ | _ | _ | _ | ⟨_, ms⟩ | ⟨_, is⟩
  all_goals first
    | exact h
    | simpa [Cst.mapGaps, Cst.Storable, Cst.membersMapGaps_eq_map, Cst.itemsMapGaps_eq_map,
        Function.comp_def] using h

/-- A node well formed in one dialect is well formed in another once its gaps are rewritten
    into the other's. -/
theorem Dialect.Local.mapGaps {d d' : Dialect} (hg : ∀ g, d.gap g → d'.gap (f g))
    (ho : ∀ x, d.opener x → d'.opener x) (hn : ∀ t, d.number t → d'.number t) :
    ∀ {c : Cst}, d.Local c → d'.Local (c.mapGaps f)
  | .null, h => h
  | .bool _, h => h
  | .string _, h => h
  | .number _, h => hn _ h
  | .object _ [], h => hg _ h
  | .object _ (m :: ms), h => by
    show ∀ n ∈ Cst.membersMapGaps f (m :: ms), _
    rw [Cst.membersMapGaps_eq_map]
    intro n hn
    obtain ⟨m, hm, rfl⟩ := List.mem_map.mp hn
    obtain ⟨h1, h2, h3, h4, h5, h6⟩ := h m hm
    exact ⟨hg _ h1, ho _ h2, h3, hg _ h4, hg _ h5, hg _ h6⟩
  | .array _ [], h => hg _ h
  | .array _ (i :: is), h => by
    show ∀ j ∈ Cst.itemsMapGaps f (i :: is), _
    rw [Cst.itemsMapGaps_eq_map]
    intro j hj
    obtain ⟨i, hi, rfl⟩ := List.mem_map.mp hj
    exact ⟨hg _ (h i hi).1, hg _ (h i hi).2⟩

end MapGaps

/-! ## A pass over a tree -/

/-- What a pass needs of a dialect to rewrite the gaps of a tree and nothing else: it scans
    every gap the dialect allows as it scans the gap alone, keys open with `"`, and numbers
    hold only inert bytes. -/
structure Dialect.Scanned (d : Dialect) (r stop : Bytes) : Prop where
  gap : ∀ g, d.gap g → Scans (47 :: r) stop g (removeComments g (47 :: r) stop)
  opener : ∀ x, d.opener x → x = 34
  number : ∀ t, d.number t → ∀ x ∈ t, Inert x

section Tree

variable {r stop : Bytes} {d : Dialect}

theorem scans_member (hd : d.Scanned r stop) {b k bc ac a : Bytes} {o : UInt8} {v v' : Cst}
    (hm : d.gap b ∧ d.opener o ∧ (decodeLit k).isSome ∧ d.gap bc ∧ d.gap ac ∧ d.gap a)
    (hv : Scans (47 :: r) stop v.text v'.text) :
    Scans (47 :: r) stop (Cst.memberText ⟨b, o, k, bc, ac, v, a⟩)
      (Cst.memberText ⟨removeComments b (47 :: r) stop, o, k, removeComments bc (47 :: r) stop,
        removeComments ac (47 :: r) stop, v', removeComments a (47 :: r) stop⟩) := by
  obtain ⟨hb, ho, hk, hbc, hac, ha⟩ := hm
  obtain ⟨dk, hdk⟩ := Option.isSome_iff_exists.mp hk
  obtain rfl := hd.opener _ ho
  have := (hd.gap _ hb).append ((scans_lit (litChars_of_decodeLit hdk)).append ((hd.gap _ hbc).append
    ((scans_inert (u := [58]) (by decide)).append ((hd.gap _ hac).append (hv.append (hd.gap _ ha))))))
  simpa [Cst.memberText] using this

/-- A pass copies two inert bytes around a segment it scans. -/
theorem Scans.enclose {o c : UInt8} (ho : Inert o) (hc : Inert c) {u w : Bytes}
    (h : Scans (47 :: r) stop u w) : Scans (47 :: r) stop (o :: u ++ [c]) (o :: w ++ [c]) :=
  (scans_inert (List.forall_mem_singleton.mpr ho)).append
    (h.append (scans_inert (List.forall_mem_singleton.mpr hc)))

theorem scans_item (hd : d.Scanned r stop) {b a : Bytes} {v v' : Cst} (hb : d.gap b)
    (ha : d.gap a) (hv : Scans (47 :: r) stop v.text v'.text) :
    Scans (47 :: r) stop (Cst.itemText ⟨b, v, a⟩)
      (Cst.itemText ⟨removeComments b (47 :: r) stop, v', removeComments a (47 :: r) stop⟩) :=
  ((hd.gap _ hb).append hv).append (hd.gap _ ha)

mutual

/-- A pass over a tree of the dialect rewrites each gap as it would the gap alone and copies
    every token. -/
theorem Cst.scans (hd : d.Scanned r stop) : ∀ {c : Cst}, c.Forall d.Local →
    Scans (47 :: r) stop c.text (c.mapGaps (removeComments · (47 :: r) stop)).text
  | .null, _ => scans_inert (by decide)
  | .bool true, _ => scans_inert (by decide)
  | .bool false, _ => scans_inert (by decide)
  | .string _, hc => by
    obtain ⟨dl, hdl⟩ := Option.isSome_iff_exists.mp hc
    exact scans_lit (litChars_of_decodeLit hdl)
  | .number _, hc => scans_inert (hd.number _ hc)
  | .object _ [], hc => Scans.enclose (by decide) (by decide) (hd.gap _ hc.1)
  | .object _ (_ :: _), hc => Scans.enclose (by decide) (by decide) (Cst.membersScans hd hc.1 hc.2)
  | .array _ [], hc => Scans.enclose (by decide) (by decide) (hd.gap _ hc.1)
  | .array _ (_ :: _), hc => Scans.enclose (by decide) (by decide) (Cst.itemsScans hd hc.1 hc.2)

theorem Cst.membersScans (hd : d.Scanned r stop) : ∀ {ms : List (Member Cst)},
    (∀ m ∈ ms, d.gap m.before ∧ d.opener m.opener ∧ (decodeLit m.key).isSome ∧
      d.gap m.beforeColon ∧ d.gap m.afterColon ∧ d.gap m.after) →
    Cst.membersForall d.Local ms →
    Scans (47 :: r) stop (Cst.membersText ms)
      (Cst.membersText (Cst.membersMapGaps (removeComments · (47 :: r) stop) ms))
  | [], _, _ => Scans.nil
  | [⟨_, _, _, _, _, _, _⟩], hl, hf =>
    scans_member hd (hl _ (List.mem_singleton_self _)) (Cst.scans hd hf.1)
  | ⟨_, _, _, _, _, _, _⟩ :: ⟨_, _, _, _, _, _, _⟩ :: _, hl, hf =>
    (scans_member hd (hl _ (List.mem_cons_self _ _)) (Cst.scans hd hf.1)).append
      ((scans_inert (u := [44]) (by decide)).append
        (Cst.membersScans hd (fun m hm => hl m (List.mem_cons_of_mem _ hm)) hf.2))

theorem Cst.itemsScans (hd : d.Scanned r stop) : ∀ {is : List (Item Cst)},
    (∀ i ∈ is, d.gap i.before ∧ d.gap i.after) → Cst.itemsForall d.Local is →
    Scans (47 :: r) stop (Cst.itemsText is)
      (Cst.itemsText (Cst.itemsMapGaps (removeComments · (47 :: r) stop) is))
  | [], _, _ => Scans.nil
  | [⟨_, _, _⟩], hl, hf =>
    scans_item hd (hl _ (List.mem_singleton_self _)).1 (hl _ (List.mem_singleton_self _)).2
      (Cst.scans hd hf.1)
  | ⟨_, _, _⟩ :: ⟨_, _, _⟩ :: _, hl, hf =>
    (scans_item hd (hl _ (List.mem_cons_self _ _)).1 (hl _ (List.mem_cons_self _ _)).2
      (Cst.scans hd hf.1)).append
      ((scans_inert (u := [44]) (by decide)).append
        (Cst.itemsScans hd (fun i hi => hl i (List.mem_cons_of_mem _ hi)) hf.2))

end

/-- A pass over a gap, a tree and whatever follows rewrites the gap and the tree's gaps and
    then goes on over what follows as it would alone. -/
theorem removeComments_tree (hd : d.Scanned r stop) (hstop : stop ≠ []) {c : Cst}
    (hc : c.Forall d.Local) {g : Bytes} (hg : d.gap g) (rest : Bytes) :
    removeComments (g ++ c.text ++ rest) (47 :: r) stop =
      removeComments g (47 :: r) stop ++ (c.mapGaps (removeComments · (47 :: r) stop)).text ++
        removeComments rest (47 :: r) stop := by
  have := ((hd.gap g hg).append (Cst.scans hd hc)) rest
  simpa [Parson.removeComments, hstop] using this

end Tree

/-! ## Both passes over a commented text -/

theorem GapPiece.isSpace_blanked : ∀ {p : GapPiece}, p.Ok → ∀ x ∈ p.blanked, isSpace x = true
  | .space _, h => by simpa [GapPiece.blanked] using h
  | .block _, _ => fun _ hx => (List.eq_of_mem_replicate hx) ▸ rfl
  | .line _, _ => fun _ hx => (List.eq_of_mem_replicate hx) ▸ rfl

/-- The block pass leaves the gaps of a commented text with their line comments only. -/
theorem commented_gap_blocks {g : Bytes} (hg : commented.gap g) :
    lineCommented.gap (removeComments g [47, 42] [42, 47]) := by
  obtain ⟨ps, hps, rfl⟩ := hg
  exact ⟨ps, hps, (Scans.flatten fun p hp => GapPiece.scans_blocks (hps p hp)).removeComments
    (by decide)⟩

/-- The line pass leaves whitespace. -/
theorem lineCommented_gap_lines {g : Bytes} (hg : lineCommented.gap g) :
    parsable.gap (removeComments g [47, 47] [10]) := by
  obtain ⟨ps, hps, rfl⟩ := hg
  rw [(Scans.flatten fun p hp => GapPiece.scans_lines (hps p hp)).removeComments (by decide)]
  intro x hx
  obtain ⟨l, hl, hx⟩ := List.mem_flatten.mp hx
  obtain ⟨p, hp, rfl⟩ := List.mem_map.mp hl
  exact GapPiece.isSpace_blanked (hps p hp) x hx

theorem commented_scanned : commented.Scanned [42] [42, 47] where
  gap g hg := by
    obtain ⟨ps, hps, rfl⟩ := hg
    have h := Scans.flatten fun p hp => GapPiece.scans_blocks (hps p hp)
    rwa [h.removeComments (by decide)]
  opener _ h := h
  number _ h := inert_of_rfcNumber h.1

theorem lineCommented_scanned : lineCommented.Scanned [47] [10] where
  gap g hg := by
    obtain ⟨ps, hps, rfl⟩ := hg
    have h := Scans.flatten fun p hp => GapPiece.scans_lines (hps p hp)
    rwa [h.removeComments (by decide)]
  opener _ h := h
  number _ h := inert_of_rfcNumber h.1

/-- `json_parse_string_with_comments` reads every well-formed JSON text with comments between
    its tokens, a container at its root and the levels `parse_value` allows, after whitespace
    and comments and before any bytes, as the document the text denotes: the document
    `json_parse_string` reads from the text with its comments blanked. -/
theorem jsonParseStringWithComments_commented (lib : Libc) {c : Cst} (hc : c.IsContainer)
    (hwf : c.Forall fun n => commented.Local n ∧ n.Storable)
    (hl : (c.value lib).levels ≤ maxNesting + 1) {g rest : Bytes} (hg : commented.gap g)
    {s : CStr} (hs : s.bytes = g ++ c.text ++ rest) :
    jsonParseStringWithComments lib s = some (c.value lib).toValue := by
  have hb := removeComments_tree commented_scanned (by decide) (hwf.imp fun _ h => h.1) hg rest
  have hwf1 : (c.mapGaps (removeComments · [47, 42] [42, 47])).Forall
      fun n => lineCommented.Local n ∧ n.Storable :=
    Cst.Forall.mapGaps (hwf.imp fun _ h =>
      ⟨h.1.mapGaps (fun _ => commented_gap_blocks) (fun _ => id) (fun _ => id), h.2.mapGaps⟩)
  have hl2 := removeComments_tree lineCommented_scanned (by decide) (hwf1.imp fun _ h => h.1)
    (commented_gap_blocks hg) (removeComments rest [47, 42] [42, 47])
  have hwf2 : ((c.mapGaps (removeComments · [47, 42] [42, 47])).mapGaps
      (removeComments · [47, 47] [10])).Forall fun n => parsable.Local n ∧ n.Storable :=
    Cst.Forall.mapGaps (hwf1.imp fun _ h =>
      ⟨h.1.mapGaps (fun _ => lineCommented_gap_lines)
        (fun _ h => by rw [show _ = (34 : UInt8) from h]; exact ⟨rfl, by decide, by decide⟩)
        (fun _ => id), h.2.mapGaps⟩)
  have hv : (((c.mapGaps (removeComments · [47, 42] [42, 47])).mapGaps
      (removeComments · [47, 47] [10])).value lib) = c.value lib := by
    rw [Cst.value_mapGaps, Cst.value_mapGaps]
  rw [jsonParseStringWithComments_eq, ← hv]
  refine @jsonParseString_of_parsable lib _ hc.mapGaps.mapGaps hwf2 (hv ▸ hl) _
    (removeComments (removeComments rest [47, 42] [42, 47]) [47, 47] [10])
    (lineCommented_gap_lines (commented_gap_blocks hg)) _ ?_
  show removeComments (removeComments s.bytes [47, 42] [42, 47]) [47, 47] [10] = _
  rw [hs, hb, hl2]

/-- `[/*"//*/true//a/b` and a newline, then `,"/*x*/"]`: a block comment holding a quote and a
    `//`, a line comment holding a `/`, and a string holding what looks like a comment. -/
theorem jsonParseStringWithComments_commented_array :
    jsonParseStringWithComments ⟨fun _ => Double.zero, fun _ => CStr.empty, fun _ _ => false⟩
        ⟨(Cst.array [] [⟨(GapPiece.block [34, 47, 47]).text, .bool true,
          (GapPiece.line [97, 47, 98]).text⟩, ⟨[], .string [47, 42, 120, 42, 47], []⟩]).text,
          by decide⟩ =
      some (.array ⟨[some (.boolean true), some (.string ⟨[47, 42, 120, 42, 47], by decide⟩)], 2⟩) :=
  @jsonParseStringWithComments_commented _ (.array [] [⟨(GapPiece.block [34, 47, 47]).text,
      .bool true, (GapPiece.line [97, 47, 98]).text⟩, ⟨[], .string [47, 42, 120, 42, 47], []⟩])
    trivial
    ⟨⟨fun i hi => by
        simp only [List.mem_cons, List.mem_singleton, List.not_mem_nil, or_false] at hi
        rcases hi with rfl | rfl
        exacts [⟨⟨[.block [34, 47, 47]], by decide, rfl⟩, ⟨[.line [97, 47, 98]], by decide, rfl⟩⟩,
          ⟨⟨[], by decide, rfl⟩, ⟨[], by decide, rfl⟩⟩],
      by simp [Cst.Storable, arrayMaxCapacity]⟩, ⟨trivial, trivial⟩, ⟨rfl, trivial⟩, trivial⟩
    (by decide) [] [] ⟨[], by decide, rfl⟩ _ (by simp)

end Parson
