import Parson.Core.Parser

/-!
# JSON Texts

A JSON text, RFC 4627, as a concrete syntax tree: every token together with the exact bytes
between tokens. `Cst.text` prints a tree back to its bytes and `Cst.value` reads the document
it denotes. Keeping the gaps makes it possible to say "the same text with other whitespace",
or "with comments inserted", as the same tree with other gaps.

A tree is checked against a `Dialect`: which gaps, key openers and number tokens are allowed.
`rfc` is RFC 4627: whitespace is space, tab, newline and carriage return, a key opens with
`"`, and numbers are `-?(0|[1-9][0-9]*)(\.[0-9]+)?([eE][+-]?[0-9]+)?`. String literals are
the same in every dialect: escapes as in RFC 4627 §2.5, surrogates paired, and any other byte
from `0x20` on except `"` and `\`. Bytes from `0x80` on are not checked to be UTF-8, so a
theorem about every tree of a dialect covers the texts RFC 4627 allows and more.

A string literal means the UTF-8 encoding of the code points it spells (`decodeLit`, with
`utf8` from RFC 3629). The document keeps it as a C string, as the code does, so a literal
spelling `\u0000` means the bytes before that escape.

The conditions on a tree are node by node (`Cst.Forall`), except for nesting, which is counted
by `Json.levels`: how many nested calls of `parse_value` reading the document takes.

## Main definitions

* `utf8`, `decodeLit`: What a string literal means.
* `RfcNumber`: The number tokens of RFC 4627.
* `Member`, `Item`, `Cst`: Concrete syntax.
* `Cst.text`, `Cst.value`: A tree's bytes and its document.
* `Dialect`, `rfc`, `Dialect.Local`, `Cst.Forall`: What a well-formed tree is.
* `Json.Forall`: A property of every node of a document.
* `Json.levels`: The nesting the parser needs for a document.
-/

namespace Parson

/-! ## String literals -/

/-- The UTF-8 encoding of a code point, RFC 3629 §3. -/
def utf8 (cp : Nat) : Bytes :=
  if cp < 0x80 then [cp.toUInt8]
  else if cp < 0x800 then [(0xC0 + cp / 0x40).toUInt8, (0x80 + cp % 0x40).toUInt8]
  else if cp < 0x10000 then
    [(0xE0 + cp / 0x1000).toUInt8, (0x80 + cp / 0x40 % 0x40).toUInt8, (0x80 + cp % 0x40).toUInt8]
  else
    [(0xF0 + cp / 0x40000).toUInt8, (0x80 + cp / 0x1000 % 0x40).toUInt8,
      (0x80 + cp / 0x40 % 0x40).toUInt8, (0x80 + cp % 0x40).toUInt8]

/-- The value of four hexadecimal digits. -/
def hexQuad (a b c d : UInt8) : Option Nat := do
  pure ((((← hexDigitValue a) * 16 + (← hexDigitValue b)) * 16 + (← hexDigitValue c)) * 16 +
    (← hexDigitValue d))

/-- The bytes a string literal's text between the quotes stands for, RFC 4627 §2.5: a
    two-character escape, `\uXXXX` for a code point outside the surrogates, a lead and a trail
    surrogate `\uXXXX\uXXXX` for one above `0xFFFF`, or an unescaped byte, which is neither
    `"` nor `\` nor below `0x20`. `none` when the text is not a literal's. -/
def decodeLit : Bytes → Option Bytes
  | [] => some []
  | 92 :: 117 :: a :: b :: c :: d :: t =>
    match hexQuad a b c d with
    | none => none
    | some hi =>
      if 0xD800 ≤ hi ∧ hi ≤ 0xDBFF then
        match t with
        | 92 :: 117 :: e :: f :: g :: h :: t =>
          match hexQuad e f g h with
          | none => none
          | some lo =>
            if 0xDC00 ≤ lo ∧ lo ≤ 0xDFFF then
              (decodeLit t).map (utf8 (0x10000 + (hi - 0xD800) * 0x400 + (lo - 0xDC00)) ++ ·)
            else none
        | _ => none
      else if 0xDC00 ≤ hi ∧ hi ≤ 0xDFFF then none
      else (decodeLit t).map (utf8 hi ++ ·)
  | 92 :: e :: t => (simpleEscape e).bind fun b => (decodeLit t).map (b :: ·)
  | c :: t => if c < 0x20 ∨ c = 34 ∨ c = 92 then none else (decodeLit t).map (c :: ·)

/-! ## Numbers -/

/-- A nonempty run of decimal digits. -/
def Digits (d : Bytes) : Prop := d ≠ [] ∧ ∀ c ∈ d, isDigit c

/-- `int = zero / ( digit1-9 *DIGIT )`. -/
def IntPart (i : Bytes) : Prop := i = [48] ∨ ∃ c d, i = c :: d ∧ 49 ≤ c ∧ c ≤ 57 ∧ ∀ x ∈ d, isDigit x

/-- `frac = decimal-point 1*DIGIT`, or nothing. -/
def FracPart (f : Bytes) : Prop := f = [] ∨ ∃ d, f = 46 :: d ∧ Digits d

/-- `exp = e [ minus / plus ] 1*DIGIT`, or nothing. -/
def ExpPart (e : Bytes) : Prop :=
  e = [] ∨ ∃ m s d, e = m :: s ++ d ∧ (m = 101 ∨ m = 69) ∧ (s = [] ∨ s = [43] ∨ s = [45]) ∧ Digits d

/-- `number = [ minus ] int [ frac ] [ exp ]`, RFC 4627 §2.4. -/
def RfcNumber (t : Bytes) : Prop :=
  ∃ m i f e, t = m ++ i ++ f ++ e ∧ (m = [] ∨ m = [45]) ∧ IntPart i ∧ FracPart f ∧ ExpPart e

/-- A number token that starts `0` or `-0` and goes on with something other than `.`: the
    tokens `is_decimal` refuses although RFC 4627 allows them, such as `0e5`. -/
def LeadingZeroExp (t : Bytes) : Prop :=
  ∃ m e, (m = [] ∨ m = [45]) ∧ e ≠ [] ∧ t = m ++ 48 :: e ∧ peek e ≠ 46

/-! ## Concrete syntax -/

/-- An object member with the gaps around its tokens: `before` the key, which opens with
    `opener` (a `"` in JSON) and holds the literal text `key` up to its closing `"`, then
    `beforeColon`, the `:`, `afterColon`, the value, and the gap `after` it. -/
structure Member (α : Type) where
  before : Bytes
  opener : UInt8
  key : Bytes
  beforeColon : Bytes
  afterColon : Bytes
  value : α
  after : Bytes

/-- An array item with the gaps around it. -/
structure Item (α : Type) where
  before : Bytes
  value : α
  after : Bytes

/-- A JSON value as written. A container's `gap` is the whitespace of its empty form, `[ ]`;
    a nonempty container's gaps belong to its members or items. -/
inductive Cst where
  | null
  | bool (b : Bool)
  | string (lit : Bytes)
  | number (tok : Bytes)
  | object (gap : Bytes) (members : List (Member Cst))
  | array (gap : Bytes) (items : List (Item Cst))

mutual

/-- The bytes of a value as written. -/
def Cst.text : Cst → Bytes
  | .null => Bytes.ofString "null"
  | .bool true => Bytes.ofString "true"
  | .bool false => Bytes.ofString "false"
  | .string lit => 34 :: lit ++ [34]
  | .number tok => tok
  | .object gap [] => 123 :: gap ++ [125]
  | .object _ (m :: ms) => 123 :: Cst.membersText (m :: ms) ++ [125]
  | .array gap [] => 91 :: gap ++ [93]
  | .array _ (i :: is) => 91 :: Cst.itemsText (i :: is) ++ [93]

/-- Members separated by commas. -/
def Cst.membersText : List (Member Cst) → Bytes
  | [] => []
  | [m] => Cst.memberText m
  | m :: ms => Cst.memberText m ++ 44 :: Cst.membersText ms

/-- A member as written. -/
def Cst.memberText : Member Cst → Bytes
  | ⟨b, o, k, bc, ac, v, a⟩ => b ++ o :: k ++ 34 :: bc ++ 58 :: ac ++ v.text ++ a

/-- Items separated by commas. -/
def Cst.itemsText : List (Item Cst) → Bytes
  | [] => []
  | [i] => Cst.itemText i
  | i :: is => Cst.itemText i ++ 44 :: Cst.itemsText is

/-- An item as written. -/
def Cst.itemText : Item Cst → Bytes
  | ⟨b, v, a⟩ => b ++ v.text ++ a

end

/-- A key's or string's meaning as a C string. -/
def litValue (lit : Bytes) : CStr := cString ((decodeLit lit).getD [])

mutual

/-- The document a value denotes, numbers read by the library's `strtod`. -/
def Cst.value (lib : Libc) : Cst → Json
  | .null => .null
  | .bool b => .boolean b
  | .string lit => .string (litValue lit)
  | .number tok => .number (lib.strtod tok)
  | .object _ ms => .object (Cst.membersValue lib ms)
  | .array _ is => .array (Cst.itemsValue lib is)

/-- `Cst.value` on members. -/
def Cst.membersValue (lib : Libc) : List (Member Cst) → List (CStr × Json)
  | [] => []
  | m :: ms => (litValue m.key, Cst.value lib m.value) :: Cst.membersValue lib ms

/-- `Cst.value` on items. -/
def Cst.itemsValue (lib : Libc) : List (Item Cst) → List Json
  | [] => []
  | i :: is => Cst.value lib i.value :: Cst.itemsValue lib is

end

mutual

/-- `P` holds at every node. -/
def Cst.Forall (P : Cst → Prop) : Cst → Prop
  | .object gap ms => P (.object gap ms) ∧ Cst.membersForall P ms
  | .array gap is => P (.array gap is) ∧ Cst.itemsForall P is
  | c => P c

/-- `Cst.Forall` on members. -/
def Cst.membersForall (P : Cst → Prop) : List (Member Cst) → Prop
  | [] => True
  | m :: ms => Cst.Forall P m.value ∧ Cst.membersForall P ms

/-- `Cst.Forall` on items. -/
def Cst.itemsForall (P : Cst → Prop) : List (Item Cst) → Prop
  | [] => True
  | i :: is => Cst.Forall P i.value ∧ Cst.itemsForall P is

end

mutual

/-- `P` holds at every node of a document. -/
def Json.Forall (P : Json → Prop) : Json → Prop
  | .object es => P (.object es) ∧ Json.entriesForall P es
  | .array js => P (.array js) ∧ Json.itemsForall P js
  | j => P j

/-- `Json.Forall` on an object's entries. -/
def Json.entriesForall (P : Json → Prop) : List (CStr × Json) → Prop
  | [] => True
  | (_, j) :: es => Json.Forall P j ∧ Json.entriesForall P es

/-- `Json.Forall` on an array's items. -/
def Json.itemsForall (P : Json → Prop) : List Json → Prop
  | [] => True
  | j :: js => Json.Forall P j ∧ Json.itemsForall P js

end

/-- What a dialect allows between tokens, as a key's opening byte, and as a number. -/
structure Dialect where
  gap : Bytes → Prop
  opener : UInt8 → Prop
  number : Bytes → Prop

/-- RFC 4627's whitespace: space, tab, newline, carriage return. -/
def isRfcSpace (c : UInt8) : Bool := c == 32 || c == 9 || c == 10 || c == 13

/-- RFC 4627. -/
def rfc : Dialect where
  gap g := ∀ c ∈ g, isRfcSpace c
  opener c := c = 34
  number := RfcNumber

/-- One node is well formed in a dialect: its literals are literals, its number is one of the
    dialect's, and its own gaps and key openers are the dialect's. -/
def Dialect.Local (d : Dialect) : Cst → Prop
  | .string lit => (decodeLit lit).isSome
  | .number tok => d.number tok
  | .object gap [] => d.gap gap
  | .object _ ms => ∀ m ∈ ms, d.gap m.before ∧ d.opener m.opener ∧ (decodeLit m.key).isSome ∧
      d.gap m.beforeColon ∧ d.gap m.afterColon ∧ d.gap m.after
  | .array gap [] => d.gap gap
  | .array _ is => ∀ i ∈ is, d.gap i.before ∧ d.gap i.after
  | _ => True

/-- Whether a tree is an object or an array. -/
def Cst.IsContainer : Cst → Prop
  | .object _ _ | .array _ _ => True
  | _ => False

/-! ## Nesting -/

mutual

/-- How many levels of `parse_value` reading a document takes: one for a scalar or an empty
    container, one more than its deepest child for any other container. -/
def Json.levels : Json → Nat
  | .object es => Json.entriesLevels es + 1
  | .array vs => Json.itemsLevels vs + 1
  | _ => 1

/-- The most levels a member's value takes. -/
def Json.entriesLevels : List (CStr × Json) → Nat
  | [] => 0
  | (_, j) :: es => max j.levels (Json.entriesLevels es)

/-- The most levels an item takes. -/
def Json.itemsLevels : List Json → Nat
  | [] => 0
  | j :: js => max j.levels (Json.itemsLevels js)

end

/-! ## Texts, values and nesting, piece by piece -/

theorem Cst.itemText_eq (i : Item Cst) : Cst.itemText i = i.before ++ i.value.text ++ i.after := by
  cases i; rfl

theorem Cst.memberText_eq (m : Member Cst) : Cst.memberText m =
    m.before ++ m.opener :: (m.key ++ 34 :: (m.beforeColon ++ 58 ::
      (m.afterColon ++ (m.value.text ++ m.after)))) := by
  cases m; simp [Cst.memberText]

theorem Cst.itemsText_cons_cons (i j : Item Cst) (is : List (Item Cst)) :
    Cst.itemsText (i :: j :: is) = Cst.itemText i ++ 44 :: Cst.itemsText (j :: is) := rfl

theorem Cst.membersText_cons_cons (m n : Member Cst) (ms : List (Member Cst)) :
    Cst.membersText (m :: n :: ms) = Cst.memberText m ++ 44 :: Cst.membersText (n :: ms) := rfl

theorem Cst.itemsValue_eq_map (lib : Libc) :
    ∀ is : List (Item Cst), Cst.itemsValue lib is = is.map fun i => i.value.value lib
  | [] => rfl
  | i :: is => by simp [Cst.itemsValue, Cst.itemsValue_eq_map lib is]

theorem Cst.membersValue_eq_map (lib : Libc) :
    ∀ ms : List (Member Cst),
      Cst.membersValue lib ms = ms.map fun m => (litValue m.key, m.value.value lib)
  | [] => rfl
  | m :: ms => by simp [Cst.membersValue, Cst.membersValue_eq_map lib ms]

theorem Cst.Forall.self {P : Cst → Prop} {c : Cst} (h : c.Forall P) : P c := by
  cases c <;> first | exact h | exact h.1

theorem Cst.itemsForall_iff {P : Cst → Prop} :
    ∀ {is : List (Item Cst)}, Cst.itemsForall P is ↔ ∀ i ∈ is, i.value.Forall P
  | [] => by simp [Cst.itemsForall]
  | i :: is => by simp [Cst.itemsForall, @Cst.itemsForall_iff P is]

theorem Cst.membersForall_iff {P : Cst → Prop} :
    ∀ {ms : List (Member Cst)}, Cst.membersForall P ms ↔ ∀ m ∈ ms, m.value.Forall P
  | [] => by simp [Cst.membersForall]
  | m :: ms => by simp [Cst.membersForall, @Cst.membersForall_iff P ms]

mutual

theorem Cst.Forall.imp {P Q : Cst → Prop} (h : ∀ c, P c → Q c) :
    ∀ {c : Cst}, c.Forall P → c.Forall Q
  | .object _ _, hc => ⟨h _ hc.1, Cst.membersForall_imp h hc.2⟩
  | .array _ _, hc => ⟨h _ hc.1, Cst.itemsForall_imp h hc.2⟩
  | .null, hc | .bool _, hc | .string _, hc | .number _, hc => h _ hc

theorem Cst.membersForall_imp {P Q : Cst → Prop} (h : ∀ c, P c → Q c) :
    ∀ {ms : List (Member Cst)}, Cst.membersForall P ms → Cst.membersForall Q ms
  | [], _ => trivial
  | ⟨_, _, _, _, _, _, _⟩ :: _, hc => ⟨Cst.Forall.imp h hc.1, Cst.membersForall_imp h hc.2⟩

theorem Cst.itemsForall_imp {P Q : Cst → Prop} (h : ∀ c, P c → Q c) :
    ∀ {is : List (Item Cst)}, Cst.itemsForall P is → Cst.itemsForall Q is
  | [], _ => trivial
  | ⟨_, _, _⟩ :: _, hc => ⟨Cst.Forall.imp h hc.1, Cst.itemsForall_imp h hc.2⟩

end

mutual

theorem Json.Forall.imp {P Q : Json → Prop} (h : ∀ j, P j → Q j) :
    ∀ {j : Json}, j.Forall P → j.Forall Q
  | .object _, hj => ⟨h _ hj.1, Json.entriesForall_imp h hj.2⟩
  | .array _, hj => ⟨h _ hj.1, Json.itemsForall_imp h hj.2⟩
  | .null, hj | .string _, hj | .number _, hj | .boolean _, hj => h _ hj

theorem Json.entriesForall_imp {P Q : Json → Prop} (h : ∀ j, P j → Q j) :
    ∀ {es : List (CStr × Json)}, Json.entriesForall P es → Json.entriesForall Q es
  | [], _ => trivial
  | (_, _) :: _, hj => ⟨Json.Forall.imp h hj.1, Json.entriesForall_imp h hj.2⟩

theorem Json.itemsForall_imp {P Q : Json → Prop} (h : ∀ j, P j → Q j) :
    ∀ {js : List Json}, Json.itemsForall P js → Json.itemsForall Q js
  | [], _ => trivial
  | _ :: _, hj => ⟨Json.Forall.imp h hj.1, Json.itemsForall_imp h hj.2⟩

end

theorem Json.levels_pos (j : Json) : 0 < j.levels := by
  cases j <;> simp [Json.levels]

theorem Json.itemsLevels_le_iff {l : Nat} :
    ∀ {js : List Json}, Json.itemsLevels js ≤ l ↔ ∀ j ∈ js, j.levels ≤ l
  | [] => by simp [Json.itemsLevels]
  | j :: js => by simp [Json.itemsLevels, @Json.itemsLevels_le_iff l js]

theorem Json.entriesLevels_le_iff {l : Nat} :
    ∀ {es : List (CStr × Json)}, Json.entriesLevels es ≤ l ↔ ∀ e ∈ es, e.2.levels ≤ l
  | [] => by simp [Json.entriesLevels]
  | (k, j) :: es => by simp [Json.entriesLevels, @Json.entriesLevels_le_iff l es]

mutual

/-- A scalar takes one level, and a container one more than its deepest child: at most one
    level more than the nesting depth, which counts containers only. -/
theorem Json.levels_le_depth : ∀ j : Json, j.levels ≤ j.depth + 1
  | .object es => by
    have := Json.entriesLevels_le_depth es
    simp only [Json.levels, Json.depth]; omega
  | .array vs => by
    have := Json.itemsLevels_le_depth vs
    simp only [Json.levels, Json.depth]; omega
  | .null | .string _ | .number _ | .boolean _ => le_rfl

theorem Json.entriesLevels_le_depth :
    ∀ es : List (CStr × Json), Json.entriesLevels es ≤ Json.entriesDepth es + 1
  | [] => Nat.zero_le _
  | (_, j) :: es => by
    have := Json.levels_le_depth j
    have := Json.entriesLevels_le_depth es
    simp only [Json.entriesLevels, Json.entriesDepth]; omega

theorem Json.itemsLevels_le_depth :
    ∀ js : List Json, Json.itemsLevels js ≤ Json.itemsDepth js + 1
  | [] => Nat.zero_le _
  | j :: js => by
    have := Json.levels_le_depth j
    have := Json.itemsLevels_le_depth js
    simp only [Json.itemsLevels, Json.itemsDepth]; omega

end

theorem Json.entriesForall_iff {P : Json → Prop} :
    ∀ {es : List (CStr × Json)}, Json.entriesForall P es ↔ ∀ e ∈ es, e.2.Forall P
  | [] => by simp [Json.entriesForall]
  | (_, _) :: es => by simp [Json.entriesForall, @Json.entriesForall_iff P es]

theorem Json.itemsForall_iff {P : Json → Prop} :
    ∀ {js : List Json}, Json.itemsForall P js ↔ ∀ j ∈ js, j.Forall P
  | [] => by simp [Json.itemsForall]
  | _ :: js => by simp [Json.itemsForall, @Json.itemsForall_iff P js]

theorem Json.itemsToValue_eq_map :
    ∀ js : List Json, Json.itemsToValue js = js.map fun j => some j.toValue
  | [] => rfl
  | j :: js => by simp [Json.itemsToValue, Json.itemsToValue_eq_map js]

theorem Json.entriesToValue_eq_map :
    ∀ es : List (CStr × Json), Json.entriesToValue es = es.map fun e => (e.1, e.2.toValue)
  | [] => rfl
  | (k, j) :: es => by simp [Json.entriesToValue, Json.entriesToValue_eq_map es]

theorem Json.itemsToValue_length : ∀ js : List Json, (Json.itemsToValue js).length = js.length
  | [] => rfl
  | j :: js => by simp [Json.itemsToValue, Json.itemsToValue_length js]

theorem Json.entriesToValue_length :
    ∀ es : List (CStr × Json), (Json.entriesToValue es).length = es.length
  | [] => rfl
  | (k, j) :: es => by simp [Json.entriesToValue, Json.entriesToValue_length es]

end Parson
