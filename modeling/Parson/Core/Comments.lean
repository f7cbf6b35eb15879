import Parson.Core.Parser

/-!
# The Comment Stripper

`json_parse_string_with_comments` copies its input, blanks comments in the copy with
`remove_comments`, and parses what is left as `json_parse_string` does. `remove_comments` is
called twice, first for `/* */` and then for `// \n`, and each call is a scan of its own with
its own `in_string` and `escaped` flags.

The scan steps over the byte after each `\` that is not itself escaped, toggles `in_string`
on each other `"`, and, outside a string, replaces a start token, everything up to the next
end token and the end token itself by spaces. A start token with no end token after it is
blanked and the scan stops there, leaving the rest as it is. Only the scan's position is
modelled, not the buffer: `removeCommentsLoop` returns the bytes from the position on as the
scan leaves them. Each pass consumes a byte at least, so `fuel = length` is enough.

## Main definitions

* `strstr`: Where a token first occurs.
* `removeCommentsLoop`, `removeComments`: One pass of `remove_comments`.
* `jsonParseStringWithComments`: `json_parse_string_with_comments`.
-/

namespace Parson

/-- `strstr(s, tok)` as an offset into `s`, `none` for `NULL`. -/
def strstr (s tok : Bytes) : Option Nat :=
  if tok.isPrefixOf s then some 0
  else
    match s with
    | [] => none
    | _ :: t => (strstr t tok).map (· + 1)

/-- The loop of `remove_comments` from the current position, with its two flags. -/
def removeCommentsLoop (start stop : Bytes) :
    (fuel : Nat) → (inString escaped : Bool) → Bytes → Bytes
  | 0, _, _, s => s
  | _ + 1, _, _, [] => []
  | fuel + 1, inString, escaped, c :: s =>
    if c = 92 ∧ escaped = false then 92 :: removeCommentsLoop start stop fuel inString true s
    else if c = 34 ∧ escaped = false then
      34 :: removeCommentsLoop start stop fuel (!inString) false s
    else if inString = false ∧ start.isPrefixOf (c :: s) then
      let rest := (c :: s).drop start.length
      match strstr rest stop with
      | none => List.replicate start.length 32 ++ rest
      | some k =>
        List.replicate (start.length + (k + stop.length)) 32 ++
          removeCommentsLoop start stop fuel inString false (rest.drop (k + stop.length))
    else c :: removeCommentsLoop start stop fuel inString false s

/-- `remove_comments(string, start_token, end_token)`. -/
def removeComments (s start stop : Bytes) : Bytes :=
  if start = [] ∨ stop = [] then s else removeCommentsLoop start stop s.length false false s

/-- `json_parse_string_with_comments`: strip block comments, then line comments, then parse
    as `json_parse_string` does. -/
def jsonParseStringWithComments (lib : Libc) (s : CStr) : Option Value :=
  let blanked := removeComments (removeComments s.bytes (Bytes.ofString "/*") (Bytes.ofString "*/"))
    (Bytes.ofString "//") (Bytes.ofString "\n")
  let t := skipWhitespaces blanked
  if peek t ≠ 123 ∧ peek t ≠ 91 then none
  else (parseValue lib (maxNesting + 1) t).map (·.1)

end Parson
