import Mabel.Ledger.Ids

/-!
# The codepoint rules of published strings

What a display name, a hostname and an email may hold beyond well-formed UTF-8. Each
rule answers with the reason it refuses a text for, in the order the reasons are tried.
-/

namespace Mabel.Validate

/-- Which rule of the shared codepoint policy a character breaks. -/
def codepointReason (c : Char) : Option String :=
  let n := c.toNat
  if n ≤ 0x1f ∨ n = 0x7f then some "it holds a C0 control character"
  else if 0x80 ≤ n ∧ n ≤ 0x9f then some "it holds a C1 control character"
  else if (0x202a ≤ n ∧ n ≤ 0x202e) ∨ (0x2066 ≤ n ∧ n ≤ 0x2069) then
    some "it holds a bidi control character"
  else if (0x200b ≤ n ∧ n ≤ 0x200f) ∨ (0x2060 ≤ n ∧ n ≤ 0x2064) ∨ n = 0xfeff then
    some "it holds a zero-width or invisible format character"
  else none

/-- The codepoint policy every published string starts from. -/
def checkCodepoints (text : String) : Except String Unit :=
  match text.toList.findSome? codepointReason with
  | some reason => .error reason
  | none => .ok ()

/-- The characters with the Unicode `White_Space` property. -/
def isWhitespace (c : Char) : Bool :=
  let n := c.toNat
  (0x9 ≤ n && n ≤ 0xd) || n == 0x20 || n == 0x85 || n == 0xa0 || n == 0x1680 ||
    (0x2000 ≤ n && n ≤ 0x200a) || n == 0x2028 || n == 0x2029 || n == 0x202f || n == 0x205f ||
    n == 0x3000

/-- The text without leading and trailing whitespace. -/
def trim (text : String) : String :=
  String.ofList
    ((text.toList.dropWhile isWhitespace).reverse.dropWhile isWhitespace).reverse

/-- A display name: the codepoint policy, no surrounding whitespace and no identity id. -/
def checkDisplayName (text : String) : Except String Unit := do
  checkCodepoints text
  if trim text ≠ text then .error "it has leading or trailing whitespace"
  else if (IdentityId.parse text).isSome then .error "it parses as an identity id"
  else .ok ()

/-- An ASCII letter or digit. -/
def isAsciiAlphanumeric (c : Char) : Bool :=
  ('a' ≤ c && c ≤ 'z') || ('A' ≤ c && c ≤ 'Z') || ('0' ≤ c && c ≤ '9')

/-- One dot-separated label of a hostname. -/
def checkLabel (label : List Char) : Except String Unit :=
  match label.head?, label.getLast? with
  | some first, some last =>
    if label.length > maxHostnameLabelBytes then .error "it holds a label over 63 bytes"
    else if !isAsciiAlphanumeric first || !isAsciiAlphanumeric last then
      .error "a label does not start and end with a letter or digit"
    else if !label.all fun c => isAsciiAlphanumeric c || c == '-' then
      .error "a label holds a character outside [a-z0-9-]"
    else .ok ()
  | _, _ => .error "it holds an empty label"

/-- A hostname: lowercase LDH labels with alphanumeric edges and at least one dot. -/
def checkHostname (text : String) : Except String Unit :=
  let chars := text.toList
  if !chars.all fun c => c.toNat < 0x80 then .error "it holds a character outside ASCII"
  else if chars.any fun c => 'A' ≤ c && c ≤ 'Z' then .error "it holds an uppercase letter"
  else if chars.getLast? = some '.' then .error "it ends with a dot"
  else if '.' ∉ chars then .error "it holds no dot"
  else (chars.splitOn '.').forM checkLabel

/-- An email: the codepoint policy and exactly one `@` with something on each side. -/
def checkEmail (text : String) : Except String Unit := do
  checkCodepoints text
  match text.toList.splitOn '@' with
  | [] | [_] => .error "it holds no at sign"
  | [localPart, domain] =>
    if localPart.isEmpty then .error "it holds nothing before the at sign"
    else if domain.isEmpty then .error "it holds nothing after the at sign"
    else .ok ()
  | _ => .error "it holds more than one at sign"

end Mabel.Validate
