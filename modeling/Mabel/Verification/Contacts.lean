import Mabel.Ledger.Validate.Text

/-!
# Private notes on identities

A nickname or a note is kept for one identity and never leaves the node. Its text is checked as a
published display name is, but for the rule against identity ids, and within a byte cap of its own.
-/

namespace Mabel.Verification

open Validate

/-- Why a nickname or a note was refused. -/
inductive ContactTextError where
  | tooLong (field : String) (len cap : Nat)
  | invalid (field detail : String)
  deriving DecidableEq, Repr

/-- What a character of a contact field is refused for. -/
def contactDetail (character : Char) : Option String :=
  let n := character.toNat
  if n ≤ 0x1f ∨ n = 0x7f then some "it holds a C0 control character"
  else if 0x80 ≤ n ∧ n ≤ 0x9f then some "it holds a C1 control character"
  else if (0x202a ≤ n ∧ n ≤ 0x202e) ∨ (0x2066 ≤ n ∧ n ≤ 0x2069) then
    some "it holds a bidi control character"
  else if (0x200b ≤ n ∧ n ≤ 0x200f) ∨ (0x2060 ≤ n ∧ n ≤ 0x2064) ∨ n = 0xfeff then
    some "it holds a zero-width or invisible format character"
  else none

/-- The first character of a contact field that is refused. -/
def checkCharacters (field : String) : List Char → Except ContactTextError Unit
  | [] => .ok ()
  | character :: characters =>
    match contactDetail character with
    | some detail => .error (.invalid field detail)
    | none => checkCharacters field characters

/-- One contact field against its cap and the codepoint policy. -/
def checkText (field value : String) (cap : Nat) : Except ContactTextError Unit :=
  if value.utf8ByteSize > cap then .error (.tooLong field value.utf8ByteSize cap)
  else do
    checkCharacters field value.toList
    if trim value ≠ value then
      .error (.invalid field "it has leading or trailing whitespace")
    else .ok ()

/-- One field as it is kept: an empty value is unset, not empty text. -/
def normalize (field : String) (value : Option String) (cap : Nat) :
    Except ContactTextError (Option String) :=
  match (value.map trim).filter fun value => !value.isEmpty with
  | none => .ok none
  | some value => do
    checkText field value cap
    .ok (some value)

end Mabel.Verification
