import Mabel.Core.Wire.Proto
import Mabel.Ledger.Link
import Mabel.Ledger.Validate.Descriptor

/-!
# The hostname check

A profile may claim a hostname, and a TXT record under the hostname may name the identity back.
The check queries one absolute name, follows a short chain of aliases from it and reads the
records it finds. The same label may name the endpoints that answer for an identity.
-/

namespace Mabel.Verification

open Wire

variable {C : Crypto}

/-! ## Answers -/

/-- Why a lookup produced no answer. -/
inductive ResolveError where
  | timeout (name : String)
  | failed (name message : String)
  | unavailable (message : String)
  deriving DecidableEq, Repr

/-- The text of an error. -/
def ResolveError.display : ResolveError → String
  | .timeout name => s!"the query for {name} timed out"
  | .failed name message => s!"the query for {name} failed: {message}"
  | .unavailable message => s!"no system resolver: {message}"

/-- The character-strings of one TXT record. -/
structure TxtRecord where
  strings : List Bytes
  deriving DecidableEq, Repr

/-- The character-strings concatenated with no separator. -/
def TxtRecord.value (record : TxtRecord) : Bytes := record.strings.flatten

/-- What a resolver answers at each name. A name that exists and holds no TXT record answers with
none, and a name that is no alias with no target. -/
structure Resolver where
  lookupTxt : String → Except ResolveError (List TxtRecord)
  lookupCname : String → Except ResolveError (Option String)

/-- What the wallet knows about a claimed hostname. -/
inductive VerificationStatus where
  | verified
  | unverified
  | mismatched
  | unreachable
  | unclaimed
  | unchecked
  deriving DecidableEq, Repr

/-- One run of the check against one claimed hostname. -/
structure VerificationOutcome where
  hostname : String
  status : VerificationStatus
  /-- What was queried and what came back. -/
  detail : String
  deriving DecidableEq, Repr

/-! ## Labels -/

/-- `TXT_LABEL`: the label the TXT record sits under. -/
def txtLabel : String := "_mabel"

/-- `TXT_PREFIX`: what a matching record begins with. -/
def txtPrefix : String := "mabel="

/-- `TXT_ENDPOINTS_PREFIX`: what an endpoints record begins with. -/
def txtEndpointsPrefix : String := "mabel-endpoints="

/-- `MAX_LABEL_ENDPOINTS`: most endpoints one label may name, between all its records. -/
def maxLabelEndpoints : Nat := maxEndpoints

/-- `MAX_CNAME_LINKS`: how many links the check follows before giving up. -/
def maxCnameLinks : Nat := 4

/-- `u8::to_ascii_lowercase`. -/
def asciiLower (byte : UInt8) : UInt8 := if 0x41 ≤ byte ∧ byte ≤ 0x5a then byte + 0x20 else byte

/-- The text behind what a record begins with, compared without regard to ASCII case. A remainder
that is no UTF-8 reads as the empty text. -/
def claimBehind (start : String) (value : Bytes) : Option String :=
  let start := utf8 start
  if value.length < start.length then none
  else if (value.take start.length).map asciiLower ≠ start.map asciiLower then none
  else some ((fromUtf8 (value.drop start.length)).getD "")

/-- The text of a `mabel=` record. -/
def mabelClaim (value : Bytes) : Option String := claimBehind txtPrefix value

/-- The text of a `mabel-endpoints=` record. -/
def endpointsClaim (value : Bytes) : Option String := claimBehind txtEndpointsPrefix value

/-! ## Hostnames -/

/-- One label of a hostname. -/
def checkHostnameLabel (label : List Char) : Except String Unit :=
  match label.head?, label.getLast? with
  | some first, some last =>
    if label.length > maxHostnameLabelBytes then .error "it holds a label over 63 bytes"
    else if !first.isAlphanum || !last.isAlphanum then
      .error "a label does not start and end with a letter or digit"
    else if !label.all fun c => c.isAlphanum || c == '-' then
      .error "a label holds a character outside [a-z0-9-]"
    else .ok ()
  | _, _ => .error "it holds an empty label"

/-- The hostname syntax, checked again because a cached claim never passed the validator. -/
def checkHostname (text : String) : Except String Unit :=
  let chars := text.toList
  if text.isEmpty then .error "it is empty"
  else if text.utf8ByteSize > maxHostnameBytes then .error "it is over 246 bytes"
  else if !chars.all isAscii then .error "it holds a character outside ASCII"
  else if chars.any Char.isUpper then .error "it holds an uppercase letter"
  else if chars.getLast? = some '.' then .error "it ends with a dot"
  else if !chars.contains '.' then .error "it holds no dot"
  else (chars.splitOn '.').forM checkHostnameLabel

/-- `_mabel.<hostname>.`, root label included. -/
def queryName (hostname : String) : String :=
  let chars := hostname.toList
  let trimmed := if chars.getLast? = some '.' then String.ofList chars.dropLast else hostname
  s!"{txtLabel}.{trimmed}."

/-- A CNAME target as an absolute lowercase name. -/
def absolute (target : String) : String :=
  let lowered := target.toLower
  if lowered.toList.getLast? = some '.' then lowered else s!"{lowered}."

/-! ## The check -/

/-- Whether a claim's text is the identity's id. -/
def namesIdentity (identity : IdentityId) (claimed : String) : Bool :=
  IdentityId.parse claimed = some identity

/-- How the scan of a name's records ends: at the first match, or with the claims it saw. -/
def scanClaims (identity : IdentityId) (claims : Nat) : List TxtRecord → Option Nat
  | [] => some claims
  | record :: records =>
    match mabelClaim record.value with
    | none => scanClaims identity claims records
    | some claimed =>
      if namesIdentity identity claimed then none else scanClaims identity (claims + 1) records

/-- Read the records at one name. -/
def classify (hostname name : String) (records : List TxtRecord) (identity : IdentityId) :
    VerificationOutcome :=
  match scanClaims identity 0 records with
  | none =>
    ⟨hostname, .verified, s!"a TXT record at {name} carries {txtPrefix}{identity.display}"⟩
  | some 0 => ⟨hostname, .unverified, s!"{name} holds no {txtPrefix} TXT record"⟩
  | some 1 => ⟨hostname, .mismatched, s!"the {txtPrefix} record at {name} names another identity"⟩
  | some many =>
    ⟨hostname, .mismatched, s!"the {many} {txtPrefix} records at {name} name other identities"⟩

/-- One query of the check. -/
inductive Query where
  | txt (name : String)
  | cname (name : String)
  deriving DecidableEq, Repr

/-- A computation that records what it asks the resolver. -/
abbrev Asking := StateM (List Query)

/-- Query the TXT records at a name. -/
def askTxt (resolver : Resolver) (name : String) : Asking (Except ResolveError (List TxtRecord)) :=
  fun queries => (resolver.lookupTxt name, queries ++ [.txt name])

/-- Query the CNAME target at a name. -/
def askCname (resolver : Resolver) (name : String) : Asking (Except ResolveError (Option String)) :=
  fun queries => (resolver.lookupCname name, queries ++ [.cname name])

/-- The rounds of the check that are left, with the names visited before. -/
def verifyFrom (resolver : Resolver) (hostname start : String) (identity : IdentityId) :
    (links : Nat) → (visited : List String) → (name : String) → Asking VerificationOutcome
  | links, visited, name => do
    match ← askTxt resolver name with
    | .error error => return ⟨hostname, .unreachable, error.display⟩
    | .ok records =>
      if records ≠ [] then return classify hostname name records identity
      match ← askCname resolver name with
      | .error error => return ⟨hostname, .unreachable, error.display⟩
      | .ok none => return ⟨hostname, .unverified, s!"{name} holds no {txtPrefix} TXT record"⟩
      | .ok (some target) =>
        let target := absolute target
        match links with
        | 0 =>
          return ⟨hostname, .unreachable,
            s!"the CNAME chain from {start} runs past {maxCnameLinks} links"⟩
        | links + 1 =>
          if target ∈ visited then
            return ⟨hostname, .unreachable, s!"the CNAME chain from {start} returns to {target}"⟩
          verifyFrom resolver hostname start identity links (visited ++ [target]) target

/-- Check a hostname against the TXT record at its label. -/
def verifyHostname (resolver : Resolver) (hostname : String) (identity : IdentityId) :
    Asking VerificationOutcome :=
  match checkHostname hostname with
  | .error reason =>
    return ⟨hostname, .unreachable, s!"{hostname} was not queried: {reason}"⟩
  | .ok () =>
    let start := queryName hostname
    verifyFrom resolver hostname start identity maxCnameLinks [start] start

/-! ## Endpoints -/

/-- One more element of a record's list. -/
def recordElement (endpoints : List (EndpointId C)) (element : List Char) :
    Option (List (EndpointId C)) := do
  let bytes ← decodeId element
  let endpoint ← PublicKey.fromBytes C bytes
  if endpoint ∈ endpoints ∨ endpoints.length = maxLabelEndpoints then none
  else some (endpoints ++ [endpoint])

/-- One record's list, or nothing when the record is discarded whole. -/
def recordEndpoints (C : Crypto) (listed : String) : Option (List (EndpointId C)) :=
  (listed.toList.splitOn ',').foldlM recordElement []

/-- The endpoints of a record, when it has a list that reads. -/
def labelRecord (C : Crypto) (record : TxtRecord) : Option (List (EndpointId C)) := do
  let listed ← endpointsClaim record.value
  recordEndpoints C listed

/-- One more record of a label. -/
def unionRecord (endpoints : List (EndpointId C)) (record : TxtRecord) : List (EndpointId C) :=
  ((labelRecord C record).getD []).foldl
    (fun endpoints endpoint =>
      if endpoint ∈ endpoints then endpoints else endpoints ++ [endpoint]) endpoints

/-- The endpoints the records at one label name, sorted by their rendered base32. -/
def endpointsAtLabel (C : Crypto) (records : List TxtRecord) : List (EndpointId C) :=
  let endpoints := records.foldl unionRecord []
  if endpoints.length > maxLabelEndpoints then []
  else endpoints.mergeSort fun a b => decide (renderId a.raw ≤ renderId b.raw)

/-- The endpoints at a label, for an identity that merely claimed the hostname. -/
def endpointsForClaim (C : Crypto) (records : List TxtRecord) (identity : IdentityId) :
    List (EndpointId C) :=
  if records.any fun record =>
      (mabelClaim record.value).any (namesIdentity identity) then
    endpointsAtLabel C records
  else []

end Mabel.Verification
