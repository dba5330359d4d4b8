import Mabel.Ledger.Validate.Descriptor
import Mabel.Ledger.Validate.Text

/-!
# The wire-format validator

The scanner reads the records of one message under its descriptor, the cardinality pass
counts them and the cross-field rule compares them. All three recurse into embedded
messages, which are strictly shorter than the message that holds them, so the validator
is one open step closed by recursion on the length of the input.
-/

namespace Mabel.Validate

open Wire

/-- The fields a message carried, in the order they appeared. -/
structure Scanned where
  /-- The descriptor the scan used. -/
  descriptor : MessageDescriptor
  /-- How deeply the message was nested, counting the outermost as 0. -/
  depth : Nat
  /-- The records. -/
  entries : List Entry

/-- A validator of one message at a nesting depth. -/
abbrev Validator := MessageDescriptor → Bytes → Nat → Outcome WireError Scanned

/-- The varint a record carries under a number. -/
def varintAt (number : Nat) : Entry → Option Nat
  | (found, .varint value) => if found = number then some value else none
  | (_, .bytes _) => none

/-- The bytes a record carries under a number. -/
def bytesAt (number : Nat) : Entry → Option Bytes
  | (found, .bytes slice) => if found = number then some slice else none
  | (_, .varint _) => none

namespace Scanned

/-- The value of a varint field, if it was present. -/
def varint (sc : Scanned) (number : Nat) : Option Nat := sc.entries.findSome? (varintAt number)

/-- The bytes of a length-delimited field, if it was present. -/
def bytes (sc : Scanned) (number : Nat) : Option Bytes := sc.entries.findSome? (bytesAt number)

/-- Every entry of a repeated length-delimited field, in order. -/
def repeatedBytes (sc : Scanned) (number : Nat) : List Bytes :=
  sc.entries.filterMap (bytesAt number)

/-- How many times a field appeared. -/
def count (sc : Scanned) (number : Nat) : Nat :=
  sc.entries.countP fun e => decide (e.1 = number)

/-- The `oneof` variant the message carried: its field number and the encoded submessage. -/
def oneof (sc : Scanned) : Option (Nat × Bytes) :=
  sc.entries.findSome? fun e =>
    match e.2 with
    | .bytes slice =>
      if (sc.descriptor.field e.1).any fun field => decide (field.cardinality = .variant) then
        some (e.1, slice)
      else none
    | .varint _ => none

end Scanned

/-! ## One record -/

/-- A varint's refusal, named after the message that holds it. -/
def VarintError.toWire (message : String) : VarintError → WireError
  | .truncated => .truncated message
  | .overflow => .varintOverflow message
  | .nonMinimal => .nonMinimalVarint message

/-- Read a varint off the front of a message's bytes. -/
def readVarint (message : String) (bytes : Bytes) : Outcome WireError (Nat × Bytes) :=
  match Wire.readVarint bytes with
  | .ok r => .ok r
  | .error e => Outcome.reject (VarintError.toWire message e)

/-- The refusal of a field number the descriptor does not list. -/
def unknownField (d : MessageDescriptor) (number : Nat) : WireError :=
  match d.oneof with
  | some oneof =>
    if number ≥ oneof.firstNumber then .unknownOneofVariant d.name oneof.name number
    else .unknownField d.name number
  | none => .unknownField d.name number

/-- The value rule of a varint field. -/
def checkVarint (field : Field) (message : String) (value : Nat) : Outcome WireError Unit :=
  match field.kind with
  | .enum values => do
    Outcome.rejectIf (value = 0) (.unspecifiedEnum message field.name)
    Outcome.rejectIf (¬ values.any fun accepted => accepted.number = value)
      (.enumValue message field.name value)
  | .varint min max => do
    Outcome.rejectIf (value = 0) (.defaultValueEncoded message field.name)
    Outcome.rejectIf (value < min ∨ value > max)
      (.valueOutOfRange message field.name value min max)
  | _ => Outcome.panic "only varint fields reach check_varint"

/-- A text rule's reason, as the rejection that carries it. -/
def ofReason (wrap : String → WireError) : Except String Unit → Outcome WireError Unit
  | .ok () => .ok ()
  | .error reason => Outcome.reject (wrap reason)

/-- The codepoint rule of a string field. -/
def checkRule (rule : StringRule) (message field text : String) : Outcome WireError Unit :=
  match rule with
  | .utf8 => .ok ()
  | .displayName => ofReason (.invalidDisplayName message field) (checkDisplayName text)
  | .hostname => ofReason (.invalidHostname message field) (checkHostname text)
  | .email => ofReason (.invalidEmail message field) (checkEmail text)

/-- The exact length of a field that has one. -/
def checkExact (field : Field) (message : String) (exact : Option Nat) (slice : Bytes) :
    Outcome WireError Unit :=
  match exact with
  | some exact =>
    Outcome.rejectIf (slice.length ≠ exact) (.wrongLength message field.name exact slice.length)
  | none => .ok ()

/-- The bounds every non-empty length-delimited field keeps. -/
def checkSize (field : Field) (message : String) (max : Nat) (slice : Bytes) :
    Outcome WireError Unit := do
  Outcome.rejectIf (slice = []) (.defaultValueEncoded message field.name)
  Outcome.rejectIf (slice.length > max) (.fieldTooLong message field.name slice.length max)

/-- The value rule of a length-delimited field, which recurses into a submessage. -/
def checkBytes (validate : Validator) (field : Field) (message : String) (slice : Bytes)
    (depth : Nat) : Outcome WireError Unit :=
  match field.kind with
  | .bytes exact max => do
    checkExact field message exact slice
    checkSize field message max slice
  | .string max rule => do
    checkSize field message max slice
    let text ← Outcome.orReject (.invalidUtf8 message field.name) (fromUtf8 slice)
    checkRule rule message field.name text
  | .nested descriptor max => do
    checkSize field message max slice
    let _ ← validate descriptor slice (depth + 1)
    .ok ()
  | .message descriptor => do
    let _ ← validate descriptor slice (depth + 1)
    .ok ()
  | .detached descriptor => do
    let _ ← validate descriptor slice 0
    .ok ()
  | _ => Outcome.panic "only length-delimited fields reach check_bytes"

/-- Read the value of a record whose key named a field. -/
def scanValue (validate : Validator) (message : String) (depth : Nat) (field : Field)
    (bytes : Bytes) : Outcome WireError (Value × Bytes) := do
  let (value, rest) ← readVarint message bytes
  match field.wireKind with
  | .varint =>
    checkVarint field message value
    .ok (.varint value, rest)
  | .len =>
    Outcome.rejectIf (value > rest.length) (.truncated message)
    let slice := rest.take value
    checkBytes validate field message slice depth
    .ok (.bytes slice, rest.drop value)

/-- The order and multiplicity rules of a record, against the records before it. -/
def checkPlace (message : String) (field : Field) (entries : List Entry)
    (number lastNumber : Nat) : Outcome WireError Unit := do
  let seen := entries.any fun e => decide (e.1 = number)
  Outcome.rejectIf (seen = true ∧ field.cardinality.isRepeated = false)
    (.duplicateField message field.name)
  Outcome.rejectIf (number < lastNumber ∨ (seen = true ∧ number ≠ lastNumber))
    (.fieldOutOfOrder message number)

/-- The cap of a repeated field, enforced on the occurrence that passes it. -/
def checkRepeatedCap (message : String) (field : Field) (entries : List Entry)
    (number : Nat) : Outcome WireError Unit :=
  match field.cardinality with
  | .repeated min max _ =>
    let seen := entries.countP fun e => decide (e.1 = number)
    Outcome.rejectIf (seen ≥ max) (.repeatedCount message field.name (seen + 1) min max)
  | _ => .ok ()

/-- Read one record after those already read. A number past `u32::MAX` saturates: it is
unknown whatever it is. -/
def scanRecord (validate : Validator) (d : MessageDescriptor) (depth : Nat)
    (entries : List Entry) (lastNumber : Nat) (bytes : Bytes) :
    Outcome WireError (Entry × Bytes) := do
  let (key, rest) ← readVarint d.name bytes
  let number := min (key >>> 3) u32Max
  let wire := key &&& 7
  let field ← Outcome.orReject (unknownField d number) (d.field number)
  checkPlace d.name field entries number lastNumber
  Outcome.rejectIf (wire ≠ field.wireKind.number)
    (.wrongWireType d.name field.name field.wireKind.number wire)
  checkRepeatedCap d.name field entries number
  let (value, rest) ← scanValue validate d.name depth field rest
  .ok ((number, value), rest)

/-! ## One message -/

/-- Read records until the input ends. Each takes at least one byte, so the input's
length is fuel enough. -/
def scanRecords (validate : Validator) (d : MessageDescriptor) (depth : Nat) :
    Nat → List Entry → Nat → Bytes → Outcome WireError (List Entry)
  | _, entries, _, [] => .ok entries
  | 0, _, _, _ :: _ => Outcome.panic "scan fuel"
  | fuel + 1, entries, lastNumber, byte :: bytes => do
    let (e, rest) ← scanRecord validate d depth entries lastNumber (byte :: bytes)
    scanRecords validate d depth fuel (entries ++ [e]) e.1 rest

/-- Read every record of a message, recursing into submessages. -/
def scan (validate : Validator) (d : MessageDescriptor) (bytes : Bytes) (depth : Nat) :
    Outcome WireError Scanned := do
  Outcome.rejectIf (depth > maxNesting) .tooDeeplyNested
  let entries ← scanRecords validate d depth bytes.length [] 0 bytes
  .ok ⟨d, depth, entries⟩

/-- Whether some entry recurs later. -/
def hasDuplicate : List Bytes → Bool
  | [] => false
  | entry :: entries => entries.contains entry || hasDuplicate entries

/-- The cardinality rule of one field. -/
def checkCount (sc : Scanned) (field : Field) : Outcome WireError Unit :=
  let message := sc.descriptor.name
  let count := sc.count field.number
  match field.cardinality with
  | .forbidden => Outcome.rejectIf (count > 0) (.fieldForbidden message field.name)
  | .required =>
    Outcome.rejectIf (count = 0)
      (match field.kind with
      | .enum _ => .unspecifiedEnum message field.name
      | _ => .missingField message field.name)
  | .repeated min max distinct => do
    Outcome.rejectIf (count < min ∨ count > max)
      (.repeatedCount message field.name count min max)
    Outcome.rejectIf (distinct = true ∧ hasDuplicate (sc.repeatedBytes field.number) = true)
      (.repeatedDuplicate message field.name)
  | .optional | .variant => .ok ()

/-- How many variants of the `oneof` are present. -/
def variantCount (sc : Scanned) : Nat :=
  ((sc.descriptor.fields.filter fun field => decide (field.cardinality = .variant)).filter
    fun field => decide (sc.count field.number > 0)).length

/-- The cardinality rules of a message and of its `oneof`. -/
def checkCardinality (sc : Scanned) : Outcome WireError Unit := do
  sc.descriptor.fields.forM (checkCount sc)
  match sc.descriptor.oneof with
  | some oneof =>
    Outcome.rejectIf (variantCount sc = 0) (.missingOneof sc.descriptor.name oneof.name)
    Outcome.rejectIf (variantCount sc > 1) (.multipleOneofVariants sc.descriptor.name oneof.name)
  | none => .ok ()

/-! ## Cross-field rules -/

/-- What an embedded inception proves about the identity it names. -/
structure StandaloneInception (C : Crypto) where
  /-- The recomputed id of the inception. -/
  eventId : EventId
  /-- The identity the inception creates, which is the same digest. -/
  identity : IdentityId
  /-- The active key its raw root records. -/
  activeKey : PublicKey C

/-- Read a public key out of a field. -/
def publicKey (C : Crypto) (message field : String) (bytes : Bytes) :
    Outcome WireError (PublicKey C) :=
  Outcome.orReject (.invalidPublicKey message field)
    ((Block.ofBytes? idBytes bytes).bind (PublicKey.fromBytes C))

/-- Verify a signature field. -/
def verify {C : Crypto} (key : PublicKey C) (input signature : Bytes) (message field : String) :
    Outcome WireError Unit := do
  let signature ← Outcome.orReject (.wrongLength message field sigBytes signature.length)
    (Block.ofBytes? sigBytes signature)
  Outcome.rejectIf (key.verify input signature = false) (.badSignature message field)

/-- Verify an embedded inception on its own: a canonical seq-0 event whose root is raw
and whose signature verifies under the key that root records. -/
def inceptionStandalone (C : Crypto) (validate : Validator) (bytes : Bytes) (depth : Nat) :
    Outcome WireError (StandaloneInception C) := do
  let signed ← validate Descriptor.signedEvent bytes depth
  let body ← Outcome.expect "body is required" (signed.bytes 1)
  let signature ← Outcome.expect "signature is required" (signed.bytes 2)
  let bodyFields ← scan validate Descriptor.eventBody body (depth + 1)
  let (number, payload) ← Outcome.expect "payload is required" bodyFields.oneof
  Outcome.rejectIf (number ≠ inceptionTag) .embeddedInceptionNotRawRooted
  let inception ← scan validate Descriptor.inception payload (depth + 2)
  let (rootNumber, root) ← Outcome.expect "root is required" inception.oneof
  Outcome.rejectIf (rootNumber ≠ rawRootTag) .embeddedInceptionNotRawRooted
  let rawRoot ← scan validate Descriptor.rawRoot root (depth + 3)
  let rawKey ← Outcome.expect "active_key is required" (rawRoot.bytes 1)
  let activeKey ← publicKey C "RawRoot" "active_key" rawKey
  Validate.verify activeKey (signInput body) signature "SignedEvent" "signature"
  let id := Mabel.eventId C body
  .ok ⟨id, id.toIdentity, activeKey⟩

/-- Verify an invitee's signature over a detached `Acceptance` blob. -/
def detachedAcceptance (C : Crypto) (validate : Validator) (blob signature : Bytes)
    (message : String) : Outcome WireError Unit := do
  let fields ← scan validate Descriptor.acceptance blob 0
  let rawKey ← Outcome.expect "invitee_key is required" (fields.bytes 5)
  let inviteeKey ← publicKey C "Acceptance" "invitee_key" rawKey
  Validate.verify inviteeKey (acceptInput blob) signature message "signature"

/-- Re-read a submessage's fields for a cross-field rule. -/
def Scanned.subfields (sc : Scanned) (validate : Validator) (d : MessageDescriptor)
    (bytes : Bytes) : Outcome WireError Scanned :=
  scan validate d bytes (sc.depth + 1)

/-- An event that names another identity embeds that identity's inception, which must
verify standalone, hash to the recorded id and record the key beside it. -/
def checkEmbeddedInception (C : Crypto) (validate : Validator) (sc : Scanned)
    (inceptionField : Nat) (id key : Nat × String) : Outcome WireError Unit := do
  let embedded ← Outcome.expect "the embedded inception is required" (sc.bytes inceptionField)
  let inception ← inceptionStandalone C validate embedded (sc.depth + 1)
  Outcome.rejectIf (sc.bytes id.1 ≠ some inception.eventId.toVec) (.inceptionIdMismatch id.2)
  Outcome.rejectIf (sc.bytes key.1 ≠ some inception.activeKey.asBytes)
    (.inceptionKeyMismatch key.2)

/-- The active key and the reserve commitment must differ. -/
def checkRawRoot (sc : Scanned) : Outcome WireError Unit :=
  Outcome.rejectIf (sc.bytes 1 = sc.bytes 2)
    (.fieldsMustDiffer "RawRoot.active_key" "RawRoot.reserve_commit")

/-- The signature rule `MembershipAcceptance` and `AcceptanceFile` share. -/
def checkSignedAcceptance (C : Crypto) (validate : Validator) (message : String)
    (sc : Scanned) : Outcome WireError Unit := do
  let blob ← Outcome.expect "acceptance is required" (sc.bytes 1)
  let signature ← Outcome.expect "signature is required" (sc.bytes 2)
  detachedAcceptance C validate blob signature message

/-- `ledger` and `prev` are absent at seq 0 and present past it. -/
def checkChainFields (sc : Scanned) : Outcome WireError Unit :=
  let fields := [("ledger", sc.bytes 2), ("prev", sc.bytes 4)]
  if (sc.varint 3).isNone then
    fields.forM fun (field, value) => Outcome.rejectIf (value.isSome = true) (.setAtSeqZero field)
  else
    fields.forM fun (field, value) =>
      Outcome.rejectIf (value.isNone = true) (.missingChainField field)

/-- A payload's first field must not be the ledger the event is on. -/
def checkNotLedger (validate : Validator) (sc : Scanned) (d : MessageDescriptor)
    (payload : Bytes) (name : String) : Outcome WireError Unit := do
  let fields ← sc.subfields validate d payload
  Outcome.rejectIf ((sc.bytes 2).isSome = true ∧ fields.bytes 1 = sc.bytes 2)
    (.fieldsMustDiffer name "EventBody.ledger")

/-- Seq 0 is signed by the key its root records. -/
def checkRootKey (validate : Validator) (sc : Scanned) (payload authorKey : Bytes) :
    Outcome WireError Unit := do
  let inception ← sc.subfields validate Descriptor.inception payload
  let (rootNumber, root) ← Outcome.expect "root is required" inception.oneof
  let (descriptor, field, name) :=
    if rootNumber = rawRootTag then (Descriptor.rawRoot, 1, "RawRoot.active_key")
    else (Descriptor.identityRoot, 2, "IdentityRoot.founder_key")
  let root ← inception.subfields validate descriptor root
  Outcome.rejectIf (root.bytes field ≠ some authorKey)
    (.fieldsMustMatch "EventBody.author_key" name)

/-- The rules of an event body that span its fields. -/
def checkEventBody (validate : Validator) (sc : Scanned) : Outcome WireError Unit := do
  checkChainFields sc
  let (number, payload) ← Outcome.expect "payload is required" sc.oneof
  Outcome.rejectIf (number = inceptionTag ∧ (sc.varint 3).isSome = true) .inceptionPastSeqZero
  Outcome.rejectIf (number ≠ inceptionTag ∧ (sc.varint 3).isNone = true) .nonInceptionAtSeqZero
  let authorKey ← Outcome.expect "author_key is required" (sc.bytes 6)
  if number = inceptionTag then checkRootKey validate sc payload authorKey
  else if number = trustAttestationTag then
    checkNotLedger validate sc Descriptor.trustAttestation payload "TrustAttestation.subject"
  else if number = membershipInvitationTag then
    checkNotLedger validate sc Descriptor.membershipInvitation payload
      "MembershipInvitation.invitee"
  else .ok ()

/-- The embedded inception of an identity root. -/
def checkIdentityRoot (C : Crypto) (validate : Validator) (sc : Scanned) :
    Outcome WireError Unit :=
  checkEmbeddedInception C validate sc 3 (1, "IdentityRoot.founder")
    (2, "IdentityRoot.founder_key")

/-- The embedded inception of an invitation. -/
def checkMembershipInvitation (C : Crypto) (validate : Validator) (sc : Scanned) :
    Outcome WireError Unit :=
  checkEmbeddedInception C validate sc 4 (1, "MembershipInvitation.invitee")
    (2, "MembershipInvitation.invitee_key")

/-- Run the cross-field rule the message's descriptor names. -/
def runCheck (C : Crypto) (validate : Validator) (sc : Scanned) : Outcome WireError Unit :=
  match sc.descriptor.check with
  | none => .ok ()
  | some .rawRoot => checkRawRoot sc
  | some .identityRoot => checkIdentityRoot C validate sc
  | some .membershipInvitation => checkMembershipInvitation C validate sc
  | some .membershipAcceptance => checkSignedAcceptance C validate "MembershipAcceptance" sc
  | some .eventBody => checkEventBody validate sc
  | some .acceptanceFile => checkSignedAcceptance C validate "AcceptanceFile" sc

/-! ## The validator -/

/-- Validate one message, leaving embedded messages to the given validator. -/
def validateStep (C : Crypto) (validate : Validator) : Validator := fun d bytes depth => do
  Outcome.rejectIf (bytes.length > d.maxBytes) (.messageTooLarge d.name bytes.length d.maxBytes)
  let sc ← scan validate d bytes depth
  checkCardinality sc
  runCheck C validate sc
  .ok sc

/-- Validate a message within a bound on its length. -/
def validateWithin (C : Crypto) : Nat → Validator
  | 0 => fun _ _ _ => Outcome.panic "validate fuel"
  | fuel + 1 => validateStep C (validateWithin C fuel)

/-- Validate a message and everything it embeds, and hand back the fields it scanned. -/
def validate (C : Crypto) : Validator := fun d bytes depth =>
  validateWithin C (bytes.length + 1) d bytes depth

/-- Validate bytes against any registered descriptor. -/
def message (C : Crypto) (d : MessageDescriptor) (bytes : Bytes) : Outcome WireError Unit := do
  let _ ← validate C d bytes 0
  .ok ()

/-- Validate an encoded `SignedEvent`. -/
def signedEvent (C : Crypto) (bytes : Bytes) : Outcome WireError Unit :=
  message C Descriptor.signedEvent bytes

/-- Validate an encoded `EventBody`. -/
def eventBody (C : Crypto) (bytes : Bytes) : Outcome WireError Unit :=
  message C Descriptor.eventBody bytes

/-- Validate an encoded `Acceptance` blob. -/
def acceptance (C : Crypto) (bytes : Bytes) : Outcome WireError Unit :=
  message C Descriptor.acceptance bytes

/-- Verify an embedded inception outside any container. -/
def verifyInceptionStandalone (C : Crypto) (bytes : Bytes) :
    Outcome WireError (StandaloneInception C) :=
  inceptionStandalone C (validate C) bytes 0

end Mabel.Validate
