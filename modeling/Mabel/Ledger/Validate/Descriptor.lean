import Mabel.Ledger.Ids

/-!
# Message descriptors

The field tables that drive the wire-format validator, one descriptor for each message
of `ledger.proto`, and the reasons a byte string is refused under them. A cross-field
rule is named here and run by the validator, which it may call back into.
-/

namespace Mabel

/-- Why a byte string is not a valid message. -/
inductive WireError where
  | messageTooLarge (message : String) (len cap : Nat)
  | truncated (message : String)
  | nonMinimalVarint (message : String)
  | varintOverflow (message : String)
  | unknownField (message : String) (number : Nat)
  | unknownOneofVariant (message oneof : String) (number : Nat)
  | wrongWireType (message field : String) (expected actual : Nat)
  | duplicateField (message field : String)
  | fieldOutOfOrder (message : String) (number : Nat)
  | defaultValueEncoded (message field : String)
  | fieldForbidden (message field : String)
  | missingField (message field : String)
  | missingOneof (message oneof : String)
  | multipleOneofVariants (message oneof : String)
  | unspecifiedEnum (message field : String)
  | enumValue (message field : String) (value : Nat)
  | wrongLength (message field : String) (expected actual : Nat)
  | fieldTooLong (message field : String) (len cap : Nat)
  | invalidUtf8 (message field : String)
  | invalidDisplayName (message field reason : String)
  | invalidHostname (message field reason : String)
  | invalidEmail (message field reason : String)
  | valueOutOfRange (message field : String) (value min max : Nat)
  | repeatedCount (message field : String) (count min max : Nat)
  | repeatedDuplicate (message field : String)
  | fieldsMustDiffer (first second : String)
  | fieldsMustMatch (first second : String)
  | setAtSeqZero (field : String)
  | missingChainField (field : String)
  | inceptionPastSeqZero
  | nonInceptionAtSeqZero
  | embeddedInceptionNotRawRooted
  | inceptionIdMismatch (field : String)
  | inceptionKeyMismatch (field : String)
  | invalidPublicKey (message field : String)
  | badSignature (message field : String)
  | tooDeeplyNested
  deriving DecidableEq, Repr

/-- The text of a rejection. -/
def WireError.display : WireError → String
  | .messageTooLarge message len cap => s!"{message} is {len} bytes, over the {cap}-byte cap"
  | .truncated message => s!"{message} ends mid-record"
  | .nonMinimalVarint message => s!"{message} holds a varint with a non-minimal encoding"
  | .varintOverflow message => s!"{message} holds a varint wider than 64 bits"
  | .unknownField message number => s!"unknown field number {number} in {message}"
  | .unknownOneofVariant message oneof number =>
    s!"unrecognised {message}.{oneof} variant, field number {number}"
  | .wrongWireType message field expected actual =>
    s!"{message}.{field} has wire type {actual}, expected {expected}"
  | .duplicateField message field => s!"{message}.{field} appears more than once"
  | .fieldOutOfOrder message number => s!"{message} field number {number} is out of ascending order"
  | .defaultValueEncoded message field =>
    s!"{message}.{field} holds its proto3 default, which the canonical encoding omits"
  | .fieldForbidden message field => s!"{message}.{field} must be absent"
  | .missingField message field => s!"{message}.{field} is required"
  | .missingOneof message oneof => s!"{message}.{oneof} names no variant"
  | .multipleOneofVariants message oneof => s!"{message}.{oneof} names more than one variant"
  | .unspecifiedEnum message field => s!"{message}.{field} is unspecified"
  | .enumValue message field value =>
    s!"{message}.{field} holds {value}, which is not a value it accepts"
  | .wrongLength message field expected actual =>
    s!"{message}.{field} is {actual} bytes, expected exactly {expected}"
  | .fieldTooLong message field len cap =>
    s!"{message}.{field} is {len} bytes, over the {cap}-byte cap"
  | .invalidUtf8 message field => s!"{message}.{field} is not valid UTF-8"
  | .invalidDisplayName message field reason =>
    s!"{message}.{field} is not an acceptable display name: {reason}"
  | .invalidHostname message field reason =>
    s!"{message}.{field} is not a valid hostname: {reason}"
  | .invalidEmail message field reason => s!"{message}.{field} is not a valid email: {reason}"
  | .valueOutOfRange message field value min max =>
    s!"{message}.{field} holds {value}, outside {min}..={max}"
  | .repeatedCount message field count min max =>
    s!"{message}.{field} holds {count} entries, outside {min}..={max}"
  | .repeatedDuplicate message field => s!"{message}.{field} repeats an entry"
  | .fieldsMustDiffer first second => s!"{first} and {second} must differ"
  | .fieldsMustMatch first second => s!"{first} and {second} must be equal"
  | .setAtSeqZero field => s!"EventBody.{field} must be absent at seq 0"
  | .missingChainField field => s!"EventBody.{field} is required past seq 0"
  | .inceptionPastSeqZero => "an inception payload requires seq 0"
  | .nonInceptionAtSeqZero => "seq 0 requires an inception payload"
  | .embeddedInceptionNotRawRooted => "the embedded inception is not a raw-rooted inception"
  | .inceptionIdMismatch field =>
    s!"{field} does not equal the event id of the inception embedded beside it"
  | .inceptionKeyMismatch field =>
    s!"{field} does not equal the active key of the inception embedded beside it"
  | .invalidPublicKey message field => s!"{message}.{field} is not a valid ed25519 public key"
  | .badSignature message field => s!"{message}.{field} does not verify"
  | .tooDeeplyNested => "a message nests more than 8 levels deep"

namespace Validate

/-- `MAX_NESTING`: how deep messages may nest before the scanner gives up. -/
def maxNesting : Nat := 8

/-- The two protobuf wire types the schemas use. -/
inductive WireKind where
  | varint
  | len
  deriving DecidableEq, Repr

/-- The number the wire type carries in a record key. -/
def WireKind.number : WireKind → Nat
  | .varint => 0
  | .len => 2

/-- How often a field may appear. -/
inductive Cardinality where
  /-- Never. -/
  | forbidden
  /-- At most once. -/
  | optional
  /-- Exactly once. -/
  | required
  /-- At most once, and one variant of the message's `oneof` must appear. -/
  | variant
  /-- Between `min` and `max` times, with entries optionally distinct. -/
  | repeated (min max : Nat) (distinct : Bool)
  deriving DecidableEq, Repr

/-- Whether a field may appear more than once. -/
def Cardinality.isRepeated : Cardinality → Bool
  | .repeated .. => true
  | _ => false

/-- One accepted value of an enum field. -/
structure EnumValue where
  number : Nat
  name : String
  deriving DecidableEq, Repr

/-- Which codepoint rule a `string` field carries beyond well-formed UTF-8. -/
inductive StringRule where
  | utf8
  | displayName
  | hostname
  | email
  deriving DecidableEq, Repr

/-- What a field holds and what the field table says about it. -/
inductive FieldKind (D : Type) where
  /-- A varint in `min..=max`. -/
  | varint (min max : Nat)
  /-- An enum, which must hold one of `values`. -/
  | enum (values : List EnumValue)
  /-- Opaque bytes with an exact length, a cap, or both. -/
  | bytes (exact : Option Nat) (max : Nat)
  /-- At most `max` bytes of UTF-8 under a codepoint rule. -/
  | string (max : Nat) (rule : StringRule)
  /-- A `bytes` field carrying another message's encoded bytes verbatim. -/
  | nested (descriptor : D) (max : Nat)
  /-- A submessage. -/
  | message (descriptor : D)
  /-- A submessage scanned with a nesting budget of its own. -/
  | detached (descriptor : D)

/-- One field of a message. -/
structure FieldDescriptor (D : Type) where
  number : Nat
  name : String
  cardinality : Cardinality
  kind : FieldKind D

/-- The wire type a field's type requires. -/
def FieldDescriptor.wireKind {D : Type} (field : FieldDescriptor D) : WireKind :=
  match field.kind with
  | .varint .. | .enum .. => .varint
  | .bytes .. | .string .. | .nested .. | .message .. | .detached .. => .len

/-- The `oneof` of a message: its name and the first field number reserved for variants. -/
structure Oneof where
  name : String
  firstNumber : Nat
  deriving DecidableEq, Repr

/-- The cross-field rules a descriptor can name. -/
inductive CrossFieldCheck where
  | rawRoot
  | identityRoot
  | membershipInvitation
  | membershipAcceptance
  | eventBody
  | acceptanceFile
  deriving DecidableEq, Repr

/-- Everything the validator knows about one message type. -/
structure MessageDescriptor where
  name : String
  maxBytes : Nat
  /-- The fields, in ascending field-number order. -/
  fields : List (FieldDescriptor MessageDescriptor)
  oneof : Option Oneof
  check : Option CrossFieldCheck

/-- A field of a message. -/
abbrev Field := FieldDescriptor MessageDescriptor

/-- The field a number names. -/
def MessageDescriptor.field (d : MessageDescriptor) (number : Nat) : Option Field :=
  d.fields.find? fun field => decide (field.number = number)

/-- The field kinds of a message descriptor. -/
abbrev Kind := FieldKind MessageDescriptor

def forbidden (number : Nat) (name : String) (kind : Kind) : Field :=
  ⟨number, name, .forbidden, kind⟩

def optional (number : Nat) (name : String) (kind : Kind) : Field :=
  ⟨number, name, .optional, kind⟩

def required (number : Nat) (name : String) (kind : Kind) : Field :=
  ⟨number, name, .required, kind⟩

def variant (number : Nat) (name : String) (descriptor : MessageDescriptor) : Field :=
  ⟨number, name, .variant, .message descriptor⟩

namespace Kinds

/-- `ID`: a 32-byte id or public key. -/
def id : Kind := .bytes (some idBytes) idBytes

/-- `SIG`: a 64-byte ed25519 signature. -/
def sig : Kind := .bytes (some sigBytes) sigBytes

/-- `NONCE`: a 16-byte inception nonce. -/
def nonce : Kind := .bytes (some nonceBytes) nonceBytes

/-- `EMBEDDED_INCEPTION`: checked by the enclosing message's cross-field rule. -/
def embeddedInception : Kind := .bytes none maxEmbeddedInceptionBytes

/-- `VERSION`: a field the canonical encoding never serializes. -/
def version : Kind := .varint 1 u32Max

/-- `DECLARED_KIND`. -/
def declaredKind : Kind :=
  .enum [⟨1, "PERSON"⟩, ⟨2, "ORGANIZATION"⟩, ⟨3, "AGENT"⟩, ⟨4, "SERVICE"⟩]

/-- `ROLE`. -/
def role : Kind := .enum [⟨1, "MEMBER"⟩, ⟨2, "CONTROLLER"⟩]

end Kinds

/-! ## The event messages -/

/-- The `oneof payload` tag of `Inception`. -/
def inceptionTag : Nat := 10

/-- The `oneof payload` tag of `TrustAttestation`. -/
def trustAttestationTag : Nat := 12

/-- The `oneof payload` tag of `MembershipInvitation`. -/
def membershipInvitationTag : Nat := 14

/-- The `oneof payload` tag of `ProfileUpdate`. -/
def profileUpdateTag : Nat := 17

/-- The `oneof root` tag of `RawRoot`. -/
def rawRootTag : Nat := 10

/-- The `oneof root` tag of `IdentityRoot`. -/
def identityRootTag : Nat := 11

namespace Descriptor

def rawRoot : MessageDescriptor where
  name := "RawRoot"
  maxBytes := maxEventBytes
  fields := [required 1 "active_key" Kinds.id, required 2 "reserve_commit" Kinds.id]
  oneof := none
  check := some .rawRoot

def identityRoot : MessageDescriptor where
  name := "IdentityRoot"
  maxBytes := maxEventBytes
  fields := [required 1 "founder" Kinds.id, required 2 "founder_key" Kinds.id,
    required 3 "founder_inception" Kinds.embeddedInception]
  oneof := none
  check := some .identityRoot

def inception : MessageDescriptor where
  name := "Inception"
  maxBytes := maxEventBytes
  fields := [required 1 "kind" Kinds.declaredKind, required 2 "nonce" Kinds.nonce,
    variant rawRootTag "raw_root" rawRoot, variant identityRootTag "identity_root" identityRoot]
  oneof := some ⟨"root", rawRootTag⟩
  check := none

def witnessConfig : MessageDescriptor where
  name := "WitnessConfig"
  maxBytes := maxEventBytes
  fields := [⟨1, "witnesses", .repeated 1 maxWitnesses true, Kinds.id⟩]
  oneof := none
  check := none

def endpointAdvertisement : MessageDescriptor where
  name := "EndpointAdvertisement"
  maxBytes := maxEventBytes
  fields := [⟨1, "endpoints", .repeated 0 maxEndpoints true, Kinds.id⟩]
  oneof := none
  check := none

def witnessSet : MessageDescriptor where
  name := "WitnessSet"
  maxBytes := maxEventBytes
  fields := [⟨1, "witnesses", .repeated 0 maxWitnesses true, Kinds.id⟩]
  oneof := none
  check := none

def trustAttestation : MessageDescriptor where
  name := "TrustAttestation"
  maxBytes := maxEventBytes
  fields := [required 1 "subject" Kinds.id]
  oneof := none
  check := none

def trustRevocation : MessageDescriptor where
  name := "TrustRevocation"
  maxBytes := maxEventBytes
  fields := [required 1 "target" Kinds.id]
  oneof := none
  check := none

def membershipInvitation : MessageDescriptor where
  name := "MembershipInvitation"
  maxBytes := maxEventBytes
  fields := [required 1 "invitee" Kinds.id, required 2 "invitee_key" Kinds.id,
    required 3 "role" Kinds.role, required 4 "invitee_inception" Kinds.embeddedInception]
  oneof := none
  check := some .membershipInvitation

def acceptance : MessageDescriptor where
  name := "Acceptance"
  maxBytes := maxAcceptanceBytes
  fields := [forbidden 1 "version" Kinds.version, required 2 "ledger" Kinds.id,
    required 3 "invitation_event" Kinds.id, required 4 "invitee" Kinds.id,
    required 5 "invitee_key" Kinds.id]
  oneof := none
  check := none

def membershipAcceptance : MessageDescriptor where
  name := "MembershipAcceptance"
  maxBytes := maxEventBytes
  fields := [required 1 "acceptance" (.nested acceptance maxAcceptanceBytes),
    required 2 "signature" Kinds.sig]
  oneof := none
  check := some .membershipAcceptance

def membershipRemoval : MessageDescriptor where
  name := "MembershipRemoval"
  maxBytes := maxEventBytes
  fields := [required 1 "target" Kinds.id]
  oneof := none
  check := none

def profileUpdate : MessageDescriptor where
  name := "ProfileUpdate"
  maxBytes := maxEventBytes
  fields := [optional 1 "display_name" (.string maxDisplayNameBytes .displayName),
    optional 2 "hostname" (.string maxHostnameBytes .hostname),
    optional 3 "email" (.string maxEmailBytes .email)]
  oneof := none
  check := none

def eventBody : MessageDescriptor where
  name := "EventBody"
  maxBytes := maxEventBytes
  fields := [forbidden 1 "version" Kinds.version, optional 2 "ledger" Kinds.id,
    optional 3 "seq" (.varint 1 u64Max), optional 4 "prev" Kinds.id,
    required 5 "timestamp_ms" (.varint 1 maxTimestampMs), required 6 "author_key" Kinds.id,
    variant inceptionTag "inception" inception, variant 11 "witness_config" witnessConfig,
    variant trustAttestationTag "trust_attestation" trustAttestation,
    variant 13 "trust_revocation" trustRevocation,
    variant membershipInvitationTag "membership_invitation" membershipInvitation,
    variant 15 "membership_acceptance" membershipAcceptance,
    variant 16 "membership_removal" membershipRemoval,
    variant profileUpdateTag "profile_update" profileUpdate,
    variant 18 "endpoint_advertisement" endpointAdvertisement,
    variant 19 "witness_set" witnessSet]
  oneof := some ⟨"payload", inceptionTag⟩
  check := some .eventBody

def signedEvent : MessageDescriptor where
  name := "SignedEvent"
  maxBytes := maxEventBytes
  fields := [required 1 "body" (.nested eventBody maxEventBytes), required 2 "signature" Kinds.sig]
  oneof := none
  check := none

end Descriptor

end Validate

end Mabel
