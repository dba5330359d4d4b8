import Mabel.Ledger.Fold.State
import Mabel.Ledger.Sign.Keys
import Mabel.Ledger.Validate.Scan

/-!
# The signing path

Each builder encodes an `EventBody` once, hashes and signs those bytes and returns them
inside the encoded `SignedEvent`. A builder checks what the byte layout forces: the size
caps, the timestamp bounds and the bounds of the two lists. Everything else is left to
the validator and the fold.
-/

namespace Mabel

open Wire Proto

variable {C : Crypto}

/-- A signed event and the bytes it is made of. -/
structure BuiltEvent where
  eventId : EventId
  /-- The encoded `EventBody`. -/
  body : Bytes
  /-- The encoded `SignedEvent`. -/
  signedEvent : Bytes
  deriving DecidableEq

/-- An invitee's detached acceptance. -/
structure DetachedAcceptance where
  /-- The encoded `Acceptance`. -/
  acceptance : Bytes
  signature : Block sigBytes
  deriving DecidableEq

/-- The one cryptographic root an inception is built around. -/
inductive InceptionRoot (C : Crypto) where
  | raw (reserveKey : PublicKey C)
  | identity (founder : IdentityId) (founderInception : Bytes)

/-- Where a new event lands in an existing ledger. -/
structure Position where
  ledger : LedgerId
  seq : Nat
  prev : EventId
  prevTimestampMs : Nat
  /-- Positions are counted by a `u64`. -/
  seq_le : seq ≤ u64Max

theorem one_le_u64Max : 1 ≤ u64Max := by decide

/-- Why inputs cannot become an event. -/
inductive BuildError where
  | timestamp (found : Nat)
  | appendAtSeqZero
  | eventTooLarge (length : Nat)
  | inceptionTooLarge (length : Nat)
  | acceptanceTooLarge (length : Nat)
  | witnessCount (count : Nat)
  | witnessDuplicate
  | endpointCount (count : Nat)
  | endpointDuplicate
  deriving DecidableEq, Repr

/-- The text of a build error. -/
def BuildError.display : BuildError → String
  | .timestamp found => s!"timestamp_ms {found} is outside 1..=4102444800000"
  | .appendAtSeqZero => "seq 0 holds the inception; an append starts at seq 1"
  | .eventTooLarge length => s!"encoded SignedEvent is {length} bytes, over the 4096-byte cap"
  | .inceptionTooLarge length =>
    s!"embedded inception is {length} bytes, over the 1024-byte cap"
  | .acceptanceTooLarge length => s!"acceptance is {length} bytes, over the 1024-byte cap"
  | .witnessCount count => s!"witness set holds {count} entries, over the 16-entry cap"
  | .witnessDuplicate => "witness set repeats an entry"
  | .endpointCount count =>
    s!"endpoint advertisement holds {count} endpoints, over the 8-endpoint cap"
  | .endpointDuplicate => "endpoint advertisement repeats an endpoint"

/-- Refuse inputs when the condition holds. -/
def refuseIf (p : Prop) [Decidable p] (error : BuildError) : Except BuildError Unit :=
  if p then .error error else .ok ()

/-- The timestamp an appender writes. -/
def ledgerTimestampMs (nowMs prevTimestampMs : Nat) : Nat := max nowMs prevTimestampMs

/-- The timestamp bounds of the field table. -/
def checkTimestamp (timestampMs : Nat) : Except BuildError Unit :=
  refuseIf (timestampMs = 0 ∨ timestampMs > maxTimestampMs) (.timestamp timestampMs)

/-- The cap on an embedded inception. -/
def checkEmbeddedInception (bytes : Bytes) : Except BuildError Unit :=
  refuseIf (bytes.length > maxEmbeddedInceptionBytes) (.inceptionTooLarge bytes.length)

/-- Refuse a repeated entry. -/
def distinct {α : Type} [DecidableEq α] (error : BuildError) : List α → Except BuildError Unit
  | [] => .ok ()
  | entry :: rest => if entry ∈ rest then .error error else distinct error rest

/-- Encode, hash and sign a body. -/
def sealBody (signer : SecretKey C) (body : EventBody) : Except BuildError BuiltEvent := do
  let body := body.encode
  let signedEvent := SignedEvent.encode ⟨body, (signer.sign (signInput body)).bytes⟩
  refuseIf (signedEvent.length > maxEventBytes) (.eventTooLarge signedEvent.length)
  .ok ⟨eventId C body, body, signedEvent⟩

/-- The body of a seq-0 event. -/
def inceptionBody (authorKey : PublicKey C) (nowMs : Nat) (payload : Payload) :
    Except BuildError EventBody := do
  checkTimestamp nowMs
  .ok ⟨0, [], 0, [], nowMs, authorKey.asBytes, some payload⟩

/-- Build an event past seq 0. -/
def buildAppend (signer : SecretKey C) (position : Position) (nowMs : Nat) (payload : Payload) :
    Except BuildError BuiltEvent := do
  refuseIf (position.seq = 0) .appendAtSeqZero
  let timestampMs := ledgerTimestampMs nowMs position.prevTimestampMs
  checkTimestamp timestampMs
  sealBody signer ⟨0, position.ledger.toVec, position.seq, position.prev.toVec, timestampMs,
    signer.publicKey.asBytes, some payload⟩

/-- The root message an inception carries. -/
def rootMessage (authorKey : PublicKey C) : InceptionRoot C → Except BuildError Root
  | .raw reserveKey =>
    .ok (.rawRoot ⟨authorKey.asBytes, (reserveCommit C reserveKey).bytes⟩)
  | .identity founder founderInception => do
    checkEmbeddedInception founderInception
    .ok (.identityRoot ⟨founder.toVec, authorKey.asBytes, founderInception⟩)

/-- Build a ledger's seq-0 event around one root. -/
def buildInception (signer : SecretKey C) (kind : DeclaredKind) (root : InceptionRoot C)
    (nonce : Block nonceBytes) (nowMs : Nat) : Except BuildError BuiltEvent := do
  let root ← rootMessage signer.publicKey root
  let body ← inceptionBody signer.publicKey nowMs (.inception ⟨kind.number, nonce.bytes, some root⟩)
  sealBody signer body

/-- Build an event replacing the retired tag-11 endpoint list. -/
def buildWitnessConfig (signer : SecretKey C) (position : Position)
    (witnesses : List (EndpointId C)) (nowMs : Nat) : Except BuildError BuiltEvent := do
  refuseIf (witnesses = [] ∨ witnesses.length > maxWitnesses) (.witnessCount witnesses.length)
  distinct .witnessDuplicate witnesses
  buildAppend signer position nowMs (.witnessConfig ⟨witnesses.map PublicKey.asBytes⟩)

/-- Build an event replacing the set of identities that may keep this ledger. -/
def buildWitnessSet (signer : SecretKey C) (position : Position) (witnesses : List IdentityId)
    (nowMs : Nat) : Except BuildError BuiltEvent := do
  refuseIf (witnesses.length > maxWitnesses) (.witnessCount witnesses.length)
  distinct .witnessDuplicate witnesses
  buildAppend signer position nowMs (.witnessSet ⟨witnesses.map IdentityId.toVec⟩)

/-- Build an event replacing the endpoints that answer for this identity. -/
def buildEndpointAdvertisement (signer : SecretKey C) (position : Position)
    (endpoints : List (EndpointId C)) (nowMs : Nat) : Except BuildError BuiltEvent := do
  refuseIf (endpoints.length > maxEndpoints) (.endpointCount endpoints.length)
  distinct .endpointDuplicate endpoints
  buildAppend signer position nowMs (.endpointAdvertisement ⟨endpoints.map PublicKey.asBytes⟩)

/-- Build an attestation of a subject. -/
def buildTrustAttestation (signer : SecretKey C) (position : Position) (subject : IdentityId)
    (nowMs : Nat) : Except BuildError BuiltEvent :=
  buildAppend signer position nowMs (.trustAttestation ⟨subject.toVec⟩)

/-- Build a revocation of an earlier attestation. -/
def buildTrustRevocation (signer : SecretKey C) (position : Position) (target : EventId)
    (nowMs : Nat) : Except BuildError BuiltEvent :=
  buildAppend signer position nowMs (.trustRevocation ⟨target.toVec⟩)

/-- Build a membership invitation around the invitee's seq-0 event. -/
def buildMembershipInvitation (signer : SecretKey C) (position : Position) (invitee : IdentityId)
    (inviteeKey : PublicKey C) (role : Role) (inviteeInception : Bytes) (nowMs : Nat) :
    Except BuildError BuiltEvent := do
  checkEmbeddedInception inviteeInception
  buildAppend signer position nowMs (.membershipInvitation
    ⟨invitee.toVec, inviteeKey.asBytes, role.number, inviteeInception⟩)

/-- Build the event that admits an invitee. -/
def buildMembershipAcceptance (signer : SecretKey C) (position : Position)
    (accepted : DetachedAcceptance) (nowMs : Nat) : Except BuildError BuiltEvent := do
  refuseIf (accepted.acceptance.length > maxAcceptanceBytes)
    (.acceptanceTooLarge accepted.acceptance.length)
  buildAppend signer position nowMs
    (.membershipAcceptance ⟨accepted.acceptance, accepted.signature.bytes⟩)

/-- Build an event removing an identity and cancelling its open invitation. -/
def buildMembershipRemoval (signer : SecretKey C) (position : Position) (target : IdentityId)
    (nowMs : Nat) : Except BuildError BuiltEvent :=
  buildAppend signer position nowMs (.membershipRemoval ⟨target.toVec⟩)

/-- The profile a `ProfileUpdate` carries: an absent field is the empty string. -/
def profileUpdate (displayName hostname email : Option String) : ProfileUpdate :=
  ⟨displayName.getD "", hostname.getD "", email.getD ""⟩

/-- Build an event replacing the ledger's profile. -/
def buildProfileUpdate (signer : SecretKey C) (position : Position)
    (displayName hostname email : Option String) (nowMs : Nat) : Except BuildError BuiltEvent :=
  buildAppend signer position nowMs (.profileUpdate (profileUpdate displayName hostname email))

/-- Run the field table over the profile a `ProfileUpdate` would carry. -/
def checkProfile (C : Crypto) (displayName hostname email : Option String) :
    Outcome WireError Unit :=
  Validate.message C Validate.Descriptor.profileUpdate
    (profileUpdate displayName hostname email).encode

/-- Build and sign an invitee's detached acceptance. -/
def buildAcceptance (inviteeActive : SecretKey C) (ledger : LedgerId)
    (invitationEvent : EventId) (invitee : IdentityId) : DetachedAcceptance :=
  let acceptance := Acceptance.encode
    ⟨0, ledger.toVec, invitationEvent.toVec, invitee.toVec, inviteeActive.publicKey.asBytes⟩
  ⟨acceptance, inviteeActive.sign (acceptInput acceptance)⟩

/-! ## A sample ledger -/

/-- A self-keyed ledger that invites a second identity, admits it, attests to it and revokes
the attestation. -/
def buildSampleLedger : Except BuildError (List BuiltEvent) := do
  let owner := SecretKey.sample 1
  let guest := SecretKey.sample 2
  let inception ← buildInception owner .person (.raw (SecretKey.sample 3).publicKey)
    (.ofNat nonceBytes 4) 1000
  let other ← buildInception guest .agent (.raw (SecretKey.sample 5).publicKey)
    (.ofNat nonceBytes 6) 1000
  let ledger := inception.eventId.toIdentity
  let invitee := other.eventId.toIdentity
  let invitation ← buildMembershipInvitation owner
    ⟨ledger, 1, inception.eventId, 1000, one_le_u64Max⟩ invitee guest.publicKey .controller
    other.signedEvent 2000
  let acceptance ← buildMembershipAcceptance owner
    ⟨ledger, 2, invitation.eventId, 2000, by decide⟩
    (buildAcceptance guest ledger invitation.eventId invitee) 1500
  let attestation ← buildTrustAttestation guest
    ⟨ledger, 3, acceptance.eventId, 2000, by decide⟩ invitee 3000
  let revocation ← buildTrustRevocation owner
    ⟨ledger, 4, attestation.eventId, 3000, by decide⟩ attestation.eventId 4000
  .ok [inception, invitation, acceptance, attestation, revocation]

/-- The events of the sample ledger. -/
def sampleLedger : List Bytes :=
  match buildSampleLedger with
  | .ok built => built.map BuiltEvent.signedEvent
  | .error _ => []

end Mabel
