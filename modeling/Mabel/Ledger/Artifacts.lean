import Mabel.Ledger.Fold.Apply
import Mabel.Ledger.Sign.Build

/-!
# The three file artifacts

An invitation bundle, an acceptance file and an identity descriptor cross machines as files.
A file is peer input: each artifact has a descriptor of its own, and reading one runs the same
validator an event from the network runs. Constructors check by hand what reading checks by the
field table.
-/

namespace Mabel

open Wire

/-- `MAX_INVITATION_BUNDLE_BYTES`. -/
def maxInvitationBundleBytes : Nat := 1024 * 1024

/-- `MAX_ACCEPTANCE_FILE_BYTES`. -/
def maxAcceptanceFileBytes : Nat := 4096

/-- `MAX_IDENTITY_DESCRIPTOR_BYTES`. -/
def maxIdentityDescriptorBytes : Nat := 64 * 1024

/-- `MAX_BUNDLE_EVENTS`. -/
def maxBundleEvents : Nat := 4096

/-! ## Messages -/

namespace Proto

structure InvitationBundle where
  ledgerPrefix : List SignedEvent

structure AcceptanceFile where
  acceptance : Bytes
  signature : Bytes

structure IdentityDescriptor where
  inception : Option SignedEvent
  witnesses : List Bytes

def InvitationBundle.entries (m : InvitationBundle) : List Entry :=
  repeatedField 1 (m.ledgerPrefix.map SignedEvent.encode)

def AcceptanceFile.entries (m : AcceptanceFile) : List Entry :=
  bytesField 1 m.acceptance ++ bytesField 2 m.signature

def IdentityDescriptor.entries (m : IdentityDescriptor) : List Entry :=
  (match m.inception with
    | some event => messageField 1 event.encode
    | none => []) ++ repeatedField 2 m.witnesses

end Proto

/-! ## Descriptors -/

namespace Validate.Descriptor

/-- `InvitationBundle`: a ledger's events up to an invitation. -/
def invitationBundle : MessageDescriptor where
  name := "InvitationBundle"
  maxBytes := maxInvitationBundleBytes
  fields := [⟨1, "ledger_prefix", .repeated 1 maxBundleEvents false, .detached signedEvent⟩]
  oneof := none
  check := none

/-- `AcceptanceFile`: the blob an invitee signed and their signature over it. -/
def acceptanceFile : MessageDescriptor where
  name := "AcceptanceFile"
  maxBytes := maxAcceptanceFileBytes
  fields := [required 1 "acceptance" (.nested acceptance maxAcceptanceBytes),
    required 2 "signature" Kinds.sig]
  oneof := none
  check := some .acceptanceFile

/-- `IdentityDescriptor`: an identity's seq-0 event and its witness endpoints. -/
def identityDescriptor : MessageDescriptor where
  name := "IdentityDescriptor"
  maxBytes := maxIdentityDescriptorBytes
  fields := [required 1 "inception" (.detached signedEvent),
    ⟨2, "witnesses", .repeated 0 maxWitnesses true, Kinds.id⟩]
  oneof := none
  check := none

end Validate.Descriptor

/-- Validate bytes and hand back the fields they hold. -/
def Validate.messageFields (C : Crypto) (d : MessageDescriptor) (bytes : Bytes) :
    Outcome WireError Scanned := validate C d bytes 0

/-! ## Artifacts -/

open Validate

/-- Why a byte string is not the artifact it claims to be. -/
inductive ArtifactError (C : Crypto) where
  | wire (error : WireError)
  | emptyPrefix
  | inception (violation : Violation C)
  deriving DecidableEq

/-- The text of a rejection. -/
def ArtifactError.display {C : Crypto} : ArtifactError C → String
  | .wire error => error.display
  | .emptyPrefix => "InvitationBundle.ledger_prefix is empty"
  | .inception violation => s!"IdentityDescriptor.inception does not verify: {violation.display}"

/-- Reject an artifact that would not fit its cap. -/
def cap (d : MessageDescriptor) (len : Nat) : Outcome WireError Unit :=
  Outcome.rejectIf (len > d.maxBytes) (.messageTooLarge d.name len d.maxBytes)

/-- Read an event that was checked before. -/
def checkedEvent {ε : Type} (event : Bytes) : Outcome ε Proto.SignedEvent :=
  Outcome.expect "a checked event decodes" (Proto.SignedEvent.decode event)

/-- The events of a ledger from its inception up to and including one invitation. -/
structure InvitationBundle where
  events : List Bytes
  deriving DecidableEq

namespace InvitationBundle

def write {ε : Type} (bundle : InvitationBundle) : Outcome ε Bytes := do
  let ledgerPrefix ← bundle.events.mapM checkedEvent
  .ok (putEntries (Proto.InvitationBundle.entries ⟨ledgerPrefix⟩))

def new (C : Crypto) (events : List Bytes) : Outcome (ArtifactError C) InvitationBundle := do
  Outcome.rejectIf (events = []) .emptyPrefix
  Outcome.rejectIf (events.length > maxBundleEvents)
    (.wire (.repeatedCount "InvitationBundle" "ledger_prefix" events.length 1 maxBundleEvents))
  events.forM fun event => Outcome.mapReject .wire (signedEvent C event)
  let bundle : InvitationBundle := ⟨events⟩
  let bytes ← bundle.write
  Outcome.mapReject .wire (cap Descriptor.invitationBundle bytes.length)
  .ok bundle

def read (C : Crypto) (bytes : Bytes) : Outcome (ArtifactError C) InvitationBundle := do
  let scanned ← Outcome.mapReject .wire (messageFields C Descriptor.invitationBundle bytes)
  .ok ⟨scanned.repeatedBytes 1⟩

end InvitationBundle

/-- An invitee's detached acceptance as it crosses machines. -/
structure AcceptanceFile (C : Crypto) where
  acceptance : Bytes
  signature : Block sigBytes
  ledger : LedgerId
  invitationEvent : EventId
  invitee : IdentityId
  inviteeKey : PublicKey C
  deriving DecidableEq

namespace AcceptanceFile

variable {C : Crypto}

def write (file : AcceptanceFile C) : Bytes :=
  putEntries (Proto.AcceptanceFile.entries ⟨file.acceptance, file.signature.bytes⟩)

def read (C : Crypto) (bytes : Bytes) : Outcome (ArtifactError C) (AcceptanceFile C) := do
  let scanned ← Outcome.mapReject .wire (messageFields C Descriptor.acceptanceFile bytes)
  let acceptance ← Outcome.expect "acceptance is required" (scanned.bytes 1)
  let signature ← Outcome.expect "signature is required" (scanned.bytes 2)
  let blob ← Outcome.expect "a validated Acceptance decodes" (Proto.Acceptance.decode acceptance)
  let inviteeKey ← Outcome.expect "invitee_key is 32 bytes"
    (Block.ofBytes? idBytes blob.inviteeKey)
  let signature ← Outcome.expect "a validated signature is 64 bytes"
    (Block.ofBytes? sigBytes signature)
  let ledger ← Outcome.expect "an id is 32 bytes" (IdentityId.fromSlice blob.ledger)
  let invitationEvent ← Outcome.expect "invitation_event is 32 bytes"
    (EventId.fromSlice blob.invitationEvent)
  let invitee ← Outcome.expect "an id is 32 bytes" (IdentityId.fromSlice blob.invitee)
  let inviteeKey ← Outcome.expect "a checked key is a point" (PublicKey.fromBytes C inviteeKey)
  .ok ⟨acceptance, signature, ledger, invitationEvent, invitee, inviteeKey⟩

/-- The file of what an invitee signed. -/
def new (C : Crypto) (accepted : DetachedAcceptance) :
    Outcome (ArtifactError C) (AcceptanceFile C) :=
  read C (putEntries (Proto.AcceptanceFile.entries
    ⟨accepted.acceptance, accepted.signature.bytes⟩))

end AcceptanceFile

/-- An identity's seq-0 event and the witnesses that serve it. -/
structure IdentityDescriptor (C : Crypto) where
  inception : Bytes
  witnesses : List (EndpointId C)
  identity : IdentityId
  declaredKind : DeclaredKind
  root : LedgerRoot C
  deriving DecidableEq

namespace IdentityDescriptor

variable {C : Crypto}

def write {ε : Type} (descriptor : IdentityDescriptor C) : Outcome ε Bytes := do
  let inception ← checkedEvent descriptor.inception
  .ok (putEntries (Proto.IdentityDescriptor.entries
    ⟨some inception, descriptor.witnesses.map PublicKey.asBytes⟩))

def fromParts (inception : Bytes) (witnesses : List (EndpointId C)) :
    Outcome (ArtifactError C) (IdentityDescriptor C) := do
  let (state, violation) ← Outcome.mapReject Empty.elim (fold C [inception])
  match violation with
  | some violation => Outcome.reject (.inception violation)
  | none =>
    let identity ← Outcome.expect "a folded ledger has an id" state.ledger
    let declaredKind ← Outcome.expect "a folded ledger has a declared kind" state.declaredKind
    let root ← Outcome.expect "a folded ledger has a root" state.root
    let descriptor : IdentityDescriptor C := ⟨inception, witnesses, identity, declaredKind, root⟩
    let bytes ← descriptor.write
    Outcome.mapReject .wire (cap Descriptor.identityDescriptor bytes.length)
    .ok descriptor

def new (C : Crypto) (inception : Bytes) (witnesses : List (EndpointId C)) :
    Outcome (ArtifactError C) (IdentityDescriptor C) := do
  Outcome.rejectIf (witnesses.length > maxWitnesses)
    (.wire (.repeatedCount "IdentityDescriptor" "witnesses" witnesses.length 0 maxWitnesses))
  fromParts inception witnesses

/-- One witness of a file, which must be a point of the curve. -/
def readWitness (C : Crypto) (witness : Bytes) : Outcome (ArtifactError C) (EndpointId C) := do
  let bytes ← Outcome.expect "a witness is 32 bytes" (Block.ofBytes? idBytes witness)
  Outcome.orReject (.wire (.invalidPublicKey "IdentityDescriptor" "witnesses"))
    (PublicKey.fromBytes C bytes)

def read (C : Crypto) (bytes : Bytes) : Outcome (ArtifactError C) (IdentityDescriptor C) := do
  let scanned ← Outcome.mapReject .wire (messageFields C Descriptor.identityDescriptor bytes)
  let inception ← Outcome.expect "inception is required" (scanned.bytes 1)
  let witnesses ← (scanned.repeatedBytes 2).mapM (readWitness C)
  fromParts inception witnesses

end IdentityDescriptor

end Mabel
