import Mabel.Ledger.Fold.State
import Mabel.Ledger.Validate.Scan

/-!
# Applying one event

`apply` checks a received event against the state before it and, if every check passes,
commits its effect. The checks run in the order of the source, every assertion of the
source is a panic here, and a rejection carries the text the source gives it.
-/

namespace Mabel

open Wire Proto

variable {C : Crypto}

/-- Why an event was rejected. -/
inductive Reason (C : Crypto) where
  | wire (error : WireError)
  | wrongSeq (expected found : Nat)
  | wrongLedger (expected found : LedgerId)
  | brokenPrevLink (expected found : EventId)
  | backwardsTimestamp (previous found : Nat)
  | payloadNotAllowed (seq : Nat) (payload : String)
  | invalidPublicKey (field : String)
  | unauthorizedSigner (key : PublicKey C)
  | badSignature
  | duplicateAttestation (subject : IdentityId) (attestation : EventId)
  | selfAttestation (subject : IdentityId)
  | unknownRevocationTarget (target : EventId)
  | alreadyRevoked (target revokedBy : EventId)
  | duplicateInvitation (invitee : IdentityId) (invitation : EventId)
  | principalKeyMismatch (identity : IdentityId) (expected found : PublicKey C)
  | acceptanceForAnotherLedger (named : IdentityId) (expected : LedgerId)
  | unknownInvitation (event : EventId)
  | invitationNotOpen (invitation : EventId) (status : InvitationStatus)
  | acceptanceInviteeMismatch (named invited : IdentityId)
  | acceptanceInviteeKeyMismatch (named invited : PublicKey C)
  | duplicatePrincipalKey (key : PublicKey C) (heldBy : IdentityId)
  | rootNotRemovable (target : IdentityId)
  | unknownRemovalTarget (target : IdentityId)
  | lastController (target : IdentityId)
  | rootNotDemotable (target : IdentityId)
  | demotesLastController (target : IdentityId)
  deriving DecidableEq

/-- The text of a rejection. -/
def Reason.display : Reason C → String
  | .wire error => error.display
  | .wrongSeq expected found => s!"the event at position {expected} declares seq {found}"
  | .wrongLedger expected found =>
    s!"EventBody.ledger names {found.display}, not this ledger {expected.display}"
  | .brokenPrevLink expected found =>
    s!"EventBody.prev names {found.display}, not the previous event {expected.display}"
  | .backwardsTimestamp previous found =>
    s!"timestamp_ms {found} is below the previous event's {previous}"
  | .payloadNotAllowed seq payload => s!"a {payload} payload does not belong at seq {seq}"
  | .invalidPublicKey field => s!"{field} is not a valid ed25519 public key"
  | .unauthorizedSigner key => s!"author_key {key.display} may not sign this event"
  | .badSignature => "SignedEvent.signature does not verify under author_key"
  | .duplicateAttestation subject attestation =>
    s!"{subject.display} already has an unrevoked attestation, {attestation.display}"
  | .selfAttestation subject =>
    s!"TrustAttestation.subject is this ledger's own id {subject.display}"
  | .unknownRevocationTarget target =>
    s!"TrustRevocation.target {target.display} names no attestation earlier in this ledger"
  | .alreadyRevoked target revokedBy =>
    s!"attestation {target.display} was already revoked by {revokedBy.display}"
  | .duplicateInvitation invitee invitation =>
    s!"{invitee.display} already has an open invitation, {invitation.display}"
  | .principalKeyMismatch identity expected found =>
    s!"{identity.display} is a principal with key {expected.display}, not {found.display}"
  | .acceptanceForAnotherLedger named expected =>
    s!"Acceptance.ledger names {named.display}, not this ledger {expected.display}"
  | .unknownInvitation event =>
    s!"Acceptance.invitation_event {event.display} names no invitation in this ledger"
  | .invitationNotOpen invitation status =>
    s!"invitation {invitation.display} is {status.display}, not open"
  | .acceptanceInviteeMismatch named invited =>
    s!"Acceptance.invitee names {named.display}, but the invitation invited {invited.display}"
  | .acceptanceInviteeKeyMismatch named invited =>
    s!"Acceptance.invitee_key is {named.display}, but the invitation names {invited.display}"
  | .duplicatePrincipalKey key heldBy =>
    s!"key {key.display} is already held by principal {heldBy.display}"
  | .rootNotRemovable target =>
    s!"{target.display} is this ledger's raw root and is not removable"
  | .unknownRemovalTarget target =>
    s!"MembershipRemoval.target {target.display} is neither a principal nor an open invitee"
  | .lastController target =>
    s!"removing {target.display} would leave this ledger with no controller"
  | .rootNotDemotable target =>
    s!"{target.display} is this ledger's raw root and is not demotable"
  | .demotesLastController target =>
    s!"demoting {target.display} would leave this ledger with no controller"

/-- What a seq-0 payload seeds. -/
structure Seed (C : Crypto) where
  declaredKind : DeclaredKind
  root : LedgerRoot C
  principals : SortedMap IdentityId (Principal C)

/-- What a checked event changes. -/
inductive Effect (C : Crypto) where
  | seed (seed : Seed C)
  | witnessEndpoints (endpoints : List (EndpointId C))
  | witnessSet (witnesses : List IdentityId) (signingPrincipal : SigningPrincipal C)
  | endpoints (endpoints : List (EndpointId C)) (signingPrincipal : SigningPrincipal C)
  | attest (subject : IdentityId) (signingPrincipal : SigningPrincipal C)
  | revoke (target : EventId)
  | invite (invitation : Invitation C)
  | admission (invitation : EventId) (invitee : IdentityId) (principal : Principal C)
  | remove (target : IdentityId) (invitation : Option EventId) (wasPrincipal : Bool)
  | profile (displayName hostname email : Option String)
    (signingPrincipal : SigningPrincipal C)

/-- The result of a check of the fold. -/
abbrev Checked (C : Crypto) (α : Type) := Outcome (Reason C) α

/-! ## Reading fields the field table length-checked -/

/-- Read an identity id. -/
def identity (bytes : Bytes) : Checked C IdentityId :=
  Outcome.expect "an identity id is 32 bytes" (IdentityId.fromSlice bytes)

/-- Read a key, which must be a curve point. -/
def publicKey (bytes : Bytes) (field : String) : Checked C (PublicKey C) := do
  let raw ← Outcome.expect "a key field is 32 bytes" (Block.ofBytes? idBytes bytes)
  Outcome.orReject (.invalidPublicKey field) (PublicKey.fromBytes C raw)

/-- Verify an event's signature. -/
def verify (key : PublicKey C) (input signature : Bytes) : Checked C Unit := do
  let signature ← Outcome.expect "a validated signature is 64 bytes"
    (Block.ofBytes? sigBytes signature)
  Outcome.rejectIf (key.verify input signature = false) .badSignature

/-- A profile name as the fold reports it: an empty string is an absent field. -/
def setName (value : String) : Option String := if value = "" then none else some value

/-- The message name of a payload variant. -/
def payloadName : Payload → String
  | .inception _ => "Inception"
  | .witnessConfig _ => "WitnessConfig"
  | .trustAttestation _ => "TrustAttestation"
  | .trustRevocation _ => "TrustRevocation"
  | .membershipInvitation _ => "MembershipInvitation"
  | .membershipAcceptance _ => "MembershipAcceptance"
  | .membershipRemoval _ => "MembershipRemoval"
  | .profileUpdate _ => "ProfileUpdate"
  | .endpointAdvertisement _ => "EndpointAdvertisement"
  | .witnessSet _ => "WitnessSet"

/-- Whether a payload is the seq-0 payload. -/
def isInception : Payload → Bool
  | .inception _ => true
  | _ => false

/-- Seq 0 holds an inception and nothing else does. -/
def checkPosition (seq : Nat) (payload : Payload) : Checked C Unit :=
  Outcome.rejectIf (isInception payload ≠ decide (seq = 0))
    (.payloadNotAllowed seq (payloadName payload))

namespace LedgerState

/-! ## Semantic rules -/

/-- The root, the first principal and its key that an inception's root names. -/
def seedRoot (id : EventId) (root : Option Root) :
    Checked C (LedgerRoot C × IdentityId × PublicKey C) :=
  match root with
  | some (.rawRoot raw) => do
    let activeKey ← publicKey raw.activeKey "RawRoot.active_key"
    let reserveCommit ← Outcome.expect "reserve_commit is 32 bytes"
      (Block.ofBytes? idBytes raw.reserveCommit)
    .ok (.raw activeKey reserveCommit, id.toIdentity, activeKey)
  | some (.identityRoot root) => do
    let founder ← identity root.founder
    let founderKey ← publicKey root.founderKey "IdentityRoot.founder_key"
    .ok (.identity founder founderKey, founder, founderKey)
  | none => Outcome.reject (.wire (.missingOneof "Inception" "root"))

/-- A seq-0 payload names the root, the first principal and the declared kind. -/
def seedFromInception (id : EventId) (inception : Inception) : Checked C (Effect C) := do
  let declaredKind ← Outcome.expect "a validated inception carries a defined kind"
    (DeclaredKind.tryFrom inception.kind)
  let (root, identity, activeKey) ← seedRoot id inception.root
  .ok (.seed ⟨declaredKind, root, SortedMap.empty.insert identity ⟨.controller, activeKey⟩⟩)

/-- An identity has at most one open invitation. -/
def checkNoOpenInvitation (s : LedgerState C) (invitee : IdentityId) : Checked C Unit :=
  match s.openInvitationOf invitee with
  | some (event, _) => Outcome.reject (.duplicateInvitation invitee event)
  | none => .ok ()

/-- An invitation of a principal carries that principal's key. -/
def checkKnownKey (s : LedgerState C) (invitee : IdentityId) (inviteeKey : PublicKey C) :
    Checked C Unit :=
  match s.principals.get? invitee with
  | some principal => Outcome.rejectIf (principal.activeKey ≠ inviteeKey)
      (.principalKeyMismatch invitee principal.activeKey inviteeKey)
  | none => .ok ()

/-- The invitation rules. -/
def checkInvitation (s : LedgerState C) (invitation : MembershipInvitation) :
    Checked C (Effect C) := do
  let invitee ← identity invitation.invitee
  let inviteeKey ← publicKey invitation.inviteeKey "MembershipInvitation.invitee_key"
  let role ← Outcome.expect "a validated invitation names a role" (Role.tryFrom invitation.role)
  s.checkNoOpenInvitation invitee
  s.checkKnownKey invitee inviteeKey
  .ok (.invite ⟨invitee, inviteeKey, role, .open⟩)

/-- The rules a demotion shares with a removal. -/
def checkDemotion (s : LedgerState C) (target : IdentityId) : Checked C Unit := do
  Outcome.rejectIf (s.isRawRoot target = true) (.rootNotDemotable target)
  Outcome.rejectIf (s.controllerKeysWithout target = []) (.demotesLastController target)

/-- A principal other than the invitee that already holds a key. -/
def holderOf (s : LedgerState C) (key : PublicKey C) (invitee : IdentityId) :
    Option (IdentityId × Principal C) :=
  s.principals.entries.find? fun e => decide (e.2.activeKey = key) && decide (e.1 ≠ invitee)

/-- Whether an identity is a controller now. -/
def isController (s : LedgerState C) (id : IdentityId) : Bool :=
  (s.principals.get? id).any fun held => decide (held.role = .controller)

/-- No other identity holds the key of an admitted principal. -/
def checkUnheld (s : LedgerState C) (key : PublicKey C) (invitee : IdentityId) :
    Checked C Unit :=
  match s.holderOf key invitee with
  | some (heldBy, _) => Outcome.reject (.duplicatePrincipalKey key heldBy)
  | none => .ok ()

/-- The rules of the invitation an acceptance consumes, once the blob matched it. -/
def checkAdmission (s : LedgerState C) (event : EventId) (invitation : Invitation C) :
    Checked C (Effect C) := do
  s.checkUnheld invitation.inviteeKey invitation.invitee
  if s.isController invitation.invitee = true ∧ invitation.role ≠ .controller then do
    s.checkDemotion invitation.invitee
    .ok (.admission event invitation.invitee ⟨invitation.role, invitation.inviteeKey⟩)
  else .ok (.admission event invitation.invitee ⟨invitation.role, invitation.inviteeKey⟩)

/-- The admission rules. -/
def checkAcceptance (s : LedgerState C) (acceptance : MembershipAcceptance) :
    Checked C (Effect C) := do
  let blob ← Outcome.expect "a validated Acceptance decodes"
    (Acceptance.decode acceptance.acceptance)
  let ledger ← Outcome.orReject (.wire .nonInceptionAtSeqZero) s.ledger
  let namedLedger ← identity blob.ledger
  Outcome.rejectIf (namedLedger ≠ ledger) (.acceptanceForAnotherLedger namedLedger ledger)
  let event ← Outcome.expect "the event id is 32 bytes" (EventId.fromSlice blob.invitationEvent)
  let invitation ← Outcome.orReject (.unknownInvitation event) (s.invitations.get? event)
  Outcome.rejectIf (invitation.status ≠ .open) (.invitationNotOpen event invitation.status)
  let namedInvitee ← identity blob.invitee
  Outcome.rejectIf (namedInvitee ≠ invitation.invitee)
    (.acceptanceInviteeMismatch namedInvitee invitation.invitee)
  let namedKey ← publicKey blob.inviteeKey "Acceptance.invitee_key"
  Outcome.rejectIf (namedKey ≠ invitation.inviteeKey)
    (.acceptanceInviteeKeyMismatch namedKey invitation.inviteeKey)
  s.checkAdmission event invitation

/-- The removal rules. -/
def checkRemoval (s : LedgerState C) (target : IdentityId) : Checked C (Effect C) := do
  Outcome.rejectIf (s.isRawRoot target = true) (.rootNotRemovable target)
  let invitation := (s.openInvitationOf target).map Prod.fst
  let principal := s.principals.get? target
  Outcome.rejectIf (invitation = none ∧ principal = none) (.unknownRemovalTarget target)
  Outcome.rejectIf (s.isController target = true ∧ s.controllerKeysWithout target = [])
    (.lastController target)
  .ok (.remove target invitation principal.isSome)

/-- A subject has at most one unrevoked attestation. -/
def checkUnattested (s : LedgerState C) (subject : IdentityId) : Checked C Unit :=
  match s.unrevoked subject with
  | some (event, _) => Outcome.reject (.duplicateAttestation subject event)
  | none => .ok ()

/-- The rules of an attestation. -/
def checkAttestation (s : LedgerState C) (attestation : TrustAttestation)
    (signer : Option (SigningPrincipal C)) : Checked C (Effect C) := do
  let subject ← identity attestation.subject
  Outcome.rejectIf (some subject = s.ledger) (.selfAttestation subject)
  s.checkUnattested subject
  let signer ← Outcome.expect "an attestation sits past seq 0" signer
  .ok (.attest subject signer)

/-- The rules of a revocation. -/
def checkRevocation (s : LedgerState C) (revocation : TrustRevocation) :
    Checked C (Effect C) := do
  let target ← Outcome.expect "target is 32 bytes" (EventId.fromSlice revocation.target)
  match s.trust.get? target with
  | none => Outcome.reject (.unknownRevocationTarget target)
  | some attestation =>
    match attestation.revokedBy with
    | some revokedBy => Outcome.reject (.alreadyRevoked target revokedBy)
    | none => .ok (.revoke target)

/-- The semantic rules of a payload, run against the state before the event. -/
def checkSemantics (s : LedgerState C) (id : EventId) (payload : Payload)
    (signer : Option (SigningPrincipal C)) : Checked C (Effect C) :=
  match payload with
  | .inception inception => seedFromInception id inception
  | .witnessConfig config => do
    let endpoints ← config.witnesses.mapM (publicKey · "WitnessConfig.witnesses")
    .ok (.witnessEndpoints endpoints)
  | .witnessSet set => do
    let witnesses ← set.witnesses.mapM identity
    let signer ← Outcome.expect "a witness set sits past seq 0" signer
    .ok (.witnessSet witnesses signer)
  | .endpointAdvertisement advertisement => do
    let endpoints ← advertisement.endpoints.mapM (publicKey · "EndpointAdvertisement.endpoints")
    let signer ← Outcome.expect "an advertisement sits past seq 0" signer
    .ok (.endpoints endpoints signer)
  | .trustAttestation attestation => s.checkAttestation attestation signer
  | .trustRevocation revocation => s.checkRevocation revocation
  | .membershipInvitation invitation => s.checkInvitation invitation
  | .membershipAcceptance acceptance => s.checkAcceptance acceptance
  | .membershipRemoval removal => do
    let target ← identity removal.target
    s.checkRemoval target
  | .profileUpdate profile => do
    let signer ← Outcome.expect "a profile update sits past seq 0" signer
    .ok (.profile (setName profile.displayName) (setName profile.hostname)
      (setName profile.email) signer)

/-! ## The one mutation -/

/-- Cancel an invitation, if there is one to cancel. -/
def cancelInvitation (s : LedgerState C) :
    Option EventId → Checked C (SortedMap EventId (Invitation C))
  | some invitation => do
    let _ ← Outcome.expect "the removal check found the invitation"
      (s.invitations.get? invitation)
    .ok (s.invitations.adjust invitation fun i => { i with status := .cancelled })
  | none => .ok s.invitations

/-- Record the effect of a checked event. -/
def commitEffect (s : LedgerState C) (seq : Nat) (id : EventId) :
    Effect C → Checked C (LedgerState C)
  | .seed seed => .ok { s with
      declaredKind := some seed.declaredKind
      root := some seed.root
      ledger := some id.toIdentity
      principals := seed.principals }
  | .witnessEndpoints endpoints => .ok { s with witnessEndpoints := endpoints }
  | .witnessSet witnesses signer => .ok { s with witnessSet := some ⟨witnesses, signer, id, seq⟩ }
  | .endpoints endpoints signer =>
    .ok { s with endpointAdvertisement := some ⟨endpoints, signer, id, seq⟩ }
  | .attest subject signer => .ok { s with trust := s.trust.insert id ⟨subject, signer, none⟩ }
  | .revoke target => do
    let _ ← Outcome.expect "the revocation check found the target" (s.trust.get? target)
    .ok { s with trust := s.trust.adjust target fun a => { a with revokedBy := some id } }
  | .invite invitation => .ok { s with invitations := s.invitations.insert id invitation }
  | .admission invitation invitee principal => do
    let _ ← Outcome.expect "the acceptance check found the invitation"
      (s.invitations.get? invitation)
    .ok { s with
      invitations := s.invitations.adjust invitation fun i => { i with status := .accepted }
      principals := s.principals.insert invitee principal }
  | .remove target invitation wasPrincipal => do
    let invitations ← s.cancelInvitation invitation
    .ok { s with
      invitations := invitations
      principals := if wasPrincipal then s.principals.remove target else s.principals }
  | .profile displayName hostname email signer =>
    .ok { s with profile := some ⟨displayName, hostname, email, signer, id, seq⟩ }

/-- Apply a checked event: its effect, then the head. -/
def commit (s : LedgerState C) (seq : Nat) (id : EventId) (timestampMs : Nat)
    (effect : Effect C) : Checked C (LedgerState C) := do
  let s ← s.commitEffect seq id effect
  .ok { s with head := some ⟨seq, id, timestampMs⟩ }

/-! ## The fold step -/

/-- The chain rules past seq 0. -/
def checkLink (s : LedgerState C) (body : EventBody) : Checked C Unit :=
  match s.head with
  | none => .ok ()
  | some head => do
    let ledger ← identity body.ledger
    let expected ← Outcome.expect "a ledger with a head has an id" s.ledger
    Outcome.rejectIf (ledger ≠ expected) (.wrongLedger expected ledger)
    let prev ← Outcome.expect "prev is 32 bytes" (EventId.fromSlice body.prev)
    Outcome.rejectIf (prev ≠ head.eventId) (.brokenPrevLink head.eventId prev)
    Outcome.rejectIf (body.timestampMs < head.timestampMs)
      (.backwardsTimestamp head.timestampMs body.timestampMs)

/-- The principal that signs the event, absent only at seq 0. -/
def checkSigner (s : LedgerState C) (seq : Nat) (key : PublicKey C) :
    Checked C (Option (SigningPrincipal C)) :=
  if seq = 0 then .ok none
  else do
    let signer ← Outcome.orReject (.unauthorizedSigner key) (s.signingPrincipal key)
    .ok (some signer)

/-- Check one received event against the state and, if every check passes, apply it. -/
def apply (s : LedgerState C) (event : Bytes) : Checked C (LedgerState C) := do
  let seq := s.nextSeq
  Outcome.mapReject Reason.wire (Validate.signedEvent C event)
  let signed ← Outcome.expect "a validated SignedEvent decodes" (SignedEvent.decode event)
  let body ← Outcome.expect "a validated EventBody decodes" (EventBody.decode signed.body)
  let payload ← Outcome.expect "payload is required" body.payload
  let id := eventId C signed.body
  Outcome.rejectIf (body.seq ≠ seq) (.wrongSeq seq body.seq)
  s.checkLink body
  checkPosition seq payload
  let authorKey ← publicKey body.authorKey "EventBody.author_key"
  let signer ← s.checkSigner seq authorKey
  Mabel.verify authorKey (signInput signed.body) signed.signature
  let effect ← s.checkSemantics id payload signer
  s.commit seq id body.timestampMs effect

end LedgerState

/-- The first event a fold rejected, and why. -/
structure Violation (C : Crypto) where
  seq : Nat
  reason : Reason C
  deriving DecidableEq

/-- The text of a violation. -/
def Violation.display (v : Violation C) : String := s!"seq {v.seq}: {v.reason.display}"

/-- Fold events from a state on, up to the first one rejected. -/
def foldFrom (s : LedgerState C) : List Bytes →
    Outcome Empty (LedgerState C × Option (Violation C))
  | [] => .ok (s, none)
  | event :: events =>
    match s.apply event with
    | .ok s' => foldFrom s' events
    | .error (.reject reason) => .ok (s, some ⟨s.nextSeq, reason⟩)
    | .error (.panic site) => Outcome.panic site

/-- Fold a sequence of received events into a state and at most one violation. -/
def fold (C : Crypto) (events : List Bytes) :
    Outcome Empty (LedgerState C × Option (Violation C)) :=
  foldFrom LedgerState.default events

end Mabel
