import Mabel.Node.Time
import Mabel.Node.Verify

/-!
# What a verified ledger says of a subject

A loaded ledger answers from two tables: the attestations of its state, by event id, and the
position of every accepted event, by event id again. A trust report picks the attestations of
one subject, ids rendered as documents spell them, and says which one stands.
-/

namespace Mabel.Node

variable {C : Crypto}

/-! ## The attestations of a ledger -/

/-- One entry of an identity's `trust` array. -/
structure TrustEntry where
  attestationEvent : String
  attestationSeq : Nat
  subject : String
  revoked : Bool
  revocationEvent : Option String
  revocationSeq : Option Nat
  deriving DecidableEq, Repr

/-- One attestation as the `trust` array shows it. -/
def LoadedLedger.trustEntry (loaded : LoadedLedger C) (event : EventId)
    (attestation : Attestation C) : TrustEntry where
  attestationEvent := renderId event.raw
  attestationSeq := (loaded.seqOf.get? event).getD 0
  subject := attestation.subject.display
  revoked := attestation.isRevoked
  revocationEvent := attestation.revokedBy.map fun event => renderId event.raw
  revocationSeq := attestation.revokedBy.bind loaded.seqOf.get?

/-- Every attestation this ledger issued, revoked ones included, by ascending position. -/
def LoadedLedger.trust (loaded : LoadedLedger C) : List TrustEntry :=
  (loaded.state.trust.entries.map fun e => loaded.trustEntry e.1 e.2).insertionSort
    fun a b => a.attestationSeq ≤ b.attestationSeq

/-! ## Statements -/

/-- How far a chain was verified, from where and when. -/
def asOf (seq : Nat) (ledger source : String) (fetchedAtMs : Nat) : String :=
  s!"valid as of seq {seq} of {linkPrefix}{ledger}, fetched from {source} at " ++
    rfc3339Utc fetchedAtMs

/-! ## The trust report -/

/-- Whether the verifier could reach the subject's own ledger. -/
inductive SubjectResolution where
  | resolved
  | unresolved
  deriving DecidableEq, Repr

/-- One revoked attestation inside a trust report. -/
structure RevokedAttestation where
  attestationEvent : String
  attestationSeq : Nat
  revocationEvent : String
  revocationSeq : Nat
  deriving DecidableEq, Repr

/-- Who signed the attestation a trust report answers with, as the report spells it. -/
structure ReportedPrincipal where
  /-- The identity whose principal the author key matched. -/
  identity : String
  /-- The key the event names in `author_key`. -/
  key : String
  deriving DecidableEq, Repr

/-- The trust verification report. -/
structure TrustReport where
  /-- Whether an unrevoked attestation exists up to the head. -/
  trusted : Bool
  issuer : String
  subject : String
  subjectResolution : SubjectResolution
  subjectNote : Option String
  /-- The unrevoked attestation. -/
  attestationEvent : Option String
  attestationSeq : Option Nat
  signingPrincipal : Option ReportedPrincipal
  revokedCount : Nat
  revokedAttestations : List RevokedAttestation
  /-- The source the report is as of. -/
  source : String
  sourcesQueried : List String
  headSeq : Nat
  headEvent : String
  fetchedAtMs : Nat
  statement : String
  subjectControl : String
  verifiedMeans : String
  deriving DecidableEq

/-- `UNRESOLVED_SUBJECT_NOTE`. -/
def unresolvedSubjectNote : String := "subject: unresolved (not held by any queried source)"

/-- `SUBJECT_CONTROL_SENTENCE`. -/
def subjectControlSentence : String :=
  "subject control was not proven to this verifier; the issuer is responsible for out-of-band " ++
    "confirmation"

/-- `VERIFIED_MEANS_SENTENCE`. -/
def verifiedMeansSentence : String :=
  "Verified means this identity signed this statement at this position in its chain. It is not " ++
    "proof that the statement is true, not proof of legal identity, and not proof of unique " ++
    "humanity."

/-- The candidate that won, and everything that was asked. -/
structure Verified (C : Crypto) where
  candidate : Candidate C
  /-- Every source that was asked, in the order they were named. -/
  sourcesQueried : List (EndpointId C)
  /-- When the answer was taken. -/
  fetchedAtMs : Nat
  deriving DecidableEq

/-- The revocation clause of a trust statement. -/
def revocationClause (headSeq : Nat) (revoked : List RevokedAttestation) : String :=
  if revoked.isEmpty then s!"; no revocation up to seq {headSeq}"
  else String.join (revoked.map fun entry =>
    s!"; attestation {entry.attestationEvent} revoked at seq {entry.revocationSeq}")

/-- A revoked entry as a report lists it. -/
def TrustEntry.asRevoked (entry : TrustEntry) : Option RevokedAttestation := do
  return ⟨entry.attestationEvent, entry.attestationSeq, ← entry.revocationEvent,
    ← entry.revocationSeq⟩

/-- Who signed the attestation this report answers with. The id is read back from its
document spelling. -/
def signingPrincipal (loaded : LoadedLedger C) (entry : TrustEntry) : Option ReportedPrincipal := do
  let event ← (decodeId entry.attestationEvent.toList).map EventId.mk
  let attestation ← loaded.state.trust.get? event
  return ⟨attestation.signingPrincipal.identity.display,
    renderId attestation.signingPrincipal.key.raw⟩

/-- The trust report for a verified issuer ledger. -/
def trustReport (verified : Verified C) (subject : IdentityId) (resolution : SubjectResolution) :
    TrustReport :=
  let loaded := verified.candidate.loaded
  let source := renderId verified.candidate.source.raw
  let issuer := loaded.ledger.display
  let entries := loaded.trust.filter fun entry => entry.subject = subject.display
  let standing := entries.find? fun entry => !entry.revoked
  let revoked := (entries.filter TrustEntry.revoked).filterMap TrustEntry.asRevoked
  -- A standing attestation keeps the plain clause: no old revocation applies to it.
  let clause :=
    if standing.isSome then s!"; no revocation up to seq {loaded.headSeq}"
    else revocationClause loaded.headSeq revoked
  { trusted := standing.isSome
    issuer := issuer
    subject := subject.display
    subjectResolution := resolution
    subjectNote := if resolution = .unresolved then some unresolvedSubjectNote else none
    attestationEvent := standing.map TrustEntry.attestationEvent
    attestationSeq := standing.map TrustEntry.attestationSeq
    signingPrincipal := standing.bind (signingPrincipal loaded)
    revokedCount := revoked.length
    revokedAttestations := revoked
    source := source
    sourcesQueried := verified.sourcesQueried.map fun endpoint => renderId endpoint.raw
    headSeq := loaded.headSeq
    headEvent := renderId loaded.headEvent.raw
    fetchedAtMs := verified.fetchedAtMs
    statement := asOf loaded.headSeq issuer source verified.fetchedAtMs ++ clause
    subjectControl := subjectControlSentence
    verifiedMeans := verifiedMeansSentence }

end Mabel.Node
