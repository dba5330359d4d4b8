import Mabel.Ledger.Fold.Change
import Mabel.Ledger.Sign.Build

/-!
# What a controller may ask for

A request is one payload a controller wants to append, in the terms of the builders. Each
names the builder that serves it, the rule the state and the field table put on it and
the record it is meant to leave, so that agreement of builders and fold is one statement.
-/

namespace Mabel

open Wire Proto Validate

variable {C : Crypto}

/-- A payload to append. -/
inductive Request (C : Crypto) where
  | witnessConfig (witnesses : List (EndpointId C))
  | witnessSet (witnesses : List IdentityId)
  | endpointAdvertisement (endpoints : List (EndpointId C))
  | trustAttestation (subject : IdentityId)
  | trustRevocation (target : EventId)
  | membershipInvitation (invitee : IdentityId) (inviteeKey : PublicKey C) (role : Role)
    (inviteeInception : Bytes)
  /-- Admit an invitee, who signs a detached acceptance of the invitation. -/
  | membershipAcceptance (inviteeActive : SecretKey C) (invitation : EventId)
    (invitee : IdentityId)
  | membershipRemoval (target : IdentityId)
  | profileUpdate (displayName hostname email : Option String)

/-- The position the next event of a state takes. -/
structure Position.Of (position : Position) (s : LedgerState C) : Prop where
  ledger : s.ledger = some position.ledger
  head : ∃ head, s.head = some head ∧ position.seq = head.seq + 1 ∧
    position.prev = head.eventId ∧ position.prevTimestampMs = head.timestampMs

/-- An embedded inception verifies on its own and proves an identity and its key. -/
structure Proves (C : Crypto) (inception : Bytes) (id : IdentityId) (key : PublicKey C) :
    Prop where
  size : inception.length ≤ maxEmbeddedInceptionBytes
  standalone : ∃ st, verifyInceptionStandalone C inception = .ok st ∧ st.identity = id ∧
    st.activeKey = key

namespace Request

/-- Serve a request with the builder of its payload. -/
def build (signer : SecretKey C) (position : Position) (nowMs : Nat) :
    Request C → Except BuildError BuiltEvent
  | .witnessConfig witnesses => buildWitnessConfig signer position witnesses nowMs
  | .witnessSet witnesses => buildWitnessSet signer position witnesses nowMs
  | .endpointAdvertisement endpoints => buildEndpointAdvertisement signer position endpoints nowMs
  | .trustAttestation subject => buildTrustAttestation signer position subject nowMs
  | .trustRevocation target => buildTrustRevocation signer position target nowMs
  | .membershipInvitation invitee inviteeKey role inviteeInception =>
    buildMembershipInvitation signer position invitee inviteeKey role inviteeInception nowMs
  | .membershipAcceptance inviteeActive invitation invitee =>
    buildMembershipAcceptance signer position
      (buildAcceptance inviteeActive position.ledger invitation invitee) nowMs
  | .membershipRemoval target => buildMembershipRemoval signer position target nowMs
  | .profileUpdate displayName hostname email =>
    buildProfileUpdate signer position displayName hostname email nowMs

/-- The rule of the state and of the field table for a request. -/
def Permitted (s : LedgerState C) : Request C → Prop
  | .witnessConfig witnesses =>
    witnesses ≠ [] ∧ witnesses.length ≤ maxWitnesses ∧ witnesses.Nodup
  | .witnessSet witnesses => witnesses.length ≤ maxWitnesses ∧ witnesses.Nodup
  | .endpointAdvertisement endpoints => endpoints.length ≤ maxEndpoints ∧ endpoints.Nodup
  | .trustAttestation subject => s.ledger ≠ some subject ∧ s.trusts subject = false
  | .trustRevocation target => ∃ a, s.trust.get? target = some a ∧ a.revokedBy = none
  | .membershipInvitation invitee inviteeKey role inviteeInception =>
    role ≠ .roleUnspecified ∧ Proves C inviteeInception invitee inviteeKey ∧
      s.ledger ≠ some invitee ∧ s.openInvitationOf invitee = none ∧
      ∀ p, s.principals.get? invitee = some p → p.activeKey = inviteeKey
  | .membershipAcceptance inviteeActive invitation invitee =>
    ∃ i, s.invitations.get? invitation = some i ∧ i.status = .open ∧ i.invitee = invitee ∧
      i.inviteeKey = inviteeActive.publicKey ∧
      (∀ holder p, s.principals.get? holder = some p → p.activeKey = i.inviteeKey →
        holder = invitee) ∧
      (s.isController invitee = true → i.role ≠ .controller → s.Dispensable invitee)
  | .membershipRemoval target =>
    s.isRawRoot target = false ∧
      (s.openInvitationOf target ≠ none ∨ s.principals.get? target ≠ none) ∧
      (s.isController target = true →
        ∃ other key, other ≠ target ∧ s.principals.get? other = some ⟨.controller, key⟩)
  | .profileUpdate displayName hostname email => checkProfile C displayName hostname email = .ok ()

/-- The state that records a request, the head apart. -/
def record (s : LedgerState C) (seq : Nat) (id : EventId) (signer : SigningPrincipal C) :
    Request C → LedgerState C
  | .witnessConfig witnesses => { s with witnessEndpoints := witnesses }
  | .witnessSet witnesses => { s with witnessSet := some ⟨witnesses, signer, id, seq⟩ }
  | .endpointAdvertisement endpoints =>
    { s with endpointAdvertisement := some ⟨endpoints, signer, id, seq⟩ }
  | .trustAttestation subject => { s with trust := s.trust.insert id ⟨subject, signer, none⟩ }
  | .trustRevocation target =>
    { s with trust := s.trust.adjust target fun a => { a with revokedBy := some id } }
  | .membershipInvitation invitee inviteeKey role _ =>
    { s with invitations := s.invitations.insert id ⟨invitee, inviteeKey, role, .open⟩ }
  | .membershipAcceptance inviteeActive invitation invitee => { s with
      invitations := s.invitations.adjust invitation fun i => { i with status := .accepted }
      principals := match s.invitations.get? invitation with
        | some i => s.principals.insert invitee ⟨i.role, inviteeActive.publicKey⟩
        | none => s.principals }
  | .membershipRemoval target => { s with
      invitations := s.cancelOpen target
      principals := s.dropPrincipal target }
  | .profileUpdate displayName hostname email => { s with
      profile := some ⟨displayName.bind setName, hostname.bind setName, email.bind setName,
        signer, id, seq⟩ }

/-- The payload a request is encoded as. -/
def payload (ledger : LedgerId) : Request C → Payload
  | .witnessConfig witnesses => .witnessConfig ⟨witnesses.map PublicKey.asBytes⟩
  | .witnessSet witnesses => .witnessSet ⟨witnesses.map IdentityId.toVec⟩
  | .endpointAdvertisement endpoints =>
    .endpointAdvertisement ⟨endpoints.map PublicKey.asBytes⟩
  | .trustAttestation subject => .trustAttestation ⟨subject.toVec⟩
  | .trustRevocation target => .trustRevocation ⟨target.toVec⟩
  | .membershipInvitation invitee inviteeKey role inviteeInception =>
    .membershipInvitation ⟨invitee.toVec, inviteeKey.asBytes, role.number, inviteeInception⟩
  | .membershipAcceptance inviteeActive invitation invitee =>
    let accepted := buildAcceptance inviteeActive ledger invitation invitee
    .membershipAcceptance ⟨accepted.acceptance, accepted.signature.bytes⟩
  | .membershipRemoval target => .membershipRemoval ⟨target.toVec⟩
  | .profileUpdate displayName hostname email =>
    .profileUpdate (Mabel.profileUpdate displayName hostname email)

end Request

/-! ## Inceptions -/

/-- What a root needs before a ledger can start around it. -/
def InceptionRoot.Permitted (signer : SecretKey C) : InceptionRoot C → Prop
  | .raw reserveKey => signer.publicKey.asBytes ≠ (reserveCommit C reserveKey).bytes
  | .identity founder founderInception => Proves C founderInception founder signer.publicKey

/-- The root an inception fixes and the first principal of the ledger. -/
def InceptionRoot.founds (signer : SecretKey C) (id : EventId) :
    InceptionRoot C → LedgerRoot C × IdentityId
  | .raw reserveKey => (.raw signer.publicKey (reserveCommit C reserveKey), id.toIdentity)
  | .identity founder _ => (.identity founder signer.publicKey, founder)

/-- The state a built inception starts a ledger in. -/
def startedState (signer : SecretKey C) (kind : DeclaredKind) (root : InceptionRoot C)
    (id : EventId) (nowMs : Nat) : LedgerState C :=
  { LedgerState.default with
    declaredKind := some kind
    root := some (root.founds signer id).1
    ledger := some id.toIdentity
    head := some ⟨0, id, nowMs⟩
    principals := SortedMap.empty.insert (root.founds signer id).2 ⟨.controller, signer.publicKey⟩ }

end Mabel
