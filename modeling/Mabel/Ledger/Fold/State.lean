import Mabel.Core.SortedMap
import Mabel.Ledger.Ids
import Mabel.Ledger.Messages
import Mabel.Ledger.Validate.Descriptor

/-!
# The folded state of a ledger

The records a fold keeps and the questions it answers from them: who may sign, which
invitation of an identity is open, which attestation stands and which controller keys
would remain without an identity.
-/

namespace Mabel

open Wire

/-- What an inception says the identity is. -/
inductive DeclaredKind where
  | kindUnspecified
  | person
  | organization
  | agent
  | service
  deriving DecidableEq, Repr

/-- The kind a number of the schema names. -/
def DeclaredKind.tryFrom : Int → Option DeclaredKind
  | 0 => some .kindUnspecified
  | 1 => some .person
  | 2 => some .organization
  | 3 => some .agent
  | 4 => some .service
  | _ => none

/-- The number the schema gives a kind. -/
def DeclaredKind.number : DeclaredKind → Int
  | .kindUnspecified => 0
  | .person => 1
  | .organization => 2
  | .agent => 3
  | .service => 4

/-- What a principal may do. -/
inductive Role where
  | roleUnspecified
  | member
  | controller
  deriving DecidableEq, Repr

/-- The role a number of the schema names. -/
def Role.tryFrom : Int → Option Role
  | 0 => some .roleUnspecified
  | 1 => some .member
  | 2 => some .controller
  | _ => none

/-- The number the schema gives a role. -/
def Role.number : Role → Int
  | .roleUnspecified => 0
  | .member => 1
  | .controller => 2

/-- The one cryptographic root a ledger's inception fixed. -/
inductive LedgerRoot (C : Crypto) where
  /-- A self-keyed ledger. -/
  | raw (activeKey : PublicKey C) (reserveCommit : Block idBytes)
  /-- A ledger controlled by one founding identity. -/
  | identity (founder : IdentityId) (founderKey : PublicKey C)
  deriving DecidableEq

/-- Whether the root keys the ledger itself. -/
def LedgerRoot.isRaw {C : Crypto} : LedgerRoot C → Bool
  | .raw .. => true
  | .identity .. => false

/-- The last event the fold accepted. -/
structure Head where
  seq : Nat
  eventId : EventId
  timestampMs : Nat
  deriving DecidableEq

/-- An identity the ledger has recorded, and what it may do. -/
structure Principal (C : Crypto) where
  role : Role
  activeKey : PublicKey C
  deriving DecidableEq

/-- Who signed an event. -/
structure SigningPrincipal (C : Crypto) where
  identity : IdentityId
  key : PublicKey C
  deriving DecidableEq

/-- Where an invitation stands. -/
inductive InvitationStatus where
  | open
  | accepted
  | cancelled
  deriving DecidableEq, Repr

/-- The lowercase name a status carries in output. -/
def InvitationStatus.display : InvitationStatus → String
  | .open => "open"
  | .accepted => "accepted"
  | .cancelled => "cancelled"

/-- One invitation and what became of it. -/
structure Invitation (C : Crypto) where
  invitee : IdentityId
  inviteeKey : PublicKey C
  role : Role
  status : InvitationStatus
  deriving DecidableEq

/-- One attestation and its revocation status. -/
structure Attestation (C : Crypto) where
  subject : IdentityId
  signingPrincipal : SigningPrincipal C
  revokedBy : Option EventId
  deriving DecidableEq

/-- Whether a later revocation named the attestation. -/
def Attestation.isRevoked {C : Crypto} (a : Attestation C) : Bool := a.revokedBy.isSome

/-- The names a ledger publishes, and who set them. -/
structure Profile (C : Crypto) where
  displayName : Option String
  hostname : Option String
  email : Option String
  signingPrincipal : SigningPrincipal C
  event : EventId
  seq : Nat
  deriving DecidableEq

/-- The identities that may keep a ledger, and who named them. -/
structure WitnessSet (C : Crypto) where
  witnesses : List IdentityId
  signingPrincipal : SigningPrincipal C
  event : EventId
  seq : Nat
  deriving DecidableEq

/-- The endpoints that answer for an identity, and who named them. -/
structure EndpointAdvertisement (C : Crypto) where
  endpoints : List (EndpointId C)
  signingPrincipal : SigningPrincipal C
  event : EventId
  seq : Nat
  deriving DecidableEq

/-- The fold of a valid event prefix. -/
structure LedgerState (C : Crypto) where
  declaredKind : Option DeclaredKind
  root : Option (LedgerRoot C)
  ledger : Option LedgerId
  head : Option Head
  principals : SortedMap IdentityId (Principal C)
  invitations : SortedMap EventId (Invitation C)
  witnessEndpoints : List (EndpointId C)
  witnessSet : Option (WitnessSet C)
  endpointAdvertisement : Option (EndpointAdvertisement C)
  trust : SortedMap EventId (Attestation C)
  profile : Option (Profile C)
  deriving DecidableEq

namespace LedgerState

variable {C : Crypto}

/-- The state before any event. -/
def default : LedgerState C where
  declaredKind := none
  root := none
  ledger := none
  head := none
  principals := .empty
  invitations := .empty
  witnessEndpoints := []
  witnessSet := none
  endpointAdvertisement := none
  trust := .empty
  profile := none

/-- The identity of the root principal. -/
def rootIdentity (s : LedgerState C) : Option IdentityId :=
  s.root.bind fun
    | .raw .. => s.ledger
    | .identity founder _ => some founder

/-- The position the next event must occupy, a `u64` in the source. -/
def nextSeq (s : LedgerState C) : Nat :=
  match s.head with
  | some head => head.seq + 1
  | none => 0

/-- The unrevoked attestation for a subject, if the ledger has one. -/
def unrevoked (s : LedgerState C) (subject : IdentityId) : Option (EventId × Attestation C) :=
  s.trust.entries.find? fun e => decide (e.2.subject = subject) && !e.2.isRevoked

/-- Whether the ledger currently attests to a subject. -/
def trusts (s : LedgerState C) (subject : IdentityId) : Bool := (s.unrevoked subject).isSome

/-- The principal a key signs as, if any may sign the next event. -/
def signingPrincipal (s : LedgerState C) (key : PublicKey C) : Option (SigningPrincipal C) :=
  (s.principals.entries.find? fun e =>
    decide (e.2.role = .controller) && decide (e.2.activeKey = key)).map fun e => ⟨e.1, key⟩

/-- Collect the keys of controllers, each once, skipping the identities a test excludes. -/
def collectKeys (keep : IdentityId → Bool) (entries : List (IdentityId × Principal C)) :
    List (PublicKey C) :=
  entries.foldl (fun keys e =>
    if keep e.1 && decide (e.2.role = .controller) && !keys.contains e.2.activeKey then
      keys ++ [e.2.activeKey]
    else keys) []

/-- Every distinct key that may currently append. -/
def controllerKeys (s : LedgerState C) : List (PublicKey C) :=
  collectKeys (fun _ => true) s.principals.entries

/-- Every distinct controller key that would remain without an identity. -/
def controllerKeysWithout (s : LedgerState C) (target : IdentityId) : List (PublicKey C) :=
  collectKeys (fun id => decide (id ≠ target)) s.principals.entries

/-- Whether an identity is the root principal of a raw-rooted ledger. -/
def isRawRoot (s : LedgerState C) (target : IdentityId) : Bool :=
  s.root.any LedgerRoot.isRaw && decide (some target = s.rootIdentity)

/-- The open invitation naming an identity, if the ledger holds one. -/
def openInvitationOf (s : LedgerState C) (invitee : IdentityId) :
    Option (EventId × Invitation C) :=
  s.invitations.entries.find? fun e =>
    decide (e.2.invitee = invitee) && decide (e.2.status = .open)

/-! ## What the questions answer -/

/-- A ledger attests to a subject exactly when it holds an unrevoked attestation of it. -/
theorem trusts_iff {s : LedgerState C} {subject : IdentityId} :
    s.trusts subject = true ↔
      ∃ id a, s.trust.get? id = some a ∧ a.subject = subject ∧ a.revokedBy = none := by
  simp only [trusts, unrevoked]
  constructor
  · intro h
    obtain ⟨⟨id, a⟩, he⟩ := Option.isSome_iff_exists.mp h
    obtain ⟨hget, hp⟩ := SortedMap.find?_some he
    simp only [Bool.and_eq_true, decide_eq_true_eq, Bool.not_eq_true', Attestation.isRevoked,
      Option.isSome_eq_false_iff, Option.isNone_iff_eq_none] at hp
    exact ⟨id, a, hget, hp⟩
  · rintro ⟨id, a, hget, hsubject, hrevoked⟩
    by_contra hnone
    have := SortedMap.find?_none.mp (Option.not_isSome_iff_eq_none.mp hnone) id a hget
    simp [hsubject, Attestation.isRevoked, hrevoked] at this

/-- An open invitation that is found is the invitee's and open. -/
theorem openInvitationOf_some {s : LedgerState C} {invitee : IdentityId} {id : EventId}
    {i : Invitation C} (h : s.openInvitationOf invitee = some (id, i)) :
    s.invitations.get? id = some i ∧ i.invitee = invitee ∧ i.status = .open := by
  obtain ⟨hget, hp⟩ := SortedMap.find?_some h
  simp only [Bool.and_eq_true, decide_eq_true_eq] at hp
  exact ⟨hget, hp⟩

/-- None is found when no invitation of the invitee is open. -/
theorem openInvitationOf_none {s : LedgerState C} {invitee : IdentityId} :
    s.openInvitationOf invitee = none ↔
      ∀ id i, s.invitations.get? id = some i → i.invitee = invitee → i.status ≠ .open := by
  rw [openInvitationOf, SortedMap.find?_none]
  refine forall_congr' fun id => forall_congr' fun i => forall_congr' fun _ => ?_
  by_cases h : i.invitee = invitee <;> simp [h]

/-- A key signs as an identity that holds it as a controller. -/
theorem signingPrincipal_some {s : LedgerState C} {key : PublicKey C} {sp : SigningPrincipal C}
    (h : s.signingPrincipal key = some sp) : sp.key = key ∧
      s.principals.get? sp.identity = some ⟨.controller, key⟩ := by
  obtain ⟨⟨id, p⟩, he, rfl⟩ := Option.map_eq_some_iff.mp h
  obtain ⟨hget, hp⟩ := SortedMap.find?_some he
  simp only [Bool.and_eq_true, decide_eq_true_eq] at hp
  obtain ⟨role, activeKey⟩ := p
  obtain ⟨rfl, rfl⟩ := hp
  exact ⟨rfl, hget⟩

/-- A key signs as someone exactly when a controller holds it. -/
theorem signingPrincipal_isSome {s : LedgerState C} {key : PublicKey C} :
    (s.signingPrincipal key).isSome = true ↔
      ∃ id, s.principals.get? id = some ⟨.controller, key⟩ := by
  constructor
  · intro h
    obtain ⟨sp, hsp⟩ := Option.isSome_iff_exists.mp h
    exact ⟨sp.identity, (signingPrincipal_some hsp).2⟩
  · rintro ⟨id, hget⟩
    by_contra hnone
    rw [Option.not_isSome_iff_eq_none, signingPrincipal, Option.map_eq_none_iff] at hnone
    have := SortedMap.find?_none.mp hnone id _ hget
    simp at this

/-- The keys collected are those of the controllers kept. -/
private theorem mem_collectKeys {keep : IdentityId → Bool}
    (entries : List (IdentityId × Principal C)) {key : PublicKey C} :
    key ∈ collectKeys keep entries ↔
      ∃ e ∈ entries, keep e.1 = true ∧ e.2.role = .controller ∧ e.2.activeKey = key := by
  -- The accumulator keeps what it holds, so membership is membership of either part.
  have hloop : ∀ keys : List (PublicKey C), key ∈ entries.foldl (fun keys e =>
      if keep e.1 && decide (e.2.role = .controller) && !keys.contains e.2.activeKey then
        keys ++ [e.2.activeKey]
      else keys) keys ↔ key ∈ keys ∨
        ∃ e ∈ entries, keep e.1 = true ∧ e.2.role = .controller ∧ e.2.activeKey = key := by
    induction entries with
    | nil => simp
    | cons e entries ih =>
      intro keys
      rw [List.foldl_cons, ih]
      simp only [List.mem_cons, exists_eq_or_imp]
      split_ifs with h
      · simp only [Bool.and_eq_true, decide_eq_true_eq] at h
        simp only [List.mem_append, List.mem_singleton, or_assoc]
        refine or_congr_right (or_congr_left ?_)
        exact ⟨fun hk => ⟨h.1.1, h.1.2, hk.symm⟩, fun hk => hk.2.2.symm⟩
      · constructor
        · rintro (hk | hk)
          · exact .inl hk
          · exact .inr (.inr hk)
        · rintro (hk | ⟨hkeep, hrole, rfl⟩ | hk)
          · exact .inl hk
          · refine .inl ?_
            simpa [hkeep, hrole] using h
          · exact .inr hk
  exact (hloop []).trans (by simp)

/-- The controller keys are the keys controllers hold. -/
theorem mem_controllerKeys {s : LedgerState C} {key : PublicKey C} :
    key ∈ s.controllerKeys ↔ ∃ id, s.principals.get? id = some ⟨.controller, key⟩ := by
  rw [controllerKeys, mem_collectKeys]
  constructor
  · rintro ⟨⟨id, role, activeKey⟩, hmem, -, rfl, rfl⟩
    exact ⟨id, SortedMap.get?_eq_some.mpr hmem⟩
  · rintro ⟨id, hget⟩
    exact ⟨_, SortedMap.get?_eq_some.mp hget, rfl, rfl, rfl⟩

/-- The keys without the target's are the other controllers'. -/
theorem mem_controllerKeysWithout {s : LedgerState C} {target : IdentityId}
    {key : PublicKey C} : key ∈ s.controllerKeysWithout target ↔
      ∃ id, id ≠ target ∧ s.principals.get? id = some ⟨.controller, key⟩ := by
  rw [controllerKeysWithout, mem_collectKeys]
  constructor
  · rintro ⟨⟨id, role, activeKey⟩, hmem, hne, rfl, rfl⟩
    exact ⟨id, of_decide_eq_true hne, SortedMap.get?_eq_some.mpr hmem⟩
  · rintro ⟨id, hne, hget⟩
    exact ⟨_, SortedMap.get?_eq_some.mp hget, decide_eq_true hne, rfl, rfl⟩

end LedgerState

end Mabel
