import Mabel.Core.Wire.Proto

/-!
# The messages of `ledger.proto`

One structure for each message of the schema, as the generated code has it: `bytes`
and `string` fields default to empty, numbers to zero and a `oneof` to no variant.
`entries` lists the records the canonical encoder writes, in ascending field order
with defaults omitted, and `ofRecords` reads a message back from tolerant records.
-/

namespace Mabel.Proto

open Wire

/-- A self-keyed ledger's root. -/
structure RawRoot where
  activeKey : Bytes
  reserveCommit : Bytes
  deriving DecidableEq, Repr

/-- The root of a ledger controlled by one founding identity. -/
structure IdentityRoot where
  founder : Bytes
  founderKey : Bytes
  founderInception : Bytes
  deriving DecidableEq, Repr

/-- The `oneof root` of an inception. -/
inductive Root where
  | rawRoot (root : RawRoot)
  | identityRoot (root : IdentityRoot)
  deriving DecidableEq, Repr

/-- The one seq-0 payload. -/
structure Inception where
  kind : Int
  nonce : Bytes
  root : Option Root
  deriving DecidableEq, Repr

/-- The retired tag-11 endpoint list. -/
structure WitnessConfig where
  witnesses : List Bytes
  deriving DecidableEq, Repr

/-- The endpoints that answer for an identity. -/
structure EndpointAdvertisement where
  endpoints : List Bytes
  deriving DecidableEq, Repr

/-- The identities that may keep a ledger. -/
structure WitnessSet where
  witnesses : List Bytes
  deriving DecidableEq, Repr

structure TrustAttestation where
  subject : Bytes
  deriving DecidableEq, Repr

structure TrustRevocation where
  target : Bytes
  deriving DecidableEq, Repr

structure MembershipInvitation where
  invitee : Bytes
  inviteeKey : Bytes
  role : Int
  inviteeInception : Bytes
  deriving DecidableEq, Repr

structure MembershipAcceptance where
  acceptance : Bytes
  signature : Bytes
  deriving DecidableEq, Repr

structure MembershipRemoval where
  target : Bytes
  deriving DecidableEq, Repr

structure ProfileUpdate where
  displayName : String
  hostname : String
  email : String
  deriving DecidableEq, Repr

/-- The `oneof payload` of an event body. -/
inductive Payload where
  | inception (m : Inception)
  | witnessConfig (m : WitnessConfig)
  | trustAttestation (m : TrustAttestation)
  | trustRevocation (m : TrustRevocation)
  | membershipInvitation (m : MembershipInvitation)
  | membershipAcceptance (m : MembershipAcceptance)
  | membershipRemoval (m : MembershipRemoval)
  | profileUpdate (m : ProfileUpdate)
  | endpointAdvertisement (m : EndpointAdvertisement)
  | witnessSet (m : WitnessSet)
  deriving DecidableEq, Repr

/-- The message that is hashed and signed. -/
structure EventBody where
  version : Nat
  ledger : Bytes
  seq : Nat
  prev : Bytes
  timestampMs : Nat
  authorKey : Bytes
  payload : Option Payload
  deriving DecidableEq, Repr

/-- The byte string that crosses the network and lands on disk. -/
structure SignedEvent where
  body : Bytes
  signature : Bytes
  deriving DecidableEq, Repr

/-- The detached blob an invitee signs. -/
structure Acceptance where
  version : Nat
  ledger : Bytes
  invitationEvent : Bytes
  invitee : Bytes
  inviteeKey : Bytes
  deriving DecidableEq, Repr

/-! ## Canonical records -/

def RawRoot.entries (m : RawRoot) : List Entry :=
  bytesField 1 m.activeKey ++ bytesField 2 m.reserveCommit

def IdentityRoot.entries (m : IdentityRoot) : List Entry :=
  bytesField 1 m.founder ++ bytesField 2 m.founderKey ++ bytesField 3 m.founderInception

/-- The tag of a root variant. -/
def Root.tag : Root → Nat
  | .rawRoot _ => 10
  | .identityRoot _ => 11

def Root.entries : Root → List Entry
  | .rawRoot m => m.entries
  | .identityRoot m => m.entries

/-- A `oneof` writes its variant, present or not. -/
def rootField : Option Root → List Entry
  | none => []
  | some r => messageField r.tag (putEntries r.entries)

def Inception.entries (m : Inception) : List Entry :=
  uintField 1 (varintOfInt32 m.kind) ++ bytesField 2 m.nonce ++ rootField m.root

def WitnessConfig.entries (m : WitnessConfig) : List Entry := repeatedField 1 m.witnesses

def EndpointAdvertisement.entries (m : EndpointAdvertisement) : List Entry :=
  repeatedField 1 m.endpoints

def WitnessSet.entries (m : WitnessSet) : List Entry := repeatedField 1 m.witnesses

def TrustAttestation.entries (m : TrustAttestation) : List Entry := bytesField 1 m.subject

def TrustRevocation.entries (m : TrustRevocation) : List Entry := bytesField 1 m.target

def MembershipInvitation.entries (m : MembershipInvitation) : List Entry :=
  bytesField 1 m.invitee ++ bytesField 2 m.inviteeKey ++ uintField 3 (varintOfInt32 m.role) ++
    bytesField 4 m.inviteeInception

def MembershipAcceptance.entries (m : MembershipAcceptance) : List Entry :=
  bytesField 1 m.acceptance ++ bytesField 2 m.signature

def MembershipRemoval.entries (m : MembershipRemoval) : List Entry := bytesField 1 m.target

def ProfileUpdate.entries (m : ProfileUpdate) : List Entry :=
  bytesField 1 (utf8 m.displayName) ++ bytesField 2 (utf8 m.hostname) ++
    bytesField 3 (utf8 m.email)

/-- The tag of a payload variant. -/
def Payload.tag : Payload → Nat
  | .inception _ => 10
  | .witnessConfig _ => 11
  | .trustAttestation _ => 12
  | .trustRevocation _ => 13
  | .membershipInvitation _ => 14
  | .membershipAcceptance _ => 15
  | .membershipRemoval _ => 16
  | .profileUpdate _ => 17
  | .endpointAdvertisement _ => 18
  | .witnessSet _ => 19

def Payload.entries : Payload → List Entry
  | .inception m => m.entries
  | .witnessConfig m => m.entries
  | .trustAttestation m => m.entries
  | .trustRevocation m => m.entries
  | .membershipInvitation m => m.entries
  | .membershipAcceptance m => m.entries
  | .membershipRemoval m => m.entries
  | .profileUpdate m => m.entries
  | .endpointAdvertisement m => m.entries
  | .witnessSet m => m.entries

/-- A `oneof` writes its variant, present or not. -/
def payloadField : Option Payload → List Entry
  | none => []
  | some p => messageField p.tag (putEntries p.entries)

def EventBody.entries (m : EventBody) : List Entry :=
  uintField 1 m.version ++ bytesField 2 m.ledger ++ uintField 3 m.seq ++ bytesField 4 m.prev ++
    uintField 5 m.timestampMs ++ bytesField 6 m.authorKey ++ payloadField m.payload

def SignedEvent.entries (m : SignedEvent) : List Entry :=
  bytesField 1 m.body ++ bytesField 2 m.signature

def Acceptance.entries (m : Acceptance) : List Entry :=
  uintField 1 m.version ++ bytesField 2 m.ledger ++ bytesField 3 m.invitationEvent ++
    bytesField 4 m.invitee ++ bytesField 5 m.inviteeKey

/-- The canonical encoding of a payload message on its own. -/
def Root.encode (m : Root) : Bytes := putEntries m.entries

def Payload.encode (m : Payload) : Bytes := putEntries m.entries

def ProfileUpdate.encode (m : ProfileUpdate) : Bytes := putEntries m.entries

def EventBody.encode (m : EventBody) : Bytes := putEntries m.entries

def SignedEvent.encode (m : SignedEvent) : Bytes := putEntries m.entries

def Acceptance.encode (m : Acceptance) : Bytes := putEntries m.entries

/-! ## Tolerant decoding -/

def RawRoot.ofRecords (rs : List RawEntry) : Option RawRoot := do
  let activeKey ← bytesOf 1 rs
  let reserveCommit ← bytesOf 2 rs
  return ⟨activeKey, reserveCommit⟩

def IdentityRoot.ofRecords (rs : List RawEntry) : Option IdentityRoot := do
  let founder ← bytesOf 1 rs
  let founderKey ← bytesOf 2 rs
  let founderInception ← bytesOf 3 rs
  return ⟨founder, founderKey, founderInception⟩

/-- The root variant of a tag. -/
def Root.ofRecords (tag : Nat) (rs : List RawEntry) : Option Root :=
  match tag with
  | 10 => (RawRoot.ofRecords rs).map .rawRoot
  | 11 => (IdentityRoot.ofRecords rs).map .identityRoot
  | _ => none

/-- The tags of `oneof root`. -/
def rootTags : List Nat := [10, 11]

def Inception.ofRecords (rs : List RawEntry) : Option Inception := do
  let kind ← uintOf 1 rs
  let nonce ← bytesOf 2 rs
  let root ← oneofOf rootTags Root.ofRecords rs
  return ⟨int32OfVarint kind, nonce, root⟩

def WitnessConfig.ofRecords (rs : List RawEntry) : Option WitnessConfig :=
  (repeatedOf 1 rs).map WitnessConfig.mk

def EndpointAdvertisement.ofRecords (rs : List RawEntry) : Option EndpointAdvertisement :=
  (repeatedOf 1 rs).map EndpointAdvertisement.mk

def WitnessSet.ofRecords (rs : List RawEntry) : Option WitnessSet :=
  (repeatedOf 1 rs).map WitnessSet.mk

def TrustAttestation.ofRecords (rs : List RawEntry) : Option TrustAttestation :=
  (bytesOf 1 rs).map TrustAttestation.mk

def TrustRevocation.ofRecords (rs : List RawEntry) : Option TrustRevocation :=
  (bytesOf 1 rs).map TrustRevocation.mk

def MembershipInvitation.ofRecords (rs : List RawEntry) : Option MembershipInvitation := do
  let invitee ← bytesOf 1 rs
  let inviteeKey ← bytesOf 2 rs
  let role ← uintOf 3 rs
  let inviteeInception ← bytesOf 4 rs
  return ⟨invitee, inviteeKey, int32OfVarint role, inviteeInception⟩

def MembershipAcceptance.ofRecords (rs : List RawEntry) : Option MembershipAcceptance := do
  let acceptance ← bytesOf 1 rs
  let signature ← bytesOf 2 rs
  return ⟨acceptance, signature⟩

def MembershipRemoval.ofRecords (rs : List RawEntry) : Option MembershipRemoval :=
  (bytesOf 1 rs).map MembershipRemoval.mk

def ProfileUpdate.ofRecords (rs : List RawEntry) : Option ProfileUpdate := do
  let displayName ← stringOf 1 rs
  let hostname ← stringOf 2 rs
  let email ← stringOf 3 rs
  return ⟨displayName, hostname, email⟩

/-- The payload variant of a tag. -/
def Payload.ofRecords (tag : Nat) (rs : List RawEntry) : Option Payload :=
  match tag with
  | 10 => (Inception.ofRecords rs).map .inception
  | 11 => (WitnessConfig.ofRecords rs).map .witnessConfig
  | 12 => (TrustAttestation.ofRecords rs).map .trustAttestation
  | 13 => (TrustRevocation.ofRecords rs).map .trustRevocation
  | 14 => (MembershipInvitation.ofRecords rs).map .membershipInvitation
  | 15 => (MembershipAcceptance.ofRecords rs).map .membershipAcceptance
  | 16 => (MembershipRemoval.ofRecords rs).map .membershipRemoval
  | 17 => (ProfileUpdate.ofRecords rs).map .profileUpdate
  | 18 => (EndpointAdvertisement.ofRecords rs).map .endpointAdvertisement
  | 19 => (WitnessSet.ofRecords rs).map .witnessSet
  | _ => none

/-- The tags of `oneof payload`. -/
def payloadTags : List Nat := [10, 11, 12, 13, 14, 15, 16, 17, 18, 19]

def EventBody.ofRecords (rs : List RawEntry) : Option EventBody := do
  let version ← uintOf 1 rs
  let ledger ← bytesOf 2 rs
  let seq ← uintOf 3 rs
  let prev ← bytesOf 4 rs
  let timestampMs ← uintOf 5 rs
  let authorKey ← bytesOf 6 rs
  let payload ← oneofOf payloadTags Payload.ofRecords rs
  return ⟨version % 2 ^ 32, ledger, seq, prev, timestampMs, authorKey, payload⟩

def SignedEvent.ofRecords (rs : List RawEntry) : Option SignedEvent := do
  let body ← bytesOf 1 rs
  let signature ← bytesOf 2 rs
  return ⟨body, signature⟩

def Acceptance.ofRecords (rs : List RawEntry) : Option Acceptance := do
  let version ← uintOf 1 rs
  let ledger ← bytesOf 2 rs
  let invitationEvent ← bytesOf 3 rs
  let invitee ← bytesOf 4 rs
  let inviteeKey ← bytesOf 5 rs
  return ⟨version % 2 ^ 32, ledger, invitationEvent, invitee, inviteeKey⟩

/-- A root message decoded on its own, under the tag it was written with. -/
def Root.decode (tag : Nat) (bytes : Bytes) : Option Root :=
  (decodeRecords bytes).bind (Root.ofRecords tag)

/-- A payload message decoded on its own, under the tag it was written with. -/
def Payload.decode (tag : Nat) (bytes : Bytes) : Option Payload :=
  (decodeRecords bytes).bind (Payload.ofRecords tag)

def EventBody.decode (bytes : Bytes) : Option EventBody :=
  (decodeRecords bytes).bind EventBody.ofRecords

def SignedEvent.decode (bytes : Bytes) : Option SignedEvent :=
  (decodeRecords bytes).bind SignedEvent.ofRecords

def Acceptance.decode (bytes : Bytes) : Option Acceptance :=
  (decodeRecords bytes).bind Acceptance.ofRecords

/-! ## Canonical encodings decode to their messages -/

@[simp] theorem select_rootField_of_lt {number : Nat} (h : number < 10) (r : Option Root) :
    select number (rootField r) = [] := by
  rcases r with _ | (r | r)
  · rfl
  all_goals
    rw [rootField, select_messageField, if_neg]
    simp only [Root.tag]
    omega

@[simp] theorem select_payloadField_of_lt {number : Nat} (h : number < 10)
    (p : Option Payload) : select number (payloadField p) = [] := by
  cases p with
  | none => rfl
  | some p =>
    rw [payloadField, select_messageField, if_neg]
    cases p <;> simp only [Payload.tag] <;> omega

theorem Root.tag_mem (r : Root) : r.tag ∈ rootTags := by
  cases r <;> simp [Root.tag, rootTags]

theorem Payload.tag_mem (p : Payload) : p.tag ∈ payloadTags := by
  cases p <;> simp [Payload.tag, payloadTags]

/-- A 32-bit reader returns the root's fields. -/
def Root.Sized (r : Root) : Prop := ∀ e ∈ r.entries, Fits e

/-- A 32-bit reader returns the inception's fields, and its root's. -/
structure Inception.Sized (m : Inception) : Prop where
  entries : ∀ e ∈ m.entries, Fits e
  kind : ∃ n : Nat, m.kind = n ∧ n < 2 ^ 31
  root : ∃ r : Root, m.root = some r ∧ r.Sized

/-- A 32-bit reader returns the invitation's fields. -/
structure MembershipInvitation.Sized (m : MembershipInvitation) : Prop where
  entries : ∀ e ∈ m.entries, Fits e
  role : ∃ n : Nat, m.role = n ∧ n < 2 ^ 31

/-- A 32-bit reader returns the payload's fields, at every level. -/
def Payload.Sized : Payload → Prop
  | .inception m => m.Sized
  | .membershipInvitation m => m.Sized
  | p => ∀ e ∈ p.entries, Fits e

/-- A 32-bit reader returns the body's fields, and its payload's. -/
structure EventBody.Sized (m : EventBody) : Prop where
  entries : ∀ e ∈ m.entries, Fits e
  version : m.version < 2 ^ 32
  payload : ∃ p : Payload, m.payload = some p ∧ p.Sized

/-- The entries of a payload of bounded size fit the encoding. -/
theorem Payload.Sized.fits {p : Payload} (h : p.Sized) : ∀ e ∈ p.entries, Fits e := by
  cases p with
  | inception m => exact h.entries
  | membershipInvitation m => exact h.entries
  | _ => exact h

/-- A root reads back from its own entries. -/
theorem Root.ofRecords_entries (r : Root) :
    Root.ofRecords r.tag (r.entries.map Entry.raw) = some r := by
  cases r with
  | rawRoot m =>
    simp only [Root.tag, Root.entries, Root.ofRecords, RawRoot.ofRecords,
      bytesOf_of_select (show select 1 m.entries = bytesField 1 m.activeKey by
        simp [RawRoot.entries]),
      bytesOf_of_select (show select 2 m.entries = bytesField 2 m.reserveCommit by
        simp [RawRoot.entries])]
    rfl
  | identityRoot m =>
    simp only [Root.tag, Root.entries, Root.ofRecords, IdentityRoot.ofRecords,
      bytesOf_of_select (show select 1 m.entries = bytesField 1 m.founder by
        simp [IdentityRoot.entries]),
      bytesOf_of_select (show select 2 m.entries = bytesField 2 m.founderKey by
        simp [IdentityRoot.entries]),
      bytesOf_of_select (show select 3 m.entries = bytesField 3 m.founderInception by
        simp [IdentityRoot.entries])]
    rfl

/-- An inception reads back from its own entries. -/
theorem Inception.ofRecords_entries {m : Inception} (h : m.Sized) :
    Inception.ofRecords (m.entries.map Entry.raw) = some m := by
  obtain ⟨kind, nonce, root⟩ := m
  obtain ⟨_, ⟨n, hn, hlt⟩, r, hr, hsized⟩ := h
  simp only at hn hr
  subst hn hr
  have hroot : oneofOf rootTags Root.ofRecords
      ((Inception.entries ⟨n, nonce, some r⟩).map Entry.raw) = some (some r) := by
    refine oneofOf_append_messageField ?_ r.tag_mem
      (decodeRecords_putEntries hsized) r.ofRecords_entries
    intro e he
    rcases List.mem_append.mp he with he | he
    · simp [number_uintField he, rootTags]
    · simp [number_bytesField he, rootTags]
  simp only [Inception.ofRecords, hroot,
    uintOf_of_select (show select 1 (Inception.entries ⟨n, nonce, some r⟩) =
      uintField 1 n by simp [Inception.entries, varintOfInt32_natCast hlt]),
    bytesOf_of_select (show select 2 (Inception.entries ⟨n, nonce, some r⟩) =
      bytesField 2 nonce by simp [Inception.entries])]
  simp [int32OfVarint_natCast hlt]

/-- An invitation reads back from its own entries. -/
theorem MembershipInvitation.ofRecords_entries {m : MembershipInvitation} (h : m.Sized) :
    MembershipInvitation.ofRecords (m.entries.map Entry.raw) = some m := by
  obtain ⟨invitee, key, role, inception⟩ := m
  obtain ⟨_, n, hn, hlt⟩ := h
  simp only at hn
  subst hn
  simp only [MembershipInvitation.ofRecords,
    bytesOf_of_select (show select 1 (MembershipInvitation.entries ⟨invitee, key, n, inception⟩) =
      bytesField 1 invitee by simp [MembershipInvitation.entries]),
    bytesOf_of_select (show select 2 (MembershipInvitation.entries ⟨invitee, key, n, inception⟩) =
      bytesField 2 key by simp [MembershipInvitation.entries]),
    uintOf_of_select (show select 3 (MembershipInvitation.entries ⟨invitee, key, n, inception⟩) =
      uintField 3 n by simp [MembershipInvitation.entries, varintOfInt32_natCast hlt]),
    bytesOf_of_select (show select 4 (MembershipInvitation.entries ⟨invitee, key, n, inception⟩) =
      bytesField 4 inception by simp [MembershipInvitation.entries])]
  simp [int32OfVarint_natCast hlt]

/-- Every payload reads back from its own canonical records. -/
theorem Payload.ofRecords_entries {p : Payload} (h : p.Sized) :
    Payload.ofRecords p.tag (p.entries.map Entry.raw) = some p := by
  cases p with
  | inception m => simp [Payload.tag, Payload.entries, Payload.ofRecords,
      Inception.ofRecords_entries h]
  | membershipInvitation m => simp [Payload.tag, Payload.entries, Payload.ofRecords,
      MembershipInvitation.ofRecords_entries h]
  | witnessConfig m => simp [Payload.tag, Payload.entries, Payload.ofRecords,
      WitnessConfig.ofRecords, WitnessConfig.entries]
  | endpointAdvertisement m => simp [Payload.tag, Payload.entries, Payload.ofRecords,
      EndpointAdvertisement.ofRecords, EndpointAdvertisement.entries]
  | witnessSet m => simp [Payload.tag, Payload.entries, Payload.ofRecords,
      WitnessSet.ofRecords, WitnessSet.entries]
  | trustAttestation m => simp [Payload.tag, Payload.entries, Payload.ofRecords,
      TrustAttestation.ofRecords, TrustAttestation.entries]
  | trustRevocation m => simp [Payload.tag, Payload.entries, Payload.ofRecords,
      TrustRevocation.ofRecords, TrustRevocation.entries]
  | membershipRemoval m => simp [Payload.tag, Payload.entries, Payload.ofRecords,
      MembershipRemoval.ofRecords, MembershipRemoval.entries]
  | membershipAcceptance m => simp [Payload.tag, Payload.entries, Payload.ofRecords,
      MembershipAcceptance.ofRecords,
      bytesOf_of_select (show select 1 m.entries = bytesField 1 m.acceptance by
        simp [MembershipAcceptance.entries]),
      bytesOf_of_select (show select 2 m.entries = bytesField 2 m.signature by
        simp [MembershipAcceptance.entries])]
  | profileUpdate m => simp [Payload.tag, Payload.entries, Payload.ofRecords,
      ProfileUpdate.ofRecords,
      stringOf_of_select (show select 1 m.entries = bytesField 1 (utf8 m.displayName) by
        simp [ProfileUpdate.entries]),
      stringOf_of_select (show select 2 m.entries = bytesField 2 (utf8 m.hostname) by
        simp [ProfileUpdate.entries]),
      stringOf_of_select (show select 3 m.entries = bytesField 3 (utf8 m.email) by
        simp [ProfileUpdate.entries])]

/-- A canonical root message decodes to itself under its tag. -/
theorem Root.decode_encode {r : Root} (h : r.Sized) : Root.decode r.tag r.encode = some r := by
  rw [Root.decode, Root.encode, decodeRecords_putEntries h]
  exact r.ofRecords_entries

/-- A canonical payload message decodes to itself under its tag. -/
theorem Payload.decode_encode {p : Payload} (h : p.Sized) :
    Payload.decode p.tag p.encode = some p := by
  rw [Payload.decode, Payload.encode, decodeRecords_putEntries h.fits]
  exact Payload.ofRecords_entries h

/-- A canonical event body decodes to itself. -/
theorem EventBody.decode_encode {m : EventBody} (h : m.Sized) :
    EventBody.decode m.encode = some m := by
  obtain ⟨hentries, hversion, p, hp, hsized⟩ := h
  have hpayload : oneofOf payloadTags Payload.ofRecords (m.entries.map Entry.raw) =
      some (some p) := by
    rw [EventBody.entries, hp]
    refine oneofOf_append_messageField ?_ p.tag_mem
      (decodeRecords_putEntries hsized.fits) (Payload.ofRecords_entries hsized)
    intro e he
    simp only [List.mem_append] at he
    have hlt : e.1 < 10 := by
      rcases he with ((((he | he) | he) | he) | he) | he
      all_goals
        first
          | rw [number_uintField he]
          | rw [number_bytesField he]
        decide
    simp only [payloadTags, List.mem_cons, List.not_mem_nil, or_false, not_or]
    omega
  rw [EventBody.decode, EventBody.encode, decodeRecords_putEntries hentries]
  simp only [Option.bind_eq_bind, Option.bind_some, EventBody.ofRecords, hpayload,
    uintOf_of_select (show select 1 m.entries = uintField 1 m.version by
      simp [EventBody.entries]),
    bytesOf_of_select (show select 2 m.entries = bytesField 2 m.ledger by
      simp [EventBody.entries]),
    uintOf_of_select (show select 3 m.entries = uintField 3 m.seq by simp [EventBody.entries]),
    bytesOf_of_select (show select 4 m.entries = bytesField 4 m.prev by
      simp [EventBody.entries]),
    uintOf_of_select (show select 5 m.entries = uintField 5 m.timestampMs by
      simp [EventBody.entries]),
    bytesOf_of_select (show select 6 m.entries = bytesField 6 m.authorKey by
      simp [EventBody.entries])]
  rw [Nat.mod_eq_of_lt hversion, ← hp]
  rfl

/-- A canonical signed event decodes to itself. -/
theorem SignedEvent.decode_encode {m : SignedEvent} (h : ∀ e ∈ m.entries, Fits e) :
    SignedEvent.decode m.encode = some m := by
  rw [SignedEvent.decode, SignedEvent.encode, decodeRecords_putEntries h]
  simp only [Option.bind_some, SignedEvent.ofRecords,
    bytesOf_of_select (show select 1 m.entries = bytesField 1 m.body by
      simp [SignedEvent.entries]),
    bytesOf_of_select (show select 2 m.entries = bytesField 2 m.signature by
      simp [SignedEvent.entries])]
  rfl

/-- A canonical acceptance blob decodes to itself. -/
theorem Acceptance.decode_encode {m : Acceptance} (h : ∀ e ∈ m.entries, Fits e)
    (hversion : m.version < 2 ^ 32) : Acceptance.decode m.encode = some m := by
  rw [Acceptance.decode, Acceptance.encode, decodeRecords_putEntries h]
  simp only [Option.bind_eq_bind, Option.bind_some, Acceptance.ofRecords,
    uintOf_of_select (show select 1 m.entries = uintField 1 m.version by
      simp [Acceptance.entries]),
    bytesOf_of_select (show select 2 m.entries = bytesField 2 m.ledger by
      simp [Acceptance.entries]),
    bytesOf_of_select (show select 3 m.entries = bytesField 3 m.invitationEvent by
      simp [Acceptance.entries]),
    bytesOf_of_select (show select 4 m.entries = bytesField 4 m.invitee by
      simp [Acceptance.entries]),
    bytesOf_of_select (show select 5 m.entries = bytesField 5 m.inviteeKey by
      simp [Acceptance.entries])]
  rw [Nat.mod_eq_of_lt hversion]
  rfl

end Mabel.Proto
