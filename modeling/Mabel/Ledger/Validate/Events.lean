import Mabel.Ledger.Validate.Views

/-!
# The events the validator accepts

The messages with a `oneof`: an inception with its root, an event body with its payload,
and the signed event around it. A body's payload, chain fields and author key are tied
together by one rule, stated here on the message.
-/

namespace Mabel.Proto

open Wire Validate

/-! ## Roots and inceptions -/

/-- The descriptor of a root variant. -/
def Root.descriptor : Root → MessageDescriptor
  | .rawRoot _ => Descriptor.rawRoot
  | .identityRoot _ => Descriptor.identityRoot

/-- The field name of a root variant. -/
def Root.name : Root → String
  | .rawRoot _ => "raw_root"
  | .identityRoot _ => "identity_root"

/-- The field of a root variant. -/
def Root.field (r : Root) : Field := variant r.tag r.name r.descriptor

/-- The key that signs seq 0 under a root. -/
def Root.signingKey : Root → Bytes
  | .rawRoot m => m.activeKey
  | .identityRoot m => m.founderKey

/-- The rules of a root variant at a depth. -/
def Root.Valid (C : Crypto) (k : Nat) : Root → Prop
  | .rawRoot m => m.Valid
  | .identityRoot m => m.Valid C k

/-- An inception names a kind, carries a nonce and holds one root. -/
structure Inception.Valid (C : Crypto) (k : Nat) (m : Inception) : Prop where
  kind : ∃ n : Nat, m.kind = n ∧ 1 ≤ n ∧ n ≤ 4
  nonce : m.nonce.length = nonceBytes
  depth : k + 1 ≤ maxNesting
  root : ∃ r : Root, m.root = some r ∧ r.Valid C (k + 1)

/-! ## Payloads -/

/-- The descriptor of a payload variant. -/
def Payload.descriptor : Payload → MessageDescriptor
  | .inception _ => Descriptor.inception
  | .witnessConfig _ => Descriptor.witnessConfig
  | .trustAttestation _ => Descriptor.trustAttestation
  | .trustRevocation _ => Descriptor.trustRevocation
  | .membershipInvitation _ => Descriptor.membershipInvitation
  | .membershipAcceptance _ => Descriptor.membershipAcceptance
  | .membershipRemoval _ => Descriptor.membershipRemoval
  | .profileUpdate _ => Descriptor.profileUpdate
  | .endpointAdvertisement _ => Descriptor.endpointAdvertisement
  | .witnessSet _ => Descriptor.witnessSet

/-- The field name of a payload variant. -/
def Payload.name : Payload → String
  | .inception _ => "inception"
  | .witnessConfig _ => "witness_config"
  | .trustAttestation _ => "trust_attestation"
  | .trustRevocation _ => "trust_revocation"
  | .membershipInvitation _ => "membership_invitation"
  | .membershipAcceptance _ => "membership_acceptance"
  | .membershipRemoval _ => "membership_removal"
  | .profileUpdate _ => "profile_update"
  | .endpointAdvertisement _ => "endpoint_advertisement"
  | .witnessSet _ => "witness_set"

/-- The field of a payload variant. -/
def Payload.field (p : Payload) : Field := variant p.tag p.name p.descriptor

/-- The rules of a payload variant at a depth. -/
def Payload.Valid (C : Crypto) (k : Nat) : Payload → Prop
  | .inception m => m.Valid C k
  | .witnessConfig m => IdsOk 1 maxWitnesses m.witnesses
  | .trustAttestation m => m.subject.length = idBytes
  | .trustRevocation m => m.target.length = idBytes
  | .membershipInvitation m => m.Valid C k
  | .membershipAcceptance m => m.Valid C k
  | .membershipRemoval m => m.target.length = idBytes
  | .profileUpdate m => m.Valid
  | .endpointAdvertisement m => IdsOk 0 maxEndpoints m.endpoints
  | .witnessSet m => IdsOk 0 maxWitnesses m.witnesses

/-- What ties a payload to the chain fields and the author key beside it. -/
def EventBody.Rule (m : EventBody) : Payload → Prop
  | .inception i => m.seq = 0 ∧ ∃ r, i.root = some r ∧ r.signingKey = m.authorKey
  | .trustAttestation a => m.seq ≠ 0 ∧ a.subject ≠ m.ledger
  | .membershipInvitation i => m.seq ≠ 0 ∧ i.invitee ≠ m.ledger
  | _ => m.seq ≠ 0

/-- An event body links into its chain, names its author and holds one payload. -/
structure EventBody.Valid (C : Crypto) (k : Nat) (m : EventBody) : Prop where
  version : m.version = 0
  seq : m.seq ≤ u64Max
  ledger : if m.seq = 0 then m.ledger = [] else m.ledger.length = idBytes
  prev : if m.seq = 0 then m.prev = [] else m.prev.length = idBytes
  timestamp : 1 ≤ m.timestampMs ∧ m.timestampMs ≤ maxTimestampMs
  authorKey : m.authorKey.length = idBytes
  depth : k + 1 ≤ maxNesting
  payload : ∃ p, m.payload = some p ∧ p.Valid C (k + 1) ∧ m.Rule p

/-- A signed event carries a body and a signature. -/
structure SignedEvent.Valid (C : Crypto) (k : Nat) (m : SignedEvent) : Prop where
  signature : m.signature.length = sigBytes
  depth : k + 1 ≤ maxNesting
  body : ∃ b : EventBody, b.Valid C (k + 1) ∧ m.body = b.encode

end Mabel.Proto

namespace Mabel.Validate

open Wire Proto

variable {C : Crypto} {k : Nat} {es : List Entry}

/-! ## Inceptions -/

/-- The variants of `oneof root`. -/
def rootFields : List Field :=
  [variant rawRootTag "raw_root" Descriptor.rawRoot,
    variant identityRootTag "identity_root" Descriptor.identityRoot]

theorem root_field_mem (r : Root) : r.field ∈ rootFields := by
  cases r <;> simp [Root.field, rootFields, Root.tag, Root.name, Root.descriptor, rawRootTag,
    identityRootTag]

/-- The inception's plain fields and its variants. -/
theorem split_inception : Descriptor.inception.OneofSplit
    [required 1 "kind" Kinds.declaredKind, required 2 "nonce" Kinds.nonce] rootFields where
  fields := rfl
  plain := by decide
  variants := by decide

/-- Every root's descriptor is well formed. -/
theorem root_wellFormed (r : Root) : r.descriptor.WellFormed := by
  cases r
  · exact wellFormed_rawRoot
  · exact wellFormed_identityRoot

/-- A valid root is admitted under its own descriptor. -/
theorem admits_root {r : Root} (h : r.Valid C k) : Admits C r.descriptor k r.entries := by
  cases r with
  | rawRoot m => exact admits_rawRoot.mpr ⟨m, h, rfl⟩
  | identityRoot m => exact admits_identityRoot.mpr ⟨m, h, rfl⟩

/-- What an accepted root variant holds. -/
theorem root_of_value {message : String} {f : Field} (hf : f ∈ rootFields) {body : Bytes}
    (h : ValueOk (validate C) message k f (.bytes body)) :
    k + 1 ≤ maxNesting ∧ ∃ r : Root, f = r.field ∧ r.Valid C (k + 1) ∧ body = r.encode := by
  rcases List.mem_cons.mp hf with rfl | hf
  · simp only [valueOk_message, accepts_iff wellFormed_rawRoot, admits_rawRoot] at h
    obtain ⟨_, hbody, -, -, hk, _, rfl, m, hm, rfl⟩ := h
    exact ⟨hk, .rawRoot m, rfl, hm, Value.bytes.inj hbody⟩
  · obtain rfl := List.mem_singleton.mp hf
    simp only [valueOk_message, accepts_iff wellFormed_identityRoot, admits_identityRoot] at h
    obtain ⟨_, hbody, -, -, hk, _, rfl, m, hm, rfl⟩ := h
    exact ⟨hk, .identityRoot m, rfl, hm, Value.bytes.inj hbody⟩

/-- A valid root's encoding is an admitted value of its field. -/
theorem value_of_root {message : String} {r : Root} (h : r.Valid C (k + 1))
    (hk : k + 1 ≤ maxNesting) (hlen : r.encode.length ≤ maxEventBytes) :
    ValueOk (validate C) message k r.field (.bytes r.encode) := by
  have hmax : r.descriptor.maxBytes = maxEventBytes := by cases r <;> rfl
  have hbound : maxEventBytes < 2 ^ 64 := by decide
  simp only [Root.field, valueOk_message, accepts_iff (root_wellFormed r)]
  exact ⟨_, rfl, by omega, hmax ▸ hlen, hk, _, rfl, admits_root h⟩

/-- An inception is admitted exactly as a valid message's entries. -/
theorem admits_inception (hlen : (putEntries es).length ≤ maxEventBytes) :
    Admits C Descriptor.inception k es ↔ ∃ m : Inception, m.Valid C k ∧ es = m.entries := by
  have hkinds : ∀ e ∈ [EnumValue.mk 1 "PERSON", ⟨2, "ORGANIZATION"⟩, ⟨3, "AGENT"⟩,
      ⟨4, "SERVICE"⟩], 0 < e.number ∧ e.number < 2 ^ 31 := by decide
  have hnonce : 0 < nonceBytes ∧ nonceBytes < 2 ^ 64 := by decide
  constructor
  · intro h
    obtain ⟨f, hf, body, hes, hvalue⟩ := h.toTabled.split split_inception rfl
    obtain ⟨hk, r, rfl, hr, rfl⟩ := root_of_value hf hvalue
    have hfields := h.fields
    simp only [Descriptor.inception, Kinds.declaredKind, Kinds.nonce, List.forall_mem_cons,
      required_number, row_enum hkinds, row_exact hnonce.1 hnonce.2] at hfields
    obtain ⟨⟨n, hn, h1⟩, ⟨x, hx, h2⟩, -⟩ := hfields
    have hkind : 1 ≤ n ∧ n ≤ 4 := by
      simp only [List.map_cons, List.map_nil, List.mem_cons, List.not_mem_nil, or_false] at hn
      omega
    refine ⟨⟨n, x, some r⟩, ⟨⟨n, rfl, hkind⟩, hx, hk, r, rfl, hr⟩, ?_⟩
    rw [hes]
    simp [h1, h2, Inception.entries, rootField, varintOfInt32_natCast (show n < 2 ^ 31 by omega)]
    rfl
  · rintro ⟨⟨kind, nonce, root⟩, ⟨⟨n, rfl, hn⟩, hx, hk, r, rfl, hr⟩, rfl⟩
    have hentries : Inception.entries ⟨n, nonce, some r⟩ =
        (uintField 1 n ++ bytesField 2 nonce) ++ messageField r.field.number r.encode := by
      simp only [Inception.entries, varintOfInt32_natCast (show n < 2 ^ 31 by omega), rootField]
      rfl
    rw [hentries] at hlen ⊢
    have hroot : r.encode.length ≤ maxEventBytes :=
      (length_lt_of_mem _ r.field.number
        (List.mem_append_right _ (List.mem_singleton_self _))).le.trans hlen
    have h1 : select 1 (uintField 1 n ++ bytesField 2 nonce) = uintField 1 n := by simp
    have h2 : select 2 (uintField 1 n ++ bytesField 2 nonce) = bytesField 2 nonce := by simp
    obtain ⟨hslots, hok, hone⟩ := slots_of_variant (R := validate C) (k := k) "Inception"
      wellFormed_inception split_inception (uintField 1 n ++ bytesField 2 nonce)
      (by simp) (by
        simp only [Kinds.declaredKind, Kinds.nonce, List.forall_mem_cons, required_number,
          row_enum hkinds, row_exact hnonce.1 hnonce.2]
        refine ⟨⟨n, ?_, h1⟩, ⟨nonce, hx, h2⟩, by simp⟩
        simp only [List.map_cons, List.map_nil, List.mem_cons, List.not_mem_nil, or_false]
        omega)
      (root_field_mem r) (value_of_root hr hk hroot)
    exact ⟨⟨hslots, hok, fun _ => hone⟩, rfl⟩

/-! ## Payloads -/

/-- The variants of `oneof payload`. -/
def payloadFields : List Field := Descriptor.eventBody.fields.drop 6

/-- A payload's field is one of the body's. -/
theorem payload_field_mem (p : Payload) : p.field ∈ payloadFields := by
  cases p <;> simp [Payload.field, payloadFields, Descriptor.eventBody, Payload.tag, Payload.name,
    Payload.descriptor, inceptionTag, trustAttestationTag, membershipInvitationTag,
    profileUpdateTag]

/-- Every payload's descriptor is well formed. -/
theorem payload_wellFormed (p : Payload) : p.descriptor.WellFormed := by
  cases p with
  | inception m => exact wellFormed_inception
  | witnessConfig m => exact wellFormed_witnessConfig
  | trustAttestation m => exact wellFormed_trustAttestation
  | trustRevocation m => exact wellFormed_trustRevocation
  | membershipInvitation m => exact wellFormed_membershipInvitation
  | membershipAcceptance m => exact wellFormed_membershipAcceptance
  | membershipRemoval m => exact wellFormed_membershipRemoval
  | profileUpdate m => exact wellFormed_profileUpdate
  | endpointAdvertisement m => exact wellFormed_endpointAdvertisement
  | witnessSet m => exact wellFormed_witnessSet

/-- A valid payload is admitted under its own descriptor. -/
theorem admits_payload {p : Payload} (h : p.Valid C k) (hlen : p.encode.length ≤ maxEventBytes) :
    Admits C p.descriptor k p.entries := by
  cases p with
  | inception m => exact (admits_inception hlen).mpr ⟨m, h, rfl⟩
  | witnessConfig m => exact (admits_ids rfl rfl rfl).mpr ⟨m.witnesses, h, rfl⟩
  | trustAttestation m => exact (admits_single rfl rfl rfl).mpr ⟨m.subject, h, rfl⟩
  | trustRevocation m => exact (admits_single rfl rfl rfl).mpr ⟨m.target, h, rfl⟩
  | membershipInvitation m => exact admits_membershipInvitation.mpr ⟨m, h, rfl⟩
  | membershipAcceptance m => exact admits_membershipAcceptance.mpr ⟨m, h, rfl⟩
  | membershipRemoval m => exact (admits_single rfl rfl rfl).mpr ⟨m.target, h, rfl⟩
  | profileUpdate m => exact admits_profileUpdate.mpr ⟨m, h, rfl⟩
  | endpointAdvertisement m => exact (admits_ids rfl rfl rfl).mpr ⟨m.endpoints, h, rfl⟩
  | witnessSet m => exact (admits_ids rfl rfl rfl).mpr ⟨m.witnesses, h, rfl⟩

/-- A descriptor is admitted by payloads of one variant only. -/
private def Reads (C : Crypto) (k : Nat) (f : Field) : Prop :=
  ∃ n name d, f = variant n name d ∧ d.WellFormed ∧ d.maxBytes = maxEventBytes ∧
    ∀ es, (putEntries es).length ≤ maxEventBytes → Admits C d k es →
      ∃ p : Payload, f = p.field ∧ p.Valid C k ∧ es = p.entries

/-- Every payload field is read as the message it declares. -/
private theorem reads_payload {f : Field} (hf : f ∈ payloadFields) : Reads C k f := by
  simp only [payloadFields, Descriptor.eventBody, List.drop_succ_cons, List.drop_zero,
    List.mem_cons, List.not_mem_nil, or_false] at hf
  rcases hf with rfl | rfl | rfl | rfl | rfl | rfl | rfl | rfl | rfl | rfl
  · refine ⟨_, _, _, rfl, wellFormed_inception, rfl, fun es hlen h => ?_⟩
    obtain ⟨m, hm, rfl⟩ := (admits_inception hlen).mp h
    exact ⟨.inception m, rfl, hm, rfl⟩
  · refine ⟨_, _, _, rfl, wellFormed_witnessConfig, rfl, fun es _ h => ?_⟩
    obtain ⟨xs, hxs, rfl⟩ := (admits_ids rfl rfl rfl).mp h
    exact ⟨.witnessConfig ⟨xs⟩, rfl, hxs, rfl⟩
  · refine ⟨_, _, _, rfl, wellFormed_trustAttestation, rfl, fun es _ h => ?_⟩
    obtain ⟨x, hx, rfl⟩ := (admits_single rfl rfl rfl).mp h
    exact ⟨.trustAttestation ⟨x⟩, rfl, hx, rfl⟩
  · refine ⟨_, _, _, rfl, wellFormed_trustRevocation, rfl, fun es _ h => ?_⟩
    obtain ⟨x, hx, rfl⟩ := (admits_single rfl rfl rfl).mp h
    exact ⟨.trustRevocation ⟨x⟩, rfl, hx, rfl⟩
  · refine ⟨_, _, _, rfl, wellFormed_membershipInvitation, rfl, fun es _ h => ?_⟩
    obtain ⟨m, hm, rfl⟩ := admits_membershipInvitation.mp h
    exact ⟨.membershipInvitation m, rfl, hm, rfl⟩
  · refine ⟨_, _, _, rfl, wellFormed_membershipAcceptance, rfl, fun es _ h => ?_⟩
    obtain ⟨m, hm, rfl⟩ := admits_membershipAcceptance.mp h
    exact ⟨.membershipAcceptance m, rfl, hm, rfl⟩
  · refine ⟨_, _, _, rfl, wellFormed_membershipRemoval, rfl, fun es _ h => ?_⟩
    obtain ⟨x, hx, rfl⟩ := (admits_single rfl rfl rfl).mp h
    exact ⟨.membershipRemoval ⟨x⟩, rfl, hx, rfl⟩
  · refine ⟨_, _, _, rfl, wellFormed_profileUpdate, rfl, fun es _ h => ?_⟩
    obtain ⟨m, hm, rfl⟩ := admits_profileUpdate.mp h
    exact ⟨.profileUpdate m, rfl, hm, rfl⟩
  · refine ⟨_, _, _, rfl, wellFormed_endpointAdvertisement, rfl, fun es _ h => ?_⟩
    obtain ⟨xs, hxs, rfl⟩ := (admits_ids rfl rfl rfl).mp h
    exact ⟨.endpointAdvertisement ⟨xs⟩, rfl, hxs, rfl⟩
  · refine ⟨_, _, _, rfl, wellFormed_witnessSet, rfl, fun es _ h => ?_⟩
    obtain ⟨xs, hxs, rfl⟩ := (admits_ids rfl rfl rfl).mp h
    exact ⟨.witnessSet ⟨xs⟩, rfl, hxs, rfl⟩

/-- What an accepted payload variant holds. -/
theorem payload_of_value {message : String} {f : Field} (hf : f ∈ payloadFields) {body : Bytes}
    (h : ValueOk (validate C) message k f (.bytes body)) :
    k + 1 ≤ maxNesting ∧
      ∃ p : Payload, f = p.field ∧ p.Valid C (k + 1) ∧ body = p.encode := by
  obtain ⟨n, name, d, rfl, hd, hmax, hread⟩ := reads_payload (C := C) (k := k + 1) hf
  simp only [valueOk_message, accepts_iff hd] at h
  obtain ⟨_, hbody, -, hlen, hk, es, rfl, hes⟩ := h
  obtain ⟨p, hp, hvalid, rfl⟩ := hread es (hmax ▸ hlen) hes
  exact ⟨hk, p, hp, hvalid, Value.bytes.inj hbody⟩

/-- A valid payload's encoding is an admitted value of its field. -/
theorem value_of_payload {message : String} {p : Payload} (h : p.Valid C (k + 1))
    (hk : k + 1 ≤ maxNesting) (hlen : p.encode.length ≤ maxEventBytes) :
    ValueOk (validate C) message k p.field (.bytes p.encode) := by
  have hmax : p.descriptor.maxBytes = maxEventBytes := by cases p <;> rfl
  have hbound : maxEventBytes < 2 ^ 64 := by decide
  simp only [Payload.field, valueOk_message, accepts_iff (payload_wellFormed p)]
  exact ⟨_, rfl, by omega, hmax ▸ hlen, hk, _, rfl, admits_payload h hlen⟩

/-! ## Event bodies -/

/-- The singular fields of an event body. -/
def bodyFields : List Field := Descriptor.eventBody.fields.take 6

/-- The event body's plain fields and its variants. -/
theorem split_eventBody : Descriptor.eventBody.OneofSplit bodyFields payloadFields where
  fields := rfl
  plain := by decide
  variants := by decide

/-- The records of a body's singular fields. -/
def bodyFront (m : EventBody) : List Entry :=
  uintField 1 m.version ++ bytesField 2 m.ledger ++ uintField 3 m.seq ++ bytesField 4 m.prev ++
    uintField 5 m.timestampMs ++ bytesField 6 m.authorKey

/-- A body is written as its front and its payload. -/
theorem body_entries {m : EventBody} {p : Payload} (hp : m.payload = some p) :
    m.entries = bodyFront m ++ messageField p.field.number p.encode := by
  rw [EventBody.entries, hp]
  rfl

/-- The front writes plain fields only. -/
theorem bodyFront_listed {m : EventBody} :
    ∀ e ∈ bodyFront m, ∃ g ∈ bodyFields, e.1 = g.number := by
  have hnum : ∀ n ∈ [1, 2, 3, 4, 5, 6], ∃ g ∈ bodyFields, n = g.number := by decide
  intro e he
  simp only [bodyFront, List.mem_append] at he
  rcases he with ((((he | he) | he) | he) | he) | he
  · rw [number_uintField he]
    exact hnum 1 (by decide)
  · rw [number_bytesField he]
    exact hnum 2 (by decide)
  · rw [number_uintField he]
    exact hnum 3 (by decide)
  · rw [number_bytesField he]
    exact hnum 4 (by decide)
  · rw [number_uintField he]
    exact hnum 5 (by decide)
  · rw [number_bytesField he]
    exact hnum 6 (by decide)

section BodyLookups

variable {d : MessageDescriptor} {m : EventBody}

theorem body_ledger :
    (Scanned.mk d k m.entries).bytes 2 = if m.ledger = [] then none else some m.ledger :=
  bytes_of_select (by simp [EventBody.entries])

theorem body_seq :
    (Scanned.mk d k m.entries).varint 3 = if m.seq = 0 then none else some m.seq :=
  varint_of_select (by simp [EventBody.entries])

theorem body_prev :
    (Scanned.mk d k m.entries).bytes 4 = if m.prev = [] then none else some m.prev :=
  bytes_of_select (by simp [EventBody.entries])

theorem body_authorKey (h : m.authorKey.length = idBytes) :
    (Scanned.mk d k m.entries).bytes 6 = some m.authorKey :=
  bytes_some (by simp [EventBody.entries]) (ne_nil_of_id h)

/-- The payload a written body reads back. -/
theorem body_oneof {p : Payload} (hp : m.payload = some p) :
    (Scanned.mk Descriptor.eventBody k m.entries).oneof = some (p.tag, p.encode) := by
  rw [body_entries hp]
  exact oneof_append wellFormed_eventBody split_eventBody bodyFront_listed (payload_field_mem p)

end BodyLookups

/-- The root a written inception reads back. -/
theorem inception_oneof {m : Inception} {r : Root} (hr : m.root = some r) :
    (Scanned.mk Descriptor.inception k m.entries).oneof = some (r.tag, r.encode) := by
  rw [Inception.entries, hr]
  refine oneof_append wellFormed_inception split_inception ?_ (root_field_mem r)
  intro e he
  rcases List.mem_append.mp he with he | he
  · exact ⟨_, List.mem_cons_self .., number_uintField he⟩
  · exact ⟨_, List.mem_cons_of_mem _ (List.mem_cons_self ..), number_bytesField he⟩

/-- The chain-field rule: both links are absent at seq 0 and present past it. -/
theorem checkChainFields_iff {d : MessageDescriptor} {m : EventBody} {u : Unit} :
    checkChainFields ⟨d, k, m.entries⟩ = .ok u ↔ (m.ledger = [] ↔ m.seq = 0) ∧
      (m.prev = [] ↔ m.seq = 0) := by
  simp only [checkChainFields, body_seq, body_ledger, body_prev]
  by_cases hseq : m.seq = 0
  · simp only [hseq, if_true, Option.isNone_none, Outcome.forM_eq_ok, List.forall_mem_cons,
      Outcome.rejectIf_eq_ok]
    split_ifs <;> simp_all
  · simp only [hseq, if_false, Option.isNone_some, Bool.false_eq_true, Outcome.forM_eq_ok,
      List.forall_mem_cons, Outcome.rejectIf_eq_ok]
    split_ifs <;> simp_all

/-- The root-key rule, on a valid inception. -/
theorem checkRootKey_iff {m : Inception} (hm : m.Valid C (k + 1)) (hk : k + 1 ≤ maxNesting)
    (hlen : (putEntries m.entries).length ≤ maxEventBytes) {d : MessageDescriptor}
    (es : List Entry) (authorKey : Bytes) {u : Unit} :
    checkRootKey (validate C) ⟨d, k, es⟩ (putEntries m.entries) authorKey = .ok u ↔
      ∃ r, m.root = some r ∧ r.signingKey = authorKey := by
  obtain ⟨r, hr, hvalid⟩ := hm.root
  have hscan : scan (validate C) Descriptor.inception (putEntries m.entries) (k + 1) =
      .ok ⟨Descriptor.inception, k + 1, m.entries⟩ :=
    scan_of_admits wellFormed_inception hk ((admits_inception hlen).mpr ⟨m, hm, rfl⟩)
  have hroot : scan (validate C) r.descriptor r.encode (k + 1 + 1) =
      .ok ⟨r.descriptor, k + 1 + 1, r.entries⟩ :=
    scan_of_admits (root_wellFormed r) hm.depth (admits_root hvalid)
  simp only [checkRootKey, Scanned.subfields, hscan, Outcome.ok_bind, inception_oneof hr,
    Outcome.expect_some]
  cases r with
  | rawRoot raw =>
    have hbytes : (Scanned.mk Descriptor.rawRoot (k + 1 + 1) raw.entries).bytes 1 =
        some raw.activeKey :=
      bytes_some (by simp [RawRoot.entries]) (ne_nil_of_id hvalid.activeKey)
    have hread : scan (validate C) Descriptor.rawRoot (Root.rawRoot raw).encode (k + 1 + 1) =
        .ok ⟨Descriptor.rawRoot, k + 1 + 1, raw.entries⟩ := hroot
    simp only [Root.tag, rawRootTag, if_true]
    rw [hread, Outcome.ok_bind, Outcome.rejectIf_eq_ok, hbytes]
    simp [hr, Root.signingKey]
  | identityRoot root =>
    have hbytes : (Scanned.mk Descriptor.identityRoot (k + 1 + 1) root.entries).bytes 2 =
        some root.founderKey :=
      bytes_some (by simp [IdentityRoot.entries]) (ne_nil_of_id hvalid.keyLength)
    have hread : scan (validate C) Descriptor.identityRoot (Root.identityRoot root).encode
        (k + 1 + 1) = .ok ⟨Descriptor.identityRoot, k + 1 + 1, root.entries⟩ := hroot
    simp only [Root.tag, rawRootTag, show ¬ (11 = 10) by decide, if_false]
    rw [hread, Outcome.ok_bind, Outcome.rejectIf_eq_ok, hbytes]
    simp [hr, Root.signingKey]

/-- The rule that a payload's subject is not the ledger, on a payload of one first field. -/
theorem checkNotLedger_iff (name : String) {m : EventBody} {p : Payload} (hvalid : p.Valid C (k + 1))
    (hk : k + 1 ≤ maxNesting) (hlen : p.encode.length ≤ maxEventBytes) {x : Bytes}
    (hx : select 1 p.entries = bytesField 1 x) (hxl : x.length = idBytes)
    {d : MessageDescriptor} {u : Unit} :
    checkNotLedger (validate C) ⟨d, k, m.entries⟩ p.descriptor p.encode name = .ok u ↔
      x ≠ m.ledger := by
  have hscan : scan (validate C) p.descriptor p.encode (k + 1) =
      .ok ⟨p.descriptor, k + 1, p.entries⟩ :=
    scan_of_admits (payload_wellFormed p) hk (admits_payload hvalid hlen)
  have hbytes : (Scanned.mk p.descriptor (k + 1) p.entries).bytes 1 = some x :=
    bytes_some hx (ne_nil_of_id hxl)
  rw [checkNotLedger, Scanned.subfields, hscan, Outcome.ok_bind, Outcome.rejectIf_eq_ok,
    body_ledger, hbytes]
  have hne := ne_nil_of_id hxl
  by_cases hledger : m.ledger = []
  · simp [hledger, hne]
  · simp [hledger]

/-- The cross-field rule of a body, on its fields. -/
theorem checkEventBody_iff {m : EventBody} {p : Payload} (hp : m.payload = some p)
    (hvalid : p.Valid C (k + 1)) (hk : k + 1 ≤ maxNesting)
    (hlen : p.encode.length ≤ maxEventBytes) (hauthor : m.authorKey.length = idBytes)
    {u : Unit} :
    checkEventBody (validate C) ⟨Descriptor.eventBody, k, m.entries⟩ = .ok u ↔
      (m.ledger = [] ↔ m.seq = 0) ∧ (m.prev = [] ↔ m.seq = 0) ∧ m.Rule p := by
  have hsome : ((Scanned.mk Descriptor.eventBody k m.entries).varint 3).isSome = true ↔
      m.seq ≠ 0 := by
    rw [body_seq]
    split_ifs with h <;> simp [h]
  have hnone : ((Scanned.mk Descriptor.eventBody k m.entries).varint 3).isNone = true ↔
      m.seq = 0 := by
    rw [body_seq]
    split_ifs with h <;> simp [h]
  simp only [checkEventBody, Outcome.bind_eq_ok, checkChainFields_iff, body_oneof hp,
    Outcome.expect_eq_ok, Option.some.injEq, body_authorKey hauthor, Outcome.rejectIf_eq_ok, hsome, hnone, exists_const, and_assoc, exists_eq_left']
  refine and_congr_right fun _ => and_congr_right fun _ => ?_
  cases p with
  | inception i =>
    have hrule := checkRootKey_iff hvalid hk hlen m.entries m.authorKey (d := Descriptor.eventBody)
      (u := u)
    simp only [Payload.tag, inceptionTag, if_true, EventBody.Rule, ne_eq, not_true, false_and,
      not_false_eq_true, true_and, not_not]
    exact and_congr_right fun _ => hrule
  | trustAttestation a =>
    have hrule := checkNotLedger_iff "TrustAttestation.subject" (m := m)
      (d := Descriptor.eventBody) (u := u) hvalid hk hlen (x := a.subject)
      (by simp [Payload.entries, TrustAttestation.entries]) hvalid
    simp [Payload.tag, inceptionTag, trustAttestationTag, EventBody.Rule]
    exact fun _ => hrule
  | membershipInvitation i =>
    have hrule := checkNotLedger_iff "MembershipInvitation.invitee" (m := m)
      (d := Descriptor.eventBody) (u := u) hvalid hk hlen (x := i.invitee)
      (by simp [Payload.entries, MembershipInvitation.entries]) hvalid.embeds.idLength
    simp [Payload.tag, inceptionTag, trustAttestationTag, membershipInvitationTag,
      EventBody.Rule]
    exact fun _ => hrule
  | _ =>
    simp [Payload.tag, inceptionTag, trustAttestationTag, membershipInvitationTag,
      EventBody.Rule]

/-- What the table alone says of a body: its fields are sized and it holds one payload. -/
structure BodyTabled (C : Crypto) (k : Nat) (m : EventBody) (p : Payload) : Prop where
  version : m.version = 0
  ledger : m.ledger = [] ∨ m.ledger.length = idBytes
  seq : m.seq ≤ u64Max
  prev : m.prev = [] ∨ m.prev.length = idBytes
  timestamp : 1 ≤ m.timestampMs ∧ m.timestampMs ≤ maxTimestampMs
  authorKey : m.authorKey.length = idBytes
  depth : k + 1 ≤ maxNesting
  holds : m.payload = some p
  valid : p.Valid C (k + 1)

/-- A payload is shorter than the body that carries it. -/
theorem payload_encode_lt {b : EventBody} {p : Payload} (hp : b.payload = some p) :
    p.encode.length < b.encode.length := by
  refine length_lt_of_mem b.entries p.field.number ?_
  rw [body_entries hp]
  exact List.mem_append_right _ (List.mem_singleton_self _)

/-- The records a body's table keeps are those of a body, its cross-field rule apart. -/
theorem tabled_eventBody (h : Tabled C Descriptor.eventBody k es) :
    ∃ m p, BodyTabled C k m p ∧ es = m.entries := by
  have hseqMax : u64Max < 2 ^ 64 := by decide
  have htime : maxTimestampMs < 2 ^ 64 := by decide
  obtain ⟨f, hf, body, hes, hvalue⟩ := h.split split_eventBody rfl
  obtain ⟨hk, p, rfl, hp, rfl⟩ := payload_of_value hf hvalue
  have hfields : ∀ g ∈ bodyFields, FieldOk (validate C) "EventBody" k g (select g.number es) :=
    fun g hg => h.fields g (List.mem_of_mem_take hg)
  simp only [bodyFields, Descriptor.eventBody, List.take_succ_cons, List.take_zero,
    List.forall_mem_cons, required_number, optional_number, forbidden_number, row_forbidden,
    row_optional_id, row_optional_varint hseqMax, row_varint (show 0 < 1 by decide) htime,
    row_id] at hfields
  obtain ⟨h1, ⟨ledger, hledger, h2⟩, ⟨seq, hseq, h3⟩, ⟨prev, hprev, h4⟩, ⟨time, ht, h5⟩,
    ⟨author, hauthor, h6⟩, -⟩ := hfields
  refine ⟨⟨0, ledger, seq, prev, time, author, some p⟩, p,
    ⟨rfl, hledger, hseq, hprev, ht, hauthor, hk, rfl, hp⟩, ?_⟩
  rw [hes]
  simp [bodyFields, Descriptor.eventBody, h1, h2, h3, h4, h5, h6, EventBody.entries,
    payloadField]
  rfl

/-- An event body is admitted exactly as a valid message's entries. -/
theorem admits_eventBody (hlen : (putEntries es).length ≤ maxEventBytes) :
    Admits C Descriptor.eventBody k es ↔ ∃ m : EventBody, m.Valid C k ∧ es = m.entries := by
  have hseqMax : u64Max < 2 ^ 64 := by decide
  have htime : maxTimestampMs < 2 ^ 64 := by decide
  constructor
  · intro h
    obtain ⟨m, p, ht, rfl⟩ := tabled_eventBody h.toTabled
    obtain ⟨hl, hpv, hrule⟩ := (checkEventBody_iff ht.holds ht.valid ht.depth
      ((payload_encode_lt ht.holds).le.trans hlen) ht.authorKey).mp h.check
    refine ⟨m, ⟨ht.version, ht.seq, ?_, ?_, ht.timestamp, ht.authorKey, ht.depth, p, ht.holds,
      ht.valid, hrule⟩, rfl⟩
    · split_ifs with hz
      · exact hl.mpr hz
      · exact ht.ledger.resolve_left fun h => hz (hl.mp h)
    · split_ifs with hz
      · exact hpv.mpr hz
      · exact ht.prev.resolve_left fun h => hz (hpv.mp h)
  · rintro ⟨m, hm, rfl⟩
    obtain ⟨p, hp, hvalid, hrule⟩ := hm.payload
    have hplen := (payload_encode_lt hp).le.trans hlen
    have hledger : m.ledger = [] ∨ m.ledger.length = idBytes := by
      have := hm.ledger
      split_ifs at this <;> simp [this]
    have hprev : m.prev = [] ∨ m.prev.length = idBytes := by
      have := hm.prev
      split_ifs at this <;> simp [this]
    obtain ⟨hslots, hok, hone⟩ := slots_of_variant (R := validate C) (k := k) "EventBody"
      wellFormed_eventBody split_eventBody (bodyFront m)
      (by simp [bodyFields, Descriptor.eventBody, bodyFront]) (by
        simp only [bodyFields, Descriptor.eventBody, List.take_succ_cons, List.take_zero,
          List.forall_mem_cons, required_number, optional_number, forbidden_number,
          row_forbidden, row_optional_id, row_optional_varint hseqMax,
          row_varint (show 0 < 1 by decide) htime, row_id]
        refine ⟨by simp [bodyFront, hm.version], ⟨m.ledger, hledger, by simp [bodyFront]⟩,
          ⟨m.seq, hm.seq, by simp [bodyFront]⟩, ⟨m.prev, hprev, by simp [bodyFront]⟩,
          ⟨m.timestampMs, hm.timestamp, by simp [bodyFront]⟩,
          ⟨m.authorKey, hm.authorKey, by simp [bodyFront]⟩, by simp⟩)
      (payload_field_mem p) (value_of_payload hvalid hm.depth hplen)
    rw [← body_entries hp] at hslots hok hone
    refine ⟨⟨hslots, hok, fun _ => hone⟩, ?_⟩
    refine (checkEventBody_iff hp hvalid hm.depth hplen hm.authorKey).mpr ⟨?_, ?_, hrule⟩
    · have := hm.ledger
      split_ifs at this with hz
      · simp [this, hz]
      · simp [ne_nil_of_id this, hz]
    · have := hm.prev
      split_ifs at this with hz
      · simp [this, hz]
      · simp [ne_nil_of_id this, hz]

/-! ## Signed events -/

/-- A valid body is not empty. -/
theorem body_encode_ne_nil {b : EventBody} (h : b.Valid C k) : b.encode ≠ [] := by
  obtain ⟨p, hp, -, -⟩ := h.payload
  rw [EventBody.encode, body_entries hp, putEntries_append]
  simp [messageField]

/-- A signed event is admitted exactly as a valid message's entries. -/
theorem admits_signedEvent (hlen : (putEntries es).length ≤ maxEventBytes) :
    Admits C Descriptor.signedEvent k es ↔ ∃ m : SignedEvent, m.Valid C k ∧ es = m.entries := by
  have hmax : maxEventBytes < 2 ^ 64 := by decide
  have hsig : 0 < sigBytes ∧ sigBytes < 2 ^ 64 := by decide
  constructor
  · rintro ⟨⟨hslots, hfields, -⟩, -⟩
    simp only [Descriptor.signedEvent, Kinds.sig, List.forall_mem_cons, required_number,
      row_nested hmax, row_exact hsig.1 hsig.2, accepts_iff wellFormed_eventBody] at hfields
    obtain ⟨⟨x, hx, hsize, ⟨hmaxb, hk, fields, rfl, hadm⟩, h1⟩, ⟨s, hs, h2⟩, -⟩ := hfields
    obtain ⟨b, hb, rfl⟩ := (admits_eventBody hmaxb).mp hadm
    refine ⟨⟨b.encode, s⟩, ⟨hs, hk, b, hb, rfl⟩, ?_⟩
    rw [hslots]
    simp [Descriptor.signedEvent, h1, h2, SignedEvent.entries, EventBody.encode]
  · rintro ⟨⟨body, s⟩, ⟨hs, hk, b, hb, hbody⟩, rfl⟩
    simp only at hs hbody
    subst hbody
    have hne := body_encode_ne_nil hb
    have h1 : select 1 (SignedEvent.entries ⟨b.encode, s⟩) = bytesField 1 b.encode := by
      simp [SignedEvent.entries]
    have h2 : select 2 (SignedEvent.entries ⟨b.encode, s⟩) = bytesField 2 s := by
      simp [SignedEvent.entries]
    have hblen : b.encode.length ≤ maxEventBytes := by
      refine (length_lt_of_mem _ 1 ?_).le.trans hlen
      simp [SignedEvent.entries, bytesField_of_ne hne]
    refine ⟨⟨?_, ?_, by simp [Descriptor.signedEvent]⟩, rfl⟩
    · simp only [Slotted, Descriptor.signedEvent, List.flatMap_cons, List.flatMap_nil,
        required_number, h1, h2, List.append_nil]
      rfl
    · simp only [Descriptor.signedEvent, Kinds.sig, List.forall_mem_cons, required_number,
        row_nested hmax, row_exact hsig.1 hsig.2, accepts_iff wellFormed_eventBody]
      exact ⟨⟨b.encode, hne, hblen, ⟨hblen, hk, b.entries, rfl,
        (admits_eventBody hblen).mpr ⟨b, hb, rfl⟩⟩, h1⟩, ⟨s, hs, h2⟩, by simp⟩

/-- The validator accepts exactly the canonical encodings of valid signed events. -/
theorem validate_signedEvent {bytes : Bytes} {sc : Scanned} :
    validate C Descriptor.signedEvent bytes k = .ok sc ↔
      bytes.length ≤ maxEventBytes ∧ k ≤ maxNesting ∧ ∃ m : SignedEvent,
        m.Valid C k ∧ bytes = m.encode ∧ sc = ⟨Descriptor.signedEvent, k, m.entries⟩ := by
  rw [validate_iff wellFormed_signedEvent]
  constructor
  · rintro ⟨hlen, hk, es, rfl, rfl, hadm⟩
    obtain ⟨m, hm, rfl⟩ := (admits_signedEvent hlen).mp hadm
    exact ⟨hlen, hk, m, hm, rfl, rfl⟩
  · rintro ⟨hlen, hk, m, hm, rfl, rfl⟩
    exact ⟨hlen, hk, m.entries, rfl, rfl, (admits_signedEvent hlen).mpr ⟨m, hm, rfl⟩⟩

/-- The validator accepts exactly the encodings of valid signed events within the size limit. -/
theorem signedEvent_eq_ok {bytes : Bytes} {u : Unit} : signedEvent C bytes = .ok u ↔
    bytes.length ≤ maxEventBytes ∧ ∃ m : SignedEvent, m.Valid C 0 ∧ bytes = m.encode := by
  simp only [signedEvent, message, Outcome.bind_eq_ok, validate_signedEvent]
  constructor
  · rintro ⟨_, ⟨hlen, -, m, hm, hbytes, -⟩, -⟩
    exact ⟨hlen, m, hm, hbytes⟩
  · rintro ⟨hlen, m, hm, hbytes⟩
    exact ⟨_, ⟨hlen, Nat.zero_le _, m, hm, hbytes, rfl⟩, trivial⟩

/-! ## Embedded inceptions -/

/-- What the standalone check does once the event is known to be valid: everything but a
raw-rooted inception is refused, and that one by its key and signature alone. -/
def standaloneOf (C : Crypto) (m : SignedEvent) (b : EventBody) :
    Outcome WireError (StandaloneInception C) :=
  match b.payload with
  | some (.inception i) =>
    match i.root with
    | some (.rawRoot r) => do
      let key ← publicKey C "RawRoot" "active_key" r.activeKey
      verify key (signInput m.body) m.signature "SignedEvent" "signature"
      .ok ⟨Mabel.eventId C m.body, (Mabel.eventId C m.body).toIdentity, key⟩
    | _ => Outcome.reject .embeddedInceptionNotRawRooted
  | _ => Outcome.reject .embeddedInceptionNotRawRooted

/-- Every assertion of the standalone check holds on a valid event. -/
theorem inceptionStandalone_eq {m : SignedEvent} {b : EventBody} (hm : m.Valid C k)
    (hb : b.Valid C (k + 1)) (hbody : m.body = b.encode) (hk : k ≤ maxNesting)
    (hlen : m.encode.length ≤ maxEventBytes) :
    inceptionStandalone C (validate C) m.encode k = standaloneOf C m b := by
  have hvalidate : validate C Descriptor.signedEvent m.encode k =
      .ok ⟨Descriptor.signedEvent, k, m.entries⟩ :=
    validate_signedEvent.mpr ⟨hlen, hk, m, hm, rfl, rfl⟩
  have hne : m.body ≠ [] := hbody ▸ body_encode_ne_nil hb
  have h1 : (Scanned.mk Descriptor.signedEvent k m.entries).bytes 1 = some m.body :=
    bytes_some (by simp [SignedEvent.entries]) hne
  have h2 : (Scanned.mk Descriptor.signedEvent k m.entries).bytes 2 = some m.signature :=
    bytes_some (by simp [SignedEvent.entries])
      (List.ne_nil_of_length_pos (hm.signature ▸ by decide))
  have hblen : b.encode.length ≤ maxEventBytes := by
    rw [← hbody]
    refine (length_lt_of_mem m.entries 1 ?_).le.trans hlen
    simp [SignedEvent.entries, bytesField_of_ne hne]
  have hscan : scan (validate C) Descriptor.eventBody m.body (k + 1) =
      .ok ⟨Descriptor.eventBody, k + 1, b.entries⟩ := by
    rw [hbody]
    exact scan_of_admits wellFormed_eventBody hm.depth ((admits_eventBody hblen).mpr ⟨b, hb, rfl⟩)
  obtain ⟨p, hp, hvalid, -⟩ := hb.payload
  have hplen := (payload_encode_lt hp).le.trans hblen
  simp only [inceptionStandalone, hvalidate, h1, h2, hscan, body_oneof hp, Outcome.ok_bind,
    Outcome.expect_some, standaloneOf, hp]
  cases p with
  | inception i =>
    have hi : Inception.Valid C (k + 1 + 1) i := hvalid
    obtain ⟨r, hr, hrv⟩ := hi.root
    have hinc : scan (validate C) Descriptor.inception (Payload.inception i).encode (k + 2) =
        .ok ⟨Descriptor.inception, k + 2, i.entries⟩ :=
      scan_of_admits wellFormed_inception hb.depth ((admits_inception hplen).mpr ⟨i, hi, rfl⟩)
    have hroot : scan (validate C) r.descriptor r.encode (k + 3) =
        .ok ⟨r.descriptor, k + 3, r.entries⟩ :=
      scan_of_admits (root_wellFormed r) hi.depth (admits_root hrv)
    simp only [Payload.tag, inceptionTag, ne_eq, not_true, Outcome.rejectIf, if_false,
      Outcome.ok_bind, hinc, inception_oneof hr, Outcome.expect_some, hr]
    cases r with
    | rawRoot raw =>
      have hread : scan (validate C) Descriptor.rawRoot (Root.rawRoot raw).encode (k + 3) =
          .ok ⟨Descriptor.rawRoot, k + 3, raw.entries⟩ := hroot
      have hkey : (Scanned.mk Descriptor.rawRoot (k + 3) raw.entries).bytes 1 =
          some raw.activeKey :=
        bytes_some (by simp [RawRoot.entries]) (ne_nil_of_id hrv.activeKey)
      simp only [Root.tag, rawRootTag, not_true, if_false, Outcome.ok_bind, hread, hkey,
        Outcome.expect_some]
    | identityRoot root => rfl
  | _ => rfl

/-- The body of a raw-rooted inception is valid at every depth that leaves room for it. -/
theorem raw_valid_depth {b : EventBody} {i : Inception} {r : RawRoot} {k' : Nat}
    (hb : b.Valid C k) (hi : b.payload = some (.inception i)) (hr : i.root = some (.rawRoot r))
    (hk' : k' + 2 ≤ maxNesting) : b.Valid C k' := by
  obtain ⟨p, hp, hvalid, hrule⟩ := hb.payload
  obtain rfl : p = .inception i := Option.some.inj (hp.symm.trans hi)
  have hiv : Inception.Valid C (k + 1) i := hvalid
  obtain ⟨root, hroot, hrv⟩ := hiv.root
  obtain rfl : root = .rawRoot r := Option.some.inj (hroot.symm.trans hr)
  exact ⟨hb.version, hb.seq, hb.ledger, hb.prev, hb.timestamp, hb.authorKey, by omega,
    .inception i, hi, ⟨hiv.kind, hiv.nonce, hk', .rawRoot r, hr, hrv⟩, hrule⟩

/-- A raw-rooted inception: a valid seq-0 event whose signature verifies under the key its
root records. -/
structure RawInception (C : Crypto) (bytes : Bytes) (s : StandaloneInception C) : Prop where
  size : bytes.length ≤ maxEventBytes
  event : ∃ (m : SignedEvent) (b : EventBody) (i : Inception) (r : RawRoot)
    (sig : Block sigBytes), bytes = m.encode ∧ m.body = b.encode ∧ b.Valid C 1 ∧
      b.payload = some (.inception i) ∧ i.root = some (.rawRoot r) ∧
      r.activeKey = s.activeKey.asBytes ∧ m.signature = sig.bytes ∧
      s.activeKey.verify (signInput m.body) sig = true ∧
      s.eventId = Mabel.eventId C m.body ∧ s.identity = s.eventId.toIdentity

/-- The standalone check accepts exactly the raw-rooted inceptions, at every depth that
leaves room for them. -/
theorem inceptionStandalone_iff {bytes : Bytes} {s : StandaloneInception C} :
    inceptionStandalone C (validate C) bytes k = .ok s ↔
      k + 3 ≤ maxNesting ∧ RawInception C bytes s := by
  constructor
  · intro h
    have hv := h
    simp only [inceptionStandalone, Outcome.bind_eq_ok, validate_signedEvent] at hv
    obtain ⟨_, ⟨hlen, hk, m, hm, rfl, -⟩, -⟩ := hv
    obtain ⟨b, hb, hbody⟩ := hm.body
    rw [inceptionStandalone_eq hm hb hbody hk hlen] at h
    simp only [standaloneOf] at h
    split at h
    · rename_i i hi
      split at h
      · rename_i r hr
        simp only [Outcome.bind_eq_ok, publicKey_eq_ok, verify_eq_ok, Except.ok.injEq] at h
        obtain ⟨key, hkey, _, ⟨sig, hsig, hver⟩, rfl⟩ := h
        obtain ⟨p, hp, hvalid, -⟩ := hb.payload
        obtain rfl : p = .inception i := Option.some.inj (hp.symm.trans hi)
        have hdepth : k + 1 + 1 + 1 ≤ maxNesting := Inception.Valid.depth hvalid
        refine ⟨hdepth, hlen, m, b, i, r, sig, rfl, hbody, ?_, hi, hr, hkey, hsig, hver, rfl, rfl⟩
        exact raw_valid_depth hb hi hr (by decide)
      · simp at h
    · simp at h
  · rintro ⟨hk, hlen, m, b, i, r, sig, rfl, hbody, hb, hi, hr, hkey, hsig, hver, hid, hident⟩
    have hb' : b.Valid C (k + 1) := raw_valid_depth hb hi hr (by omega)
    have hm : m.Valid C k := ⟨hsig ▸ sig.length_eq, by omega, b, hb', hbody⟩
    rw [inceptionStandalone_eq hm hb' hbody (by omega) hlen]
    obtain ⟨id, identity, key⟩ := s
    simp only at hkey hver hid hident
    subst hid hident
    simp only [standaloneOf, hi, hr, Outcome.bind_eq_ok, publicKey_eq_ok, verify_eq_ok]
    exact ⟨key, hkey, (), ⟨sig, hsig, hver⟩, rfl⟩

end Mabel.Validate
