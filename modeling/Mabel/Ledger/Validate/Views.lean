import Mabel.Ledger.Messages
import Mabel.Ledger.Validate.Fields

/-!
# The messages the validator accepts

For each descriptor, the byte strings the validator accepts under it are exactly the
canonical encodings of the messages that keep its rules. Each rule is stated on the
message's own fields, so no later argument looks at records, slots or scans.
-/

namespace Mabel.Proto

open Wire Validate

/-! ## Rules of single messages -/

/-- A raw root records two different 32-byte strings. -/
structure RawRoot.Valid (m : RawRoot) : Prop where
  activeKey : m.activeKey.length = idBytes
  reserveCommit : m.reserveCommit.length = idBytes
  differ : m.activeKey ≠ m.reserveCommit

/-- An inception embedded at a depth proves the id and the key recorded beside it. -/
structure Embeds (C : Crypto) (k : Nat) (id key inception : Bytes) : Prop where
  idLength : id.length = idBytes
  keyLength : key.length = idBytes
  nonempty : inception ≠ []
  size : inception.length ≤ maxEmbeddedInceptionBytes
  standalone : ∃ s, inceptionStandalone C (validate C) inception (k + 1) = .ok s ∧
    s.eventId.toVec = id ∧ s.activeKey.asBytes = key

/-- An identity root embeds its founder's inception. -/
def IdentityRoot.Valid (C : Crypto) (k : Nat) (m : IdentityRoot) : Prop :=
  Embeds C k m.founder m.founderKey m.founderInception

/-- A list of ids keeps the bounds of its field and repeats none. -/
structure IdsOk (min max : Nat) (ids : List Bytes) : Prop where
  lower : min ≤ ids.length
  upper : ids.length ≤ max
  distinct : ids.Nodup
  sized : ∀ id ∈ ids, id.length = idBytes

/-- An invitation embeds its invitee's inception and names a role. -/
structure MembershipInvitation.Valid (C : Crypto) (k : Nat) (m : MembershipInvitation) :
    Prop where
  role : m.role = 1 ∨ m.role = 2
  embeds : Embeds C k m.invitee m.inviteeKey m.inviteeInception

/-- An acceptance blob names four 32-byte strings. -/
structure Acceptance.Valid (m : Acceptance) : Prop where
  version : m.version = 0
  ledger : m.ledger.length = idBytes
  invitationEvent : m.invitationEvent.length = idBytes
  invitee : m.invitee.length = idBytes
  inviteeKey : m.inviteeKey.length = idBytes

/-- A signature by the key an acceptance blob names verifies over the blob. -/
def Acceptance.SignedBy (C : Crypto) (m : Acceptance) (signature : Bytes) : Prop :=
  ∃ (key : PublicKey C) (sig : Block sigBytes), m.inviteeKey = key.asBytes ∧
    signature = sig.bytes ∧ key.verify (acceptInput m.encode) sig = true

/-- An acceptance carries a blob and the invitee's signature over it. -/
structure MembershipAcceptance.Valid (C : Crypto) (k : Nat) (m : MembershipAcceptance) :
    Prop where
  depth : k + 1 ≤ maxNesting
  blob : ∃ a : Acceptance, a.Valid ∧ m.acceptance = a.encode ∧ a.SignedBy C m.signature

/-- The strings of a profile keep their rules. -/
structure ProfileUpdate.Valid (m : ProfileUpdate) : Prop where
  displayName : TextOk "ProfileUpdate" "display_name" maxDisplayNameBytes .displayName m.displayName
  hostname : TextOk "ProfileUpdate" "hostname" maxHostnameBytes .hostname m.hostname
  email : TextOk "ProfileUpdate" "email" maxEmailBytes .email m.email

end Mabel.Proto

namespace Mabel.Validate

open Wire Proto

variable {C : Crypto} {k : Nat} {es : List Entry}

/-! ## Well-formed tables -/

theorem wellFormed_rawRoot : Descriptor.rawRoot.WellFormed := ⟨by decide, by decide⟩

theorem wellFormed_identityRoot : Descriptor.identityRoot.WellFormed := ⟨by decide, by decide⟩

theorem wellFormed_inception : Descriptor.inception.WellFormed := ⟨by decide, by decide⟩

theorem wellFormed_witnessConfig : Descriptor.witnessConfig.WellFormed := ⟨by decide, by decide⟩

theorem wellFormed_trustAttestation : Descriptor.trustAttestation.WellFormed :=
  ⟨by decide, by decide⟩

theorem wellFormed_trustRevocation : Descriptor.trustRevocation.WellFormed := ⟨by decide, by decide⟩

theorem wellFormed_membershipInvitation : Descriptor.membershipInvitation.WellFormed :=
  ⟨by decide, by decide⟩

theorem wellFormed_acceptance : Descriptor.acceptance.WellFormed := ⟨by decide, by decide⟩

theorem wellFormed_membershipAcceptance : Descriptor.membershipAcceptance.WellFormed :=
  ⟨by decide, by decide⟩

theorem wellFormed_membershipRemoval : Descriptor.membershipRemoval.WellFormed :=
  ⟨by decide, by decide⟩

theorem wellFormed_profileUpdate : Descriptor.profileUpdate.WellFormed := ⟨by decide, by decide⟩

theorem wellFormed_endpointAdvertisement : Descriptor.endpointAdvertisement.WellFormed :=
  ⟨by decide, by decide⟩

theorem wellFormed_witnessSet : Descriptor.witnessSet.WellFormed := ⟨by decide, by decide⟩

theorem wellFormed_eventBody : Descriptor.eventBody.WellFormed := ⟨by decide, by decide⟩

theorem wellFormed_signedEvent : Descriptor.signedEvent.WellFormed := ⟨by decide, by decide⟩

/-! ## Messages without a payload -/

theorem ne_nil_of_id {x : Bytes} (h : x.length = idBytes) : x ≠ [] :=
  List.ne_nil_of_length_pos (h ▸ by decide)

/-- The rule of a raw root, on what its two fields hold. -/
private theorem checkRawRoot_iff {sc : Scanned} {x y : Bytes}
    (h1 : select 1 sc.entries = bytesField 1 x) (h2 : select 2 sc.entries = bytesField 2 y)
    (hx : x.length = idBytes) (hy : y.length = idBytes) :
    checkRawRoot sc = .ok () ↔ x ≠ y := by
  rw [checkRawRoot, Outcome.rejectIf_eq_ok, bytes_some h1 (ne_nil_of_id hx),
    bytes_some h2 (ne_nil_of_id hy), Option.some.injEq]

/-- A raw root is admitted exactly as a valid message's entries. -/
theorem admits_rawRoot : Admits C Descriptor.rawRoot k es ↔
    ∃ m : RawRoot, m.Valid ∧ es = m.entries := by
  constructor
  · rintro ⟨⟨hslots, hfields, -⟩, hcheck⟩
    simp only [Descriptor.rawRoot, List.forall_mem_cons, required_number, row_id] at hfields
    obtain ⟨⟨x, hx, h1⟩, ⟨y, hy, h2⟩, -⟩ := hfields
    refine ⟨⟨x, y⟩, ⟨hx, hy, (checkRawRoot_iff h1 h2 hx hy).mp hcheck⟩, ?_⟩
    rw [hslots]
    simp [Descriptor.rawRoot, h1, h2, RawRoot.entries]
  · rintro ⟨m, hm, rfl⟩
    have h1 : select 1 m.entries = bytesField 1 m.activeKey := by simp [RawRoot.entries]
    have h2 : select 2 m.entries = bytesField 2 m.reserveCommit := by simp [RawRoot.entries]
    refine ⟨⟨?_, ?_, by simp [Descriptor.rawRoot]⟩,
      (checkRawRoot_iff h1 h2 hm.activeKey hm.reserveCommit).mpr hm.differ⟩
    · simp only [Slotted, Descriptor.rawRoot, List.flatMap_cons, List.flatMap_nil,
        required_number, h1, h2, List.append_nil]
      rfl
    · simp only [Descriptor.rawRoot, List.forall_mem_cons, required_number, row_id]
      exact ⟨⟨_, hm.activeKey, h1⟩, ⟨_, hm.reserveCommit, h2⟩, by simp⟩

/-- The rule of an embedded inception, on what the three fields hold. -/
private theorem checkEmbeddedInception_iff {sc : Scanned} {n nid nkey : Nat} {sid skey : String}
    {id key inception : Bytes} (hid : select nid sc.entries = bytesField nid id)
    (hkey : select nkey sc.entries = bytesField nkey key)
    (hinc : select n sc.entries = bytesField n inception) (hidl : id.length = idBytes)
    (hkeyl : key.length = idBytes) (hne : inception ≠ [])
    (hsize : inception.length ≤ maxEmbeddedInceptionBytes) :
    checkEmbeddedInception C (validate C) sc n (nid, sid) (nkey, skey) = .ok () ↔
      Embeds C sc.depth id key inception := by
  rw [checkEmbeddedInception, bytes_some hid (ne_nil_of_id hidl),
    bytes_some hkey (ne_nil_of_id hkeyl), bytes_some hinc hne]
  simp only [Outcome.expect_some, Outcome.ok_bind, Outcome.bind_eq_ok, Outcome.rejectIf_eq_ok,
    exists_const, not_not, Option.some.injEq]
  constructor
  · rintro ⟨s, hs, hids, hkeys⟩
    exact ⟨hidl, hkeyl, hne, hsize, s, hs, hids.symm, hkeys.symm⟩
  · rintro ⟨-, -, -, -, s, hs, hids, hkeys⟩
    exact ⟨s, hs, hids.symm, hkeys.symm⟩

/-- An identity root is admitted exactly as a valid message's entries. -/
theorem admits_identityRoot : Admits C Descriptor.identityRoot k es ↔
    ∃ m : IdentityRoot, m.Valid C k ∧ es = m.entries := by
  constructor
  · rintro ⟨⟨hslots, hfields, -⟩, hcheck⟩
    simp only [Descriptor.identityRoot, List.forall_mem_cons, required_number, row_id,
      row_embedded] at hfields
    obtain ⟨⟨x, hx, h1⟩, ⟨y, hy, h2⟩, ⟨z, hz, hsize, h3⟩, -⟩ := hfields
    refine ⟨⟨x, y, z⟩, (checkEmbeddedInception_iff h1 h2 h3 hx hy hz hsize).mp hcheck, ?_⟩
    rw [hslots]
    simp [Descriptor.identityRoot, h1, h2, h3, IdentityRoot.entries]
  · rintro ⟨m, hm, rfl⟩
    have h1 : select 1 m.entries = bytesField 1 m.founder := by simp [IdentityRoot.entries]
    have h2 : select 2 m.entries = bytesField 2 m.founderKey := by simp [IdentityRoot.entries]
    have h3 : select 3 m.entries = bytesField 3 m.founderInception := by
      simp [IdentityRoot.entries]
    refine ⟨⟨?_, ?_, by simp [Descriptor.identityRoot]⟩, (checkEmbeddedInception_iff h1 h2 h3
      hm.idLength hm.keyLength hm.nonempty hm.size).mpr hm⟩
    · simp only [Slotted, Descriptor.identityRoot, List.flatMap_cons, List.flatMap_nil,
        required_number, h1, h2, h3, List.append_nil, ← List.append_assoc]
      rfl
    · simp only [Descriptor.identityRoot, List.forall_mem_cons, required_number, row_id,
        row_embedded]
      exact ⟨⟨_, hm.idLength, h1⟩, ⟨_, hm.keyLength, h2⟩, ⟨_, hm.nonempty, hm.size, h3⟩, by simp⟩

/-- An invitation is admitted exactly as a valid message's entries. -/
theorem admits_membershipInvitation : Admits C Descriptor.membershipInvitation k es ↔
    ∃ m : MembershipInvitation, m.Valid C k ∧ es = m.entries := by
  have hroles : ∀ e ∈ [EnumValue.mk 1 "MEMBER", ⟨2, "CONTROLLER"⟩],
      0 < e.number ∧ e.number < 2 ^ 31 := by decide
  constructor
  · rintro ⟨⟨hslots, hfields, -⟩, hcheck⟩
    simp only [Descriptor.membershipInvitation, Kinds.role, List.forall_mem_cons,
      required_number, row_id, row_embedded, row_enum hroles] at hfields
    obtain ⟨⟨x, hx, h1⟩, ⟨y, hy, h2⟩, ⟨r, hr, h3⟩, ⟨z, hz, hsize, h4⟩, -⟩ := hfields
    have hrole : r = 1 ∨ r = 2 := by simpa using hr
    refine ⟨⟨x, y, r, z⟩, ⟨by rcases hrole with rfl | rfl <;> simp,
      (checkEmbeddedInception_iff h1 h2 h4 hx hy hz hsize).mp hcheck⟩, ?_⟩
    rw [hslots]
    simp [Descriptor.membershipInvitation, h1, h2, h3, h4, MembershipInvitation.entries,
      varintOfInt32_natCast (show r < 2 ^ 31 by omega)]
  · rintro ⟨m, hm, rfl⟩
    have h1 : select 1 m.entries = bytesField 1 m.invitee := by
      simp [MembershipInvitation.entries]
    have h2 : select 2 m.entries = bytesField 2 m.inviteeKey := by
      simp [MembershipInvitation.entries]
    have h3 : select 3 m.entries = uintField 3 (varintOfInt32 m.role) := by
      simp [MembershipInvitation.entries]
    have h4 : select 4 m.entries = bytesField 4 m.inviteeInception := by
      simp [MembershipInvitation.entries]
    refine ⟨⟨?_, ?_, by simp [Descriptor.membershipInvitation]⟩, (checkEmbeddedInception_iff h1 h2
      h4 hm.embeds.idLength hm.embeds.keyLength hm.embeds.nonempty hm.embeds.size).mpr hm.embeds⟩
    · simp only [Slotted, Descriptor.membershipInvitation, List.flatMap_cons, List.flatMap_nil,
        required_number, h1, h2, h3, h4, List.append_nil, ← List.append_assoc]
      rfl
    · simp only [Descriptor.membershipInvitation, Kinds.role, List.forall_mem_cons,
        required_number, row_id, row_embedded, row_enum hroles]
      refine ⟨⟨_, hm.embeds.idLength, h1⟩, ⟨_, hm.embeds.keyLength, h2⟩, ⟨_, ?_, h3⟩,
        ⟨_, hm.embeds.nonempty, hm.embeds.size, h4⟩, by simp⟩
      rcases hm.role with hr | hr <;> rw [hr] <;> decide

/-- A message that is one required id. -/
theorem admits_single {d : MessageDescriptor} {name : String}
    (hfields : d.fields = [required 1 name Kinds.id]) (honeof : d.oneof = none)
    (hcheck : d.check = none) :
    Admits C d k es ↔ ∃ x, x.length = idBytes ∧ es = bytesField 1 x := by
  constructor
  · rintro ⟨⟨hslots, hok, -⟩, -⟩
    simp only [hfields, List.forall_mem_cons, required_number, row_id] at hok
    obtain ⟨⟨x, hx, h1⟩, -⟩ := hok
    refine ⟨x, hx, ?_⟩
    rw [hslots]
    simp [hfields, h1]
  · rintro ⟨x, hx, rfl⟩
    have h1 : select 1 (bytesField 1 x) = bytesField 1 x := by simp
    refine ⟨⟨by simp [Slotted, hfields], ?_, by simp [honeof]⟩, by simp [runCheck, hcheck]⟩
    simp only [hfields, List.forall_mem_cons, required_number, row_id]
    exact ⟨⟨x, hx, h1⟩, by simp⟩

/-- A message that is one repeated list of distinct ids. -/
theorem admits_ids {d : MessageDescriptor} {name : String} {min max : Nat}
    (hfields : d.fields = [⟨1, name, .repeated min max true, Kinds.id⟩])
    (honeof : d.oneof = none) (hcheck : d.check = none) :
    Admits C d k es ↔ ∃ xs, IdsOk min max xs ∧ es = repeatedField 1 xs := by
  constructor
  · rintro ⟨⟨hslots, hok, -⟩, -⟩
    simp only [hfields, List.forall_mem_cons, row_repeated_id] at hok
    obtain ⟨⟨xs, ⟨hmin, hmax, hnodup, hlen⟩, h1⟩, -⟩ := hok
    refine ⟨xs, ⟨hmin, hmax, hnodup, hlen⟩, ?_⟩
    rw [hslots]
    simp [hfields, h1]
  · rintro ⟨xs, ⟨hmin, hmax, hnodup, hlen⟩, rfl⟩
    have h1 : select 1 (repeatedField 1 xs) = repeatedField 1 xs := by simp
    refine ⟨⟨by simp [Slotted, hfields], ?_, by simp [honeof]⟩, by simp [runCheck, hcheck]⟩
    simp only [hfields, List.forall_mem_cons, row_repeated_id]
    exact ⟨⟨xs, ⟨hmin, hmax, hnodup, hlen⟩, h1⟩, by simp⟩

/-- An inner acceptance is admitted exactly as a valid message's entries. -/
theorem admits_acceptance : Admits C Descriptor.acceptance k es ↔
    ∃ m : Acceptance, m.Valid ∧ es = m.entries := by
  constructor
  · rintro ⟨⟨hslots, hfields, -⟩, -⟩
    simp only [Descriptor.acceptance, List.forall_mem_cons, required_number, forbidden_number,
      row_id, row_forbidden] at hfields
    obtain ⟨h1, ⟨l, hl, h2⟩, ⟨e, he, h3⟩, ⟨i, hi, h4⟩, ⟨y, hy, h5⟩, -⟩ := hfields
    refine ⟨⟨0, l, e, i, y⟩, ⟨rfl, hl, he, hi, hy⟩, ?_⟩
    rw [hslots]
    simp [Descriptor.acceptance, h1, h2, h3, h4, h5, Acceptance.entries]
  · rintro ⟨m, hm, rfl⟩
    have h1 : select 1 m.entries = uintField 1 0 := by simp [Acceptance.entries, hm.version]
    have h2 : select 2 m.entries = bytesField 2 m.ledger := by simp [Acceptance.entries]
    have h3 : select 3 m.entries = bytesField 3 m.invitationEvent := by simp [Acceptance.entries]
    have h4 : select 4 m.entries = bytesField 4 m.invitee := by simp [Acceptance.entries]
    have h5 : select 5 m.entries = bytesField 5 m.inviteeKey := by simp [Acceptance.entries]
    refine ⟨⟨?_, ?_, by simp [Descriptor.acceptance]⟩, rfl⟩
    · simp [Slotted, Descriptor.acceptance, h1, h2, h3, h4, h5]
      simp [Acceptance.entries, hm.version]
    · simp only [Descriptor.acceptance, List.forall_mem_cons, required_number, forbidden_number,
        row_id, row_forbidden]
      exact ⟨h1, ⟨_, hm.ledger, h2⟩, ⟨_, hm.invitationEvent, h3⟩, ⟨_, hm.invitee, h4⟩,
        ⟨_, hm.inviteeKey, h5⟩, by simp⟩

/-- A profile update is admitted exactly as a valid message's entries. -/
theorem admits_profileUpdate : Admits C Descriptor.profileUpdate k es ↔
    ∃ m : ProfileUpdate, m.Valid ∧ es = m.entries := by
  have hmax : ∀ max ∈ [maxDisplayNameBytes, maxHostnameBytes, maxEmailBytes], max < 2 ^ 64 := by
    decide
  simp only [List.forall_mem_cons] at hmax
  constructor
  · rintro ⟨⟨hslots, hfields, -⟩, -⟩
    simp only [Descriptor.profileUpdate, List.forall_mem_cons, optional_number,
      row_string hmax.1, row_string hmax.2.1, row_string hmax.2.2.1] at hfields
    obtain ⟨⟨d, hd, h1⟩, ⟨h, hh, h2⟩, ⟨e, he, h3⟩, -⟩ := hfields
    refine ⟨⟨d, h, e⟩, ⟨hd, hh, he⟩, ?_⟩
    rw [hslots]
    simp [Descriptor.profileUpdate, h1, h2, h3, ProfileUpdate.entries]
  · rintro ⟨m, hm, rfl⟩
    have h1 : select 1 m.entries = bytesField 1 (utf8 m.displayName) := by
      simp [ProfileUpdate.entries]
    have h2 : select 2 m.entries = bytesField 2 (utf8 m.hostname) := by
      simp [ProfileUpdate.entries]
    have h3 : select 3 m.entries = bytesField 3 (utf8 m.email) := by simp [ProfileUpdate.entries]
    refine ⟨⟨?_, ?_, by simp [Descriptor.profileUpdate]⟩, rfl⟩
    · simp only [Slotted, Descriptor.profileUpdate, List.flatMap_cons, List.flatMap_nil,
        optional_number, h1, h2, h3, List.append_nil, ← List.append_assoc]
      rfl
    · simp only [Descriptor.profileUpdate, List.forall_mem_cons, optional_number,
        row_string hmax.1, row_string hmax.2.1, row_string hmax.2.2.1]
      exact ⟨⟨_, hm.displayName, h1⟩, ⟨_, hm.hostname, h2⟩, ⟨_, hm.email, h3⟩, by simp⟩

/-! ## Signatures -/

/-- A field reads as a key from exactly the key's bytes. -/
theorem publicKey_eq_ok {message field : String} {bytes : Bytes} {key : PublicKey C} :
    publicKey C message field bytes = .ok key ↔ bytes = key.asBytes := by
  rw [publicKey, Outcome.orReject_eq_ok, Option.bind_eq_some_iff]
  constructor
  · rintro ⟨raw, hraw, hkey⟩
    rw [Block.ofBytes?_eq_some.mp hraw, PublicKey.fromBytes_eq_some.mp hkey, PublicKey.asBytes]
  · rintro rfl
    exact ⟨key.raw, Block.ofBytes?_bytes _, PublicKey.fromBytes_raw key⟩

/-- A signature field passes when it has the length of one and verifies. -/
theorem verify_eq_ok {key : PublicKey C} {input signature : Bytes} {message field : String}
    {u : Unit} : verify key input signature message field = .ok u ↔
      ∃ sig : Block sigBytes, signature = sig.bytes ∧ key.verify input sig = true := by
  simp only [verify, Outcome.bind_eq_ok, Outcome.orReject_eq_ok, Block.ofBytes?_eq_some,
    Outcome.rejectIf_eq_ok, Bool.not_eq_false]

/-- A valid inner acceptance has one length. -/
theorem Acceptance.length_encode {m : Acceptance} (h : m.Valid) : m.encode.length = 136 := by
  have hne : ∀ {x : Bytes}, x.length = idBytes → x ≠ [] := ne_nil_of_id
  have hvar : varintLen idBytes = 1 := varintLen_of_lt (by decide)
  have hkey : ∀ n ≤ 5, varintLen (n * 8 + 2) = 1 := fun n hn => varintLen_of_lt (by omega)
  simp only [Acceptance.encode, Acceptance.entries, h.version, uintField_zero,
    bytesField_of_ne (hne h.ledger), bytesField_of_ne (hne h.invitationEvent),
    bytesField_of_ne (hne h.invitee), bytesField_of_ne (hne h.inviteeKey), putEntries_append,
    putEntries_cons, putEntries_nil, List.append_nil, List.nil_append, List.length_append,
    length_putEntry_bytes, h.ledger, h.invitationEvent, h.invitee, h.inviteeKey, hvar]
  rw [hkey 2 (by decide), hkey 3 (by decide), hkey 4 (by decide), hkey 5 (by decide)]
  rfl

/-- The blob's own scan ignores the depth it was found at. -/
theorem detachedAcceptance_iff {m : Acceptance} (h : m.Valid) {signature : Bytes}
    {message : String} {u : Unit} :
    detachedAcceptance C (validate C) m.encode signature message = .ok u ↔
      m.SignedBy C signature := by
  have hscan : scan (validate C) Descriptor.acceptance m.encode 0 =
      .ok ⟨Descriptor.acceptance, 0, m.entries⟩ :=
    scan_of_admits wellFormed_acceptance (Nat.zero_le _) (admits_acceptance.mpr ⟨m, h, rfl⟩)
  have h5 : (Scanned.mk Descriptor.acceptance 0 m.entries).bytes 5 = some m.inviteeKey :=
    bytes_some (by simp [Acceptance.entries]) (ne_nil_of_id h.inviteeKey)
  simp only [detachedAcceptance, hscan, h5, Outcome.ok_bind, Outcome.expect_some,
    Outcome.bind_eq_ok, publicKey_eq_ok, verify_eq_ok, Acceptance.SignedBy]
  constructor
  · rintro ⟨key, hkey, sig, hsig, hv⟩
    exact ⟨key, sig, hkey, hsig, hv⟩
  · rintro ⟨key, sig, hkey, hsig, hv⟩
    exact ⟨key, hkey, sig, hsig, hv⟩

/-- A message that is a signed acceptance, under whatever name. -/
theorem admits_signedAcceptance {d : MessageDescriptor} (name : String)
    (hfields : d.fields = [required 1 "acceptance" (.nested Descriptor.acceptance maxAcceptanceBytes),
      required 2 "signature" Kinds.sig]) (honeof : d.oneof = none)
    (hrun : ∀ sc : Scanned, sc.descriptor = d →
      runCheck C (validate C) sc = checkSignedAcceptance C (validate C) name sc) :
    Admits C d k es ↔ ∃ m : MembershipAcceptance, m.Valid C k ∧ es = m.entries := by
  have hmax : maxAcceptanceBytes < 2 ^ 64 := by decide
  have hcheck : ∀ {sc : Scanned} {a : Acceptance} {s : Bytes},
      select 1 sc.entries = bytesField 1 a.encode → select 2 sc.entries = bytesField 2 s →
      a.Valid → s.length = sigBytes →
      (checkSignedAcceptance C (validate C) name sc = .ok () ↔ a.SignedBy C s) := by
    intro sc a s h1 h2 ha hs
    have hne : a.encode ≠ [] :=
      List.ne_nil_of_length_pos (by rw [Acceptance.length_encode ha]; decide)
    rw [checkSignedAcceptance, bytes_some h1 hne,
      bytes_some h2 (List.ne_nil_of_length_pos (hs ▸ by decide))]
    simp only [Outcome.expect_some, Outcome.ok_bind, detachedAcceptance_iff ha]
  constructor
  · rintro ⟨⟨hslots, hrows, -⟩, hrule⟩
    rw [hrun _ rfl] at hrule
    simp only [hfields, Kinds.sig, List.forall_mem_cons, required_number,
      row_nested hmax, row_exact (show 0 < sigBytes by decide) (show sigBytes < 2 ^ 64 by decide),
      accepts_iff wellFormed_acceptance, admits_acceptance] at hrows
    obtain ⟨⟨x, hx, hsize, ⟨-, hdepth, _, rfl, a, ha, rfl⟩, h1⟩, ⟨s, hs, h2⟩, -⟩ := hrows
    refine ⟨⟨a.encode, s⟩, ⟨hdepth, a, ha, rfl, (hcheck h1 h2 ha hs).mp hrule⟩, ?_⟩
    rw [hslots]
    simp [hfields, h1, h2, MembershipAcceptance.entries, Acceptance.encode]
  · rintro ⟨⟨blob, s⟩, ⟨hdepth, a, ha, hblob, hsigned⟩, rfl⟩
    simp only at hblob hsigned
    subst hblob
    have h1 : select 1 (MembershipAcceptance.entries ⟨a.encode, s⟩) = bytesField 1 a.encode := by
      simp [MembershipAcceptance.entries]
    have h2 : select 2 (MembershipAcceptance.entries ⟨a.encode, s⟩) = bytesField 2 s := by
      simp [MembershipAcceptance.entries]
    have hs : s.length = sigBytes := by
      obtain ⟨_, sig, -, rfl, -⟩ := hsigned
      exact sig.length_eq
    have hlen := Acceptance.length_encode ha
    refine ⟨⟨?_, ?_, by simp [honeof]⟩, (hrun _ rfl).trans ((hcheck h1 h2 ha hs).mpr hsigned)⟩
    · simp only [Slotted, hfields, List.flatMap_cons, List.flatMap_nil,
        required_number, h1, h2, List.append_nil]
      rfl
    · simp only [hfields, Kinds.sig, List.forall_mem_cons,
        required_number, row_nested hmax,
        row_exact (show 0 < sigBytes by decide) (show sigBytes < 2 ^ 64 by decide),
        accepts_iff wellFormed_acceptance, admits_acceptance]
      refine ⟨⟨a.encode, List.ne_nil_of_length_pos (by omega), ?_, ⟨?_, hdepth, _, rfl, a, ha, rfl⟩,
        h1⟩, ⟨s, hs, h2⟩, by simp⟩
      · rw [hlen]
        decide
      · rw [hlen]
        decide

/-- An acceptance is admitted exactly as a valid message's entries. -/
theorem admits_membershipAcceptance : Admits C Descriptor.membershipAcceptance k es ↔
    ∃ m : MembershipAcceptance, m.Valid C k ∧ es = m.entries := by
  refine admits_signedAcceptance "MembershipAcceptance" rfl rfl fun sc hsc => ?_
  rw [runCheck, hsc]
  rfl

end Mabel.Validate
