import Mabel.Ledger.Validate.Decode

/-!
# How the validator stops

Every assertion of the validator is reached only after the rows of the field table that
justify it have been checked, at its own nesting level and at those below it. Panic
freedom is carried up the nesting by induction on the length of the input: the scanner
and the cross-field rules hand strictly shorter strings to the validator. The one rejection
that depends on where a message sits is the one for depth, and it is kept apart from the
others throughout.
-/

namespace Mabel.Validate

open Wire Proto Outcome

variable {C : Crypto} {R : Validator} {d : MessageDescriptor} {k n : Nat}

/-! ## The scanner -/

/-- A rejection for what a message holds and not for how deep it sits. -/
def Shallow (e : Fault WireError) : Prop := ∃ w, e = .reject w ∧ w ≠ .tooDeeplyNested

theorem shallow_reject {w : WireError} (h : w ≠ .tooDeeplyNested) : Shallow (.reject w) :=
  ⟨w, rfl, h⟩

theorem Shallow.not_panic (site : String) : ¬ Shallow (.panic site) := by
  rintro ⟨w, h, -⟩
  cases h

/-- The varint reader stops for shallow reasons only. -/
theorem readVarint_stops {message : String} {bytes : Bytes} :
    Stops Shallow (readVarint message bytes) := by
  unfold readVarint
  split
  · exact Stops.ok
  · rename_i e _
    refine Stops.reject (shallow_reject ?_)
    cases e <;> simp [VarintError.toWire]

/-- An unknown field is no matter of depth. -/
theorem unknownField_ne (d : MessageDescriptor) (number : Nat) :
    unknownField d number ≠ .tooDeeplyNested := by
  unfold unknownField
  split
  · split <;> simp
  · simp

/-- Only varint fields reach the varint rule. -/
theorem checkVarint_stops {field : Field} (hwire : field.wireKind = .varint)
    {message : String} {value : Nat} : Stops Shallow (checkVarint field message value) := by
  unfold checkVarint
  cases hkind : field.kind with
  | enum values =>
    exact (Stops.rejectIf fun _ => shallow_reject (by simp)).bind fun _ _ =>
      Stops.rejectIf fun _ => shallow_reject (by simp)
  | varint min max =>
    exact (Stops.rejectIf fun _ => shallow_reject (by simp)).bind fun _ _ =>
      Stops.rejectIf fun _ => shallow_reject (by simp)
  | _ => simp [FieldDescriptor.wireKind, hkind] at hwire

/-- The size check stops for shallow reasons only. -/
theorem checkSize_stops {field : Field} {message : String} {max : Nat} {slice : Bytes} :
    Stops Shallow (checkSize field message max slice) :=
  (Stops.rejectIf fun _ => shallow_reject (by simp)).bind fun _ _ =>
    Stops.rejectIf fun _ => shallow_reject (by simp)

/-- The exact length check stops for shallow reasons only. -/
theorem checkExact_stops {field : Field} {message : String} {exact : Option Nat}
    {slice : Bytes} : Stops Shallow (checkExact field message exact slice) := by
  cases exact with
  | none => exact Stops.ok
  | some len => exact Stops.rejectIf fun _ => shallow_reject (by simp)

/-- The text rules stop for shallow reasons only. -/
theorem checkRule_stops {rule : StringRule} {message field text : String} :
    Stops Shallow (checkRule rule message field text) := by
  have hreason : ∀ (wrap : String → WireError) (r : Except String Unit),
      (∀ reason, wrap reason ≠ .tooDeeplyNested) → Stops Shallow (ofReason wrap r) := by
    intro wrap r hwrap
    cases r with
    | ok u => exact Stops.ok
    | error reason => exact Stops.reject (shallow_reject (hwrap reason))
  cases rule with
  | utf8 => exact Stops.ok
  | _ => exact hreason _ _ (by simp)

section Scanner

variable {F : Fault WireError → Prop}

/-- A length-delimited field stops where its own rule does or where the message it hands on
does. -/
theorem checkBytes_stops (hF : ∀ e, Shallow e → F e) {field : Field}
    (hwire : field.wireKind = .len) {message : String} {slice : Bytes}
    (hsub : ∀ r, handed k field.kind = some r → Stops F (R r.1 slice r.2)) :
    Stops F (checkBytes R field message slice k) := by
  unfold checkBytes
  cases hkind : field.kind with
  | bytes exact max =>
    exact (checkExact_stops.mono hF).bind fun _ _ => checkSize_stops.mono hF
  | string max rule =>
    refine (checkSize_stops.mono hF).bind fun _ _ => ?_
    refine (Stops.orReject (hF _ (shallow_reject (by simp)))).bind fun _ _ => ?_
    exact checkRule_stops.mono hF
  | nested d max =>
    have hd : Stops F (R d slice (k + 1)) := hsub (d, k + 1) (by rw [hkind]; rfl)
    exact (checkSize_stops.mono hF).bind fun _ _ => hd.bind fun _ _ => Stops.ok
  | message d =>
    have hd : Stops F (R d slice (k + 1)) := hsub (d, k + 1) (by rw [hkind]; rfl)
    exact hd.bind fun _ _ => Stops.ok
  | detached d =>
    have hd : Stops F (R d slice 0) := hsub (d, 0) (by rw [hkind]; rfl)
    exact hd.bind fun _ _ => Stops.ok
  | _ => simp [FieldDescriptor.wireKind, hkind] at hwire

/-- A validator stops as told on what a message hands on out of a string. -/
def StopsOn (F : Fault WireError → Prop) (R : Validator) (d : MessageDescriptor) (k : Nat)
    (bytes : Bytes) : Prop :=
  ∀ field ∈ d.fields, ∀ r, handed k field.kind = some r →
    ∀ slice, Carries bytes field.number slice → Stops F (R r.1 slice r.2)

/-- A record stops only as the nested validator may. -/
private theorem scanRecord_stops (hd : d.WellFormed) (hF : ∀ e, Shallow e → F e) {whole : Bytes}
    (hR : StopsOn F R d k whole) {es : List Entry} (last : Nat) {bytes : Bytes}
    (hwhole : whole = putEntries es ++ bytes) :
    Stops F (scanRecord R d k es last bytes) := by
  refine (readVarint_stops.mono hF).bind fun ⟨key, rest⟩ hread => ?_
  obtain ⟨-, rfl⟩ := readVarint_eq_ok.mp hread
  refine (Stops.orReject (hF _ (shallow_reject (unknownField_ne _ _)))).bind fun field hfield => ?_
  have hnum := (field_eq_some hd).mp (orReject_eq_ok.mp hfield)
  refine Stops.bind ?_ fun _ _ => ?_
  · exact (Stops.rejectIf fun _ => hF _ (shallow_reject (by simp))).bind fun _ _ =>
      Stops.rejectIf fun _ => hF _ (shallow_reject (by simp))
  refine (Stops.rejectIf fun _ => hF _ (shallow_reject (by simp))).bind fun _ hwire => ?_
  refine Stops.bind ?_ fun _ _ => Stops.bind ?_ fun _ _ => Stops.ok
  · unfold checkRepeatedCap
    split
    · exact Stops.rejectIf fun _ => hF _ (shallow_reject (by simp))
    · exact Stops.ok
  refine (readVarint_stops.mono hF).bind fun ⟨value, rest'⟩ hvalue => ?_
  obtain ⟨-, rfl⟩ := readVarint_eq_ok.mp hvalue
  cases hkind : field.wireKind with
  | varint => exact ((checkVarint_stops hkind).mono hF).bind fun _ _ => Stops.ok
  | len =>
    refine (Stops.rejectIf fun _ => hF _ (shallow_reject (by simp))).bind fun _ hfits => ?_
    refine Stops.bind (checkBytes_stops hF hkind fun r hr => ?_) fun _ _ => Stops.ok
    refine hR field hnum.1 r hr _ ⟨es, rest'.drop value, ?_⟩
    -- The key and the length read are the ones the record would be written with.
    have hbound := (hd.numbered field hnum.1).2
    have hmin : min (key >>> 3) u32Max = key >>> 3 := by
      have : u32Max = 4294967295 := rfl
      omega
    have hwire' : key &&& 7 = 2 := by simpa [hkind, WireKind.number] using hwire
    have hle : value ≤ rest'.length := by simpa using hfits
    have hkey : putKey field.number 2 = putVarint key := by
      rw [putKey, hnum.2, hmin, ← hwire', key_split]
    rw [hwhole, putEntry, Value.wire, hkey, putValue, List.length_take, min_eq_left hle]
    simp only [List.append_assoc, List.take_append_drop]

/-- A run of records stops only as the nested validator may. -/
private theorem scanRecords_stops (hd : d.WellFormed) (hF : ∀ e, Shallow e → F e) {whole : Bytes}
    (hR : StopsOn F R d k whole) :
    ∀ (fuel : Nat) (es : List Entry) (last : Nat) (bytes : Bytes), bytes.length ≤ fuel →
      whole = putEntries es ++ bytes → Stops F (scanRecords R d k fuel es last bytes) := by
  intro fuel
  induction fuel with
  | zero =>
    intro es last bytes hfuel _
    obtain rfl : bytes = [] := List.length_eq_zero_iff.mp (by omega)
    exact Stops.ok
  | succ fuel ih =>
    intro es last bytes hfuel hwhole
    cases bytes with
    | nil => exact Stops.ok
    | cons byte bytes =>
      refine (scanRecord_stops hd hF hR last hwhole).bind fun ⟨e, rest⟩ hrec => ?_
      have hshort := (scanRecord_shorter hrec).1
      refine ih _ _ _ (by omega) ?_
      rw [hwhole, ((scanRecord_eq_ok hd).mp hrec).2]
      simp

/-- A scan stops where a record's own rule does, where a message it hands on does, or for its
depth. -/
theorem scan_stops (hd : d.WellFormed) (hF : ∀ e, Shallow e → F e)
    (hdeep : maxNesting < k → F (.reject .tooDeeplyNested)) {bytes : Bytes}
    (hR : StopsOn F R d k bytes) : Stops F (scan R d bytes k) := by
  refine (Stops.rejectIf hdeep).bind fun _ _ => Stops.bind ?_ fun _ _ => Stops.ok
  exact scanRecords_stops hd hF hR _ _ _ _ le_rfl rfl

end Scanner

/-- The cardinality check stops for shallow reasons only. -/
theorem checkCardinality_stops (sc : Scanned) : Stops Shallow (checkCardinality sc) := by
  refine Stops.bind (Stops.forM fun field _ => ?_) fun _ _ => ?_
  · unfold checkCount
    cases field.cardinality with
    | forbidden => exact Stops.rejectIf fun _ => shallow_reject (by simp)
    | required =>
      refine Stops.rejectIf fun _ => shallow_reject ?_
      split <;> simp
    | repeated min max distinct =>
      exact (Stops.rejectIf fun _ => shallow_reject (by simp)).bind fun _ _ =>
        Stops.rejectIf fun _ => shallow_reject (by simp)
    | _ => exact Stops.ok
  · cases sc.descriptor.oneof with
    | none => exact Stops.ok
    | some oneof =>
      exact (Stops.rejectIf fun _ => shallow_reject (by simp)).bind fun _ _ =>
        Stops.rejectIf fun _ => shallow_reject (by simp)

/-! ## Cross-field rules

Each rule runs on a record list that already keeps its table, so the fields it unwraps
are there, and it re-reads submessages the scanner accepted just before. -/

theorem publicKey_stops {message field : String} {bytes : Bytes} :
    Stops Shallow (publicKey C message field bytes) :=
  Stops.orReject (shallow_reject (by simp))

/-- Verification stops for shallow reasons only. -/
theorem verify_stops {key : PublicKey C} {input signature : Bytes} {message field : String} :
    Stops Shallow (Validate.verify key input signature message field) :=
  (Stops.orReject (shallow_reject (by simp))).bind fun _ _ =>
    Stops.rejectIf fun _ => shallow_reject (by simp)

/-- The standalone check of an inception stops for shallow reasons only. -/
private theorem standaloneOf_stops {m : SignedEvent} {b : EventBody} :
    Stops Shallow (standaloneOf C m b) := by
  unfold standaloneOf
  split
  · split
    · exact publicKey_stops.bind fun _ _ => verify_stops.bind fun _ _ => Stops.ok
    · exact Stops.reject (shallow_reject (by simp))
  · exact Stops.reject (shallow_reject (by simp))

section Embedded

variable {F : Fault WireError → Prop}

/-- The standalone check unwraps only fields of an event the validator accepted. -/
theorem inceptionStandalone_stops (hF : ∀ e, Shallow e → F e) {bytes : Bytes}
    (hvalidate : Stops F (validate C Descriptor.signedEvent bytes k)) :
    Stops F (inceptionStandalone C (validate C) bytes k) := by
  cases h : validate C Descriptor.signedEvent bytes k with
  | error e =>
    have hstop : inceptionStandalone C (validate C) bytes k = .error e := by
      rw [inceptionStandalone, h, error_bind]
    intro e' he'
    exact Except.error.inj (hstop.symm.trans he') ▸ hvalidate e h
  | ok sc =>
    obtain ⟨hlen, hk, m, hm, rfl, -⟩ := validate_signedEvent.mp h
    obtain ⟨b, hb, hbody⟩ := hm.body
    rw [inceptionStandalone_eq hm hb hbody hk hlen]
    exact standaloneOf_stops.mono hF

/-- An embedded inception stops only as its own validation may. -/
private theorem checkEmbeddedInception_stops (hF : ∀ e, Shallow e → F e) {sc : Scanned}
    {field : Nat} {id key : Nat × String} {embedded : Bytes}
    (hfield : sc.bytes field = some embedded)
    (hvalidate : Stops F (validate C Descriptor.signedEvent embedded (sc.depth + 1))) :
    Stops F (checkEmbeddedInception C (validate C) sc field id key) := by
  refine (Stops.expect ⟨embedded, hfield⟩).bind fun found hfound => ?_
  obtain rfl : embedded = found := Option.some.inj (hfield.symm.trans (expect_eq_ok.mp hfound))
  refine (inceptionStandalone_stops hF hvalidate).bind fun _ _ => ?_
  exact (Stops.rejectIf fun _ => hF _ (shallow_reject (by simp))).bind fun _ _ =>
    Stops.rejectIf fun _ => hF _ (shallow_reject (by simp))

end Embedded

/-- A signed acceptance unwraps the two fields its table requires, whichever message holds it. -/
theorem checkSignedAcceptance_stops {message : String} {sc : Scanned}
    (hfields : d.fields = Descriptor.membershipAcceptance.fields)
    (h : Tabled C d sc.depth sc.entries) :
    Stops Shallow (checkSignedAcceptance C (validate C) message sc) := by
  have hrows := h.fields
  rw [hfields] at hrows
  simp only [Descriptor.membershipAcceptance, Kinds.sig, List.forall_mem_cons, required_number,
    row_nested (show maxAcceptanceBytes < 2 ^ 64 by decide),
    row_exact (show 0 < sigBytes by decide) (show sigBytes < 2 ^ 64 by decide),
    accepts_iff wellFormed_acceptance, admits_acceptance] at hrows
  obtain ⟨⟨_, hne, -, ⟨-, -, _, rfl, a, ha, rfl⟩, h1⟩, ⟨s, hs, h2⟩, -⟩ := hrows
  have hblob := bytes_some h1 hne
  have hsig := bytes_some h2 (List.ne_nil_of_length_pos (hs ▸ by decide))
  have hscan : scan (validate C) Descriptor.acceptance (putEntries a.entries) 0 =
      .ok ⟨Descriptor.acceptance, 0, a.entries⟩ :=
    scan_of_admits wellFormed_acceptance (Nat.zero_le _) (admits_acceptance.mpr ⟨a, ha, rfl⟩)
  have hkey : (Scanned.mk Descriptor.acceptance 0 a.entries).bytes 5 = some a.inviteeKey :=
    bytes_some (by simp [Acceptance.entries]) (ne_nil_of_id ha.inviteeKey)
  simp only [checkSignedAcceptance, detachedAcceptance, hblob, hsig, hscan, hkey, expect_some,
    ok_bind]
  exact publicKey_stops.bind fun _ _ => verify_stops

/-- The root key check stops for shallow reasons only. -/
private theorem checkRootKey_stops {i : Inception} (hi : i.Valid C (k + 1))
    (hk : k + 1 ≤ maxNesting) (hlen : (putEntries i.entries).length ≤ maxEventBytes)
    {es : List Entry} {authorKey : Bytes} :
    Stops Shallow (checkRootKey (validate C) ⟨d, k, es⟩ (putEntries i.entries) authorKey) := by
  obtain ⟨r, hr, hvalid⟩ := hi.root
  have hscan : scan (validate C) Descriptor.inception (putEntries i.entries) (k + 1) =
      .ok ⟨Descriptor.inception, k + 1, i.entries⟩ :=
    scan_of_admits wellFormed_inception hk ((admits_inception hlen).mpr ⟨i, hi, rfl⟩)
  have hroot : scan (validate C) r.descriptor r.encode (k + 1 + 1) =
      .ok ⟨r.descriptor, k + 1 + 1, r.entries⟩ :=
    scan_of_admits (root_wellFormed r) hi.depth (admits_root hvalid)
  simp only [checkRootKey, Scanned.subfields, hscan, ok_bind, inception_oneof hr, expect_some]
  cases r with
  | rawRoot raw =>
    simp only [Root.descriptor] at hroot
    simp only [Root.tag, rawRootTag, if_true, hroot, ok_bind]
    exact Stops.rejectIf fun _ => shallow_reject (by simp)
  | identityRoot root =>
    simp only [Root.descriptor] at hroot
    simp only [Root.tag, rawRootTag, show ¬ (11 = 10) by decide, if_false, hroot, ok_bind]
    exact Stops.rejectIf fun _ => shallow_reject (by simp)

/-- The check that an id is not the ledger's stops for shallow reasons only. -/
private theorem checkNotLedger_stops {p : Payload} (hvalid : p.Valid C (k + 1))
    (hk : k + 1 ≤ maxNesting) (hlen : p.encode.length ≤ maxEventBytes) {es : List Entry}
    {name : String} :
    Stops Shallow (checkNotLedger (validate C) ⟨d, k, es⟩ p.descriptor p.encode name) := by
  have hscan : scan (validate C) p.descriptor p.encode (k + 1) =
      .ok ⟨p.descriptor, k + 1, p.entries⟩ :=
    scan_of_admits (payload_wellFormed p) hk (admits_payload hvalid hlen)
  rw [checkNotLedger, Scanned.subfields, hscan, ok_bind]
  exact Stops.rejectIf fun _ => shallow_reject (by simp)

/-- The body's own checks stop for shallow reasons only. -/
private theorem checkEventBody_stops {es : List Entry}
    (hlen : (putEntries es).length ≤ maxEventBytes) (h : Tabled C Descriptor.eventBody k es) :
    Stops Shallow (checkEventBody (validate C) ⟨Descriptor.eventBody, k, es⟩) := by
  obtain ⟨m, p, ht, rfl⟩ := tabled_eventBody h
  have hplen : p.encode.length ≤ maxEventBytes := (payload_encode_lt ht.holds).le.trans hlen
  have hchain : Stops Shallow (checkChainFields ⟨Descriptor.eventBody, k, m.entries⟩) :=
    Stops.ite (fun _ => Stops.forM fun _ _ => Stops.rejectIf fun _ => shallow_reject (by simp))
      fun _ => Stops.forM fun _ _ => Stops.rejectIf fun _ => shallow_reject (by simp)
  simp only [checkEventBody, body_oneof ht.holds, body_authorKey ht.authorKey, expect_some,
    ok_bind]
  refine hchain.bind fun _ _ => ?_
  refine (Stops.rejectIf fun _ => shallow_reject (by simp)).bind fun _ _ => ?_
  refine (Stops.rejectIf fun _ => shallow_reject (by simp)).bind fun _ _ => ?_
  cases p with
  | inception i =>
    simp only [Payload.tag, inceptionTag, if_true]
    exact checkRootKey_stops ht.valid ht.depth hplen
  | trustAttestation a =>
    simp only [Payload.tag, inceptionTag, trustAttestationTag, show ¬ (12 = 10) by decide,
      if_false, if_true]
    exact checkNotLedger_stops ht.valid ht.depth hplen
  | membershipInvitation i =>
    simp only [Payload.tag, inceptionTag, trustAttestationTag, membershipInvitationTag,
      show ¬ (14 = 10) by decide, show ¬ (14 = 12) by decide, if_false, if_true]
    exact checkNotLedger_stops ht.valid ht.depth hplen
  | _ =>
    simp [Payload.tag, inceptionTag, trustAttestationTag, membershipInvitationTag]
    exact Stops.ok

/-! ## The whole validator -/

/-- Every descriptor of the event schema is well formed. -/
theorem eventDescriptors_wellFormed : ∀ d ∈ eventDescriptors, d.WellFormed := by
  simp only [eventDescriptors, List.forall_mem_cons]
  exact ⟨wellFormed_rawRoot, wellFormed_identityRoot, wellFormed_inception,
    wellFormed_witnessConfig, wellFormed_endpointAdvertisement, wellFormed_witnessSet,
    wellFormed_trustAttestation, wellFormed_trustRevocation, wellFormed_membershipInvitation,
    wellFormed_acceptance, wellFormed_membershipAcceptance, wellFormed_membershipRemoval,
    wellFormed_profileUpdate, wellFormed_eventBody, wellFormed_signedEvent, by simp⟩

/-- The field of a message that embeds an inception. -/
def MessageDescriptor.embedding (d : MessageDescriptor) : Option Nat :=
  match d.check with
  | some .identityRoot => some 3
  | some .membershipInvitation => some 4
  | _ => none

section Validator

variable {F : Fault WireError → Prop}

/-- A message stops where its scan does, where the counts of its fields do or where its
cross-field rule does. -/
theorem validate_stops (hd : d.WellFormed) (hF : ∀ e, Shallow e → F e)
    (hdeep : maxNesting < k → F (.reject .tooDeeplyNested)) {bytes : Bytes}
    (hR : StopsOn F (validate C) d k bytes)
    (hcheck : ∀ es, bytes = putEntries es → bytes.length ≤ d.maxBytes → Tabled C d k es →
      Stops F (runCheck C (validate C) ⟨d, k, es⟩)) :
    Stops F (validate C d bytes k) := by
  rw [validate_eq]
  refine (Stops.rejectIf fun _ => hF _ (shallow_reject (by simp))).bind fun _ hlen => ?_
  refine (scan_stops hd hF hdeep hR).bind fun sc hscan => ?_
  refine ((checkCardinality_stops sc).mono hF).bind fun _ hcard => ?_
  obtain ⟨-, es, rfl, hbytes, htable⟩ := (tabled_iff hd).mp ⟨hscan, hcard⟩
  exact (hcheck es hbytes (by simpa using hlen) htable).bind fun _ _ => Stops.ok

/-- The field that holds an embedded inception is present. -/
private theorem embedded_present {es : List Entry} {name : String}
    (h : FieldOk (validate C) d.name k (required n name Kinds.embeddedInception) (select n es)) :
    ∃ embedded, (Scanned.mk d k es).bytes n = some embedded ∧
      Carries (putEntries es) n embedded := by
  obtain ⟨embedded, hne, -, hslot⟩ := row_embedded.mp h
  have hbytes : (Scanned.mk d k es).bytes n = some embedded := bytes_some hslot hne
  exact ⟨embedded, hbytes, carries_putEntries.mpr (mem_of_bytes hbytes)⟩

/-- The cross-field rule of a message of an event finds every field it unwraps, and stops for
depth only inside the inception it embeds. -/
private theorem runCheck_stops (hF : ∀ e, Shallow e → F e) (hd : d ∈ eventDescriptors)
    {es : List Entry} (hlen : (putEntries es).length ≤ d.maxBytes) (h : Tabled C d k es)
    (hembed : ∀ n, d.embedding = some n → ∀ embedded, Carries (putEntries es) n embedded →
      Stops F (validate C Descriptor.signedEvent embedded (k + 1))) :
    Stops F (runCheck C (validate C) ⟨d, k, es⟩) := by
  simp only [eventDescriptors, List.mem_cons, List.not_mem_nil, or_false] at hd
  rcases hd with rfl | rfl | rfl | rfl | rfl | rfl | rfl | rfl | rfl | rfl | rfl | rfl | rfl |
    rfl | rfl
  · exact Stops.rejectIf fun _ => hF _ (shallow_reject (by simp))
  · obtain ⟨embedded, hfield, hcarries⟩ := embedded_present
      (h.fields (required 3 "founder_inception" Kinds.embeddedInception)
        (by simp [Descriptor.identityRoot]))
    exact checkEmbeddedInception_stops hF hfield (hembed 3 rfl embedded hcarries)
  · exact Stops.ok
  · exact Stops.ok
  · exact Stops.ok
  · exact Stops.ok
  · exact Stops.ok
  · exact Stops.ok
  · obtain ⟨embedded, hfield, hcarries⟩ := embedded_present
      (h.fields (required 4 "invitee_inception" Kinds.embeddedInception)
        (by simp [Descriptor.membershipInvitation]))
    exact checkEmbeddedInception_stops hF hfield (hembed 4 rfl embedded hcarries)
  · exact Stops.ok
  · exact (checkSignedAcceptance_stops rfl h).mono hF
  · exact Stops.ok
  · exact Stops.ok
  · exact (checkEventBody_stops hlen h).mono hF
  · exact Stops.ok

/-- A message of an event stops where a message it hands on or an inception it embeds does, or
for its own depth. -/
theorem validate_event_stops (hF : ∀ e, Shallow e → F e) (hd : d ∈ eventDescriptors)
    (hdeep : maxNesting < k → F (.reject .tooDeeplyNested)) {bytes : Bytes}
    (hR : StopsOn F (validate C) d k bytes)
    (hembed : ∀ n, d.embedding = some n → ∀ embedded, Carries bytes n embedded →
      Stops F (validate C Descriptor.signedEvent embedded (k + 1))) :
    Stops F (validate C d bytes k) :=
  validate_stops (eventDescriptors_wellFormed d hd) hF hdeep hR fun _ hbytes hlen h =>
    runCheck_stops hF hd (hbytes ▸ hlen) h (hbytes ▸ hembed)

end Validator

/-- No input below a length makes the validator panic; the induction is on the length. -/
private theorem validate_noPanic_below (C : Crypto) (n : Nat) : ∀ d ∈ eventDescriptors, ∀ bytes : Bytes,
    bytes.length < n → ∀ k, NoPanic (validate C d bytes k) := by
  induction n with
  | zero =>
    intro d _ bytes hlt
    omega
  | succ n ih =>
    intro d hd bytes hlt k
    let F : Fault WireError → Prop := fun e => ∀ site, e ≠ .panic site
    have hF : ∀ e, Shallow e → F e := fun e he site hsite => Shallow.not_panic site (hsite ▸ he)
    have hshort : ∀ d' ∈ eventDescriptors, ∀ slice : Bytes, slice.length < bytes.length →
        ∀ k', Stops F (validate C d' slice k') := fun d' hd' slice hslice k' e he site hsite =>
      ih d' hd' slice (by omega) k' site (hsite ▸ he)
    have hstops : Stops F (validate C d bytes k) := by
      refine validate_event_stops hF hd (by simp [F]) ?_ ?_
      · obtain ⟨subs, hsubs, hhands⟩ := eventDescriptors_closed d hd
        intro field hfield r hr slice hcarries
        have hmem : r ∈ d.hands k := List.mem_filterMap.mpr ⟨field, hfield, hr⟩
        rw [hhands] at hmem
        obtain ⟨sub, hsub, rfl⟩ := List.mem_map.mp hmem
        exact hshort sub (hsubs hsub) slice hcarries.length_lt _
      · intro n _ embedded hcarries
        exact hshort _ (by simp [eventDescriptors]) embedded hcarries.length_lt _
    exact hstops.noPanic fun site h => h site rfl

/-- The validator stops at no assertion on any string, at any depth. -/
theorem validate_noPanic (hd : d ∈ eventDescriptors) (bytes : Bytes) (k : Nat) :
    NoPanic (validate C d bytes k) :=
  validate_noPanic_below C (bytes.length + 1) d hd bytes (Nat.lt_succ_self _) k

/-- Every byte string is accepted or rejected as an event. -/
theorem signedEvent_noPanic (bytes : Bytes) : NoPanic (signedEvent C bytes) :=
  (validate_noPanic (by simp [eventDescriptors]) bytes 0).bind fun _ _ => NoPanic.ok

end Mabel.Validate
