import Mabel.Ledger.Artifacts
import Mabel.Ledger.Fold.Step
import Mabel.Ledger.Validate.Decode

/-!
# Artifacts read back

What reading accepts is the one spelling of what it answers, and what a constructor accepts
reads back, except for an identity descriptor built with a witness that occurs twice: reading
refuses a repeated witness and building does not look for one.
-/

namespace Mabel

open Wire Proto Validate

variable {C : Crypto}

/-! ## Events inside artifacts -/

/-- An accepted event is decoded and encodes back to itself. -/
theorem checkedEvent_of_accepted {ε : Type} {event : Bytes} (h : signedEvent C event = .ok ()) :
    ∃ m : SignedEvent, (checkedEvent event : Outcome ε SignedEvent) = .ok m ∧ m.encode = event := by
  obtain ⟨signed, body, payload, hopened⟩ := signedEvent_iff_opened.mp h
  refine ⟨signed, ?_, hopened.encode.symm⟩
  rw [checkedEvent, hopened.decode]
  rfl

/-- Accepted events are decoded and encode back to themselves. -/
theorem mapM_checkedEvent {ε : Type} {events : List Bytes}
    (h : ∀ event ∈ events, signedEvent C event = .ok ()) :
    ∃ ms : List SignedEvent, (events.mapM checkedEvent : Outcome ε (List SignedEvent)) = .ok ms ∧
      ms.map SignedEvent.encode = events := by
  induction events with
  | nil => exact ⟨[], rfl, rfl⟩
  | cons event events ih =>
    obtain ⟨m, hm, hencode⟩ := checkedEvent_of_accepted (ε := ε) (h event List.mem_cons_self)
    obtain ⟨ms, hms, hencodes⟩ := ih fun e he => h e (List.mem_cons_of_mem _ he)
    refine ⟨m :: ms, ?_, ?_⟩
    · rw [List.mapM_cons, hm, hms]
      rfl
    · rw [List.map_cons, hencode, hencodes]

theorem accepted_iff_validate {event : Bytes} :
    signedEvent C event = .ok () ↔ ∃ sc, validate C Descriptor.signedEvent event 0 = .ok sc := by
  simp [signedEvent, message, Outcome.bind_eq_ok]

/-- An accepted event is within the size limit. -/
theorem length_le_of_accepted {event : Bytes} (h : signedEvent C event = .ok ()) :
    event.length ≤ maxEventBytes := by
  obtain ⟨signed, body, payload, hopened⟩ := signedEvent_iff_opened.mp h
  exact hopened.size

/-- A detached event field admits exactly an accepted event. -/
theorem valueOk_event {n : Nat} {name message : String} {k : Nat} {cardinality : Cardinality}
    {v : Value} :
    ValueOk (validate C) message k ⟨n, name, cardinality, .detached Descriptor.signedEvent⟩ v ↔
      ∃ event, v = .bytes event ∧ signedEvent C event = .ok () := by
  cases v with
  | varint x => simp [ValueOk, FieldDescriptor.wireKind]
  | bytes event =>
    simp only [ValueOk, FieldDescriptor.wireKind, checkBytes, Outcome.bind_eq_ok,
      Value.bytes.injEq, exists_eq_left', true_and, and_true, accepted_iff_validate]
    constructor
    · exact fun h => h.2
    · intro h
      refine ⟨?_, h⟩
      exact (length_le_of_accepted (accepted_iff_validate.mpr h)).trans_lt (by decide)

/-! ## Invitation bundles -/

theorem wellFormed_invitationBundle : Descriptor.invitationBundle.WellFormed :=
  ⟨by decide, by decide⟩

/-- A bundle is admitted exactly as accepted events within its cap. -/
theorem admits_invitationBundle {k : Nat} {es : List Entry} :
    Admits C Descriptor.invitationBundle k es ↔ ∃ events : List Bytes,
      (1 ≤ events.length ∧ events.length ≤ maxBundleEvents ∧
        ∀ event ∈ events, signedEvent C event = .ok ()) ∧ es = repeatedField 1 events := by
  have hrow : ∀ {message : String} {es : List Entry},
      FieldOk (validate C) message k ⟨1, "ledger_prefix", .repeated 1 maxBundleEvents false,
        .detached Descriptor.signedEvent⟩ (select 1 es) ↔
      ∃ events : List Bytes, (1 ≤ events.length ∧ events.length ≤ maxBundleEvents ∧
        ∀ event ∈ events, signedEvent C event = .ok ()) ∧ select 1 es = repeatedField 1 events := by
    intro message es
    rw [fieldOk_repeated rfl]
    simp only [valueOk_event, Value.bytes.injEq, exists_eq_left', Bool.false_eq_true,
      false_implies, true_and]
    constructor
    · rintro ⟨events, hslot, hmin, hmax, hall⟩
      exact ⟨events, ⟨hmin, hmax, hall⟩, hslot⟩
    · rintro ⟨events, ⟨hmin, hmax, hall⟩, hslot⟩
      exact ⟨events, hslot, hmin, hmax, hall⟩
  constructor
  · rintro ⟨⟨hslots, hrows, -⟩, -⟩
    simp only [Descriptor.invitationBundle, List.forall_mem_cons, hrow] at hrows
    obtain ⟨⟨events, hevents, h1⟩, -⟩ := hrows
    refine ⟨events, hevents, ?_⟩
    rw [hslots]
    simp [Descriptor.invitationBundle, h1]
  · rintro ⟨events, hevents, rfl⟩
    have h1 : select 1 (repeatedField 1 events) = repeatedField 1 events := by simp
    refine ⟨⟨by simp [Slotted, Descriptor.invitationBundle], ?_,
      by simp [Descriptor.invitationBundle]⟩, rfl⟩
    simp only [Descriptor.invitationBundle, List.forall_mem_cons, hrow]
    exact ⟨⟨events, hevents, h1⟩, by simp⟩

namespace InvitationBundle

/-- A bundle of accepted events is written as its events. -/
theorem write_of_accepted {ε : Type} {events : List Bytes}
    (h : ∀ event ∈ events, signedEvent C event = .ok ()) :
    (write ⟨events⟩ : Outcome ε Bytes) = .ok (putEntries (repeatedField 1 events)) := by
  obtain ⟨ms, hms, hencodes⟩ := mapM_checkedEvent (ε := ε) h
  rw [write, hms, Outcome.ok_bind, Proto.InvitationBundle.entries, hencodes]

/-- What reading a bundle accepts. -/
theorem read_eq_ok {bytes : Bytes} {bundle : InvitationBundle} :
    read C bytes = .ok bundle ↔ bytes.length ≤ maxInvitationBundleBytes ∧
      1 ≤ bundle.events.length ∧ bundle.events.length ≤ maxBundleEvents ∧
      (∀ event ∈ bundle.events, signedEvent C event = .ok ()) ∧
      bytes = putEntries (repeatedField 1 bundle.events) := by
  simp only [read, messageFields, Outcome.bind_eq_ok, Outcome.mapReject_eq_ok,
    validate_iff wellFormed_invitationBundle, admits_invitationBundle]
  have hevents : ∀ events : List Bytes, (Scanned.mk Descriptor.invitationBundle 0
      (repeatedField 1 events)).repeatedBytes 1 = events := by
    intro events
    rw [Scanned.repeatedBytes, repeatedField, List.filterMap_map]
    simp [Function.comp_def, bytesAt]
  constructor
  · rintro ⟨_, ⟨hlen, -, es, rfl, hbytes, events, ⟨hmin, hmax, hall⟩, rfl⟩, hok⟩
    rw [hevents] at hok
    obtain rfl := Except.ok.inj hok
    exact ⟨hlen, hmin, hmax, hall, hbytes⟩
  · rintro ⟨hlen, hmin, hmax, hall, hbytes⟩
    refine ⟨_, ⟨hlen, Nat.zero_le _, _, rfl, hbytes, bundle.events, ⟨hmin, hmax, hall⟩, rfl⟩, ?_⟩
    rw [hevents]

/-- What a built bundle holds. -/
theorem new_eq_ok {events : List Bytes} {bundle : InvitationBundle}
    (h : new C events = .ok bundle) : bundle.events = events ∧ 1 ≤ events.length ∧
      events.length ≤ maxBundleEvents ∧ (∀ event ∈ events, signedEvent C event = .ok ()) ∧
      (putEntries (repeatedField 1 events)).length ≤ maxInvitationBundleBytes := by
  simp only [new, Outcome.bind_eq_ok, Outcome.rejectIf_eq_ok] at h
  obtain ⟨_, hne, _, hmax, _, hall, bytes, hwrite, _, hcap, hok⟩ := h
  have hevents : ∀ event ∈ events, signedEvent C event = .ok () := by
    intro event hevent
    have := (Outcome.forM_eq_ok.mp hall) event hevent
    simpa [Outcome.mapReject_eq_ok] using this
  rw [write_of_accepted hevents] at hwrite
  obtain rfl := Except.ok.inj hwrite
  obtain rfl := Except.ok.inj hok
  rw [Outcome.mapReject_eq_ok, cap, Outcome.rejectIf_eq_ok] at hcap
  exact ⟨rfl, List.length_pos_iff.mpr hne, not_lt.mp hmax, hevents, not_lt.mp hcap⟩

/-- A bundle is what its file reads as. -/
def Rereads (C : Crypto) (bundle : InvitationBundle) : Prop :=
  ∃ bytes, (bundle.write : Outcome Empty Bytes) = .ok bytes ∧ read C bytes = .ok bundle

/-- A built bundle is read back as it is. -/
theorem rereads_of_new {events : List Bytes} {bundle : InvitationBundle}
    (h : new C events = .ok bundle) : bundle.Rereads C := by
  obtain ⟨hevents, hmin, hmax, hall, hcap⟩ := new_eq_ok h
  subst hevents
  exact ⟨_, write_of_accepted hall, read_eq_ok.mpr ⟨hcap, hmin, hmax, hall, rfl⟩⟩

/-- A bundle that was read is written as the bytes it was read from. -/
theorem write_of_read {bytes : Bytes} {bundle : InvitationBundle}
    (h : read C bytes = .ok bundle) : (bundle.write : Outcome Empty Bytes) = .ok bytes := by
  obtain ⟨-, -, -, hall, rfl⟩ := read_eq_ok.mp h
  exact write_of_accepted hall

end InvitationBundle

/-! ## Acceptance files -/

theorem wellFormed_acceptanceFile : Descriptor.acceptanceFile.WellFormed := ⟨by decide, by decide⟩

/-- An acceptance file is admitted exactly as a valid acceptance's entries. -/
theorem admits_acceptanceFile {k : Nat} {es : List Entry} :
    Admits C Descriptor.acceptanceFile k es ↔
      ∃ m : MembershipAcceptance, m.Valid C k ∧ es = m.entries := by
  refine admits_signedAcceptance "AcceptanceFile" rfl rfl fun sc hsc => ?_
  rw [runCheck, hsc]
  rfl

/-- An acceptance file that was read is written as the bytes it was read from. -/
theorem AcceptanceFile.write_of_read {bytes : Bytes} {file : AcceptanceFile C}
    (h : AcceptanceFile.read C bytes = .ok file) : file.write = bytes := by
  simp only [AcceptanceFile.read, messageFields, Outcome.bind_eq_ok, Outcome.mapReject_eq_ok,
    validate_iff wellFormed_acceptanceFile, admits_acceptanceFile, Outcome.expect_eq_ok,
    Block.ofBytes?_eq_some] at h
  obtain ⟨_, ⟨-, -, es, rfl, rfl, m, hm, rfl⟩, acceptance, hblob, signature, hsignature, blob, -,
    _, -, sig, rfl, _, -, _, -, _, -, _, -, hok⟩ := h
  obtain rfl := Except.ok.inj hok
  obtain ⟨a, ha, hacceptance, hsigned⟩ := hm.blob
  have hne : m.acceptance ≠ [] := by
    rw [hacceptance]
    exact List.ne_nil_of_length_pos (by rw [Acceptance.length_encode ha]; decide)
  have hsig : m.signature ≠ [] := by
    obtain ⟨_, s, -, hs, -⟩ := hsigned
    rw [hs]
    exact List.ne_nil_of_length_pos (by rw [s.length_eq]; decide)
  rw [bytes_some (by simp [MembershipAcceptance.entries]) hne] at hblob
  rw [bytes_some (by simp [MembershipAcceptance.entries]) hsig] at hsignature
  obtain rfl := Option.some.inj hblob
  rw [AcceptanceFile.write, ← Option.some.inj hsignature]
  rfl

/-! ## Identity descriptors -/

theorem wellFormed_identityDescriptor : Descriptor.identityDescriptor.WellFormed :=
  ⟨by decide, by decide⟩

/-- An identity descriptor is admitted exactly as an accepted inception and distinct ids. -/
theorem admits_identityDescriptor {k : Nat} {es : List Entry} :
    Admits C Descriptor.identityDescriptor k es ↔ ∃ (inception : Bytes) (ids : List Bytes),
      signedEvent C inception = .ok () ∧ IdsOk 0 maxWitnesses ids ∧
        es = messageField 1 inception ++ repeatedField 2 ids := by
  have hrow : ∀ {message : String} {es : List Entry},
      FieldOk (validate C) message k (required 1 "inception" (.detached Descriptor.signedEvent))
        (select 1 es) ↔
      ∃ inception, signedEvent C inception = .ok () ∧ select 1 es = messageField 1 inception := by
    intro message es
    rw [fieldOk_required]
    simp only [required, valueOk_event]
    constructor
    · rintro ⟨_, hslot, inception, rfl, haccepted⟩
      exact ⟨inception, haccepted, hslot⟩
    · rintro ⟨inception, haccepted, hslot⟩
      exact ⟨_, hslot, inception, rfl, haccepted⟩
  constructor
  · rintro ⟨⟨hslots, hrows, -⟩, -⟩
    simp only [Descriptor.identityDescriptor, List.forall_mem_cons, required_number, hrow,
      row_repeated_id] at hrows
    obtain ⟨⟨inception, haccepted, h1⟩, ⟨ids, ⟨hmin, hmax, hnodup, hlen⟩, h2⟩, -⟩ := hrows
    refine ⟨inception, ids, haccepted, ⟨hmin, hmax, hnodup, hlen⟩, ?_⟩
    rw [hslots]
    simp [Descriptor.identityDescriptor, h1, h2]
  · rintro ⟨inception, ids, haccepted, ⟨hmin, hmax, hnodup, hlen⟩, rfl⟩
    have h1 : select 1 (messageField 1 inception ++ repeatedField 2 ids) =
        messageField 1 inception := by simp
    have h2 : select 2 (messageField 1 inception ++ repeatedField 2 ids) =
        repeatedField 2 ids := by simp
    refine ⟨⟨?_, ?_, by simp [Descriptor.identityDescriptor]⟩, rfl⟩
    · simp only [Slotted, Descriptor.identityDescriptor, List.flatMap_cons, List.flatMap_nil,
        required_number, h1, h2, List.append_nil]
    · simp only [Descriptor.identityDescriptor, List.forall_mem_cons, required_number, hrow,
        row_repeated_id]
      exact ⟨⟨inception, haccepted, h1⟩, ⟨ids, ⟨hmin, hmax, hnodup, hlen⟩, h2⟩, by simp⟩

namespace IdentityDescriptor

/-- A witness is read from exactly its own bytes. -/
theorem readWitness_eq_ok {witness : Bytes} {key : EndpointId C} :
    readWitness C witness = .ok key ↔ witness = key.asBytes := by
  simp only [readWitness, Outcome.bind_eq_ok, Outcome.expect_eq_ok, Outcome.orReject_eq_ok,
    Block.ofBytes?_eq_some]
  constructor
  · rintro ⟨raw, rfl, hkey⟩
    rw [PublicKey.fromBytes_eq_some.mp hkey, PublicKey.asBytes]
  · rintro rfl
    exact ⟨key.raw, rfl, PublicKey.fromBytes_raw key⟩

/-- Witnesses are read from exactly their own bytes. -/
theorem mapM_readWitness_eq_ok {ids : List Bytes} {witnesses : List (EndpointId C)} :
    ids.mapM (readWitness C) = .ok witnesses ↔ ids = witnesses.map PublicKey.asBytes := by
  induction ids generalizing witnesses with
  | nil =>
    rw [List.mapM_nil]
    constructor
    · intro h
      rw [← Except.ok.inj h]
      rfl
    · intro h
      rw [List.map_eq_nil_iff.mp h.symm]
      rfl
  | cons id ids ih =>
    rw [List.mapM_cons]
    simp only [Outcome.bind_eq_ok, readWitness_eq_ok]
    constructor
    · rintro ⟨key, rfl, keys, hkeys, hok⟩
      rw [← Except.ok.inj hok, List.map_cons, ih.mp hkeys]
    · intro h
      cases witnesses with
      | nil => cases h
      | cons key keys =>
        obtain ⟨hkey, hkeys⟩ := List.cons.inj h
        exact ⟨key, hkey, keys, ih.mpr hkeys, rfl⟩

/-- The bytes of a descriptor whose inception was accepted. -/
theorem write_of_accepted {ε : Type} {descriptor : IdentityDescriptor C}
    (h : signedEvent C descriptor.inception = .ok ()) :
    (descriptor.write : Outcome ε Bytes) = .ok (putEntries (messageField 1 descriptor.inception ++
      repeatedField 2 (descriptor.witnesses.map PublicKey.asBytes))) := by
  obtain ⟨m, hm, hencode⟩ := checkedEvent_of_accepted (ε := ε) h
  rw [write, hm, Outcome.ok_bind, Proto.IdentityDescriptor.entries]
  dsimp only
  rw [hencode]

/-- An event the fold takes is accepted. -/
theorem accepted_of_fold {event : Bytes} {s : LedgerState C}
    (h : fold C [event] = .ok (s, none)) : signedEvent C event = .ok () := by
  rw [fold, foldFrom] at h
  cases happly : LedgerState.default.apply event with
  | ok s' =>
    obtain ⟨st⟩ := apply_iff.mp happly
    exact st.opened.accepted
  | error e =>
    rw [happly] at h
    cases e <;> cases h

/-- What a descriptor built from its parts holds. -/
theorem fromParts_eq_ok {inception : Bytes} {witnesses : List (EndpointId C)}
    {descriptor : IdentityDescriptor C} (h : fromParts inception witnesses = .ok descriptor) :
    descriptor.inception = inception ∧ descriptor.witnesses = witnesses ∧
      signedEvent C inception = .ok () ∧ (putEntries (messageField 1 inception ++
        repeatedField 2 (witnesses.map PublicKey.asBytes))).length ≤ maxIdentityDescriptorBytes := by
  simp only [fromParts, Outcome.bind_eq_ok, Outcome.mapReject_eq_ok] at h
  obtain ⟨⟨s, violation⟩, hfold, h⟩ := h
  cases violation with
  | some violation => cases h
  | none =>
    simp only [Outcome.bind_eq_ok, Outcome.mapReject_eq_ok, cap, Outcome.rejectIf_eq_ok] at h
    obtain ⟨_, -, _, -, _, -, bytes, hwrite, _, hcap, hok⟩ := h
    have haccepted := accepted_of_fold hfold
    rw [write_of_accepted haccepted] at hwrite
    obtain rfl := Except.ok.inj hwrite
    obtain rfl := Except.ok.inj hok
    exact ⟨rfl, rfl, haccepted, not_lt.mp hcap⟩

/-- What reading a descriptor accepts. -/
theorem read_eq_ok {bytes : Bytes} {descriptor : IdentityDescriptor C} :
    read C bytes = .ok descriptor ↔
      (fromParts descriptor.inception descriptor.witnesses = .ok descriptor ∧
      IdsOk 0 maxWitnesses (descriptor.witnesses.map PublicKey.asBytes)) ∧
      bytes = putEntries (messageField 1 descriptor.inception ++
        repeatedField 2 (descriptor.witnesses.map PublicKey.asBytes)) := by
  simp only [read, messageFields, Outcome.bind_eq_ok, Outcome.mapReject_eq_ok,
    validate_iff wellFormed_identityDescriptor, admits_identityDescriptor, Outcome.expect_eq_ok,
    mapM_readWitness_eq_ok]
  have hfirst : ∀ (inception : Bytes) (ids : List Bytes),
      (Scanned.mk Descriptor.identityDescriptor 0
        (messageField 1 inception ++ repeatedField 2 ids)).bytes 1 = some inception := by
    intro inception ids
    simp [Scanned.bytes, messageField, bytesAt]
  have hids : ∀ (inception : Bytes) (ids : List Bytes),
      (Scanned.mk Descriptor.identityDescriptor 0
        (messageField 1 inception ++ repeatedField 2 ids)).repeatedBytes 2 = ids := by
    intro inception ids
    rw [Scanned.repeatedBytes, List.filterMap_append, repeatedField, List.filterMap_map]
    simp [Function.comp_def, messageField, bytesAt]
  constructor
  · rintro ⟨_, ⟨-, -, es, rfl, hbytes, inception, ids, haccepted, hok, rfl⟩, inception', hget,
      witnesses, hwitnesses, hparts⟩
    rw [hfirst] at hget
    rw [hids] at hwitnesses
    obtain rfl := Option.some.inj hget
    obtain ⟨hinception, hsame, -, -⟩ := fromParts_eq_ok hparts
    subst hinception hsame hwitnesses
    exact ⟨⟨hparts, hok⟩, hbytes⟩
  · rintro ⟨⟨hparts, hok⟩, hbytes⟩
    obtain ⟨-, -, haccepted, hcap⟩ := fromParts_eq_ok hparts
    refine ⟨_, ⟨hbytes ▸ hcap, Nat.zero_le _, _, rfl, hbytes, _, _, haccepted, hok, rfl⟩, _,
      hfirst _ _, _, hids _ _, hparts⟩

/-- A descriptor is what its file reads as. -/
def Rereads (descriptor : IdentityDescriptor C) : Prop :=
  ∃ bytes, (descriptor.write : Outcome Empty Bytes) = .ok bytes ∧ read C bytes = .ok descriptor

/-- An endpoint is known by its bytes. -/
theorem asBytes_injective : Function.Injective (PublicKey.asBytes : PublicKey C → Bytes) := by
  intro a b h
  have ha := readWitness_eq_ok.mpr (rfl : a.asBytes = a.asBytes)
  have hb := readWitness_eq_ok.mpr h
  exact Except.ok.inj (ha.symm.trans hb)

/-- A descriptor that was built reads back exactly when no witness occurs twice. -/
theorem rereads_iff {inception : Bytes} {witnesses : List (EndpointId C)}
    {descriptor : IdentityDescriptor C} (h : new C inception witnesses = .ok descriptor) :
    descriptor.Rereads ↔ witnesses.Nodup := by
  simp only [new, Outcome.bind_eq_ok, Outcome.rejectIf_eq_ok] at h
  obtain ⟨_, hmax, hparts⟩ := h
  obtain ⟨hinception, hwitnesses, haccepted, -⟩ := fromParts_eq_ok hparts
  subst hinception hwitnesses
  have hwrite := write_of_accepted (ε := Empty) haccepted
  constructor
  · rintro ⟨bytes, -, hread⟩
    obtain ⟨⟨-, hok⟩, -⟩ := read_eq_ok.mp hread
    exact (List.nodup_map_iff asBytes_injective).mp hok.distinct
  · intro hnodup
    refine ⟨_, hwrite, read_eq_ok.mpr ⟨⟨hparts, Nat.zero_le _, ?_, ?_, ?_⟩, rfl⟩⟩
    · rw [List.length_map]
      exact not_lt.mp hmax
    · exact (List.nodup_map_iff asBytes_injective).mpr hnodup
    · intro id hid
      obtain ⟨key, -, rfl⟩ := List.mem_map.mp hid
      exact key.raw.length_eq

/-- A descriptor that was read is written as the bytes it was read from. -/
theorem write_of_read {bytes : Bytes} {descriptor : IdentityDescriptor C}
    (h : read C bytes = .ok descriptor) :
    (descriptor.write : Outcome Empty Bytes) = .ok bytes := by
  obtain ⟨⟨hparts, -⟩, rfl⟩ := read_eq_ok.mp h
  obtain ⟨-, -, haccepted, -⟩ := fromParts_eq_ok hparts
  exact write_of_accepted haccepted

end IdentityDescriptor

/-! ## Round trips -/

/-- Every artifact that was read is what its file spells, and every artifact that was read or
built reads back, a built identity descriptor exactly when no witness occurs twice. -/
theorem artifacts_read_back :
    (∀ events bundle, InvitationBundle.new C events = .ok bundle → bundle.Rereads C) ∧
    (∀ bytes bundle, InvitationBundle.read C bytes = .ok bundle →
      (bundle.write : Outcome Empty Bytes) = .ok bytes ∧ bundle.Rereads C) ∧
    (∀ accepted file, AcceptanceFile.new C accepted = .ok file →
      AcceptanceFile.read C file.write = .ok file) ∧
    (∀ bytes file, AcceptanceFile.read C bytes = .ok file →
      file.write = bytes ∧ AcceptanceFile.read C file.write = .ok file) ∧
    (∀ inception witnesses descriptor,
      IdentityDescriptor.new C inception witnesses = .ok descriptor →
        (descriptor.Rereads ↔ witnesses.Nodup)) ∧
    ∀ bytes descriptor, IdentityDescriptor.read C bytes = .ok descriptor →
      (descriptor.write : Outcome Empty Bytes) = .ok bytes ∧ descriptor.Rereads := by
  have hfile : ∀ bytes file, AcceptanceFile.read C bytes = .ok file →
      file.write = bytes ∧ AcceptanceFile.read C file.write = .ok file := by
    intro bytes file h
    have hwrite := AcceptanceFile.write_of_read h
    exact ⟨hwrite, hwrite ▸ h⟩
  refine ⟨fun _ _ => InvitationBundle.rereads_of_new, ?_, ?_, hfile,
    fun _ _ _ => IdentityDescriptor.rereads_iff, ?_⟩
  · intro bytes bundle h
    have hwrite := InvitationBundle.write_of_read h
    exact ⟨hwrite, bytes, hwrite, h⟩
  · intro accepted file h
    exact (hfile _ file h).2
  · intro bytes descriptor h
    have hwrite := IdentityDescriptor.write_of_read h
    exact ⟨hwrite, bytes, hwrite, h⟩

/-- A descriptor that names one witness twice is built, and its file is refused. -/
theorem repeated_witness_unreadable :
    (IdentityDescriptor.new Crypto.sample (sampleLedger.getD 0 [])
      [(SecretKey.sample 7).publicKey, (SecretKey.sample 7).publicKey]).toBool = true ∧
    (do
      let descriptor ← IdentityDescriptor.new Crypto.sample (sampleLedger.getD 0 [])
        [(SecretKey.sample 7).publicKey, (SecretKey.sample 7).publicKey]
      let bytes ← descriptor.write
      IdentityDescriptor.read Crypto.sample bytes) =
        Outcome.reject (.wire (.repeatedDuplicate "IdentityDescriptor" "witnesses")) := by
  decide +kernel

end Mabel
