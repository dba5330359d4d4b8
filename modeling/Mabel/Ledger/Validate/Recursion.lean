import Mabel.Ledger.Validate.Grammar

/-!
# Closing the validator's recursion

The step calls the validator it is given on strictly shorter strings only, so the bound
that closes the recursion is never reached and the closed validator is a fixed point of
the step. Every later result uses that equation and none mentions the bound.
-/

namespace Mabel.Validate

open Wire

/-! ## What a message hands on -/

/-- What a field's value is validated as, and the depth it is validated at. -/
def handed (k : Nat) : Kind → Option (MessageDescriptor × Nat)
  | .nested d _ | .message d => some (d, k + 1)
  | .detached d => some (d, 0)
  | _ => none

/-- The messages a message at a depth hands to the validator, with their depths. -/
def MessageDescriptor.hands (d : MessageDescriptor) (k : Nat) : List (MessageDescriptor × Nat) :=
  d.fields.filterMap fun field => handed k field.kind

/-- The messages an event is made of. -/
def eventDescriptors : List MessageDescriptor :=
  [Descriptor.rawRoot, Descriptor.identityRoot, Descriptor.inception, Descriptor.witnessConfig,
    Descriptor.endpointAdvertisement, Descriptor.witnessSet, Descriptor.trustAttestation,
    Descriptor.trustRevocation, Descriptor.membershipInvitation, Descriptor.acceptance,
    Descriptor.membershipAcceptance, Descriptor.membershipRemoval, Descriptor.profileUpdate,
    Descriptor.eventBody, Descriptor.signedEvent]

/-- A message of an event hands on messages of an event only, one level deeper. -/
theorem eventDescriptors_closed : ∀ d ∈ eventDescriptors, ∃ subs : List MessageDescriptor,
    subs ⊆ eventDescriptors ∧ ∀ k, d.hands k = subs.map fun sub => (sub, k + 1) := by
  have hinception : [Descriptor.rawRoot, Descriptor.identityRoot] ⊆ eventDescriptors := by
    simp [eventDescriptors]
  have hacceptance : [Descriptor.acceptance] ⊆ eventDescriptors := by simp [eventDescriptors]
  have hbody : [Descriptor.inception, Descriptor.witnessConfig, Descriptor.trustAttestation,
      Descriptor.trustRevocation, Descriptor.membershipInvitation, Descriptor.membershipAcceptance,
      Descriptor.membershipRemoval, Descriptor.profileUpdate, Descriptor.endpointAdvertisement,
      Descriptor.witnessSet] ⊆ eventDescriptors := by simp [eventDescriptors]
  have hsigned : [Descriptor.eventBody] ⊆ eventDescriptors := by simp [eventDescriptors]
  intro d hd
  simp only [eventDescriptors, List.mem_cons, List.not_mem_nil, or_false] at hd
  rcases hd with rfl | rfl | rfl | rfl | rfl | rfl | rfl | rfl | rfl | rfl | rfl | rfl | rfl |
    rfl | rfl
  · exact ⟨[], List.nil_subset _, fun _ => rfl⟩
  · exact ⟨[], List.nil_subset _, fun _ => rfl⟩
  · exact ⟨_, hinception, fun _ => rfl⟩
  · exact ⟨[], List.nil_subset _, fun _ => rfl⟩
  · exact ⟨[], List.nil_subset _, fun _ => rfl⟩
  · exact ⟨[], List.nil_subset _, fun _ => rfl⟩
  · exact ⟨[], List.nil_subset _, fun _ => rfl⟩
  · exact ⟨[], List.nil_subset _, fun _ => rfl⟩
  · exact ⟨[], List.nil_subset _, fun _ => rfl⟩
  · exact ⟨[], List.nil_subset _, fun _ => rfl⟩
  · exact ⟨_, hacceptance, fun _ => rfl⟩
  · exact ⟨[], List.nil_subset _, fun _ => rfl⟩
  · exact ⟨[], List.nil_subset _, fun _ => rfl⟩
  · exact ⟨_, hbody, fun _ => rfl⟩
  · exact ⟨_, hsigned, fun _ => rfl⟩

/-- What a validator is asked: messages at depths. -/
abbrev Scope := MessageDescriptor → Nat → Prop

/-- A scope covers a message at a depth when it has all the message hands on. -/
def Scope.Covers (S : Scope) (d : MessageDescriptor) (k : Nat) : Prop :=
  ∀ r ∈ d.hands k, S r.1 r.2

/-- A scope reaches below a depth when it has every message of an event at every greater one. -/
def Scope.Below (S : Scope) (k : Nat) : Prop := ∀ d ∈ eventDescriptors, ∀ k', k < k' → S d k'

theorem Scope.Below.mono {S : Scope} {k k' : Nat} (h : S.Below k) (hk : k ≤ k') : S.Below k' :=
  fun d hd _ hlt => h d hd _ (hk.trans_lt hlt)

/-- A scope below a depth covers every event descriptor there. -/
theorem Scope.Below.covers {S : Scope} {k : Nat} (h : S.Below k) {d : MessageDescriptor}
    (hd : d ∈ eventDescriptors) : S.Covers d k := by
  obtain ⟨subs, hsubs, hhands⟩ := eventDescriptors_closed d hd
  intro r hr
  rw [hhands] at hr
  obtain ⟨sub, hsub, rfl⟩ := List.mem_map.mp hr
  exact h sub (hsubs hsub) _ (Nat.lt_succ_self k)

/-- Two validators answer alike within a scope, on strings shorter than a bound. -/
def AgreeWithin (S : Scope) (n : Nat) (R R' : Validator) : Prop :=
  ∀ d bytes k, S d k → bytes.length < n → R d bytes k = R' d bytes k

/-- Every slice of a scan is shorter than a bound. -/
def SlicesBelow (n : Nat) (es : List Entry) : Prop :=
  ∀ number slice, (number, Value.bytes slice) ∈ es → slice.length < n

/-- A validator hands back slices of its input. -/
def Slicing (R : Validator) : Prop :=
  ∀ d bytes k sc, R d bytes k = .ok sc → SlicesBelow bytes.length sc.entries

theorem SlicesBelow.mono {m n : Nat} {es : List Entry} (h : SlicesBelow m es) (hmn : m ≤ n) :
    SlicesBelow n es := fun number slice hmem => (h number slice hmem).trans_le hmn

/-! ## What a scan hands back -/

/-- Reading a varint consumes bytes. -/
theorem readVarint_shorter {message : String} {bytes : Bytes} {r : Nat × Bytes}
    (h : readVarint message bytes = .ok r) : r.2.length < bytes.length := by
  obtain ⟨-, rfl⟩ := readVarint_eq_ok.mp h
  have := List.length_pos_iff.mpr (putVarint_ne_nil r.1)
  rw [List.length_append]
  omega

/-- Reading a record consumes bytes and hands on a slice of them. -/
theorem scanRecord_shorter {R : Validator} {d : MessageDescriptor} {k last : Nat}
    {es : List Entry} {bytes rest : Bytes} {e : Entry}
    (h : scanRecord R d k es last bytes = .ok (e, rest)) :
    rest.length < bytes.length ∧ SlicesBelow bytes.length [e] := by
  simp only [scanRecord, Outcome.bind_eq_ok, Prod.exists] at h
  obtain ⟨key, mid, hkey, _, -, _, -, _, -, _, -, v, rest', hv, h⟩ := h
  have hmid := readVarint_shorter hkey
  obtain ⟨-, rfl⟩ := scanValue_eq_ok.mp hv
  simp only [Except.ok.injEq, Prod.mk.injEq] at h
  obtain ⟨rfl, rfl⟩ := h
  simp only [List.length_append] at hmid
  refine ⟨by omega, ?_⟩
  intro number slice hmem
  obtain ⟨-, rfl⟩ := Prod.mk.injEq .. ▸ List.mem_singleton.mp hmem
  simp only [putValue, List.length_append] at hmid
  omega

/-- Every slice a scan collects is shorter than what it scans. -/
private theorem scanRecords_slices {R : Validator} {d : MessageDescriptor} {k n : Nat} :
    ∀ (fuel : Nat) (es : List Entry) (last : Nat) (bytes : Bytes) (all : List Entry),
      bytes.length ≤ n → SlicesBelow n es →
      scanRecords R d k fuel es last bytes = .ok all → SlicesBelow n all := by
  intro fuel
  induction fuel with
  | zero =>
    intro es last bytes all _ hes h
    cases bytes with
    | nil => exact Except.ok.inj h ▸ hes
    | cons byte bytes => simp [scanRecords] at h
  | succ fuel ih =>
    intro es last bytes all hlen hes h
    cases bytes with
    | nil => exact Except.ok.inj h ▸ hes
    | cons byte bytes =>
      simp only [scanRecords, Outcome.bind_eq_ok] at h
      obtain ⟨⟨e, rest⟩, hrec, hrest⟩ := h
      obtain ⟨hshort, hslice⟩ := scanRecord_shorter hrec
      refine ih _ _ _ _ (hshort.le.trans hlen) ?_ hrest
      intro number slice hmem
      rcases List.mem_append.mp hmem with hmem | hmem
      · exact hes number slice hmem
      · exact (hslice.mono hlen) number slice hmem

/-- The slices of a scan are shorter than its input. -/
theorem scan_slices {R : Validator} {d : MessageDescriptor} {k : Nat} {bytes : Bytes}
    {sc : Scanned} (h : scan R d bytes k = .ok sc) : SlicesBelow bytes.length sc.entries := by
  simp only [scan, Outcome.bind_eq_ok] at h
  obtain ⟨_, -, es, hes, h⟩ := h
  rw [← Except.ok.inj h]
  exact scanRecords_slices _ _ _ _ _ le_rfl (fun _ _ hmem => by simp at hmem) hes

/-- A scan keeps the depth it was given. -/
theorem scan_depth {R : Validator} {d : MessageDescriptor} {k : Nat} {bytes : Bytes}
    {sc : Scanned} (h : scan R d bytes k = .ok sc) : sc.depth = k := by
  simp only [scan, Outcome.bind_eq_ok] at h
  obtain ⟨_, -, es, -, hok⟩ := h
  rw [← Except.ok.inj hok]

/-- Bytes read off a field are an entry's. -/
theorem mem_of_bytes {sc : Scanned} {number : Nat} {slice : Bytes}
    (h : sc.bytes number = some slice) : (number, Value.bytes slice) ∈ sc.entries := by
  obtain ⟨⟨found, v⟩, hmem, he⟩ := List.exists_of_findSome?_eq_some h
  cases v with
  | varint n => simp [bytesAt] at he
  | bytes s =>
    simp only [bytesAt] at he
    split_ifs at he with hfound
    rwa [← hfound, ← Option.some.inj he]

/-- The variant read off a scan is an entry's. -/
theorem mem_of_oneof {sc : Scanned} {r : Nat × Bytes} (h : sc.oneof = some r) :
    (r.1, Value.bytes r.2) ∈ sc.entries := by
  obtain ⟨⟨found, v⟩, hmem, he⟩ := List.exists_of_findSome?_eq_some h
  cases v with
  | varint n => simp at he
  | bytes s =>
    simp only at he
    split_ifs at he
    rwa [← Option.some.inj he]

/-! ## Only what a message hands on is validated -/

section Congruence

variable {S : Scope} {n k : Nat} {R R' : Validator}

/-- Validators that agree on shorter slices check bytes alike. -/
theorem checkBytes_congr (h : AgreeWithin S n R R') {field : Field}
    (hS : ∀ r, handed k field.kind = some r → S r.1 r.2) (message : String) {slice : Bytes}
    (hlt : slice.length < n) :
    checkBytes R field message slice k = checkBytes R' field message slice k := by
  unfold checkBytes
  cases hkind : field.kind with
  | nested d max =>
    have hd : S d (k + 1) := hS (d, k + 1) (by rw [hkind]; rfl)
    simp only [h d slice _ hd hlt]
  | message d =>
    have hd : S d (k + 1) := hS (d, k + 1) (by rw [hkind]; rfl)
    simp only [h d slice _ hd hlt]
  | detached d =>
    have hd : S d 0 := hS (d, 0) (by rw [hkind]; rfl)
    simp only [h d slice _ hd hlt]
  | _ => rfl

/-- Validators that agree on shorter slices read a value alike. -/
private theorem scanValue_congr (h : AgreeWithin S n R R') {field : Field}
    (hS : ∀ r, handed k field.kind = some r → S r.1 r.2) (message : String) {bytes : Bytes}
    (hlt : bytes.length < n) :
    scanValue R message k field bytes = scanValue R' message k field bytes := by
  refine Outcome.bind_congr fun ⟨value, rest⟩ hr => ?_
  have hrest : rest.length < bytes.length := readVarint_shorter hr
  have hslice : (rest.take value).length < n := by
    rw [List.length_take]
    omega
  simp only [checkBytes_congr h hS message hslice]

/-- Validators that agree on shorter slices read a record alike. -/
private theorem scanRecord_congr {d : MessageDescriptor} (h : AgreeWithin S n R R')
    (hS : S.Covers d k) (last : Nat) (es : List Entry) {bytes : Bytes} (hle : bytes.length ≤ n) :
    scanRecord R d k es last bytes = scanRecord R' d k es last bytes := by
  refine Outcome.bind_congr fun ⟨key, rest⟩ hr => ?_
  have hrest : rest.length < bytes.length := readVarint_shorter hr
  refine Outcome.bind_congr fun field hfield => ?_
  have hmem : field ∈ d.fields := List.mem_of_find?_eq_some (Outcome.orReject_eq_ok.mp hfield)
  have hfieldS : ∀ r, handed k field.kind = some r → S r.1 r.2 := fun r hr =>
    hS r (List.mem_filterMap.mpr ⟨field, hmem, hr⟩)
  simp only [scanValue_congr h hfieldS d.name (hrest.trans_le hle)]

/-- Validators that agree on shorter slices read records alike. -/
private theorem scanRecords_congr {d : MessageDescriptor} (h : AgreeWithin S n R R')
    (hS : S.Covers d k) :
    ∀ (fuel : Nat) (es : List Entry) (last : Nat) (bytes : Bytes), bytes.length ≤ n →
      scanRecords R d k fuel es last bytes = scanRecords R' d k fuel es last bytes := by
  intro fuel
  induction fuel with
  | zero =>
    intro es last bytes _
    cases bytes <;> rfl
  | succ fuel ih =>
    intro es last bytes hle
    cases bytes with
    | nil => rfl
    | cons byte bytes =>
      simp only [scanRecords, scanRecord_congr h hS last es hle]
      refine Outcome.bind_congr fun read hr => ?_
      obtain ⟨e, rest⟩ := read
      exact ih _ _ _ ((scanRecord_shorter hr).1.le.trans hle)

theorem scan_congr {d : MessageDescriptor} (h : AgreeWithin S n R R') (hS : S.Covers d k)
    {bytes : Bytes} (hle : bytes.length ≤ n) : scan R d bytes k = scan R' d bytes k := by
  simp only [scan, scanRecords_congr h hS _ _ _ _ hle]

/-- Validators that agree on shorter slices judge an embedded inception alike. -/
theorem inceptionStandalone_congr (C : Crypto) (h : AgreeWithin S n R R') (hR : Slicing R)
    (hevent : S Descriptor.signedEvent k) (hS : S.Below k) {bytes : Bytes}
    (hlt : bytes.length < n) :
    inceptionStandalone C R bytes k = inceptionStandalone C R' bytes k := by
  have hscan : ∀ {d : MessageDescriptor}, d ∈ eventDescriptors → ∀ j {b : Bytes}, b.length ≤ n →
      scan R d b (k + j) = scan R' d b (k + j) := fun hd j _ hle =>
    scan_congr h ((hS.mono (Nat.le_add_right k j)).covers hd) hle
  unfold inceptionStandalone
  rw [← h _ bytes k hevent hlt]
  refine Outcome.bind_congr fun signed hsigned => ?_
  refine Outcome.bind_congr fun body hbody => ?_
  have hb : body.length < n :=
    (hR _ _ _ _ hsigned _ _ (mem_of_bytes (Outcome.expect_eq_ok.mp hbody))).trans hlt
  refine Outcome.bind_congr fun signature _ => ?_
  rw [hscan (by simp [eventDescriptors]) 1 hb.le]
  refine Outcome.bind_congr fun fields hfields => ?_
  refine Outcome.bind_congr fun ⟨number, payload⟩ hpayload => ?_
  have hp : payload.length < n :=
    (scan_slices hfields _ _ (mem_of_oneof (Outcome.expect_eq_ok.mp hpayload))).trans hb
  refine Outcome.bind_congr fun _ _ => ?_
  rw [hscan (by simp [eventDescriptors]) 2 hp.le]
  refine Outcome.bind_congr fun inception hinception => ?_
  refine Outcome.bind_congr fun ⟨rootNumber, root⟩ hroot => ?_
  have hr : root.length < n :=
    (scan_slices hinception _ _ (mem_of_oneof (Outcome.expect_eq_ok.mp hroot))).trans hp
  have hraw : Descriptor.rawRoot ∈ eventDescriptors := by simp [eventDescriptors]
  simp only [hscan hraw 3 hr.le]

/-- A message re-read for a cross-field rule is read one level below its holder. -/
private theorem subfields_congr {sc : Scanned} (h : AgreeWithin S n R R') (hS : S.Below sc.depth)
    {d : MessageDescriptor} (hd : d ∈ eventDescriptors) {bytes : Bytes} (hle : bytes.length ≤ n) :
    sc.subfields R d bytes = sc.subfields R' d bytes :=
  scan_congr h ((hS.mono (Nat.le_succ _)).covers hd) hle

/-- Validators that agree on shorter slices judge the root's key alike. -/
private theorem checkRootKey_congr {sc : Scanned} (h : AgreeWithin S n R R')
    (hS : S.Below sc.depth) {payload : Bytes} (hlt : payload.length < n) (authorKey : Bytes) :
    checkRootKey R sc payload authorKey = checkRootKey R' sc payload authorKey := by
  unfold checkRootKey
  rw [subfields_congr h hS (by simp [eventDescriptors]) hlt.le]
  refine Outcome.bind_congr fun inception hinception => ?_
  have hdepth : inception.depth = sc.depth + 1 := scan_depth hinception
  refine Outcome.bind_congr fun ⟨rootNumber, root⟩ hroot => ?_
  have hr : root.length < n :=
    (scan_slices hinception _ _ (mem_of_oneof (Outcome.expect_eq_ok.mp hroot))).trans hlt
  have hbelow : S.Below inception.depth := hS.mono (by omega)
  by_cases hraw : rootNumber = rawRootTag
  · simp only [hraw, if_true, subfields_congr h hbelow
      (show Descriptor.rawRoot ∈ eventDescriptors by simp [eventDescriptors]) hr.le]
  · simp only [hraw, if_false, subfields_congr h hbelow
      (show Descriptor.identityRoot ∈ eventDescriptors by simp [eventDescriptors]) hr.le]

/-- Validators that agree on shorter slices judge a body alike. -/
private theorem checkEventBody_congr {sc : Scanned} (h : AgreeWithin S n R R')
    (hS : S.Below sc.depth) (hsc : SlicesBelow n sc.entries) :
    checkEventBody R sc = checkEventBody R' sc := by
  unfold checkEventBody
  refine Outcome.bind_congr fun _ _ => ?_
  refine Outcome.bind_congr fun ⟨number, payload⟩ hpayload => ?_
  have hp : payload.length < n := hsc _ _ (mem_of_oneof (Outcome.expect_eq_ok.mp hpayload))
  simp only [checkRootKey_congr h hS hp, checkNotLedger, subfields_congr h hS
    (show Descriptor.trustAttestation ∈ eventDescriptors by simp [eventDescriptors]) hp.le,
    subfields_congr h hS
    (show Descriptor.membershipInvitation ∈ eventDescriptors by simp [eventDescriptors]) hp.le]

/-- A cross-field rule validates slices of the scan it reads, and slices of those, deeper
than the message it is a rule of. -/
theorem runCheck_congr (C : Crypto) {sc : Scanned} (h : AgreeWithin S n R R') (hR : Slicing R)
    (hS : S.Below sc.depth) (hsc : SlicesBelow n sc.entries) :
    runCheck C R sc = runCheck C R' sc := by
  have hembedded : ∀ field id key, checkEmbeddedInception C R sc field id key =
      checkEmbeddedInception C R' sc field id key := by
    intro field id key
    refine Outcome.bind_congr fun embedded he => ?_
    rw [inceptionStandalone_congr C h hR (hS _ (by simp [eventDescriptors]) _ (Nat.lt_succ_self _))
      (hS.mono (Nat.le_succ _)) (hsc _ _ (mem_of_bytes (Outcome.expect_eq_ok.mp he)))]
  have hsigned : ∀ message, checkSignedAcceptance C R message sc =
      checkSignedAcceptance C R' message sc := by
    intro message
    refine Outcome.bind_congr fun blob hblob => ?_
    have hb : blob.length < n := hsc _ _ (mem_of_bytes (Outcome.expect_eq_ok.mp hblob))
    -- The blob is read at depth 0, but it hands nothing on.
    have hcovers : S.Covers Descriptor.acceptance 0 := by
      intro r hr
      simp [MessageDescriptor.hands, Descriptor.acceptance, handed, forbidden, required,
        Kinds.id, Kinds.version] at hr
    simp only [detachedAcceptance, scan_congr h hcovers hb.le]
  unfold runCheck
  split
  · rfl
  · rfl
  · exact hembedded ..
  · exact hembedded ..
  · exact hsigned _
  · exact checkEventBody_congr h hS hsc
  · exact hsigned _

/-- The step asks the validator it is given for what its message hands on and for messages
of an event at greater depths, on shorter strings. -/
theorem validateStep_congr (C : Crypto) {bytes : Bytes} (h : AgreeWithin S bytes.length R R')
    (hR : Slicing R) {d : MessageDescriptor} (hcovers : S.Covers d k) (hS : S.Below k) :
    validateStep C R d bytes k = validateStep C R' d bytes k := by
  unfold validateStep
  refine Outcome.bind_congr fun _ _ => ?_
  rw [scan_congr h hcovers le_rfl]
  refine Outcome.bind_congr fun sc hsc => ?_
  rw [runCheck_congr C h hR (scan_depth hsc ▸ hS) (scan_slices hsc)]

end Congruence

/-- One validation step slices its input. -/
theorem validateStep_slicing (C : Crypto) (R : Validator) : Slicing (validateStep C R) := by
  intro d bytes k sc h
  simp only [validateStep, Outcome.bind_eq_ok] at h
  obtain ⟨_, -, sc', hscan, _, -, _, -, h⟩ := h
  exact Except.ok.inj h ▸ scan_slices hscan

/-- Validation of bounded depth slices its input. -/
theorem validateWithin_slicing (C : Crypto) (fuel : Nat) :
    Slicing (validateWithin C fuel) := by
  cases fuel with
  | zero =>
    intro d bytes k sc h
    simp [validateWithin] at h
  | succ fuel => exact validateStep_slicing C _

/-- Every bound past the input's length gives the same answer. -/
private theorem validateWithin_eq (C : Crypto) (fuel : Nat) : ∀ fuel', ∀ d bytes k,
    bytes.length < fuel → bytes.length < fuel' →
      validateWithin C fuel d bytes k = validateWithin C fuel' d bytes k := by
  induction fuel with
  | zero => intro fuel' d bytes k h; omega
  | succ fuel ih =>
    intro fuel' d bytes k hlt hlt'
    cases fuel' with
    | zero => omega
    | succ fuel' =>
      refine validateStep_congr C (S := fun _ _ => True) ?_ (validateWithin_slicing C fuel)
        (fun _ _ => trivial) fun _ _ _ _ => trivial
      intro d' bytes' k' _ hshort
      exact ih fuel' d' bytes' k' (by omega) (by omega)

/-- The validator is a fixed point of its step. -/
theorem validate_eq (C : Crypto) : validate C = validateStep C (validate C) := by
  funext d bytes k
  refine validateStep_congr C (S := fun _ _ => True) ?_ (validateWithin_slicing C _)
    (fun _ _ => trivial) fun _ _ _ _ => trivial
  intro d' bytes' k' _ hshort
  exact validateWithin_eq C _ _ d' bytes' k' hshort (Nat.lt_succ_self _)

end Mabel.Validate
