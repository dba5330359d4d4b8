import Mabel.Ledger.Correctness.Links
import Mabel.Verification.Verify

/-!
# The endpoints of a label are canonical

Each record is kept whole or dropped whole, the kept ones are put together and the whole is
sorted. What comes out is a function of the set of endpoints the valid records name, so neither
the order of the records nor the way their bytes are cut changes it.
-/

namespace Mabel.Verification

open Wire

variable {C : Crypto}

/-! ## Records -/

/-- A record that begins with a label, in either case, and goes on with a text. -/
def Labelled (label : String) (record : TxtRecord) (text : String) : Prop :=
  ∃ head, record.value = head ++ utf8 text ∧ head.map asciiLower = utf8 label

/-- A wholly valid record: one to eight distinct ids of ed25519 points with commas between them,
in either case. -/
def LabelRecord (C : Crypto) (record : TxtRecord) (ids : List (List Char)) : Prop :=
  ∃ listed, Labelled "mabel-endpoints=" record listed ∧ 1 ≤ ids.length ∧ ids.length ≤ 8 ∧
    ids.Nodup ∧ (∀ id ∈ ids, PointId C id) ∧
    toAsciiLowercase listed.toList = [','].intercalate ids

/-- An endpoint that some wholly valid record names. -/
def Named (C : Crypto) (records : List TxtRecord) (endpoint : EndpointId C) : Prop :=
  ∃ record ∈ records, ∃ ids, LabelRecord C record ids ∧ (renderId endpoint.raw).toList ∈ ids

/-- A record that carries the id of an identity. -/
def Claims (record : TxtRecord) (identity : IdentityId) : Prop :=
  ∃ text, Labelled "mabel=" record text ∧
    toAsciiLowercase text.toList = identity.display.toList

/-- A record is read behind its label. A remainder that is no text reads as the empty text. -/
theorem claimBehind_eq_some {start text : String} {record : TxtRecord}
    (hlower : (utf8 start).map asciiLower = utf8 start) (htext : text ≠ "") :
    claimBehind start record.value = some text ↔ Labelled start record text := by
  unfold claimBehind Labelled
  generalize record.value = value
  simp only [hlower]
  constructor
  · intro h
    split_ifs at h with hlen hstart
    refine ⟨value.take (utf8 start).length, ?_, by simpa using hstart⟩
    cases hrest : fromUtf8 (value.drop (utf8 start).length) with
    | none =>
      rw [hrest] at h
      exact absurd (Option.some.inj h).symm htext
    | some rest =>
      rw [hrest] at h
      obtain rfl : rest = text := Option.some.inj h
      rw [fromUtf8_eq_some.mp hrest, List.take_append_drop]
  · rintro ⟨head, rfl, hhead⟩
    have hlen : head.length = (utf8 start).length := by
      rw [← hhead, List.length_map]
    rw [if_neg (by simp [hlen]), ← hlen, List.take_left, List.drop_left, if_neg (by simp [hhead]),
      fromUtf8_utf8]
    rfl

/-- A record names an identity exactly if it carries its id. -/
theorem mabelClaim_names {record : TxtRecord} {identity : IdentityId} :
    (mabelClaim record.value).any (namesIdentity identity) = true ↔ Claims record identity := by
  have hlower : (utf8 txtPrefix).map asciiLower = utf8 txtPrefix := by decide
  have hparse : ∀ text : String, namesIdentity identity text = true ↔
      toAsciiLowercase text.toList = identity.display.toList := by
    intro text
    rw [namesIdentity, decide_eq_true_eq, ← parse_identity_eq_some, String.ofList_toList]
  have hne : ∀ text : String, toAsciiLowercase text.toList = identity.display.toList →
      text ≠ "" := by
    rintro text htext rfl
    have hlength : identity.display.toList.length = 52 := length_renderId identity.raw
    rw [← htext] at hlength
    simp [toAsciiLowercase] at hlength
  rw [Option.any_eq_true]
  constructor
  · rintro ⟨text, hclaim, hnames⟩
    have htext := (hparse text).mp hnames
    exact ⟨text, (claimBehind_eq_some hlower (hne text htext)).mp hclaim, htext⟩
  · rintro ⟨text, hlabelled, htext⟩
    exact ⟨text, (claimBehind_eq_some hlower (hne text htext)).mpr hlabelled,
      (hparse text).mpr htext⟩

/-- One more element is one more endpoint, unless it is there already or eight are. -/
theorem recordElement_eq_some {endpoints pushed : List (EndpointId C)} {element : List Char} :
    recordElement endpoints element = some pushed ↔ ∃ endpoint,
      toAsciiLowercase element = (renderId endpoint.raw).toList ∧ endpoint ∉ endpoints ∧
      endpoints.length ≠ maxLabelEndpoints ∧ pushed = endpoints ++ [endpoint] := by
  simp only [recordElement, Option.bind_eq_bind, Option.bind_eq_some_iff, decodeId_eq_some,
    PublicKey.fromBytes_eq_some]
  constructor
  · rintro ⟨raw, htext, endpoint, rfl, h⟩
    split_ifs at h with hrefused
    exact ⟨endpoint, htext, fun hmem => hrefused (.inl hmem), fun hfull => hrefused (.inr hfull),
      (Option.some.inj h).symm⟩
  · rintro ⟨endpoint, htext, hnew, hroom, rfl⟩
    exact ⟨endpoint.raw, htext, endpoint, rfl, if_neg (not_or.mpr ⟨hnew, hroom⟩)⟩

/-- The elements of a record spell, in order, the endpoints they add. -/
theorem foldlM_recordElement {elements : List (List Char)} {endpoints pushed : List (EndpointId C)}
    (hdistinct : endpoints.Nodup) (hroom : endpoints.length ≤ maxLabelEndpoints) :
    elements.foldlM recordElement endpoints = some pushed ↔ ∃ added,
      elements.map toAsciiLowercase = endpointTexts added ∧ pushed = endpoints ++ added ∧
      pushed.Nodup ∧ pushed.length ≤ maxLabelEndpoints := by
  induction elements generalizing endpoints with
  | nil =>
    rw [List.foldlM_nil]
    constructor
    · intro h
      obtain rfl : endpoints = pushed := Option.some.inj h
      exact ⟨[], rfl, by simp, hdistinct, hroom⟩
    · rintro ⟨added, hnil, rfl, -, -⟩
      obtain rfl : added = [] := by simpa [endpointTexts] using hnil.symm
      simp
  | cons element elements ih =>
    rw [List.foldlM_cons, Option.bind_eq_bind, Option.bind_eq_some_iff]
    constructor
    · rintro ⟨next, hnext, hrest⟩
      obtain ⟨endpoint, htext, hnew, hfull, rfl⟩ := recordElement_eq_some.mp hnext
      have hnodup : (endpoints ++ [endpoint]).Nodup :=
        List.nodup_append.mpr ⟨hdistinct, by simp, fun a ha b hb => by
          rw [List.mem_singleton.mp hb]
          exact ne_of_mem_of_not_mem ha hnew⟩
      have hlength : (endpoints ++ [endpoint]).length ≤ maxLabelEndpoints := by
        rw [List.length_append, List.length_singleton]
        omega
      obtain ⟨added, hmap, rfl, hok⟩ := (ih hnodup hlength).mp hrest
      refine ⟨endpoint :: added, ?_, by simp, hok⟩
      rw [List.map_cons, htext, hmap]
      rfl
    · rintro ⟨added, hmap, rfl, hok⟩
      cases added with
      | nil => simp [endpointTexts] at hmap
      | cons endpoint added =>
        rw [List.map_cons, endpointTexts, List.map_cons, List.cons.injEq] at hmap
        have hsplit : endpoints ++ endpoint :: added = (endpoints ++ [endpoint]) ++ added := by simp
        have hnodup := (List.nodup_append.mp (hsplit ▸ hok.1)).1
        have hlength : (endpoints ++ [endpoint]).length ≤ maxLabelEndpoints := by
          have := hok.2
          rw [hsplit, List.length_append] at this
          omega
        refine ⟨endpoints ++ [endpoint], recordElement_eq_some.mpr ⟨endpoint, hmap.1, ?_, ?_, rfl⟩,
          (ih hnodup hlength).mpr ⟨added, hmap.2, hsplit, hok⟩⟩
        · intro hmem
          exact (List.nodup_append.mp hnodup).2.2 endpoint hmem endpoint (by simp) rfl
        · rw [List.length_append, List.length_singleton] at hlength
          omega

/-- A record's endpoints are distinct, few and listed in one way. -/
theorem recordEndpoints_eq_some {listed : String} {endpoints : List (EndpointId C)} :
    recordEndpoints C listed = some endpoints ↔ endpoints ≠ [] ∧ endpoints.Nodup ∧
      endpoints.length ≤ maxLabelEndpoints ∧
      toAsciiLowercase listed.toList = [','].intercalate (endpointTexts endpoints) := by
  rw [recordEndpoints, foldlM_recordElement (by simp) (by simp)]
  simp only [List.nil_append]
  constructor
  · rintro ⟨added, hmap, rfl, hnodup, hlength⟩
    obtain ⟨hne, hvalue⟩ := splitOn_eq_endpointTexts.mp hmap
    exact ⟨hne, hnodup, hlength, hvalue⟩
  · rintro ⟨hne, hnodup, hlength, hvalue⟩
    exact ⟨endpoints, splitOn_eq_endpointTexts.mpr ⟨hne, hvalue⟩, rfl, hnodup, hlength⟩

/-- A list of ids of points is that of the endpoints. -/
theorem exists_endpointTexts {ids : List (List Char)} (h : ∀ id ∈ ids, PointId C id) :
    ∃ endpoints : List (EndpointId C), ids = endpointTexts endpoints := by
  induction ids with
  | nil => exact ⟨[], rfl⟩
  | cons id ids ih =>
    obtain ⟨hid, hids⟩ := List.forall_mem_cons.mp h
    obtain ⟨endpoint, rfl⟩ := pointId_iff.mp hid
    obtain ⟨endpoints, rfl⟩ := ih hids
    exact ⟨endpoint :: endpoints, rfl⟩

theorem renderId_toList_injective : Function.Injective fun endpoint : EndpointId C =>
    (renderId endpoint.raw).toList :=
  fun _ _ h => PublicKey.ext (renderId_injective (String.ext h))

/-- A record has a list exactly if it is wholly valid. -/
theorem labelRecord_eq_some {record : TxtRecord} {endpoints : List (EndpointId C)} :
    labelRecord C record = some endpoints ↔ LabelRecord C record (endpointTexts endpoints) := by
  have hlower : (utf8 txtEndpointsPrefix).map asciiLower = utf8 txtEndpointsPrefix := by decide
  have hlength : (endpointTexts endpoints).length = endpoints.length := List.length_map ..
  have hempty : ∀ listed : String, recordEndpoints C listed = some endpoints → listed ≠ "" := by
    rintro listed h rfl
    rw [recordEndpoints_eq_some] at h
    exact splitOn_nil_ne_endpointTexts (splitOn_eq_endpointTexts.mpr ⟨h.1, h.2.2.2⟩)
  have hrecord : ∀ listed : String, recordEndpoints C listed = some endpoints ↔
      1 ≤ (endpointTexts endpoints).length ∧ (endpointTexts endpoints).length ≤ 8 ∧
        (endpointTexts endpoints).Nodup ∧ (∀ id ∈ endpointTexts endpoints, PointId C id) ∧
        toAsciiLowercase listed.toList = [','].intercalate (endpointTexts endpoints) := by
    intro listed
    have hpoints : ∀ id ∈ endpointTexts endpoints, PointId C id := by
      intro id hid
      obtain ⟨endpoint, -, rfl⟩ := List.mem_map.mp hid
      exact pointId_iff.mpr ⟨endpoint, rfl⟩
    rw [recordEndpoints_eq_some, hlength, endpointTexts,
      List.nodup_map_iff renderId_toList_injective, ← endpointTexts]
    constructor
    · rintro ⟨hne, hnodup, hroom, hlisted⟩
      exact ⟨List.length_pos_iff.mpr hne, hroom, hnodup, hpoints, hlisted⟩
    · rintro ⟨hone, hroom, hnodup, -, hlisted⟩
      exact ⟨List.length_pos_iff.mp hone, hnodup, hroom, hlisted⟩
  simp only [labelRecord, Option.bind_eq_bind, Option.bind_eq_some_iff]
  constructor
  · rintro ⟨listed, hclaim, hlisted⟩
    exact ⟨listed, (claimBehind_eq_some hlower (hempty listed hlisted)).mp hclaim,
      (hrecord listed).mp hlisted⟩
  · rintro ⟨listed, hlabelled, hvalid⟩
    have hlisted := (hrecord listed).mpr hvalid
    exact ⟨listed, (claimBehind_eq_some hlower (hempty listed hlisted)).mpr hlabelled, hlisted⟩

/-! ## Labels -/

/-- Adding endpoints one by one keeps them distinct. -/
theorem foldl_union {added : List (EndpointId C)} : ∀ {endpoints : List (EndpointId C)},
    endpoints.Nodup →
    (added.foldl (fun endpoints endpoint =>
      if endpoint ∈ endpoints then endpoints else endpoints ++ [endpoint]) endpoints).Nodup ∧
    ∀ e, e ∈ added.foldl (fun endpoints endpoint =>
      if endpoint ∈ endpoints then endpoints else endpoints ++ [endpoint]) endpoints ↔
        e ∈ endpoints ∨ e ∈ added := by
  induction added with
  | nil => simp
  | cons endpoint added ih =>
    intro endpoints hnodup
    rw [List.foldl_cons]
    by_cases hmem : endpoint ∈ endpoints
    · rw [if_pos hmem]
      refine ⟨(ih hnodup).1, fun e => ?_⟩
      rw [(ih hnodup).2, List.mem_cons]
      constructor
      · exact Or.imp_right .inr
      · rintro (he | rfl | he)
        · exact .inl he
        · exact .inl hmem
        · exact .inr he
    · rw [if_neg hmem]
      have hnext : (endpoints ++ [endpoint]).Nodup :=
        List.nodup_append.mpr ⟨hnodup, by simp, fun a ha b hb => by
          rw [List.mem_singleton.mp hb]
          exact ne_of_mem_of_not_mem ha hmem⟩
      refine ⟨(ih hnext).1, fun e => ?_⟩
      rw [(ih hnext).2, List.mem_append, List.mem_singleton, List.mem_cons, or_assoc]

/-- The union over a label's records holds what some valid record names, once. -/
theorem foldl_unionRecord (records : List TxtRecord) :
    (records.foldl (unionRecord (C := C)) []).Nodup ∧
      ∀ e, e ∈ records.foldl (unionRecord (C := C)) [] ↔ Named C records e := by
  have hrecord : ∀ (record : TxtRecord) (e : EndpointId C),
      e ∈ (labelRecord C record).getD [] ↔
        ∃ ids, LabelRecord C record ids ∧ (renderId e.raw).toList ∈ ids := by
    intro record e
    constructor
    · intro he
      cases hread : labelRecord C record with
      | none => simp [hread] at he
      | some endpoints =>
        rw [hread] at he
        exact ⟨_, labelRecord_eq_some.mp hread, List.mem_map_of_mem he⟩
    · rintro ⟨ids, hvalid, hid⟩
      obtain ⟨endpoints, rfl⟩ := exists_endpointTexts hvalid.choose_spec.2.2.2.2.1
      rw [labelRecord_eq_some.mpr hvalid]
      exact (List.mem_map_of_injective renderId_toList_injective).mp hid
  have hrun : ∀ (records : List TxtRecord) (endpoints : List (EndpointId C)), endpoints.Nodup →
      (records.foldl unionRecord endpoints).Nodup ∧ ∀ e,
        e ∈ records.foldl unionRecord endpoints ↔ e ∈ endpoints ∨ Named C records e := by
    intro records
    induction records with
    | nil =>
      intro endpoints hnodup
      simp [hnodup, Named]
    | cons record records ih =>
      intro endpoints hnodup
      have hunion : (unionRecord endpoints record).Nodup ∧ ∀ e,
          e ∈ unionRecord endpoints record ↔ e ∈ endpoints ∨ e ∈ (labelRecord C record).getD [] :=
        foldl_union hnodup
      rw [List.foldl_cons]
      refine ⟨(ih _ hunion.1).1, fun e => ?_⟩
      rw [(ih _ hunion.1).2, hunion.2, hrecord, or_assoc]
      simp only [Named, List.mem_cons, or_and_right, exists_or, exists_eq_left]
  obtain ⟨hnodup, hmem⟩ := hrun records [] List.nodup_nil
  exact ⟨hnodup, fun e => by rw [hmem]; simp⟩

/-- The order of a label's endpoints is that of their rendered ids. -/
theorem sorted_by_renderId (endpoints : List (EndpointId C)) :
    (endpoints.mergeSort fun a b => decide (renderId a.raw ≤ renderId b.raw)).Pairwise
      fun a b => renderId a.raw ≤ renderId b.raw := by
  have h := @List.pairwise_mergeSort _
    (fun a b : EndpointId C => decide (renderId a.raw ≤ renderId b.raw))
    (fun a b c hab hbc => by
      simp only [decide_eq_true_eq] at hab hbc ⊢
      exact le_trans hab hbc)
    (fun a b => by simpa using le_total _ _) endpoints
  simpa using h

/-- Labels that name the same endpoints have the same list. -/
theorem endpointsAtLabel_congr {records others : List TxtRecord}
    (h : ∀ e : EndpointId C, Named C records e ↔ Named C others e) :
    endpointsAtLabel C records = endpointsAtLabel C others := by
  obtain ⟨hnodup, hmem⟩ := foldl_unionRecord (C := C) records
  obtain ⟨hnodup', hmem'⟩ := foldl_unionRecord (C := C) others
  have hperm : (records.foldl (unionRecord (C := C)) []).Perm
      (others.foldl (unionRecord (C := C)) []) :=
    (List.perm_ext_iff_of_nodup hnodup hnodup').mpr fun e => by rw [hmem, hmem', h]
  simp only [endpointsAtLabel, hperm.length_eq]
  split_ifs
  · rfl
  · have hanti : ∀ a b : EndpointId C, renderId a.raw ≤ renderId b.raw →
        renderId b.raw ≤ renderId a.raw → a = b := by
      intro a b hab hba
      exact PublicKey.ext (renderId_injective (le_antisymm hab hba))
    have hsorts := (List.mergeSort_perm (records.foldl (unionRecord (C := C)) []) fun a b =>
      decide (renderId a.raw ≤ renderId b.raw)).trans (hperm.trans
        (List.mergeSort_perm (others.foldl (unionRecord (C := C)) []) fun a b =>
          decide (renderId a.raw ≤ renderId b.raw)).symm)
    exact hsorts.eq_of_pairwise (fun a b _ _ => hanti a b) (sorted_by_renderId _)
      (sorted_by_renderId _)

/-- The list of a label: the endpoints its valid records name, in the order of their ids, unless
there are more than eight. -/
theorem endpointsAtLabel_spec (records : List TxtRecord) : ∃ named : Finset (EndpointId C),
    (∀ e, e ∈ named ↔ Named C records e) ∧
    (endpointsAtLabel C records).Pairwise (fun a b => renderId a.raw < renderId b.raw) ∧
    (named.card ≤ 8 → ∀ e, e ∈ endpointsAtLabel C records ↔ e ∈ named) ∧
    (8 < named.card → endpointsAtLabel C records = []) := by
  obtain ⟨hnodup, hmem⟩ := foldl_unionRecord (C := C) records
  have hcard : (records.foldl (unionRecord (C := C)) []).toFinset.card =
      (records.foldl (unionRecord (C := C)) []).length := List.toFinset_card_of_nodup hnodup
  refine ⟨(records.foldl unionRecord []).toFinset, fun e => by rw [List.mem_toFinset, hmem],
    ?_, fun hfew e => ?_, fun hmany => if_pos (hcard ▸ hmany)⟩
  · simp only [endpointsAtLabel]
    split_ifs
    · exact List.Pairwise.nil
    · have hsorted := sorted_by_renderId (records.foldl (unionRecord (C := C)) [])
      have hdistinct := (List.mergeSort_perm (records.foldl (unionRecord (C := C)) [])
        (fun a b => decide (renderId a.raw ≤ renderId b.raw))).nodup_iff.mpr hnodup
      refine (hsorted.and hdistinct).imp fun ⟨hle, hne⟩ => lt_of_le_of_ne hle ?_
      exact fun hsame => hne (PublicKey.ext (renderId_injective hsame))
  · rw [List.mem_toFinset, endpointsAtLabel, if_neg (not_lt.mpr (hcard ▸ hfew)),
      List.mem_mergeSort]

/-- The endpoints of a label are those its wholly valid records name, sorted by their ids, or none
if there are more than eight. The order of the records and the way their bytes are cut make no
difference, a record that is not valid makes none, and an identity that claims the hostname gets
that list exactly if some record carries its id. -/
theorem label_endpoints_canonical (C : Crypto) :
    (∀ records, ∃ named : Finset (EndpointId C), (∀ e, e ∈ named ↔ Named C records e) ∧
      (endpointsAtLabel C records).Pairwise (fun a b => renderId a.raw < renderId b.raw) ∧
      (named.card ≤ 8 → ∀ e, e ∈ endpointsAtLabel C records ↔ e ∈ named) ∧
      (8 < named.card → endpointsAtLabel C records = [])) ∧
    (∀ records others : List TxtRecord,
      (records.map TxtRecord.value).Perm (others.map TxtRecord.value) →
      endpointsAtLabel C records = endpointsAtLabel C others) ∧
    (∀ before record after, (¬ ∃ ids, LabelRecord C record ids) →
      endpointsAtLabel C (before ++ record :: after) = endpointsAtLabel C (before ++ after)) ∧
    (∀ records identity,
      ((∃ record ∈ records, Claims record identity) →
        endpointsForClaim C records identity = endpointsAtLabel C records) ∧
      ((¬ ∃ record ∈ records, Claims record identity) →
        endpointsForClaim C records identity = [])) := by
  refine ⟨endpointsAtLabel_spec, fun records others hperm => ?_, fun before record after h => ?_,
    fun records identity => ?_⟩
  · -- A record counts by its value only.
    have hvalue : ∀ {records others : List TxtRecord},
        (records.map TxtRecord.value).Perm (others.map TxtRecord.value) →
        ∀ e : EndpointId C, Named C records e → Named C others e := by
      rintro records others hperm e ⟨record, hrecord, ids, hvalid, hid⟩
      have hmem : record.value ∈ others.map TxtRecord.value :=
        hperm.mem_iff.mp (List.mem_map_of_mem hrecord)
      obtain ⟨other, hother, hsame⟩ := List.mem_map.mp hmem
      refine ⟨other, hother, ids, ?_, hid⟩
      simpa only [LabelRecord, Labelled, hsame] using hvalid
    exact endpointsAtLabel_congr fun e => ⟨hvalue hperm e, hvalue hperm.symm e⟩
  · refine endpointsAtLabel_congr fun e => ?_
    simp only [Named, List.mem_append, List.mem_cons]
    constructor
    · rintro ⟨other, hother | rfl | hother, ids, hvalid, hid⟩
      · exact ⟨other, .inl hother, ids, hvalid, hid⟩
      · exact absurd ⟨ids, hvalid⟩ h
      · exact ⟨other, .inr hother, ids, hvalid, hid⟩
    · rintro ⟨other, hother | hother, hnamed⟩
      · exact ⟨other, .inl hother, hnamed⟩
      · exact ⟨other, .inr (.inr hother), hnamed⟩
  · have hany : (records.any fun record =>
        (mabelClaim record.value).any (namesIdentity identity)) = true ↔
        ∃ record ∈ records, Claims record identity := by
      simp only [List.any_eq_true, mabelClaim_names]
    exact ⟨fun h => if_pos (hany.mpr h), fun h => if_neg fun hclaims => h (hany.mp hclaims)⟩

end Mabel.Verification
