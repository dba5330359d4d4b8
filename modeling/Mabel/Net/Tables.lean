import Mabel.Ledger.Correctness.Artifacts
import Mabel.Net.Frames

/-!
# What the sync tables admit

One lemma for each sync message: the record lists its table admits are the records of a value
whose fields keep their bounds. A table without a `oneof` is read as one slot for each row, and
each kind of row has one lemma that says which slots it accepts.
-/

namespace Mabel.Net

open Wire Proto Validate

variable {C : Crypto} {d : MessageDescriptor} {k : Nat} {es : List Entry}

/-- The sync descriptors. -/
def syncDescriptors : List MessageDescriptor :=
  [Descriptors.headReq, Descriptors.getReq, Descriptors.pushReq, Descriptors.listReq,
    Descriptors.forksReq, Descriptors.request, Descriptors.headResp, Descriptors.eventsResp,
    Descriptors.acceptedResp, Descriptors.ledgerSummary, Descriptors.ledgersResp,
    Descriptors.forkRecord, Descriptors.forksResp, Descriptors.notFoundResp,
    Descriptors.rejectedResp, Descriptors.response]

/-- Every descriptor of the sync protocol is well formed. -/
theorem syncDescriptors_wellFormed : ∀ d ∈ syncDescriptors, d.WellFormed := by
  have h : ∀ d ∈ syncDescriptors, (d.fields.map FieldDescriptor.number).Pairwise (· < ·) ∧
      ∀ n ∈ d.fields.map FieldDescriptor.number, 0 < n ∧ n < 2 ^ 29 := by decide
  intro d hd
  refine ⟨List.pairwise_map.mp (h d hd).1, fun f hf => (h d hd).2 _ (List.mem_map_of_mem hf)⟩

/-! ## Slots -/

/-- A slot a row of a table accepts. -/
structure SlotFor (C : Crypto) (message : String) (k : Nat) (field : Field) (slot : List Entry) :
    Prop where
  numbered : ∀ e ∈ slot, e.1 = field.number
  ok : FieldOk (validate C) message k field slot

/-- A record list made of one accepted slot for each row. -/
def Slots (C : Crypto) (message : String) (k : Nat) : List Field → List Entry → Prop
  | [], es => es = []
  | field :: fields, es => ∃ slot rest, SlotFor C message k field slot ∧
      Slots C message k fields rest ∧ es = slot ++ rest

section Slots

variable {message : String} {fields : List Field}

/-- The entries of a message are of its fields. -/
private theorem Slots.number (h : Slots C message k fields es) :
    ∀ e ∈ es, ∃ f ∈ fields, e.1 = f.number := by
  induction fields generalizing es with
  | nil =>
    obtain rfl : es = [] := h
    simp
  | cons f fields ih =>
    obtain ⟨slot, rest, hslot, hrest, rfl⟩ := h
    intro e he
    rcases List.mem_append.mp he with he | he
    · exact ⟨f, List.mem_cons_self, hslot.numbered e he⟩
    · obtain ⟨g, hg, hnum⟩ := ih hrest e he
      exact ⟨g, List.mem_cons_of_mem _ hg, hnum⟩

/-- A message filled slot by slot is the table of its rows. -/
private theorem Slots.table (hasc : fields.Pairwise fun f g => f.number < g.number)
    (h : Slots C message k fields es) :
    es = fields.flatMap (fun f => select f.number es) ∧
      ∀ f ∈ fields, FieldOk (validate C) message k f (select f.number es) := by
  induction fields generalizing es with
  | nil =>
    obtain rfl : es = [] := h
    simp
  | cons f fields ih =>
    obtain ⟨slot, rest, hslot, hrest, rfl⟩ := h
    obtain ⟨hlt, hasc⟩ := List.pairwise_cons.mp hasc
    obtain ⟨hflat, hrows⟩ := ih hasc hrest
    -- The rows behind the first have greater numbers than its slot and it has none of theirs.
    have hfirst : select f.number (slot ++ rest) = slot := by
      rw [select_append, select_eq_self hslot.numbered, select_eq_nil, List.append_nil]
      intro e he
      obtain ⟨g, hg, hnum⟩ := hrest.number e he
      exact hnum ▸ (hlt g hg).ne'
    have hlater : ∀ g ∈ fields, select g.number (slot ++ rest) = select g.number rest := by
      intro g hg
      rw [select_append, select_eq_nil, List.nil_append]
      intro e he
      exact hslot.numbered e he ▸ (hlt g hg).ne
    constructor
    · rw [List.flatMap_cons, hfirst, List.flatMap_congr hlater, ← hflat]
    · intro g hg
      rcases List.mem_cons.mp hg with rfl | hg
      · exact hfirst.symm ▸ hslot.ok
      · exact (hlater g hg).symm ▸ hrows g hg

/-- A table of admitted rows fills its slots. -/
private theorem slots_of_table
    (h : ∀ f ∈ fields, FieldOk (validate C) message k f (select f.number es)) :
    Slots C message k fields (fields.flatMap fun f => select f.number es) := by
  induction fields with
  | nil => rfl
  | cons f fields ih =>
    refine ⟨select f.number es, _, ⟨fun e he => (mem_select.mp he).2, h f List.mem_cons_self⟩,
      ih fun g hg => h g (List.mem_cons_of_mem _ hg), List.flatMap_cons⟩

end Slots

/-- A table with no `oneof` and no cross-field rule admits what its rows accept one after the
other. -/
theorem admits_iff_slots (hd : d.WellFormed) (honeof : d.oneof = none) (hcheck : d.check = none) :
    Admits C d k es ↔ Slots C d.name k d.fields es := by
  constructor
  · rintro ⟨⟨hslotted, hrows, -⟩, -⟩
    have := slots_of_table hrows
    rwa [← show es = _ from hslotted] at this
  · intro h
    obtain ⟨hslotted, hrows⟩ := Slots.table hd.ascending h
    exact ⟨⟨hslotted, hrows, by simp [honeof]⟩, by simp [runCheck, hcheck]⟩

/-! ## Rows -/

section Rows

variable {message name : String} {n : Nat} {slot : List Entry}

/-- What a row says about a selection it says about a slot. -/
private theorem slotFor_iff {field : Field} {α : Type} {P : α → Prop} {build : α → List Entry}
    (hbuild : ∀ x, ∀ e ∈ build x, e.1 = field.number)
    (hrow : ∀ {es : List Entry}, FieldOk (validate C) message k field (select field.number es) ↔
      ∃ x, P x ∧ select field.number es = build x) :
    SlotFor C message k field slot ↔ ∃ x, P x ∧ slot = build x := by
  constructor
  · rintro ⟨hnum, hok⟩
    rw [← select_eq_self hnum]
    exact hrow.mp ((select_eq_self hnum).symm ▸ hok)
  · rintro ⟨x, hx, rfl⟩
    have hself := select_eq_self (hbuild x)
    exact ⟨hbuild x, hself ▸ hrow.mpr ⟨x, hx, hself⟩⟩

/-- The slot of a ledger id. -/
theorem slot_ledger : SlotFor C message k (required n name Kinds.id) slot ↔
    ∃ ledger : LedgerId, slot = bytesField n ledger.toVec := by
  rw [slotFor_iff (fun _ _ he => number_bytesField he) row_id]
  constructor
  · rintro ⟨x, hx, rfl⟩
    obtain ⟨ledger, hledger⟩ := IdentityId.exists_fromSlice hx
    rw [IdentityId.fromSlice_eq_some.mp hledger]
    exact ⟨ledger, rfl⟩
  · rintro ⟨ledger, rfl⟩
    exact ⟨_, ledger.length_toVec, rfl⟩

/-- The slot of an event id. -/
theorem slot_eventId : SlotFor C message k (required n name Kinds.id) slot ↔
    ∃ event : EventId, slot = bytesField n event.toVec := by
  rw [slotFor_iff (fun _ _ he => number_bytesField he) row_id]
  constructor
  · rintro ⟨x, hx, rfl⟩
    obtain ⟨event, hevent⟩ := EventId.exists_fromSlice hx
    rw [EventId.fromSlice_eq_some.mp hevent]
    exact ⟨event, rfl⟩
  · rintro ⟨event, rfl⟩
    exact ⟨_, event.length_toVec, rfl⟩

/-- The records of an optional 32-byte field. -/
def blockField (n : Nat) (block : Option (Block idBytes)) : List Entry :=
  block.elim [] fun block => bytesField n block.bytes

/-- The slot of an optional id. -/
theorem slot_block : SlotFor C message k (optional n name Kinds.id) slot ↔
    ∃ block, slot = blockField n block := by
  rw [slotFor_iff (fun _ _ he => number_bytesField he) row_optional_id]
  constructor
  · rintro ⟨x, rfl | hx, rfl⟩
    · exact ⟨none, rfl⟩
    · exact ⟨some ⟨x, hx⟩, rfl⟩
  · rintro ⟨_ | block, rfl⟩
    · exact ⟨[], .inl rfl, rfl⟩
    · exact ⟨block.bytes, .inr block.length_eq, rfl⟩

/-- The slot of a required number. -/
theorem slot_varint {max : Nat} (hmax : max < 2 ^ 64) :
    SlotFor C message k (required n name (.varint 1 max)) slot ↔
      ∃ x, (1 ≤ x ∧ x ≤ max) ∧ slot = uintField n x :=
  slotFor_iff (fun _ _ he => number_uintField he) (row_varint (by decide) hmax)

/-- The slot of an optional number, empty where it is zero. -/
theorem slot_optional_varint {max : Nat} (hmax : max < 2 ^ 64) :
    SlotFor C message k (optional n name (.varint 1 max)) slot ↔
      ∃ x, x ≤ max ∧ slot = uintField n x :=
  slotFor_iff (fun _ _ he => number_uintField he) (row_optional_varint hmax)

theorem slot_count64 : SlotFor C message k (optional n name Descriptors.count64) slot ↔
    ∃ x, x ≤ u64Max ∧ slot = uintField n x := slot_optional_varint (by decide)

theorem slot_count32 : SlotFor C message k (optional n name Descriptors.count32) slot ↔
    ∃ x, x ≤ u32Max ∧ slot = uintField n x := slot_optional_varint (by decide)

theorem slot_timestamp : SlotFor C message k (optional n name Descriptors.timestamp) slot ↔
    ∃ x, x ≤ maxTimestampMs ∧ slot = uintField n x := slot_optional_varint (by decide)

/-- The slot of a flag, empty where it is down. -/
theorem slot_flag : SlotFor C message k (optional n name Descriptors.flag) slot ↔
    ∃ b, slot = flagField n b := by
  rw [Descriptors.flag, slot_optional_varint (by decide)]
  constructor
  · rintro ⟨x, hx, rfl⟩
    obtain rfl | rfl : x = 0 ∨ x = 1 := by omega
    · exact ⟨false, rfl⟩
    · exact ⟨true, rfl⟩
  · rintro ⟨b, rfl⟩
    refine ⟨if b = true then 1 else 0, ?_, rfl⟩
    cases b <;> decide

/-- The slot of an enum. -/
theorem slot_enum {values : List EnumValue}
    (hvalues : ∀ e ∈ values, 0 < e.number ∧ e.number < 2 ^ 31) :
    SlotFor C message k (required n name (.enum values)) slot ↔
      ∃ x, x ∈ values.map EnumValue.number ∧ slot = uintField n x :=
  slotFor_iff (fun _ _ he => number_uintField he) (row_enum hvalues)

/-- The slot of a text. -/
theorem slot_text {max : Nat} (hmax : max < 2 ^ 64) :
    SlotFor C message k (optional n name (.string max .utf8)) slot ↔
      ∃ text, (utf8 text).length ≤ max ∧ slot = bytesField n (utf8 text) := by
  refine slotFor_iff (fun _ _ he => number_bytesField he) ?_
  intro es
  rw [optional_number, row_string hmax]
  refine exists_congr fun text => and_congr_left fun _ => ?_
  constructor
  · rintro (rfl | ⟨hlen, -⟩)
    · exact Nat.zero_le _
    · exact hlen
  · exact fun hlen => .inr ⟨hlen, rfl⟩

/-- The slot of one accepted event. -/
theorem slot_event : SlotFor C message k (required n name Descriptors.event) slot ↔
    ∃ event, signedEvent C event = .ok () ∧ slot = messageField n event := by
  refine slotFor_iff (fun _ _ he => number_messageField he) ?_
  intro es
  rw [required_number, fieldOk_required]
  simp only [required, Descriptors.event, valueOk_event]
  constructor
  · rintro ⟨_, hslot, event, rfl, haccepted⟩
    exact ⟨event, haccepted, hslot⟩
  · rintro ⟨event, haccepted, hslot⟩
    exact ⟨_, hslot, event, rfl, haccepted⟩

/-- The slot of accepted events within their bounds. -/
theorem slot_events {min max : Nat} :
    SlotFor C message k (Descriptors.repeated n name min max Descriptors.event) slot ↔
      ∃ events : List Bytes, (min ≤ events.length ∧ events.length ≤ max ∧
        ∀ event ∈ events, signedEvent C event = .ok ()) ∧ slot = repeatedField n events := by
  refine slotFor_iff (fun _ _ he => number_repeatedField he) ?_
  intro es
  rw [Descriptors.repeated, fieldOk_repeated rfl]
  simp only [Descriptors.event, valueOk_event, Value.bytes.injEq, exists_eq_left',
    Bool.false_eq_true, false_implies, true_and]
  constructor
  · rintro ⟨events, hslot, hmin, hmax, hall⟩
    exact ⟨events, ⟨hmin, hmax, hall⟩, hslot⟩
  · rintro ⟨events, ⟨hmin, hmax, hall⟩, hslot⟩
    exact ⟨events, hslot, hmin, hmax, hall⟩

/-- The bodies a repeated submessage holds. -/
theorem slot_messages {min max : Nat} {sub : MessageDescriptor} (hsub : sub.maxBytes < 2 ^ 64) :
    SlotFor C message k (Descriptors.repeated n name min max (.message sub)) slot ↔
      ∃ bodies : List Bytes, (min ≤ bodies.length ∧ bodies.length ≤ max ∧
        ∀ body ∈ bodies, ∃ sc, validate C sub body (k + 1) = .ok sc) ∧
        slot = repeatedField n bodies := by
  refine slotFor_iff (fun _ _ he => number_repeatedField he) ?_
  intro es
  have hvalue : ∀ body, ValueOk (validate C) message k
      ⟨n, name, .repeated min max false, .message sub⟩ (.bytes body) ↔
      ∃ sc, validate C sub body (k + 1) = .ok sc := by
    intro body
    simp only [ValueOk, FieldDescriptor.wireKind, checkBytes, Outcome.bind_eq_ok, true_and,
      and_true]
    refine and_iff_right_of_imp ?_
    rintro ⟨sc, hsc⟩
    have hlen : body.length ≤ sub.maxBytes := by
      rw [validate_eq] at hsc
      simp only [validateStep, Outcome.bind_eq_ok, Outcome.rejectIf_eq_ok] at hsc
      exact not_lt.mp hsc.choose_spec.1
    omega
  rw [Descriptors.repeated, fieldOk_repeated rfl]
  simp only [hvalue, Bool.false_eq_true, false_implies, true_and]
  constructor
  · rintro ⟨bodies, hslot, hmin, hmax, hall⟩
    exact ⟨bodies, ⟨hmin, hmax, hall⟩, hslot⟩
  · rintro ⟨bodies, ⟨hmin, hmax, hall⟩, hslot⟩
    exact ⟨bodies, hslot, hmin, hmax, hall⟩

end Rows

/-! ## Requests -/

/-- A head request is admitted exactly as its ledger. -/
theorem admits_headReq : Admits C Descriptors.headReq k es ↔
    ∃ ledger : LedgerId, es = bytesField 1 ledger.toVec := by
  rw [admits_iff_slots (syncDescriptors_wellFormed _ (by simp [syncDescriptors])) rfl rfl]
  simp only [Descriptors.headReq, Slots, slot_ledger]
  constructor
  · rintro ⟨_, _, ⟨ledger, rfl⟩, rfl, rfl⟩
    exact ⟨ledger, by simp⟩
  · rintro ⟨ledger, rfl⟩
    exact ⟨_, _, ⟨ledger, rfl⟩, rfl, by simp⟩

/-- A get request is admitted exactly as its ledger and page. -/
theorem admits_getReq : Admits C Descriptors.getReq k es ↔
    ∃ (ledger : LedgerId) (since limit : Nat), (since ≤ u64Max ∧ limit ≤ u32Max) ∧
      es = bytesField 1 ledger.toVec ++ uintField 2 since ++ uintField 3 limit := by
  rw [admits_iff_slots (syncDescriptors_wellFormed _ (by simp [syncDescriptors])) rfl rfl]
  simp only [Descriptors.getReq, Slots, slot_ledger, slot_count64, slot_count32]
  constructor
  · rintro ⟨_, _, ⟨ledger, rfl⟩, ⟨_, _, ⟨since, hsince, rfl⟩, ⟨_, _, ⟨limit, hlimit, rfl⟩, rfl, rfl⟩,
      rfl⟩, rfl⟩
    exact ⟨ledger, since, limit, ⟨hsince, hlimit⟩, by simp⟩
  · rintro ⟨ledger, since, limit, ⟨hsince, hlimit⟩, rfl⟩
    exact ⟨_, _, ⟨ledger, rfl⟩, ⟨_, _, ⟨since, hsince, rfl⟩, ⟨_, _, ⟨limit, hlimit, rfl⟩, rfl, rfl⟩,
      rfl⟩, by simp⟩

/-- A push request is admitted exactly as its ledger and accepted events. -/
theorem admits_pushReq : Admits C Descriptors.pushReq k es ↔
    ∃ (ledger : LedgerId) (events : List Bytes), (1 ≤ events.length ∧
      events.length ≤ maxPushEvents ∧ ∀ event ∈ events, signedEvent C event = .ok ()) ∧
      es = bytesField 1 ledger.toVec ++ repeatedField 2 events := by
  rw [admits_iff_slots (syncDescriptors_wellFormed _ (by simp [syncDescriptors])) rfl rfl]
  simp only [Descriptors.pushReq, Slots, slot_ledger, slot_events]
  constructor
  · rintro ⟨_, _, ⟨ledger, rfl⟩, ⟨_, _, ⟨events, hevents, rfl⟩, rfl, rfl⟩, rfl⟩
    exact ⟨ledger, events, hevents, by simp⟩
  · rintro ⟨ledger, events, hevents, rfl⟩
    exact ⟨_, _, ⟨ledger, rfl⟩, ⟨_, _, ⟨events, hevents, rfl⟩, rfl, rfl⟩, by simp⟩

/-- A list request is admitted exactly as its page. -/
theorem admits_listReq : Admits C Descriptors.listReq k es ↔
    ∃ offset limit : Nat, (offset ≤ u32Max ∧ limit ≤ u32Max) ∧
      es = uintField 1 offset ++ uintField 2 limit := by
  rw [admits_iff_slots (syncDescriptors_wellFormed _ (by simp [syncDescriptors])) rfl rfl]
  simp only [Descriptors.listReq, Slots, slot_count32]
  constructor
  · rintro ⟨_, _, ⟨offset, hoffset, rfl⟩, ⟨_, _, ⟨limit, hlimit, rfl⟩, rfl, rfl⟩, rfl⟩
    exact ⟨offset, limit, ⟨hoffset, hlimit⟩, by simp⟩
  · rintro ⟨offset, limit, ⟨hoffset, hlimit⟩, rfl⟩
    exact ⟨_, _, ⟨offset, hoffset, rfl⟩, ⟨_, _, ⟨limit, hlimit, rfl⟩, rfl, rfl⟩, by simp⟩

/-- A forks request is admitted exactly as its ledger, if any, and page. -/
theorem admits_forksReq : Admits C Descriptors.forksReq k es ↔
    ∃ (ledger : Option (Block idBytes)) (offset limit : Nat),
      (offset ≤ u32Max ∧ limit ≤ u32Max) ∧
      es = blockField 1 ledger ++ uintField 2 offset ++ uintField 3 limit := by
  rw [admits_iff_slots (syncDescriptors_wellFormed _ (by simp [syncDescriptors])) rfl rfl]
  simp only [Descriptors.forksReq, Slots, slot_block, slot_count32]
  constructor
  · rintro ⟨_, _, ⟨ledger, rfl⟩, ⟨_, _, ⟨offset, hoffset, rfl⟩, ⟨_, _, ⟨limit, hlimit, rfl⟩, rfl,
      rfl⟩, rfl⟩, rfl⟩
    exact ⟨ledger, offset, limit, ⟨hoffset, hlimit⟩, by simp⟩
  · rintro ⟨ledger, offset, limit, ⟨hoffset, hlimit⟩, rfl⟩
    exact ⟨_, _, ⟨ledger, rfl⟩, ⟨_, _, ⟨offset, hoffset, rfl⟩, ⟨_, _, ⟨limit, hlimit, rfl⟩, rfl,
      rfl⟩, rfl⟩, by simp⟩

/-! ## Responses -/

/-- A head response is admitted exactly as its fields. -/
theorem admits_headResp : Admits C Descriptors.headResp k es ↔
    ∃ (headSeq : Nat) (headEvent : EventId) (updatedMs : Nat),
      (headSeq ≤ u64Max ∧ updatedMs ≤ maxTimestampMs) ∧
      es = uintField 1 headSeq ++ bytesField 2 headEvent.toVec ++ uintField 3 updatedMs := by
  rw [admits_iff_slots (syncDescriptors_wellFormed _ (by simp [syncDescriptors])) rfl rfl]
  simp only [Descriptors.headResp, Slots, slot_eventId, slot_count64, slot_timestamp]
  constructor
  · rintro ⟨_, _, ⟨seq, hseq, rfl⟩, ⟨_, _, ⟨event, rfl⟩, ⟨_, _, ⟨ms, hms, rfl⟩, rfl, rfl⟩, rfl⟩, rfl⟩
    exact ⟨seq, event, ms, ⟨hseq, hms⟩, by simp⟩
  · rintro ⟨seq, event, ms, ⟨hseq, hms⟩, rfl⟩
    exact ⟨_, _, ⟨seq, hseq, rfl⟩, ⟨_, _, ⟨event, rfl⟩, ⟨_, _, ⟨ms, hms, rfl⟩, rfl, rfl⟩, rfl⟩,
      by simp⟩

/-- An events response is admitted exactly as its accepted events and page. -/
theorem admits_eventsResp : Admits C Descriptors.eventsResp k es ↔
    ∃ (events : List Bytes) (headSeq : Nat) (more : Bool), ((events.length ≤ maxGetLimit ∧
      ∀ event ∈ events, signedEvent C event = .ok ()) ∧ headSeq ≤ u64Max) ∧
      es = repeatedField 1 events ++ uintField 2 headSeq ++ flagField 3 more := by
  rw [admits_iff_slots (syncDescriptors_wellFormed _ (by simp [syncDescriptors])) rfl rfl]
  simp only [Descriptors.eventsResp, Slots, slot_events, slot_count64, slot_flag]
  constructor
  · rintro ⟨_, _, ⟨events, ⟨-, hevents⟩, rfl⟩, ⟨_, _, ⟨seq, hseq, rfl⟩, ⟨_, _, ⟨more, rfl⟩, rfl,
      rfl⟩, rfl⟩, rfl⟩
    exact ⟨events, seq, more, ⟨hevents, hseq⟩, by simp⟩
  · rintro ⟨events, seq, more, ⟨hevents, hseq⟩, rfl⟩
    exact ⟨_, _, ⟨events, ⟨Nat.zero_le _, hevents⟩, rfl⟩, ⟨_, _, ⟨seq, hseq, rfl⟩, ⟨_, _,
      ⟨more, rfl⟩, rfl, rfl⟩, rfl⟩, by simp⟩

/-- An accepted response is admitted exactly as its counts. -/
theorem admits_acceptedResp : Admits C Descriptors.acceptedResp k es ↔
    ∃ headSeq stored : Nat, (headSeq ≤ u64Max ∧ stored ≤ u32Max) ∧
      es = uintField 1 headSeq ++ uintField 2 stored := by
  rw [admits_iff_slots (syncDescriptors_wellFormed _ (by simp [syncDescriptors])) rfl rfl]
  simp only [Descriptors.acceptedResp, Slots, slot_count64, slot_count32]
  constructor
  · rintro ⟨_, _, ⟨seq, hseq, rfl⟩, ⟨_, _, ⟨stored, hstored, rfl⟩, rfl, rfl⟩, rfl⟩
    exact ⟨seq, stored, ⟨hseq, hstored⟩, by simp⟩
  · rintro ⟨seq, stored, ⟨hseq, hstored⟩, rfl⟩
    exact ⟨_, _, ⟨seq, hseq, rfl⟩, ⟨_, _, ⟨stored, hstored, rfl⟩, rfl, rfl⟩, by simp⟩

/-- The bounds the table of a listing's entry keeps. -/
structure LedgerSummary.Bounded (summary : LedgerSummary) : Prop where
  declaredKind : summary.declaredKind ≠ .kindUnspecified
  headSeq : summary.headSeq ≤ u64Max
  eventCount : summary.eventCount ≤ u64Max
  firstSeenMs : summary.firstSeenMs ≤ maxTimestampMs
  updatedMs : summary.updatedMs ≤ maxTimestampMs
  forkCount : summary.forkCount ≤ u32Max

/-- The records of a listing's entry. -/
def LedgerSummary.entries (summary : LedgerSummary) : List Entry :=
  bytesField 1 summary.ledger.toVec ++
    uintField 2 (varintOfInt32 summary.declaredKind.number) ++ uintField 3 summary.headSeq ++
    bytesField 4 summary.headEvent.toVec ++ uintField 5 summary.eventCount ++
    uintField 6 summary.firstSeenMs ++ uintField 7 summary.updatedMs ++
    uintField 8 summary.forkCount ++ flagField 9 summary.forksTruncated

/-- The slot of a declared kind. -/
theorem slot_declaredKind {message name : String} {n : Nat} {slot : List Entry} :
    SlotFor C message k (required n name Kinds.declaredKind) slot ↔
      ∃ kind : DeclaredKind, kind ≠ .kindUnspecified ∧
        slot = uintField n (varintOfInt32 kind.number) := by
  have hvalues : ∀ e ∈ [EnumValue.mk 1 "PERSON", ⟨2, "ORGANIZATION"⟩, ⟨3, "AGENT"⟩,
      ⟨4, "SERVICE"⟩], 0 < e.number ∧ e.number < 2 ^ 31 := by decide
  rw [Kinds.declaredKind, slot_enum hvalues]
  constructor
  · rintro ⟨x, hx, rfl⟩
    have hx : x = 1 ∨ x = 2 ∨ x = 3 ∨ x = 4 := by simpa using hx
    rcases hx with rfl | rfl | rfl | rfl
    · exact ⟨.person, by decide, rfl⟩
    · exact ⟨.organization, by decide, rfl⟩
    · exact ⟨.agent, by decide, rfl⟩
    · exact ⟨.service, by decide, rfl⟩
  · rintro ⟨kind, hkind, rfl⟩
    refine ⟨_, ?_, rfl⟩
    cases kind with
    | kindUnspecified => exact absurd rfl hkind
    | _ => decide

/-- A ledger summary is admitted exactly as a bounded one. -/
theorem admits_ledgerSummary : Admits C Descriptors.ledgerSummary k es ↔
    ∃ summary : LedgerSummary, summary.Bounded ∧ es = summary.entries := by
  rw [admits_iff_slots (syncDescriptors_wellFormed _ (by simp [syncDescriptors])) rfl rfl]
  simp only [Descriptors.ledgerSummary, Slots, slot_declaredKind, slot_count64, slot_timestamp,
    slot_count32, slot_flag]
  constructor
  · rintro ⟨_, _, hledger, ⟨_, _, ⟨kind, hkind, rfl⟩, ⟨_, _, ⟨seq, hseq, rfl⟩, ⟨_, _, hevent,
      ⟨_, _, ⟨count, hcount, rfl⟩, ⟨_, _, ⟨first, hfirst, rfl⟩, ⟨_, _, ⟨updated, hupdated, rfl⟩,
      ⟨_, _, ⟨forks, hforks, rfl⟩, ⟨_, _, ⟨truncated, rfl⟩, rfl, rfl⟩, rfl⟩, rfl⟩, rfl⟩, rfl⟩, rfl⟩,
      rfl⟩, rfl⟩, rfl⟩
    obtain ⟨ledger, rfl⟩ := slot_ledger.mp hledger
    obtain ⟨event, rfl⟩ := slot_eventId.mp hevent
    exact ⟨⟨ledger, kind, seq, event, count, first, updated, forks, truncated⟩,
      ⟨hkind, hseq, hcount, hfirst, hupdated, hforks⟩, by simp [LedgerSummary.entries]⟩
  · rintro ⟨s, ⟨hkind, hseq, hcount, hfirst, hupdated, hforks⟩, rfl⟩
    exact ⟨_, _, slot_ledger.mpr ⟨s.ledger, rfl⟩, ⟨_, _, ⟨_, hkind, rfl⟩, ⟨_, _, ⟨_, hseq, rfl⟩,
      ⟨_, _, slot_eventId.mpr ⟨s.headEvent, rfl⟩, ⟨_, _, ⟨_, hcount, rfl⟩, ⟨_, _, ⟨_, hfirst, rfl⟩,
      ⟨_, _, ⟨_, hupdated, rfl⟩, ⟨_, _, ⟨_, hforks, rfl⟩, ⟨_, _, ⟨s.forksTruncated, rfl⟩, rfl, rfl⟩,
      rfl⟩, rfl⟩, rfl⟩, rfl⟩, rfl⟩, rfl⟩, rfl⟩, by simp [LedgerSummary.entries]⟩

/-- A ledgers response is admitted exactly as admitted summaries. -/
theorem admits_ledgersResp : Admits C Descriptors.ledgersResp k es ↔
    ∃ (bodies : List Bytes) (more : Bool), (bodies.length ≤ maxListLimit ∧
      ∀ body ∈ bodies, ∃ sc, validate C Descriptors.ledgerSummary body (k + 1) = .ok sc) ∧
      es = repeatedField 1 bodies ++ flagField 2 more := by
  rw [admits_iff_slots (syncDescriptors_wellFormed _ (by simp [syncDescriptors])) rfl rfl]
  simp only [Descriptors.ledgersResp, Slots, slot_messages
    (show Descriptors.ledgerSummary.maxBytes < 2 ^ 64 by decide), slot_flag]
  constructor
  · rintro ⟨_, _, ⟨bodies, ⟨-, hbodies⟩, rfl⟩, ⟨_, _, ⟨more, rfl⟩, rfl, rfl⟩, rfl⟩
    exact ⟨bodies, more, hbodies, by simp⟩
  · rintro ⟨bodies, more, hbodies, rfl⟩
    exact ⟨_, _, ⟨bodies, ⟨Nat.zero_le _, hbodies⟩, rfl⟩, ⟨_, _, ⟨more, rfl⟩, rfl, rfl⟩, by simp⟩

/-- The fields of a fork record, its endpoint not yet read as a point. -/
structure RawFork where
  ledger : LedgerId
  seq : Nat
  kept : Bytes
  conflicting : Bytes
  observedMs : Nat
  sourceEndpoint : Option (Block idBytes)

/-- The bounds the table of a fork record keeps. -/
structure RawFork.Bounded (C : Crypto) (record : RawFork) : Prop where
  seq : 1 ≤ record.seq ∧ record.seq ≤ u64Max
  kept : signedEvent C record.kept = .ok ()
  conflicting : signedEvent C record.conflicting = .ok ()
  observedMs : record.observedMs ≤ maxTimestampMs

/-- The records of a fork record. -/
def RawFork.entries (record : RawFork) : List Entry :=
  bytesField 1 record.ledger.toVec ++ uintField 2 record.seq ++ messageField 3 record.kept ++
    messageField 4 record.conflicting ++ uintField 5 record.observedMs ++
    blockField 6 record.sourceEndpoint

/-- A fork record is admitted exactly as a bounded one. -/
theorem admits_forkRecord : Admits C Descriptors.forkRecord k es ↔
    ∃ record : RawFork, record.Bounded C ∧ es = record.entries := by
  rw [admits_iff_slots (syncDescriptors_wellFormed _ (by simp [syncDescriptors])) rfl rfl]
  simp only [Descriptors.forkRecord, Slots, slot_ledger, Descriptors.count64,
    slot_varint (show u64Max < 2 ^ 64 by decide), slot_event, slot_timestamp, slot_block]
  constructor
  · rintro ⟨_, _, ⟨ledger, rfl⟩, ⟨_, _, ⟨seq, hseq, rfl⟩, ⟨_, _, ⟨kept, hkept, rfl⟩, ⟨_, _,
      ⟨conflicting, hconflicting, rfl⟩, ⟨_, _, ⟨ms, hms, rfl⟩, ⟨_, _, ⟨source, rfl⟩, rfl, rfl⟩, rfl⟩,
      rfl⟩, rfl⟩, rfl⟩, rfl⟩
    exact ⟨⟨ledger, seq, kept, conflicting, ms, source⟩, ⟨hseq, hkept, hconflicting, hms⟩,
      by simp [RawFork.entries]⟩
  · rintro ⟨r, ⟨hseq, hkept, hconflicting, hms⟩, rfl⟩
    exact ⟨_, _, ⟨r.ledger, rfl⟩, ⟨_, _, ⟨_, hseq, rfl⟩, ⟨_, _, ⟨_, hkept, rfl⟩, ⟨_, _,
      ⟨_, hconflicting, rfl⟩, ⟨_, _, ⟨_, hms, rfl⟩, ⟨_, _, ⟨r.sourceEndpoint, rfl⟩, rfl, rfl⟩, rfl⟩,
      rfl⟩, rfl⟩, rfl⟩, by simp [RawFork.entries]⟩

/-- A forks response is admitted exactly as admitted records. -/
theorem admits_forksResp : Admits C Descriptors.forksResp k es ↔
    ∃ (bodies : List Bytes) (more : Bool), (bodies.length ≤ maxForksLimit ∧
      ∀ body ∈ bodies, ∃ sc, validate C Descriptors.forkRecord body (k + 1) = .ok sc) ∧
      es = repeatedField 1 bodies ++ flagField 2 more := by
  rw [admits_iff_slots (syncDescriptors_wellFormed _ (by simp [syncDescriptors])) rfl rfl]
  simp only [Descriptors.forksResp, Slots, slot_messages
    (show Descriptors.forkRecord.maxBytes < 2 ^ 64 by decide), slot_flag]
  constructor
  · rintro ⟨_, _, ⟨bodies, ⟨-, hbodies⟩, rfl⟩, ⟨_, _, ⟨more, rfl⟩, rfl, rfl⟩, rfl⟩
    exact ⟨bodies, more, hbodies, by simp⟩
  · rintro ⟨bodies, more, hbodies, rfl⟩
    exact ⟨_, _, ⟨bodies, ⟨Nat.zero_le _, hbodies⟩, rfl⟩, ⟨_, _, ⟨more, rfl⟩, rfl, rfl⟩, by simp⟩

theorem admits_notFoundResp : Admits C Descriptors.notFoundResp k es ↔ es = [] :=
  admits_iff_slots (syncDescriptors_wellFormed _ (by simp [syncDescriptors])) rfl rfl

/-- The slot of a rejection code. -/
theorem slot_rejectCode {message name : String} {n : Nat} {slot : List Entry} :
    SlotFor C message k (required n name Descriptors.rejectCode) slot ↔
      ∃ code : RejectCode, code ≠ .unspecified ∧ slot = uintField n code.number := by
  have hvalues : ∀ e ∈ [EnumValue.mk 1 "MALFORMED", ⟨2, "TOO_LARGE"⟩, ⟨3, "INVALID"⟩, ⟨4, "FORK"⟩,
      ⟨5, "UNSUPPORTED"⟩, ⟨6, "NOT_ADMITTED"⟩, ⟨7, "BUSY"⟩],
      0 < e.number ∧ e.number < 2 ^ 31 := by decide
  rw [Descriptors.rejectCode, slot_enum hvalues]
  constructor
  · rintro ⟨x, hx, rfl⟩
    have hx : x = 1 ∨ x = 2 ∨ x = 3 ∨ x = 4 ∨ x = 5 ∨ x = 6 ∨ x = 7 := by simpa using hx
    rcases hx with rfl | rfl | rfl | rfl | rfl | rfl | rfl
    · exact ⟨.malformed, by decide, rfl⟩
    · exact ⟨.tooLarge, by decide, rfl⟩
    · exact ⟨.invalid, by decide, rfl⟩
    · exact ⟨.fork, by decide, rfl⟩
    · exact ⟨.unsupported, by decide, rfl⟩
    · exact ⟨.notAdmitted, by decide, rfl⟩
    · exact ⟨.busy, by decide, rfl⟩
  · rintro ⟨code, hcode, rfl⟩
    refine ⟨_, ?_, rfl⟩
    cases code with
    | unspecified => exact absurd rfl hcode
    | _ => decide

/-- A rejection is admitted exactly as its code, sequence number and message. -/
theorem admits_rejectedResp : Admits C Descriptors.rejectedResp k es ↔
    ∃ (code : RejectCode) (atSeq : Nat) (msg : String), (code ≠ .unspecified ∧ atSeq ≤ u64Max ∧
      (utf8 msg).length ≤ maxRejectMsgBytes) ∧
      es = uintField 1 code.number ++ uintField 2 atSeq ++ bytesField 3 (utf8 msg) := by
  rw [admits_iff_slots (syncDescriptors_wellFormed _ (by simp [syncDescriptors])) rfl rfl]
  simp only [Descriptors.rejectedResp, Slots, slot_rejectCode, slot_count64,
    slot_text (show maxRejectMsgBytes < 2 ^ 64 by decide)]
  constructor
  · rintro ⟨_, _, ⟨code, hcode, rfl⟩, ⟨_, _, ⟨seq, hseq, rfl⟩, ⟨_, _, ⟨msg, hmsg, rfl⟩, rfl, rfl⟩,
      rfl⟩, rfl⟩
    exact ⟨code, seq, msg, ⟨hcode, hseq, hmsg⟩, by simp⟩
  · rintro ⟨code, seq, msg, ⟨hcode, hseq, hmsg⟩, rfl⟩
    exact ⟨_, _, ⟨code, hcode, rfl⟩, ⟨_, _, ⟨seq, hseq, rfl⟩, ⟨_, _, ⟨msg, hmsg, rfl⟩, rfl, rfl⟩,
      rfl⟩, by simp⟩

/-! ## Frames -/

/-- A table that is one `oneof` admits one record, which carries the body of one of its
variants. -/
theorem admits_oneof (hd : d.WellFormed) (honeof : d.oneof.isSome = true)
    (hcheck : d.check = none)
    (hvariants : ∀ f ∈ d.fields, ∃ number name sub, f = Validate.variant number name sub) :
    Admits C d k es ↔ ∃ number name sub, Validate.variant number name sub ∈ d.fields ∧
      ∃ body, (body.length < 2 ^ 64 ∧ ∃ sc, validate C sub body (k + 1) = .ok sc) ∧
        es = messageField number body := by
  have hsplit : d.OneofSplit [] d.fields := by
    refine ⟨rfl, by simp, fun f hf => ?_⟩
    obtain ⟨number, name, sub, rfl⟩ := hvariants f hf
    exact ⟨rfl, rfl⟩
  constructor
  · intro h
    obtain ⟨f, hf, body, hes, hvalue⟩ := Tabled.split hsplit honeof h.toTabled
    obtain ⟨number, name, sub, rfl⟩ := hvariants f hf
    obtain ⟨_, hbody, hlen, hsc⟩ := valueOk_message.mp hvalue
    obtain rfl := Value.bytes.inj hbody
    exact ⟨number, name, sub, hf, body, ⟨hlen, hsc⟩, by simpa using hes⟩
  · rintro ⟨number, name, sub, hf, body, hbody, rfl⟩
    obtain ⟨hslotted, hrows, hone⟩ :=
      slots_of_variant d.name hd hsplit [] rfl (by simp) hf (valueOk_message.mpr ⟨body, rfl, hbody⟩)
    exact ⟨⟨hslotted, hrows, fun _ => hone⟩, by simp [runCheck, hcheck]⟩

end Mabel.Net
