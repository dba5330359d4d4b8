import Mabel.Net.Tables

/-!
# Frames and the values they carry

What a frame's table admits is the encoding of a value, and the hand-written reader answers
that value. A fork record is the one exception: its table accepts 32 bytes for an endpoint and
reading asks for a point of the curve, so a response is first read as a raw one.
-/

namespace Mabel.Net

open Wire Proto Validate

variable {C : Crypto}

/-! ## Lookups -/

section Lookups

variable {es : List Entry} {n : Nat}

/-- A repeated field reads back as what was written. -/
theorem repeated_of_select {values : List Bytes} (h : select n es = repeatedField n values) :
    repeated es n = values := by
  have hselect : repeated es n = repeated (select n es) n := by
    unfold repeated
    rw [select, List.filterMap_filter]
    refine List.filterMap_congr fun e _ => ?_
    obtain ⟨m, v | b⟩ := e
    · simp
    · by_cases hm : m = n <;> simp [hm]
  rw [hselect, h, repeated, repeatedField, List.filterMap_map]
  simp

theorem flag_of_select {b : Bool} (h : select n es = flagField n b) : flag es n = b := by
  rw [flag, uint_of_select h]
  cases b <;> simp

theorem bytes_of_bytesField {value : Bytes} (h : select n es = bytesField n value)
    (hne : value ≠ []) : bytes es n = some value :=
  bytes_of_select (by rw [h, bytesField_of_ne hne]; rfl)

/-- A ledger id reads back as what was written. -/
theorem ledgerId_of_select {ledger : LedgerId} (h : select n es = bytesField n ledger.toVec) :
    ledgerId (bytes es n) = some ledger := by
  rw [bytes_of_bytesField h (ne_nil_of_id ledger.length_toVec), ledgerId, Option.bind_some,
    IdentityId.fromSlice_toVec]

/-- An event id reads back as what was written. -/
theorem eventId_of_select {event : EventId} (h : select n es = bytesField n event.toVec) :
    eventIdField (bytes es n) = some event := by
  rw [bytes_of_bytesField h (ne_nil_of_id event.length_toVec), eventIdField, Option.bind_some,
    EventId.fromSlice_toVec]

/-- An optional id reads back as what was written. -/
theorem bytes_of_blockField {block : Option (Block idBytes)}
    (h : select n es = blockField n block) : bytes es n = block.map Block.bytes := by
  cases block with
  | none => exact bytes_of_select_nil h
  | some block => exact bytes_of_bytesField h (ne_nil_of_id block.length_eq)

end Lookups

@[simp] theorem select_flagField (number n : Nat) (b : Bool) :
    select number (flagField n b) = if n = number then flagField n b else [] :=
  select_uintField number n _

@[simp] theorem select_blockField (number n : Nat) (block : Option (Block idBytes)) :
    select number (blockField n block) = if n = number then blockField n block else [] := by
  cases block with
  | none => simp [blockField]
  | some block => exact select_bytesField number n _

/-! ## Frames -/

/-- What a table that is one `oneof` accepts: a variant's number and the records of its body. -/
structure Carried (C : Crypto) (d : MessageDescriptor) (number : Nat) (sub : MessageDescriptor)
    (es : List Entry) : Prop where
  variant : ∃ name, Validate.variant number name sub ∈ d.fields
  size : (putEntries es).length ≤ sub.maxBytes
  body : Admits C sub 1 es

theorem message_eq_ok {d : MessageDescriptor} {bytes : Bytes} :
    message C d bytes = .ok () ↔ ∃ sc, validate C d bytes 0 = .ok sc := by
  simp [message, Outcome.bind_eq_ok]

/-- The envelopes: the frame of a request and the frame of a response. -/
structure IsFrame (d : MessageDescriptor) : Prop where
  wellFormed : d.WellFormed
  oneof : d.oneof.isSome = true
  check : d.check = none
  variants : ∀ f ∈ d.fields, ∃ number name sub, f = Validate.variant number name sub ∧
    sub ∈ syncDescriptors

/-- The request descriptor is a frame. -/
theorem isFrame_request : IsFrame Descriptors.request := by
  refine ⟨syncDescriptors_wellFormed _ (by simp [syncDescriptors]), rfl, rfl, ?_⟩
  simp only [Descriptors.request, List.forall_mem_cons]
  refine ⟨⟨_, _, _, rfl, ?_⟩, ⟨_, _, _, rfl, ?_⟩, ⟨_, _, _, rfl, ?_⟩, ⟨_, _, _, rfl, ?_⟩,
    ⟨_, _, _, rfl, ?_⟩, by simp⟩ <;> simp [syncDescriptors]

/-- The response descriptor is a frame. -/
theorem isFrame_response : IsFrame Descriptors.response := by
  refine ⟨syncDescriptors_wellFormed _ (by simp [syncDescriptors]), rfl, rfl, ?_⟩
  simp only [Descriptors.response, List.forall_mem_cons]
  refine ⟨⟨_, _, _, rfl, ?_⟩, ⟨_, _, _, rfl, ?_⟩, ⟨_, _, _, rfl, ?_⟩, ⟨_, _, _, rfl, ?_⟩,
    ⟨_, _, _, rfl, ?_⟩, ⟨_, _, _, rfl, ?_⟩, ⟨_, _, _, rfl, ?_⟩, by simp⟩ <;> simp [syncDescriptors]

theorem syncDescriptors_maxBytes : ∀ d ∈ syncDescriptors, d.maxBytes < 2 ^ 64 := by decide

section IsFrame

variable {d : MessageDescriptor} {frame : Bytes}

/-- A frame passes its table exactly if it is an envelope of an admitted body. -/
theorem IsFrame.accepts_iff (hd : IsFrame d) : message C d frame = .ok () ↔
    frame.length ≤ d.maxBytes ∧
      ∃ number sub es, Carried C d number sub es ∧ frame = envelope number es := by
  rw [message_eq_ok, Validate.accepts_iff hd.wellFormed]
  have hadmits := fun es => @admits_oneof C d 0 es hd.wellFormed hd.oneof hd.check fun f hf =>
    (hd.variants f hf).imp fun _ ⟨name, sub, h, _⟩ => ⟨name, sub, h⟩
  simp only [hadmits]
  refine and_congr_right fun _ => ⟨?_, ?_⟩
  · rintro ⟨-, _, rfl, number, name, sub, hf, body, ⟨-, hbody⟩, rfl⟩
    obtain ⟨_, _, _, hvariant, hsub⟩ := hd.variants _ hf
    obtain rfl : sub = _ := by simpa [Validate.variant] using congrArg FieldDescriptor.kind hvariant
    obtain ⟨hsize, -, es, rfl, hes⟩ :=
      (Validate.accepts_iff (syncDescriptors_wellFormed _ hsub)).mp hbody
    exact ⟨number, sub, es, ⟨⟨name, hf⟩, hsize, hes⟩, rfl⟩
  · rintro ⟨number, sub, es, ⟨⟨name, hf⟩, hsize, hes⟩, rfl⟩
    obtain ⟨_, _, _, hvariant, hsub⟩ := hd.variants _ hf
    obtain rfl : sub = _ := by simpa [Validate.variant] using congrArg FieldDescriptor.kind hvariant
    refine ⟨by decide, _, rfl, number, name, sub, hf, putEntries es, ⟨?_, ?_⟩, rfl⟩
    · exact hsize.trans_lt (syncDescriptors_maxBytes _ hsub)
    · exact (Validate.accepts_iff (syncDescriptors_wellFormed _ hsub)).mpr
        ⟨hsize, by decide, es, rfl, hes⟩

/-- The records of an accepted message, as both readers see them. -/
theorem fields_of_accepts {bytes : Bytes} {k : Nat} (hd : d.WellFormed)
    (h : ∃ sc, validate C d bytes k = .ok sc) : ∃ es, bytes = putEntries es ∧ Admits C d k es ∧
      scan (validate C) d bytes k = .ok ⟨d, k, es⟩ ∧ fields bytes = some es := by
  obtain ⟨-, hk, es, rfl, hes⟩ := (accepts_iff hd).mp h
  exact ⟨es, rfl, hes, scan_of_admits hd hk hes, fields_putEntries (hes.fits hd)⟩

/-- An envelope is known by its number and its entries. -/
theorem envelope_inj {number n : Nat} {es fs : List Entry}
    (h : envelope number es = envelope n fs) : number = n ∧ es = fs := by
  have hrecord := putEntries_injective h
  simp only [messageField, List.cons.injEq, Prod.mk.injEq, Value.bytes.injEq, and_true] at hrecord
  exact ⟨hrecord.1, putEntries_injective hrecord.2⟩

/-- The records of an accepted envelope. -/
theorem IsFrame.fields_envelope (hd : IsFrame d) {number : Nat} {es : List Entry}
    (h : message C d (envelope number es) = .ok ()) :
    fields (envelope number es) = some (messageField number (putEntries es)) ∧
      fields (putEntries es) = some es := by
  obtain ⟨_, n, sub, fs, ⟨⟨name, hf⟩, hsize, hfs⟩, henvelope⟩ := hd.accepts_iff.mp h
  obtain ⟨rfl, rfl⟩ := envelope_inj henvelope
  obtain ⟨_, _, _, hvariant, hsub⟩ := hd.variants _ hf
  obtain rfl : sub = _ := by simpa [Validate.variant] using congrArg FieldDescriptor.kind hvariant
  obtain ⟨outer, houter, -, -, hfields⟩ := fields_of_accepts hd.wellFormed (message_eq_ok.mp h)
  obtain rfl := putEntries_injective houter
  exact ⟨hfields, fields_putEntries (hfs.fits (syncDescriptors_wellFormed _ hsub))⟩

@[simp] theorem variant_messageField (number : Nat) (body : Bytes) :
    variant (messageField number body) = some (number, body) := rfl

end IsFrame

/-! ## Requests -/

namespace Request

/-- The variant a request is. -/
def number : Request → Nat
  | .head .. => 1
  | .get .. => 2
  | .push .. => 3
  | .list .. => 4
  | .forks .. => 5

/-- The records of the variant's body. -/
def entries : Request → List Entry
  | .head ledger => bytesField 1 ledger.toVec
  | .get ledger since limit =>
    bytesField 1 ledger.toVec ++ uintField 2 since.toNat ++ uintField 3 limit.toNat
  | .push ledger events => bytesField 1 ledger.toVec ++ repeatedField 2 events
  | .list offset limit => uintField 1 offset.toNat ++ uintField 2 limit.toNat
  | .forks ledger offset limit => blockField 1 (ledger.map IdentityId.raw) ++
      uintField 2 offset.toNat ++ uintField 3 limit.toNat

/-- A request is encoded as the envelope of its entries. -/
theorem encode_eq (r : Request) : r.encode = envelope r.number r.entries := by
  cases r with
  | forks ledger offset limit => cases ledger <;> rfl
  | _ => rfl

/-- The reader answers the request whose records it reads. -/
theorem read_entries (r : Request) : readRequest r.number r.entries = .ok r := by
  cases r with
  | head ledger =>
    have hledger : ledgerId (bytes (bytesField 1 ledger.toVec) 1) = some ledger :=
      ledgerId_of_select (by simp)
    simp [readRequest, number, entries, hledger]
  | get ledger since limit =>
    have hledger : ledgerId (bytes (entries (.get ledger since limit)) 1) = some ledger :=
      ledgerId_of_select (by simp [entries])
    have hsince : uint (entries (.get ledger since limit)) 2 = since.toNat :=
      uint_of_select (by simp [entries])
    have hlimit : uint (entries (.get ledger since limit)) 3 = limit.toNat :=
      uint_of_select (by simp [entries])
    simp [readRequest, number, hledger, hsince, hlimit]
  | push ledger events =>
    have hledger : ledgerId (bytes (entries (.push ledger events)) 1) = some ledger :=
      ledgerId_of_select (by simp [entries])
    have hevents : repeated (entries (.push ledger events)) 2 = events :=
      repeated_of_select (by simp [entries])
    simp [readRequest, number, hledger, hevents]
  | list offset limit =>
    have hoffset : uint (entries (.list offset limit)) 1 = offset.toNat :=
      uint_of_select (by simp [entries])
    have hlimit : uint (entries (.list offset limit)) 2 = limit.toNat :=
      uint_of_select (by simp [entries])
    simp [readRequest, number, hoffset, hlimit]
  | forks ledger offset limit =>
    have hledger : bytes (entries (.forks ledger offset limit)) 1 =
        (ledger.map IdentityId.raw).map Block.bytes :=
      bytes_of_blockField (by simp [entries])
    have hoffset : uint (entries (.forks ledger offset limit)) 2 = offset.toNat :=
      uint_of_select (by simp [entries])
    have hlimit : uint (entries (.forks ledger offset limit)) 3 = limit.toNat :=
      uint_of_select (by simp [entries])
    cases ledger with
    | none => simp [readRequest, number, hledger, hoffset, hlimit]
    | some ledger =>
      have hread : IdentityId.fromSlice ledger.raw.bytes = some ledger :=
        IdentityId.fromSlice_toVec ledger
      simp [readRequest, number, hledger, hoffset, hlimit, hread]

end Request

/-- The body of an accepted request frame holds the records of a request. -/
theorem exists_request {number : Nat} {sub : MessageDescriptor} {es : List Entry}
    (h : Carried C Descriptors.request number sub es) :
    ∃ r : Request, number = r.number ∧ es = r.entries := by
  obtain ⟨⟨name, hvariant⟩, -, hes⟩ := h
  have hcases : (number = 1 ∧ sub = Descriptors.headReq) ∨ (number = 2 ∧ sub = Descriptors.getReq) ∨
      (number = 3 ∧ sub = Descriptors.pushReq) ∨ (number = 4 ∧ sub = Descriptors.listReq) ∨
      (number = 5 ∧ sub = Descriptors.forksReq) := by
    simp only [Descriptors.request, List.mem_cons, Validate.variant, FieldDescriptor.mk.injEq,
      List.not_mem_nil, FieldKind.message.injEq] at hvariant
    tauto
  rcases hcases with ⟨rfl, rfl⟩ | ⟨rfl, rfl⟩ | ⟨rfl, rfl⟩ | ⟨rfl, rfl⟩ | ⟨rfl, rfl⟩
  · obtain ⟨ledger, rfl⟩ := admits_headReq.mp hes
    exact ⟨.head ledger, rfl, rfl⟩
  · obtain ⟨ledger, since, limit, ⟨hsince, hlimit⟩, rfl⟩ := admits_getReq.mp hes
    refine ⟨.get ledger (.ofNat since) (.ofNat limit), rfl, ?_⟩
    rw [Request.entries, UInt64.toNat_ofNat_of_lt', UInt32.toNat_ofNat_of_lt']
    · exact Nat.lt_succ_of_le hlimit
    · exact Nat.lt_succ_of_le hsince
  · obtain ⟨ledger, events, -, rfl⟩ := admits_pushReq.mp hes
    exact ⟨.push ledger events, rfl, rfl⟩
  · obtain ⟨offset, limit, ⟨hoffset, hlimit⟩, rfl⟩ := admits_listReq.mp hes
    refine ⟨.list (.ofNat offset) (.ofNat limit), rfl, ?_⟩
    rw [Request.entries, UInt32.toNat_ofNat_of_lt', UInt32.toNat_ofNat_of_lt']
    · exact Nat.lt_succ_of_le hlimit
    · exact Nat.lt_succ_of_le hoffset
  · obtain ⟨ledger, offset, limit, ⟨hoffset, hlimit⟩, rfl⟩ := admits_forksReq.mp hes
    refine ⟨.forks (ledger.map IdentityId.mk) (.ofNat offset) (.ofNat limit), rfl, ?_⟩
    rw [Request.entries, UInt32.toNat_ofNat_of_lt', UInt32.toNat_ofNat_of_lt']
    · cases ledger <;> rfl
    · exact Nat.lt_succ_of_le hlimit
    · exact Nat.lt_succ_of_le hoffset

/-- An accepted request frame is the encoding of a request. -/
theorem exists_encode_of_request {frame : Bytes} (h : message C Descriptors.request frame = .ok ()) :
    ∃ r : Request, frame = r.encode := by
  obtain ⟨-, number, sub, es, hcarried, rfl⟩ := isFrame_request.accepts_iff.mp h
  obtain ⟨r, rfl, rfl⟩ := exists_request hcarried
  exact ⟨r, r.encode_eq.symm⟩

/-- A request comes back from its frame if the frame passes the table. -/
theorem parseRequest_encode {r : Request} (h : message C Descriptors.request r.encode = .ok ()) :
    parseRequest C r.encode = .ok r := by
  rw [r.encode_eq] at h ⊢
  obtain ⟨houter, hinner⟩ := isFrame_request.fields_envelope h
  simp [parseRequest, h, houter, hinner, r.read_entries]

/-! ## Entries of a page -/

/-- A bounded summary fits the encoding. -/
theorem LedgerSummary.Bounded.fits (C : Crypto) {summary : LedgerSummary} (h : summary.Bounded) :
    ∀ e ∈ summary.entries, Wire.Fits e :=
  ((@admits_ledgerSummary C 0 _).mpr ⟨summary, h, rfl⟩).fits
    (syncDescriptors_wellFormed _ (by simp [syncDescriptors]))

/-- A bounded fork record fits the encoding. -/
theorem RawFork.Bounded.fits {record : RawFork} (h : record.Bounded C) :
    ∀ e ∈ record.entries, Wire.Fits e :=
  (admits_forkRecord.mpr ⟨record, h, rfl⟩ : Admits C Descriptors.forkRecord 0 _).fits
    (syncDescriptors_wellFormed _ (by simp [syncDescriptors]))

/-- A listing's entry within its bounds comes back from its records. -/
theorem readSummary_entries (C : Crypto) {summary : LedgerSummary} (h : summary.Bounded) :
    readSummary (putEntries summary.entries) = some summary := by
  have hledger : ledgerId (bytes summary.entries 1) = some summary.ledger :=
    ledgerId_of_select (by simp [LedgerSummary.entries])
  have hkind : uint summary.entries 2 = varintOfInt32 summary.declaredKind.number :=
    uint_of_select (by simp [LedgerSummary.entries])
  have hseq : uint summary.entries 3 = summary.headSeq :=
    uint_of_select (by simp [LedgerSummary.entries])
  have hevent : eventIdField (bytes summary.entries 4) = some summary.headEvent :=
    eventId_of_select (by simp [LedgerSummary.entries])
  have hcount : uint summary.entries 5 = summary.eventCount :=
    uint_of_select (by simp [LedgerSummary.entries])
  have hfirst : uint summary.entries 6 = summary.firstSeenMs :=
    uint_of_select (by simp [LedgerSummary.entries])
  have hupdated : uint summary.entries 7 = summary.updatedMs :=
    uint_of_select (by simp [LedgerSummary.entries])
  have hforks : uint summary.entries 8 = summary.forkCount :=
    uint_of_select (by simp [LedgerSummary.entries])
  have htruncated : flag summary.entries 9 = summary.forksTruncated :=
    flag_of_select (by simp [LedgerSummary.entries])
  have hdeclared : DeclaredKind.tryFrom (int32OfVarint (uint summary.entries 2)) =
      some summary.declaredKind := by
    rw [hkind]
    cases summary.declaredKind <;> rfl
  have hcast : summary.forkCount < 4294967296 := Nat.lt_succ_of_le h.forkCount
  simp [readSummary, fields_putEntries (h.fits C), hledger, hdeclared, hseq, hevent, hcount, hfirst,
    hupdated, hforks, htruncated, Nat.mod_eq_of_lt hcast]

/-- A fork record with its endpoint read as a point. -/
def RawFork.at (record : RawFork) (source : Option (EndpointId C)) : ForkRecord C :=
  ⟨record.ledger, record.seq, record.kept, record.conflicting, record.observedMs, source⟩

/-- A fork record within its bounds comes back from its records if its endpoint is a point. -/
theorem readFork_entries {record : RawFork} (h : record.Bounded C) :
    readFork C (putEntries record.entries) =
      (readSource C (record.sourceEndpoint.map Block.bytes)).map record.at := by
  have hledger : ledgerId (bytes record.entries 1) = some record.ledger :=
    ledgerId_of_select (by simp [RawFork.entries])
  have hseq : uint record.entries 2 = record.seq := uint_of_select (by simp [RawFork.entries])
  have hkept : bytes record.entries 3 = some record.kept :=
    bytes_of_select (by simp [RawFork.entries])
  have hconflicting : bytes record.entries 4 = some record.conflicting :=
    bytes_of_select (by simp [RawFork.entries])
  have hobserved : uint record.entries 5 = record.observedMs :=
    uint_of_select (by simp [RawFork.entries])
  have hsource : bytes record.entries 6 = record.sourceEndpoint.map Block.bytes :=
    bytes_of_blockField (by simp [RawFork.entries])
  simp only [readFork, fields_putEntries h.fits, hsource, Option.bind_eq_bind, Option.bind_some]
  cases readSource C (record.sourceEndpoint.map Block.bytes) with
  | none => rfl
  | some source => simp [hledger, hseq, hkept, hconflicting, hobserved, RawFork.at]

/-! ## Responses -/

/-- A fork record with its endpoint left as bytes. -/
def ForkRecord.unread (record : ForkRecord C) : RawFork :=
  ⟨record.ledger, record.seq, record.kept, record.conflicting, record.observedMs,
    record.sourceEndpoint.map PublicKey.raw⟩

theorem ForkRecord.forkEntry_eq (record : ForkRecord C) :
    forkEntry record = putEntries record.unread.entries := by
  obtain ⟨_, _, _, _, _, _ | endpoint⟩ := record <;> rfl

/-- A bounded fork record reads back as itself. -/
theorem ForkRecord.readFork_unread {record : ForkRecord C} (h : record.unread.Bounded C) :
    readFork C (forkEntry record) = some record := by
  rw [record.forkEntry_eq, readFork_entries h]
  obtain ⟨_, _, _, _, _, _ | endpoint⟩ := record
  · rfl
  · simp [unread, readSource, RawFork.at]

namespace Response

/-- The variant a response is. -/
def number : Response C → Nat
  | .head .. => 1
  | .events .. => 2
  | .accepted .. => 3
  | .ledgers .. => 4
  | .forks .. => 5
  | .notFound => 6
  | .rejected .. => 7

/-- The records of the variant's body, a reason not clipped. -/
def entries : Response C → List Entry
  | .head value =>
    uintField 1 value.headSeq ++ bytesField 2 value.headEvent.toVec ++ uintField 3 value.updatedMs
  | .events page => repeatedField 1 page.events ++ uintField 2 page.headSeq ++ flagField 3 page.more
  | .accepted outcome => uintField 1 outcome.headSeq ++ uintField 2 outcome.stored
  | .ledgers page => repeatedField 1 (page.items.map summaryEntry) ++ flagField 2 page.more
  | .forks page => repeatedField 1 (page.items.map forkEntry) ++ flagField 2 page.more
  | .notFound => []
  | .rejected rejection => uintField 1 rejection.code.number ++ uintField 2 rejection.atSeq ++
      bytesField 3 (utf8 rejection.msg)

/-- The bounds the tables keep on the fields the reader casts and on the entries of a page. -/
def Bounded : Response C → Prop
  | .accepted outcome => outcome.stored ≤ u32Max
  | .ledgers page => ∀ summary ∈ page.items, summary.Bounded
  | .forks page => ∀ record ∈ page.items, record.unread.Bounded C
  | _ => True

/-- The reader answers the response whose records it reads. -/
theorem read_entries {r : Response C} (h : r.Bounded) :
    readResponse C r.number r.entries = .ok r := by
  cases r with
  | head value =>
    have hseq : uint (entries (C := C) (.head value)) 1 = value.headSeq :=
      uint_of_select (by simp [entries])
    have hevent : eventIdField (bytes (entries (C := C) (.head value)) 2) = some value.headEvent :=
      eventId_of_select (by simp [entries])
    have hms : uint (entries (C := C) (.head value)) 3 = value.updatedMs :=
      uint_of_select (by simp [entries])
    simp [readResponse, number, hseq, hevent, hms]
  | events page =>
    have hevents : repeated (entries (C := C) (.events page)) 1 = page.events :=
      repeated_of_select (by simp [entries])
    have hseq : uint (entries (C := C) (.events page)) 2 = page.headSeq :=
      uint_of_select (by simp [entries])
    have hmore : flag (entries (C := C) (.events page)) 3 = page.more :=
      flag_of_select (by simp [entries])
    simp [readResponse, number, hevents, hseq, hmore]
  | accepted outcome =>
    have hseq : uint (entries (C := C) (.accepted outcome)) 1 = outcome.headSeq :=
      uint_of_select (by simp [entries])
    have hstored : uint (entries (C := C) (.accepted outcome)) 2 = outcome.stored :=
      uint_of_select (by simp [entries])
    have hcast : outcome.stored < 4294967296 := Nat.lt_succ_of_le h
    simp [readResponse, number, hseq, hstored, Nat.mod_eq_of_lt hcast]
  | ledgers page =>
    have hitems : repeated (entries (C := C) (.ledgers page)) 1 = page.items.map summaryEntry :=
      repeated_of_select (by simp [entries])
    have hmore : flag (entries (C := C) (.ledgers page)) 2 = page.more :=
      flag_of_select (by simp [entries])
    simp only [readResponse, number, hitems, hmore]
    rw [Outcome.mapM_orReject_map]
    · rfl
    · exact fun summary hsummary => readSummary_entries C (h summary hsummary)
  | forks page =>
    have hitems : repeated (entries (.forks page)) 1 = page.items.map forkEntry :=
      repeated_of_select (by simp [entries])
    have hmore : flag (entries (.forks page)) 2 = page.more :=
      flag_of_select (by simp [entries])
    simp only [readResponse, number, hitems, hmore]
    rw [Outcome.mapM_orReject_map]
    · rfl
    · exact fun record hrecord => ForkRecord.readFork_unread (h record hrecord)
  | notFound => rfl
  | rejected rejection =>
    have hcode : uint (entries (C := C) (.rejected rejection)) 1 = rejection.code.number :=
      uint_of_select (by simp [entries])
    have hseq : uint (entries (C := C) (.rejected rejection)) 2 = rejection.atSeq :=
      uint_of_select (by simp [entries])
    have hmsg : text (bytes (entries (C := C) (.rejected rejection)) 3) = some rejection.msg := by
      have hselect : select 3 (entries (C := C) (.rejected rejection)) =
          bytesField 3 (utf8 rejection.msg) := by simp [entries]
      by_cases hempty : utf8 rejection.msg = []
      · rw [bytes_of_select_nil (by rw [hselect, hempty]; rfl)]
        exact congrArg some (utf8_injective (hempty.symm ▸ rfl))
      · rw [bytes_of_bytesField hselect hempty]
        exact fromUtf8_utf8 rejection.msg
    have hknown : RejectCode.tryFrom (int32OfVarint rejection.code.number) = some rejection.code := by
      cases rejection.code <;> rfl
    simp [readResponse, number, hcode, hseq, hmsg, hknown]

end Response

/-- Accepted entries of a page are the spellings of values. -/
private theorem exists_map_of_bodies {d : MessageDescriptor} {α : Type} {P : α → Prop}
    {entries : α → List Entry} {k : Nat} {bodies : List Bytes} (hd : d ∈ syncDescriptors)
    (hadmits : ∀ es, Admits C d k es → ∃ value, P value ∧ es = entries value)
    (h : ∀ body ∈ bodies, ∃ sc, validate C d body k = .ok sc) :
    ∃ values : List α, (∀ value ∈ values, P value) ∧
      bodies = values.map fun value => putEntries (entries value) := by
  induction bodies with
  | nil => exact ⟨[], by simp⟩
  | cons body bodies ih =>
    obtain ⟨hbody, hbodies⟩ := List.forall_mem_cons.mp h
    obtain ⟨-, -, es, rfl, hes⟩ := (accepts_iff (syncDescriptors_wellFormed d hd)).mp hbody
    obtain ⟨value, hvalue, rfl⟩ := hadmits es hes
    obtain ⟨values, hvalues, rfl⟩ := ih hbodies
    exact ⟨value :: values, List.forall_mem_cons.mpr ⟨hvalue, hvalues⟩, rfl⟩

/-- The body of an accepted response frame holds the records of a response, or of fork records
whose endpoints are 32 bytes each. -/
theorem exists_response {number : Nat} {sub : MessageDescriptor} {es : List Entry}
    (h : Carried C Descriptors.response number sub es) :
    (∃ r : Response C, r.Bounded ∧ number = r.number ∧ es = r.entries) ∨
      (number = 5 ∧ ∃ (records : List RawFork) (more : Bool),
        (∀ record ∈ records, record.Bounded C) ∧
        es = repeatedField 1 (records.map fun record => putEntries record.entries) ++
          flagField 2 more) := by
  obtain ⟨⟨name, hvariant⟩, -, hes⟩ := h
  have hcases : (number = 1 ∧ sub = Descriptors.headResp) ∨
      (number = 2 ∧ sub = Descriptors.eventsResp) ∨ (number = 3 ∧ sub = Descriptors.acceptedResp) ∨
      (number = 4 ∧ sub = Descriptors.ledgersResp) ∨ (number = 5 ∧ sub = Descriptors.forksResp) ∨
      (number = 6 ∧ sub = Descriptors.notFoundResp) ∨
      (number = 7 ∧ sub = Descriptors.rejectedResp) := by
    simp only [Descriptors.response, List.mem_cons, Validate.variant, FieldDescriptor.mk.injEq,
      List.not_mem_nil, FieldKind.message.injEq] at hvariant
    tauto
  rcases hcases with ⟨rfl, rfl⟩ | ⟨rfl, rfl⟩ | ⟨rfl, rfl⟩ | ⟨rfl, rfl⟩ | ⟨rfl, rfl⟩ | ⟨rfl, rfl⟩ |
    ⟨rfl, rfl⟩
  · obtain ⟨headSeq, headEvent, updatedMs, -, rfl⟩ := admits_headResp.mp hes
    exact .inl ⟨.head ⟨headSeq, headEvent, updatedMs⟩, trivial, rfl, rfl⟩
  · obtain ⟨events, headSeq, more, -, rfl⟩ := admits_eventsResp.mp hes
    exact .inl ⟨.events ⟨events, headSeq, more⟩, trivial, rfl, rfl⟩
  · obtain ⟨headSeq, stored, ⟨-, hstored⟩, rfl⟩ := admits_acceptedResp.mp hes
    exact .inl ⟨.accepted ⟨headSeq, stored⟩, hstored, rfl, rfl⟩
  · obtain ⟨bodies, more, ⟨-, hall⟩, rfl⟩ := admits_ledgersResp.mp hes
    obtain ⟨summaries, hbounded, rfl⟩ := exists_map_of_bodies (by simp [syncDescriptors])
      (fun _ => admits_ledgerSummary.mp) hall
    exact .inl ⟨.ledgers ⟨summaries, more⟩, hbounded, rfl, rfl⟩
  · obtain ⟨bodies, more, ⟨-, hall⟩, rfl⟩ := admits_forksResp.mp hes
    obtain ⟨records, hbounded, rfl⟩ := exists_map_of_bodies (by simp [syncDescriptors])
      (fun _ => admits_forkRecord.mp) hall
    exact .inr ⟨rfl, records, more, hbounded, rfl⟩
  · obtain rfl := admits_notFoundResp.mp hes
    exact .inl ⟨.notFound, trivial, rfl, rfl⟩
  · obtain ⟨code, atSeq, msg, -, rfl⟩ := admits_rejectedResp.mp hes
    exact .inl ⟨.rejected ⟨code, atSeq, msg⟩, trivial, rfl, rfl⟩

/-- An accepted response frame is read as its variant's number and its body's records. -/
theorem parseResponse_envelope {number : Nat} {es : List Entry}
    (h : message C Descriptors.response (envelope number es) = .ok ()) :
    parseResponse C (envelope number es) = readResponse C number es := by
  obtain ⟨houter, hinner⟩ := isFrame_response.fields_envelope h
  simp [parseResponse, h, houter, hinner]

end Mabel.Net
