import Mabel.Ledger.Validate.Totality
import Mabel.Net.Codec

/-!
# The second reader agrees with the validator

The sync layer walks records with a lenient reader of its own. On what a table accepts it finds
the records the scanner found, so after the table no branch of a frame's reader is left that
could refuse, the endpoint of a fork record apart.
-/

namespace Mabel.Net

open Wire Proto Validate

variable {C : Crypto} {frame : Bytes}

/-! ## Requests -/

/-- The variants of a request and the fields of each that its reader casts to 32 bits. -/
def requestCasts : List (Nat × Nat) := [(2, 3), (4, 1), (4, 2), (5, 2), (5, 3)]

/-- The reader of a request answers and its casts lose no bits. -/
def RequestReads (C : Crypto) (frame : Bytes) : Prop :=
  ∃ number body inner, fields frame = some [(number, .bytes body)] ∧ fields body = some inner ∧
    (∃ request, parseRequest C frame = .ok request) ∧
    ∀ n, (number, n) ∈ requestCasts → uint inner n < 2 ^ 32

/-- No count of a request is cut when it is cast. -/
private theorem request_casts (r : Request) :
    ∀ n, (r.number, n) ∈ requestCasts → uint r.entries n < 2 ^ 32 := by
  have hcast : ∀ n (value : UInt32), select n r.entries = uintField n value.toNat →
      uint r.entries n < 2 ^ 32 := by
    intro n value h
    rw [uint_of_select h]
    exact value.toNat_lt
  intro n hn
  cases r with
  | head ledger => simp [Request.number, requestCasts] at hn
  | get ledger since limit =>
    obtain rfl : n = 3 := by simpa [Request.number, requestCasts] using hn
    exact hcast 3 limit (by simp [Request.entries])
  | push ledger events => simp [Request.number, requestCasts] at hn
  | list offset limit =>
    obtain rfl | rfl : n = 1 ∨ n = 2 := by simpa [Request.number, requestCasts] using hn
    · exact hcast 1 offset (by simp [Request.entries])
    · exact hcast 2 limit (by simp [Request.entries])
  | forks ledger offset limit =>
    obtain rfl | rfl : n = 2 ∨ n = 3 := by simpa [Request.number, requestCasts] using hn
    · exact hcast 2 offset (by simp [Request.entries])
    · exact hcast 3 limit (by simp [Request.entries])

/-- An accepted request frame is read by the second reader alike. -/
private theorem requestReads (h : message C Descriptors.request frame = .ok ()) :
    RequestReads C frame := by
  obtain ⟨r, rfl⟩ := exists_encode_of_request h
  have hread := parseRequest_encode h
  rw [r.encode_eq] at h hread ⊢
  obtain ⟨houter, hinner⟩ := isFrame_request.fields_envelope h
  exact ⟨r.number, _, r.entries, houter, hinner, ⟨r, hread⟩, request_casts r⟩

/-! ## Responses -/

/-- A fork record names an endpoint whose 32 bytes are no point of the curve. -/
def OffCurve (C : Crypto) (entry : Bytes) : Prop :=
  ∃ f raw, fields entry = some f ∧ bytes f 6 = some (Block.bytes raw) ∧
    PublicKey.fromBytes C raw = none

/-- The reader of a response answers, or stops at the first fork record whose endpoint is no
point. -/
def ResponseAnswers (C : Crypto) (frame : Bytes) (number : Nat) (inner : List Entry) : Prop :=
  (∃ response, parseResponse C frame = .ok response) ∨
    (number = 5 ∧ ∃ before entry after, repeated inner 1 = before ++ entry :: after ∧
      (∀ e ∈ before, ∃ record, readFork C e = some record) ∧ OffCurve C entry ∧
      parseResponse C frame =
        Outcome.reject (broken "Response.kind is missing a required field"))

/-- The casts of a response's reader and of its listing's reader lose no bits. -/
structure ResponseCasts (number : Nat) (inner : List Entry) : Prop where
  stored : number = 3 → uint inner 2 < 2 ^ 32
  code : number = 7 → uint inner 1 < 2 ^ 31
  summaries : number = 4 → ∀ entry ∈ repeated inner 1, ∃ f, fields entry = some f ∧
    uint f 2 < 2 ^ 31 ∧ uint f 8 < 2 ^ 32

def ResponseReads (C : Crypto) (frame : Bytes) : Prop :=
  ∃ number body inner, fields frame = some [(number, .bytes body)] ∧ fields body = some inner ∧
    ResponseAnswers C frame number inner ∧ ResponseCasts number inner

/-- A bounded record that is not read names a key off the curve. -/
theorem offCurve_of_readFork {record : RawFork} (h : record.Bounded C)
    (hread : readFork C (putEntries record.entries) = none) :
    OffCurve C (putEntries record.entries) := by
  have hsource : bytes record.entries 6 = record.sourceEndpoint.map Block.bytes :=
    bytes_of_blockField (by simp [RawFork.entries])
  rw [readFork_entries h, Option.map_eq_none_iff] at hread
  cases hraw : record.sourceEndpoint with
  | none => simp [hraw, readSource] at hread
  | some raw =>
    refine ⟨record.entries, raw, fields_putEntries h.fits, by rw [hsource, hraw]; rfl, ?_⟩
    apply Option.eq_none_iff_forall_ne_some.mpr
    simpa [hraw, readSource, Option.bind_eq_none_iff] using hread

/-- No count of a summary is cut when it is cast. -/
private theorem summary_casts (C : Crypto) {summary : LedgerSummary} (h : summary.Bounded) :
    ∃ f, fields (summaryEntry summary) = some f ∧ uint f 2 < 2 ^ 31 ∧ uint f 8 < 2 ^ 32 := by
  have hkind : uint summary.entries 2 = varintOfInt32 summary.declaredKind.number :=
    uint_of_select (by simp [LedgerSummary.entries])
  have hforks : uint summary.entries 8 = summary.forkCount :=
    uint_of_select (by simp [LedgerSummary.entries])
  refine ⟨summary.entries, fields_putEntries (h.fits C), ?_, ?_⟩
  · rw [hkind]
    cases summary.declaredKind <;> decide
  · rw [hforks]
    exact Nat.lt_succ_of_le h.forkCount

/-- No count of a response is cut when it is cast. -/
private theorem response_casts {r : Response C} (h : r.Bounded) :
    ResponseCasts r.number r.entries := by
  cases r with
  | accepted outcome =>
    have hstored : uint (Response.entries (C := C) (.accepted outcome)) 2 = outcome.stored :=
      uint_of_select (by simp [Response.entries])
    exact ⟨fun _ => hstored ▸ Nat.lt_succ_of_le h, by simp [Response.number],
      by simp [Response.number]⟩
  | ledgers page =>
    have hitems : repeated (Response.entries (C := C) (.ledgers page)) 1 =
        page.items.map summaryEntry := repeated_of_select (by simp [Response.entries])
    refine ⟨by simp [Response.number], by simp [Response.number], fun _ entry hentry => ?_⟩
    rw [hitems] at hentry
    obtain ⟨summary, hsummary, rfl⟩ := List.mem_map.mp hentry
    exact summary_casts C (h summary hsummary)
  | rejected rejection =>
    have hcode : uint (Response.entries (C := C) (.rejected rejection)) 1 = rejection.code.number :=
      uint_of_select (by simp [Response.entries])
    refine ⟨by simp [Response.number], fun _ => ?_, by simp [Response.number]⟩
    rw [hcode]
    cases rejection.code <;> decide
  | _ => constructor <;> simp [Response.number]

/-- An accepted response frame is read by the second reader alike. -/
private theorem responseReads (h : message C Descriptors.response frame = .ok ()) :
    ResponseReads C frame := by
  obtain ⟨-, number, sub, es, hcarried, rfl⟩ := isFrame_response.accepts_iff.mp h
  obtain ⟨houter, hinner⟩ := isFrame_response.fields_envelope h
  have hparse := parseResponse_envelope h
  refine ⟨number, _, es, houter, hinner, ?_⟩
  rcases exists_response hcarried with ⟨r, hr, rfl, rfl⟩ | ⟨rfl, records, more, hrecords, rfl⟩
  · exact ⟨.inl ⟨r, hparse.trans (Response.read_entries hr)⟩, response_casts hr⟩
  · refine ⟨?_, nofun, nofun, nofun⟩
    set es := repeatedField 1 (records.map fun record => putEntries record.entries) ++
      flagField 2 more with hes
    have hitems : repeated es 1 = records.map fun record => putEntries record.entries :=
      repeated_of_select (by simp [hes])
    have hrun : ∀ x, (repeated es 1).mapM (fun entry => Outcome.orReject
        (broken "Response.kind is missing a required field") (readFork C entry)) = x →
        readResponse C 5 es = x >>= fun items => .ok (.forks ⟨items, flag es 2⟩) := by
      rintro _ rfl
      rfl
    rcases Outcome.mapM_orReject (broken "Response.kind is missing a required field") (readFork C)
      (repeated es 1) with ⟨items, hok⟩ | ⟨before, entry, after, hsplit, hbefore, hnone, hreject⟩
    · exact .inl ⟨_, hparse.trans (hrun _ hok)⟩
    · refine .inr ⟨rfl, before, entry, after, hsplit, hbefore, ?_, hparse.trans (hrun _ hreject)⟩
      have hentry : entry ∈ repeated es 1 := by rw [hsplit]; simp
      rw [hitems] at hentry
      obtain ⟨record, hrecord, rfl⟩ := List.mem_map.mp hentry
      exact offCurve_of_readFork (hrecords record hrecord) hnone

/-- The second reader agrees with the validator: it finds the records the scanner reads in every
accepted message and the sequence and id of every accepted event, and every accepted frame is
read whole, without a lossy cast, unless a fork record names an endpoint off the curve. -/
theorem second_reader_agrees (C : Crypto) :
    (∀ d ∈ eventDescriptors ++ syncDescriptors, ∀ m, message C d m = .ok () →
      ∃ es, scan (validate C) d m 0 = .ok ⟨d, 0, es⟩ ∧ fields m = some es) ∧
    (∀ event, signedEvent C event = .ok () → ∃ signed body,
      SignedEvent.decode event = some signed ∧ EventBody.decode signed.body = some body ∧
      signedEventSeq event = some body.seq ∧
      signedEventId C event = some (eventId C signed.body)) ∧
    (∀ frame, message C Descriptors.request frame = .ok () → RequestReads C frame) ∧
    (∀ frame, message C Descriptors.response frame = .ok () → ResponseReads C frame) := by
  refine ⟨fun d hd m h => ?_, fun event h => ?_, fun _ => requestReads, fun _ => responseReads⟩
  · have hwell : d.WellFormed := by
      rcases List.mem_append.mp hd with hd | hd
      · exact eventDescriptors_wellFormed d hd
      · exact syncDescriptors_wellFormed d hd
    obtain ⟨es, -, -, hscan, hfields⟩ := fields_of_accepts hwell (message_eq_ok.mp h)
    exact ⟨es, hscan, hfields⟩
  · obtain ⟨signed, body, payload, hopened⟩ := signedEvent_iff_opened.mp h
    exact ⟨signed, body, hopened.decode, hopened.decodeBody, signedEventSeq_opened hopened,
      signedEventId_opened hopened⟩

end Mabel.Net
