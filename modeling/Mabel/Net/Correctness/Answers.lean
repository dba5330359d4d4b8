import Mabel.Net.Correctness.Serving

/-!
# Every answer is read

A server answers whatever frame it is sent: with what its store says, or with why it does not. If
the store keeps to the bounds of the wire, each answer is a frame within the cap that a client
reads, and the store stays in bounds.
-/

namespace Mabel.Net

open Wire Proto Program Validate

variable {C : Crypto} {σ α : Type}

/-! ## Requests that are read -/

/-- A request whose frame passes the table is within its bounds. -/
theorem Request.sendable_of_accepted {r : Request}
    (h : message C Descriptors.request r.encode = .ok ()) : r.Sendable C := by
  obtain ⟨-, number, sub, es, ⟨⟨name, hvariant⟩, hsize, hbody⟩, hframe⟩ :=
    isFrame_request.accepts_iff.mp h
  rw [r.encode_eq] at hframe
  obtain ⟨rfl, rfl⟩ := envelope_inj hframe
  cases r with
  | push ledger events =>
    obtain ⟨-, rfl⟩ : name = "push" ∧ sub = Descriptors.pushReq := by
      simpa [Descriptors.request, Validate.variant, Request.number] using hvariant
    obtain ⟨ledger', events', hevents, hentries⟩ := admits_pushReq.mp hbody
    obtain rfl : events = events' := by
      have hread : repeated (Request.entries (.push ledger events)) 2 = events :=
        repeated_of_select (by simp [Request.entries])
      rw [← hread, hentries]
      exact repeated_of_select (by simp)
    exact ⟨hevents, hsize⟩
  | _ => trivial

/-- A frame that is read is the encoding of what it is read as, within bounds. -/
theorem parseRequest_eq_ok {frame : Bytes} {r : Request} :
    parseRequest C frame = .ok r ↔ frame = r.encode ∧ r.Sendable C := by
  constructor
  · intro h
    have hmessage : message C Descriptors.request frame = .ok () := by
      obtain ⟨_, hmessage, -⟩ := Outcome.bind_eq_ok.mp h
      exact Outcome.mapReject_eq_ok.mp hmessage
    obtain ⟨r', rfl⟩ := exists_encode_of_request hmessage
    obtain rfl := Except.ok.inj ((parseRequest_encode hmessage).symm.trans h)
    exact ⟨rfl, r'.sendable_of_accepted hmessage⟩
  · rintro ⟨rfl, hsendable⟩
    exact parseRequest_encode (Request.accepted hsendable)

/-! ## Rejections -/

/-- A rejection that the wire can carry. -/
structure Rejection.Proper (rejection : Rejection) : Prop where
  code : rejection.code ≠ .unspecified
  atSeq : rejection.atSeq ≤ u64Max

theorem Rejection.proper_new {code : RejectCode} (h : code ≠ .unspecified) (msg : String) :
    (Rejection.new code msg).Proper := ⟨h, Nat.zero_le _⟩

/-- An unreadable frame is refused with a real code. -/
theorem rejectCode_ne (frame : Bytes) (error : WireError) :
    rejectCode frame error ≠ .unspecified := by
  cases error with
  | repeatedCount | unknownOneofVariant =>
    rw [rejectCode]
    split_ifs <;> simp
  | _ => simp [rejectCode]

/-- A failure that is answered: a rejection that the wire can carry. -/
def Answered (e : Fault Rejection) : Prop := ∃ rejection : Rejection, e = .reject rejection ∧
  rejection.Proper

theorem answered_malformed (msg : String) : Answered (.reject (malformed msg)) :=
  ⟨_, rfl, Rejection.proper_new (by simp) msg⟩

/-- A request that cannot be read is answered. -/
theorem stops_readRequest (number : Nat) (inner : List Entry) :
    Outcome.Stops Answered (readRequest number inner) := by
  unfold readRequest
  split
  · exact .bind (.orReject (answered_malformed _)) fun _ _ => .ok
  · exact .bind (.orReject (answered_malformed _)) fun _ _ => .ok
  · exact .bind (.orReject (answered_malformed _)) fun _ _ => .ok
  · exact .ok
  · cases bytes inner 1 with
    | none => exact .ok
    | some raw => exact .bind (.orReject (answered_malformed _)) fun _ _ => .ok
  · exact .reject ⟨_, rfl, Rejection.proper_new (by simp) _⟩

/-- A frame that is not read is refused. -/
theorem stops_parseRequest (frame : Bytes) : Outcome.Stops Answered (parseRequest C frame) := by
  have hmem : Descriptors.request ∈ containerDescriptors := by
    simp [containerDescriptors, syncDescriptors]
  have hmessage : Outcome.NoPanic (message C Descriptors.request frame) :=
    (framed_noPanic 3 _ (containers_framed _ hmem) frame 0).bind fun _ _ => .ok
  refine .bind (fun e he => ?_) fun _ _ => .bind (.orReject (answered_malformed _)) fun _ _ =>
    .bind (.orReject (answered_malformed _)) fun _ _ =>
      .bind (.orReject (answered_malformed _)) fun _ _ => stops_readRequest _ _
  rcases hresult : message C Descriptors.request frame with (error | site) | u
  · rw [hresult] at he
    exact ⟨_, (Except.error.inj he).symm, Rejection.proper_new (rejectCode_ne frame error) _⟩
  · exact absurd hresult (hmessage site)
  · rw [hresult] at he
    simp at he

/-! ## Responses that are read -/

/-- A response within its bounds is read from its frame, and the frame keeps the cap. -/
theorem Response.Sendable.read {r : Response C} (h : r.Sendable) :
    r.encode.length ≤ maxFrameBytes ∧ ∃ got, parseResponse C r.encode = .ok got ∧ r.Received got := by
  have hshort : ∀ {r : Response C}, r.Sendable → r.Short → r.encode = envelope r.number r.entries →
      r.encode.length ≤ maxFrameBytes ∧ parseResponse C r.encode = .ok r := by
    intro r h hshort hencode
    rw [hencode]
    exact ⟨(h.sizes hshort).2, h.parse hshort⟩
  cases r with
  | rejected rejection =>
    obtain ⟨kept, hclip, hclipped⟩ := exists_clipped rejection.msg
    let sent : Rejection := { rejection with msg := kept }
    have hsent : (Response.rejected (C := C) sent).Sendable := h
    have hencode : (Response.rejected (C := C) rejection).encode =
        envelope (Response.rejected (C := C) sent).number (Response.rejected (C := C) sent).entries := by
      change rejectedResponse rejection = _
      rw [rejectedResponse, hclip]
      rfl
    rw [hencode]
    exact ⟨(hsent.sizes hclipped.size).2, _, hsent.parse hclipped.size, rfl, rfl, hclipped⟩
  | _ =>
    obtain ⟨hsize, hparse⟩ := hshort h trivial rfl
    exact ⟨hsize, _, hparse, rfl⟩

theorem Rejection.Proper.sendable {rejection : Rejection} (h : rejection.Proper) :
    (Response.rejected (C := C) rejection).Sendable := ⟨h.code, h.atSeq⟩

/-! ## Stores that keep to the bounds -/

/-- Every fork record of an answer is one of which a predicate holds. -/
def Response.Attests (E : ForkRecord C → Prop) (r : Response C) : Prop :=
  ∀ page, r = .forks page → ∀ record ∈ page.items, E record

/-- A reply within the bounds of the wire, and a state that keeps to them. -/
structure Replies (P : σ → Prop) (ok : α → Prop) (reply : Except StoreError α × σ) : Prop where
  keeps : P reply.2
  answer : ∀ a, reply.1 = .ok a → ok a
  rejection : ∀ rejection, reply.1 = .error (.rejected rejection) → rejection.Proper

/-- In the states that satisfy a predicate a store answers within the bounds of the wire and stays
in them, and the fork records it lists are borne out by what it holds. -/
structure Store.Proper (store : Store C σ) (P : σ → Prop) (E : σ → ForkRecord C → Prop) :
    Prop where
  head : ∀ {s}, P s → ∀ ledger, Replies P
    (fun head => ∀ value ∈ head, (Response.head (C := C) value).Sendable) (store.head ledger s)
  readFrom : ∀ {s}, P s → ∀ ledger since limit, limit ≤ maxGetLimit →
    Replies P (fun page => ∀ value ∈ page, value.Served C) (store.readFrom ledger since limit s)
  push : ∀ {s}, P s → ∀ ledger events provenance, (Request.push ledger events).Sendable C →
    Replies P (fun outcome => (Response.accepted (C := C) outcome).Sendable)
      (store.push ledger events provenance s)
  list : ∀ {s}, P s → ∀ offset limit, limit ≤ maxListLimit →
    Replies P (fun page => (Response.ledgers (C := C) page).Sendable) (store.list offset limit s)
  forks : ∀ {s}, P s → ∀ ledger offset limit, limit ≤ maxForksLimit →
    Replies P (fun page => (Response.forks page).Sendable ∧ ∀ record ∈ page.items, E s record)
      (store.forks ledger offset limit s)

/-- A clamped limit is within the cap. -/
theorem clamp_le (limit : UInt32) (cap : Nat) : clamp limit cap ≤ cap := by
  rw [clamp]
  split_ifs
  · exact le_rfl
  · exact Nat.min_le_right _ _

section Server

variable {server : LedgerProtocol C σ} {P : σ → Prop} {E : σ → ForkRecord C → Prop}
  {attests : ForkRecord C → Prop}

/-- A reply is framed as a response. -/
theorem Replies.framed {ok : α → Prop} {reply : Except StoreError α × σ} (h : Replies P ok reply)
    {frame : α → Bytes}
    (hframe : ∀ a, ok a → ∃ r : Response C, frame a = r.encode ∧ r.Sendable ∧ r.Attests attests) :
    Replies P (fun bytes => ∃ r : Response C, bytes = r.encode ∧ r.Sendable ∧ r.Attests attests)
      (Net.framed reply frame) := by
  refine ⟨h.keeps, fun bytes hbytes => ?_, fun rejection hrejection => ?_⟩
  · rcases hreply : reply.1 with error | a
    · rw [Net.framed, hreply] at hbytes
      simp [Except.map] at hbytes
    · rw [Net.framed, hreply] at hbytes
      obtain rfl := Except.ok.inj hbytes
      exact hframe a (h.answer a hreply)
  · refine h.rejection rejection ?_
    rcases hreply : reply.1 with error | a
    · rw [Net.framed, hreply] at hrejection
      exact congrArg Except.error (Except.error.inj hrejection)
    · rw [Net.framed, hreply] at hrejection
      simp [Except.map] at hrejection

/-- What of a page of a listing is sent is within bounds with the page. -/
theorem Page.sendable_cut (budget : Nat) (encode : α → Bytes) (page : Page α) :
    (page.cut budget encode).items.length ≤ page.items.length ∧
      ∀ item ∈ (page.cut budget encode).items, item ∈ page.items :=
  ⟨(List.take_sublist _ _).length_le, fun _ => List.mem_of_mem_take⟩

/-- An answer other than a page of forks attests to nothing. -/
theorem Response.attests_of_ne {r : Response C} (h : ∀ page, r ≠ .forks page) :
    r.Attests attests := fun page hpage => absurd hpage (h page)

/-- A request within its bounds is answered within them. -/
theorem Store.Proper.answer (h : server.store.Proper P E)
    (hbudget : server.config.responseBudgetBytes ≤ responseBudgetBytes) {s : σ} (hs : P s)
    (provenance : Provenance C) {request : Request} (hrequest : request.Sendable C) :
    P (server.answer provenance request s).2 ∧
      ∃ r : Response C, (server.answer provenance request s).1 = r.encode ∧ r.Sendable ∧
        r.Attests (E s) := by
  have hdispatch : Replies P (fun bytes => ∃ r : Response C, bytes = r.encode ∧ r.Sendable ∧
      r.Attests (E s))
      (server.dispatch provenance request s) := by
    cases request with
    | head ledger =>
      refine (h.head hs ledger).framed fun head hhead => ?_
      cases head with
      | none => exact ⟨.notFound, rfl, trivial, Response.attests_of_ne (by simp)⟩
      | some value => exact ⟨.head value, rfl, hhead value rfl, Response.attests_of_ne (by simp)⟩
    | get ledger since limit =>
      refine (h.readFrom hs ledger _ _ (clamp_le limit _)).framed fun page hpage => ?_
      cases page with
      | none => exact ⟨.notFound, rfl, trivial, Response.attests_of_ne (by simp)⟩
      | some page => exact ⟨_, eventsFrame_eq page, (hpage page rfl).sendable hbudget,
          Response.attests_of_ne (by simp)⟩
    | push ledger events =>
      exact (h.push hs ledger events provenance hrequest).framed fun outcome houtcome =>
        ⟨.accepted outcome, rfl, houtcome, Response.attests_of_ne (by simp)⟩
    | list offset limit =>
      refine (h.list hs _ _ (clamp_le limit _)).framed fun page hpage => ?_
      obtain ⟨hcount, hitems⟩ := page.sendable_cut server.config.responseBudgetBytes summaryEntry
      exact ⟨_, ledgersFrame_eq page, ⟨hcount.trans hpage.1,
        fun summary hsummary => hpage.2 summary (hitems summary hsummary)⟩,
        Response.attests_of_ne (by simp)⟩
    | forks ledger offset limit =>
      refine (h.forks hs ledger _ _ (clamp_le limit _)).framed fun page hpage => ?_
      obtain ⟨hcount, hitems⟩ := page.sendable_cut server.config.responseBudgetBytes forkEntry
      obtain ⟨⟨hfits, hbounded⟩, hattested⟩ := hpage
      refine ⟨_, forksFrame_eq page, ⟨hcount.trans hfits, fun record hrecord =>
        hbounded record (hitems record hrecord)⟩, ?_⟩
      intro _ hserved record hrecord
      obtain rfl := Response.forks.inj hserved
      exact hattested record (hitems record hrecord)
  rw [LedgerProtocol.answer]
  rcases hreply : server.dispatch provenance request s with ⟨(rejection | message) | frame, t⟩
  · rw [hreply] at hdispatch
    exact ⟨hdispatch.keeps, .rejected rejection, rfl, (hdispatch.rejection rejection rfl).sendable,
      Response.attests_of_ne (by simp)⟩
  · rw [hreply] at hdispatch
    exact ⟨hdispatch.keeps, .rejected _, rfl, (Rejection.proper_new (by simp) _).sendable,
      Response.attests_of_ne (by simp)⟩
  · rw [hreply] at hdispatch
    exact ⟨hdispatch.keeps, hdispatch.answer frame rfl⟩

/-- Whatever frame is sent is answered, the answer is read and what it lists of forks is borne out. -/
theorem Store.Proper.serveStream (h : server.store.Proper P E)
    (hbudget : server.config.responseBudgetBytes ≤ responseBudgetBytes) {s : σ} (hs : P s)
    (free : Bool) (provenance : Provenance C) (frame : Bytes) :
    P (server.serveStream free provenance frame s).2 ∧
      ∃ r : Response C, (server.serveStream free provenance frame s).1 = some r.encode ∧
        r.Sendable ∧ r.Attests (E s) := by
  have hrefused : ∀ {rejection : Rejection}, rejection.Proper → P s ∧ ∃ r : Response C,
      some (rejectedResponse rejection) = some r.encode ∧ r.Sendable ∧ r.Attests (E s) :=
    fun hproper => ⟨hs, .rejected _, rfl, hproper.sendable, Response.attests_of_ne (by simp)⟩
  rw [LedgerProtocol.serveStream]
  by_cases hsize : frame.length ≤ server.config.maxFrameBytes
  · rw [if_pos hsize, LedgerProtocol.handleFrame]
    cases free with
    | false => exact hrefused (Rejection.proper_new (by simp) _)
    | true =>
      rw [if_neg (by simp)]
      rcases hparse : parseRequest C frame with e | request
      · obtain ⟨rejection, rfl, hproper⟩ := stops_parseRequest frame e hparse
        exact hrefused hproper
      · obtain ⟨-, hsendable⟩ := parseRequest_eq_ok.mp hparse
        obtain ⟨hkeeps, r, hanswer, hr⟩ := h.answer hbudget hs provenance hsendable
        exact ⟨hkeeps, r, congrArg some hanswer, hr⟩
  · rw [if_neg hsize]
    exact hrefused (Rejection.proper_new (by simp) _)

end Server

end Mabel.Net
