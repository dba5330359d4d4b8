import Mabel.Ledger.Validate.Events

/-!
# Accepted events decode to what they encode

An accepted event is the canonical encoding of the message a tolerant decoder reads from
it, and so is everything it carries: its body, its payload, its acceptance blob and its
embedded inception.
-/

namespace Mabel.Validate

open Wire Proto

variable {C : Crypto} {k : Nat}

/-! ## Valid messages read back -/

theorem root_sized {r : Root} (h : r.Valid C k) : r.Sized :=
  (admits_root h).fits (root_wellFormed r)

/-- A valid payload is of bounded size. -/
theorem payload_sized {p : Payload} (h : p.Valid C k) (hlen : p.encode.length ≤ maxEventBytes) :
    p.Sized := by
  have hfits := (admits_payload h hlen).fits (payload_wellFormed p)
  cases p with
  | inception m =>
    have hm : Inception.Valid C k m := h
    obtain ⟨n, hn, hbounds⟩ := hm.kind
    obtain ⟨r, hr, hvalid⟩ := hm.root
    exact ⟨hfits, ⟨n, hn, by omega⟩, r, hr, root_sized hvalid⟩
  | membershipInvitation m =>
    have hm : MembershipInvitation.Valid C k m := h
    rcases hm.role with hr | hr
    · exact ⟨hfits, 1, hr, by decide⟩
    · exact ⟨hfits, 2, hr, by decide⟩
  | _ => exact hfits

/-- A valid body is of bounded size. -/
theorem body_sized {b : EventBody} (h : b.Valid C k) (hlen : b.encode.length ≤ maxEventBytes) :
    b.Sized := by
  have hfits := ((admits_eventBody hlen).mpr ⟨b, h, rfl⟩).fits wellFormed_eventBody
  obtain ⟨p, hp, hvalid, -⟩ := h.payload
  refine ⟨hfits, by rw [h.version]; decide, p, hp, payload_sized hvalid ?_⟩
  exact (payload_encode_lt hp).le.trans hlen

/-- A body is shorter than the event that carries it. -/
theorem body_encode_lt {m : SignedEvent} (hne : m.body ≠ []) :
    m.body.length < m.encode.length := by
  refine length_lt_of_mem m.entries 1 ?_
  simp [SignedEvent.entries, bytesField_of_ne hne]

/-- A valid inner acceptance decodes to itself. -/
theorem acceptance_decode (C : Crypto) {a : Acceptance} (h : a.Valid) :
    Acceptance.decode a.encode = some a := by
  have hadmits : Admits C Descriptor.acceptance 0 a.entries := admits_acceptance.mpr ⟨a, h, rfl⟩
  exact Acceptance.decode_encode (hadmits.fits wellFormed_acceptance) (h.version ▸ by decide)

/-! ## Opening an accepted event -/

/-- The messages inside an accepted event, each the canonical spelling of its bytes. -/
structure Opened (C : Crypto) (event : Bytes) (signed : SignedEvent) (body : EventBody)
    (payload : Payload) : Prop where
  size : event.length ≤ maxEventBytes
  encode : event = signed.encode
  bodyEncode : signed.body = body.encode
  signature : signed.signature.length = sigBytes
  valid : body.Valid C 1
  holds : body.payload = some payload
  payloadValid : payload.Valid C 2
  rule : body.Rule payload
  decode : SignedEvent.decode event = some signed
  decodeBody : EventBody.decode signed.body = some body

/-- A valid event opens to the messages it was encoded from. -/
theorem opened_of_valid {m : SignedEvent} {b : EventBody} {p : Payload}
    (hlen : m.encode.length ≤ maxEventBytes) (hsig : m.signature.length = sigBytes)
    (hbody : m.body = b.encode) (hb : b.Valid C 1) (hp : b.payload = some p) :
    Opened C m.encode m b p := by
  obtain ⟨p', hp', hvalid, hrule⟩ := hb.payload
  obtain rfl : p' = p := Option.some.inj (hp'.symm.trans hp)
  have hm : m.Valid C 0 := ⟨hsig, by decide, b, hb, hbody⟩
  have hne : m.body ≠ [] := hbody ▸ body_encode_ne_nil hb
  have hblen : b.encode.length ≤ maxEventBytes := by
    rw [← hbody]
    exact (body_encode_lt hne).le.trans hlen
  have hfits := ((admits_signedEvent hlen).mpr ⟨m, hm, rfl⟩).fits wellFormed_signedEvent
  refine ⟨hlen, rfl, hbody, hsig, hb, hp, hvalid, hrule, SignedEvent.decode_encode hfits, ?_⟩
  rw [hbody]
  exact EventBody.decode_encode (body_sized hb hblen)

/-- The validator accepts exactly the events that open. -/
theorem signedEvent_iff_opened {event : Bytes} {u : Unit} : signedEvent C event = .ok u ↔
    ∃ signed body payload, Opened C event signed body payload := by
  rw [signedEvent_eq_ok]
  constructor
  · rintro ⟨hlen, m, hm, rfl⟩
    obtain ⟨b, hb, hbody⟩ := hm.body
    obtain ⟨p, hp, -⟩ := hb.payload
    exact ⟨m, b, p, opened_of_valid hlen hm.signature hbody hb hp⟩
  · rintro ⟨m, b, p, h⟩
    exact ⟨h.size, m, ⟨h.signature, by decide, b, h.valid, h.bodyEncode⟩, h.encode⟩

/-- An event that opens is accepted. -/
theorem Opened.accepted {event : Bytes} {signed : SignedEvent} {body : EventBody}
    {payload : Payload} (h : Opened C event signed body payload) :
    signedEvent C event = .ok () :=
  signedEvent_iff_opened.mpr ⟨signed, body, payload, h⟩

end Mabel.Validate
