import Mabel.Ledger.Sign.Build
import Mabel.Ledger.Validate.Decode

/-!
# One spelling for each event

The validator leaves no second spelling at any level: an accepted event, the messages in
it, the acceptance blob and the embedded inception all decode, and encoding what they
decode to gives back the bytes received. An event id therefore names one message.
-/

namespace Mabel

open Wire Proto Validate

variable {C : Crypto}

/-- The signed events a payload embeds. -/
def Proto.Payload.embedded : Payload → List Bytes
  | .inception ⟨_, _, some (.identityRoot root)⟩ => [root.founderInception]
  | .membershipInvitation invitation => [invitation.inviteeInception]
  | _ => []

/-- The messages a payload carries besides signed events decode and encode back. -/
def Proto.Payload.Respells : Payload → Prop
  | .inception i => ∃ r, i.root = some r ∧ Root.decode r.tag r.encode = some r
  | .membershipAcceptance a =>
    ∃ blob, Acceptance.decode a.acceptance = some blob ∧ blob.encode = a.acceptance
  | _ => True

/-- An event is the canonical spelling of what it decodes to, at every level. -/
inductive Canonical : Bytes → Prop
  | event {event : Bytes} {signed : SignedEvent} {body : EventBody} {payload : Payload}
    (decode : SignedEvent.decode event = some signed)
    (encode : signed.encode = event)
    (decodeBody : EventBody.decode signed.body = some body)
    (encodeBody : body.encode = signed.body)
    (holds : body.payload = some payload)
    (decodePayload : Payload.decode payload.tag payload.encode = some payload)
    (respells : payload.Respells)
    (embedded : ∀ inner ∈ payload.embedded, Canonical inner) : Canonical event

section Opened

variable {event : Bytes} {signed : SignedEvent} {body : EventBody} {payload : Payload}

/-- The payload of an opened event reads back from its encoding. -/
theorem decodePayload_of_opened (h : Opened C event signed body payload) :
    Payload.decode payload.tag payload.encode = some payload := by
  have hbody : body.encode.length ≤ maxEventBytes := by
    rw [← h.bodyEncode]
    have hne : signed.body ≠ [] := h.bodyEncode ▸ body_encode_ne_nil h.valid
    exact (body_encode_lt hne).le.trans (h.encode ▸ h.size)
  exact Payload.decode_encode
    (payload_sized h.payloadValid ((payload_encode_lt h.holds).le.trans hbody))

/-- The payload of an opened event is spelled one way. -/
theorem respells_of_opened (h : Opened C event signed body payload) : payload.Respells := by
  have hvalid := h.payloadValid
  cases payload with
  | inception i =>
    have hi : Inception.Valid C 2 i := hvalid
    obtain ⟨r, hr, hroot⟩ := hi.root
    exact ⟨r, hr, Root.decode_encode (root_sized hroot)⟩
  | membershipAcceptance a =>
    have ha : MembershipAcceptance.Valid C 2 a := hvalid
    obtain ⟨blob, hblob, hencode, -⟩ := ha.blob
    exact ⟨blob, hencode ▸ acceptance_decode C hblob, hencode.symm⟩
  | _ => trivial

/-- An opened event is canonical when the events in it are. -/
theorem canonical_of_opened (h : Opened C event signed body payload)
    (hembedded : ∀ inner ∈ payload.embedded, Canonical inner) : Canonical event :=
  .event h.decode h.encode.symm h.decodeBody h.bodyEncode.symm h.holds
    (decodePayload_of_opened h) (respells_of_opened h) hembedded

end Opened

/-- A raw-rooted inception is an accepted event that embeds none. -/
theorem canonical_of_rawInception {bytes : Bytes} {s : StandaloneInception C}
    (h : RawInception C bytes s) : Canonical bytes := by
  obtain ⟨hlen, m, b, i, r, sig, rfl, hbody, hb, hi, hr, -, hsig, -⟩ := h
  refine canonical_of_opened (opened_of_valid hlen (hsig ▸ sig.length_eq) hbody hb hi) ?_
  obtain ⟨kind, nonce, root⟩ := i
  obtain rfl : root = some (.rawRoot r) := hr
  simp [Payload.embedded]

/-- What a valid payload embeds is a raw-rooted inception. -/
theorem rawInception_of_embedded {k : Nat} {payload : Payload} (h : payload.Valid C k)
    {inner : Bytes} (hinner : inner ∈ payload.embedded) : ∃ s, RawInception C inner s := by
  have hembeds : ∀ {k : Nat} {id key inception : Bytes}, Embeds C k id key inception →
      ∃ s, RawInception C inception s := by
    intro k id key inception he
    obtain ⟨s, hs, -, -⟩ := he.standalone
    exact ⟨s, (inceptionStandalone_iff.mp hs).2⟩
  cases payload with
  | inception i =>
    obtain ⟨kind, nonce, root⟩ := i
    have hi : Inception.Valid C k ⟨kind, nonce, root⟩ := h
    obtain ⟨r, rfl, hroot⟩ := hi.root
    cases r with
    | rawRoot => simp [Payload.embedded] at hinner
    | identityRoot m =>
      obtain rfl := List.mem_singleton.mp hinner
      exact hembeds hroot
  | membershipInvitation i =>
    have hi : MembershipInvitation.Valid C k i := h
    obtain rfl := List.mem_singleton.mp hinner
    exact hembeds hi.embeds
  | _ => simp [Payload.embedded] at hinner

/-- Every accepted event is canonical; the induction is on its length. -/
theorem canonical_of_accepted {event : Bytes} (h : signedEvent C event = .ok ()) :
    Canonical event := by
  obtain ⟨signed, body, payload, hopened⟩ := signedEvent_iff_opened.mp h
  refine canonical_of_opened hopened fun inner hinner => ?_
  obtain ⟨s, hs⟩ := rawInception_of_embedded hopened.payloadValid hinner
  exact canonical_of_rawInception hs

/-- An accepted event is canonical, and two accepted events that decode alike or have one body and
one signature are the same. -/
theorem accepted_canonical (event : Bytes) (h : signedEvent C event = .ok ()) :
    Canonical event ∧
    (∀ event', signedEvent C event' = .ok () →
      SignedEvent.decode event = SignedEvent.decode event' → event = event') ∧
    (∀ event' signed signed' body, signedEvent C event' = .ok () →
      SignedEvent.decode event = some signed → SignedEvent.decode event' = some signed' →
      EventBody.decode signed.body = some body → EventBody.decode signed'.body = some body →
      signed.signature = signed'.signature → event = event') := by
  obtain ⟨m, b, p, ho⟩ := signedEvent_iff_opened.mp h
  refine ⟨canonical_of_accepted h, ?_, ?_⟩
  · intro event' h' hdecode
    obtain ⟨m', b', p', ho'⟩ := signedEvent_iff_opened.mp h'
    rw [ho.decode, ho'.decode, Option.some.injEq] at hdecode
    rw [ho.encode, ho'.encode, hdecode]
  · intro event' signed signed' body h' hs hs' hbody hbody' hsig
    obtain ⟨m', b', p', ho'⟩ := signedEvent_iff_opened.mp h'
    obtain rfl : m = signed := Option.some.inj (ho.decode.symm.trans hs)
    obtain rfl : m' = signed' := Option.some.inj (ho'.decode.symm.trans hs')
    obtain rfl : b = body := Option.some.inj (ho.decodeBody.symm.trans hbody)
    obtain rfl : b' = b := Option.some.inj (ho'.decodeBody.symm.trans hbody')
    have hbytes : m.body = m'.body := ho.bodyEncode.trans ho'.bodyEncode.symm
    have hm : m = m' := by
      cases m
      cases m'
      simp_all
    rw [ho.encode, ho'.encode, hm]

/-- The sample's invitation embeds an inception and is canonical. -/
theorem accepted_canonical_sampleLedger :
    sampleLedger.length = 5 ∧ Canonical (sampleLedger.getD 1 []) :=
  ⟨by decide +kernel, (accepted_canonical (C := Crypto.sample) (sampleLedger.getD 1 [])
    (by decide +kernel)).1⟩

end Mabel
