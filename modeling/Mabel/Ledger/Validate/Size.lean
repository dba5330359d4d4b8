import Mabel.Ledger.Validate.Decode

/-!
# Valid events are small

The field table bounds every field, so it bounds the events built from valid messages: no
valid body comes near the cap of a signed event, and a builder that respects the table
never meets it.
-/

namespace Mabel.Validate

open Wire Proto

variable {C : Crypto} {k : Nat}

/-- An id under a field takes at most 44 bytes. -/
private theorem id_le {number : Nat} (hn : number < 2 ^ 10) {id : Bytes}
    (h : id.length = idBytes) : (putEntries (bytesField number id)).length ≤ 44 :=
  length_bytesField_le hn (show 32 < 2 ^ 64 by decide) h.le

/-- The three fields that embed an inception. -/
private theorem embeds_le {n : Nat} (hn : n < 2 ^ 10) {id key inception : Bytes}
    (h : Embeds C k id key inception) :
    (putEntries (bytesField 1 id)).length + (putEntries (bytesField 2 key)).length +
      (putEntries (bytesField n inception)).length ≤ 1124 := by
  have hid := id_le (show 1 < 2 ^ 10 by decide) h.idLength
  have hkey := id_le (show 2 < 2 ^ 10 by decide) h.keyLength
  have hinception := length_bytesField_le hn (show 1024 < 2 ^ 64 by decide) h.size
  omega

/-- No valid root is longer than an identity root at its caps. -/
theorem root_encode_le {r : Root} (h : r.Valid C k) : r.encode.length ≤ 1124 := by
  cases r with
  | rawRoot m =>
    have hm : m.Valid := h
    have hkey := id_le (show 1 < 2 ^ 10 by decide) hm.activeKey
    have hcommit := id_le (show 2 < 2 ^ 10 by decide) hm.reserveCommit
    simp only [Root.encode, Root.entries, RawRoot.entries, putEntries_append, List.length_append]
    omega
  | identityRoot m =>
    have hm := embeds_le (n := 3) (by decide) h
    simpa only [Root.encode, Root.entries, IdentityRoot.entries, putEntries_append,
      List.length_append] using hm

/-- A list of ids within its field's bound. -/
private theorem ids_le {min max : Nat} {ids : List Bytes} (h : IdsOk min max ids)
    (hmax : max ≤ 16) : (putEntries (repeatedField 1 ids)).length ≤ 704 := by
  have hlist := length_repeatedField_le (show 1 < 2 ^ 10 by decide) (show 32 < 2 ^ 64 by decide)
    fun id hid => (h.sized id hid).le
  have hcount := h.upper
  omega

/-- A text that passes is within its cap. -/
private theorem text_le {message name text : String} {cap : Nat} {rule : StringRule}
    (h : TextOk message name cap rule text) : (utf8 text).length ≤ cap := by
  rcases h with rfl | h
  · simp [utf8_eq_nil.mpr]
  · exact h.1

/-- No valid inception is longer than this. -/
theorem inception_encode_le {m : Inception} (h : m.Valid C k) :
    (putEntries m.entries).length ≤ 1176 := by
  obtain ⟨n, hn, hbounds⟩ := h.kind
  obtain ⟨r, hr, hroot⟩ := h.root
  have hkind := length_uintField_le (show 1 < 2 ^ 10 by decide) (show n < 2 ^ 64 by omega)
  have hnonce := length_bytesField_le (show 2 < 2 ^ 10 by decide) (show 16 < 2 ^ 64 by decide)
    h.nonce.le
  have htag : r.tag < 2 ^ 10 := by cases r <;> simp [Root.tag]
  have hvariant := length_messageField_le htag (show 1124 < 2 ^ 64 by decide)
    (root_encode_le hroot)
  simp only [Inception.entries, hr, rootField, hn, putEntries_append, List.length_append,
    varintOfInt32_natCast (show n < 2 ^ 31 by omega)]
  rw [Root.encode] at hvariant
  omega

/-- No valid profile update is longer than this. -/
theorem profile_encode_le {m : ProfileUpdate} (h : m.Valid) :
    (putEntries m.entries).length ≤ 600 := by
  have hname := length_bytesField_le (show 1 < 2 ^ 10 by decide) (show 64 < 2 ^ 64 by decide)
    (text_le h.displayName)
  have hhost := length_bytesField_le (show 2 < 2 ^ 10 by decide) (show 246 < 2 ^ 64 by decide)
    (text_le h.hostname)
  have hemail := length_bytesField_le (show 3 < 2 ^ 10 by decide) (show 254 < 2 ^ 64 by decide)
    (text_le h.email)
  simp only [ProfileUpdate.entries, putEntries_append, List.length_append]
  omega

/-- No valid invitation is longer than this. -/
theorem invitation_encode_le {m : MembershipInvitation} (h : m.Valid C k) :
    (putEntries m.entries).length ≤ 1136 := by
  have hembeds := embeds_le (n := 4) (by decide) h.embeds
  have hrole := length_uintField_le (show 3 < 2 ^ 10 by decide)
    (show varintOfInt32 m.role < 2 ^ 64 by rcases h.role with hr | hr <;> rw [hr] <;> decide)
  simp only [MembershipInvitation.entries, putEntries_append, List.length_append]
  omega

/-- No valid acceptance is longer than this. -/
theorem acceptance_encode_le {m : MembershipAcceptance} (h : m.Valid C k) :
    (putEntries m.entries).length ≤ 224 := by
  obtain ⟨a, ha, hblob, _, sig, -, hsig, -⟩ := h.blob
  have hacceptance := length_bytesField_le (show 1 < 2 ^ 10 by decide)
    (show 136 < 2 ^ 64 by decide) (Acceptance.length_encode ha).le
  have hsignature := length_bytesField_le (show 2 < 2 ^ 10 by decide)
    (show 64 < 2 ^ 64 by decide) sig.length_eq.le
  simp only [MembershipAcceptance.entries, hblob, hsig, putEntries_append, List.length_append]
  omega

/-- Every valid payload is within 1176 bytes. -/
theorem payload_encode_le {p : Payload} (h : p.Valid C k) : p.encode.length ≤ 1176 := by
  have hone : 1 < 2 ^ 10 := by decide
  cases p with
  | inception m => exact inception_encode_le h
  | witnessConfig m => exact (ids_le h le_rfl).trans (by decide)
  | trustAttestation m => exact (id_le hone h).trans (by decide)
  | trustRevocation m => exact (id_le hone h).trans (by decide)
  | membershipInvitation m => exact (invitation_encode_le h).trans (by decide)
  | membershipAcceptance m => exact (acceptance_encode_le h).trans (by decide)
  | membershipRemoval m => exact (id_le hone h).trans (by decide)
  | profileUpdate m => exact (profile_encode_le h).trans (by decide)
  | endpointAdvertisement m => exact (ids_le h (by decide)).trans (by decide)
  | witnessSet m => exact (ids_le h le_rfl).trans (by decide)

/-- No valid body is longer than this. -/
theorem body_encode_le {b : EventBody} (h : b.Valid C k) : b.encode.length ≤ 1356 := by
  obtain ⟨p, hp, hvalid, -⟩ := h.payload
  have hlink : ∀ {x : Bytes}, (if b.seq = 0 then x = [] else x.length = idBytes) →
      x.length ≤ 32 := by
    intro x hx
    split_ifs at hx
    · simp [hx]
    · exact hx.le
  have hseq : b.seq < 2 ^ 64 := by
    have := h.seq
    simp only [u64Max] at this
    omega
  have htime : b.timestampMs < 2 ^ 64 := by
    have := h.timestamp.2
    simp only [maxTimestampMs] at this
    omega
  have hcap : 32 < 2 ^ 64 := by decide
  have h1 := length_uintField_le (show 1 < 2 ^ 10 by decide)
    (show b.version < 2 ^ 64 by rw [h.version]; decide)
  have h2 := length_bytesField_le (show 2 < 2 ^ 10 by decide) hcap (hlink h.ledger)
  have h3 := length_uintField_le (show 3 < 2 ^ 10 by decide) hseq
  have h4 := length_bytesField_le (show 4 < 2 ^ 10 by decide) hcap (hlink h.prev)
  have h5 := length_uintField_le (show 5 < 2 ^ 10 by decide) htime
  have h6 := id_le (show 6 < 2 ^ 10 by decide) h.authorKey
  have htag : p.tag < 2 ^ 10 := by cases p <;> simp [Payload.tag]
  have hpayload := length_messageField_le htag (show 1176 < 2 ^ 64 by decide)
    (payload_encode_le hvalid)
  simp only [EventBody.encode, EventBody.entries, hp, payloadField, putEntries_append,
    List.length_append]
  rw [Payload.encode] at hpayload
  omega

/-- A valid body fits the cap of a signed event with room to spare. -/
theorem signed_encode_le {b : EventBody} (h : b.Valid C k) (sig : Block sigBytes) :
    (SignedEvent.encode ⟨b.encode, sig.bytes⟩).length ≤ maxEventBytes := by
  have hbody := length_bytesField_le (show 1 < 2 ^ 10 by decide) (show 1356 < 2 ^ 64 by decide)
    (body_encode_le h)
  have hsig := length_bytesField_le (show 2 < 2 ^ 10 by decide) (show 64 < 2 ^ 64 by decide)
    sig.length_eq.le
  simp only [SignedEvent.encode, SignedEvent.entries, putEntries_append, List.length_append,
    maxEventBytes]
  omega

end Mabel.Validate
