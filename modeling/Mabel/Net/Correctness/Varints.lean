import Mabel.Net.Wire

/-!
# Sizes and ends

A varint has one spelling and ends by itself, so the size of a record is known before it is written
and no event begins another. Both the cut of a page and the canonical form of an event rest on it.
-/

namespace Mabel.Net

open Wire Proto Validate

variable {C : Crypto}

/-- What the strict reader refuses, the validator refuses. -/
theorem readVarint_reject {message : String} {bytes : Bytes}
    (h : ∃ e, Wire.readVarint bytes = .error e) :
    ∃ e, Validate.readVarint message bytes = .reject e := by
  obtain ⟨e, he⟩ := h
  unfold Validate.readVarint
  rw [he]
  exact ⟨_, rfl⟩

/-- What a message adds to a buffer. -/
theorem length_putMessage (buf : Bytes) (number : Nat) (body : Bytes) :
    (putMessage buf number body).length = buf.length + entryLen number body := by
  simp only [putMessage, entryLen, putKey, List.length_append, length_putVarint]
  omega

/-- Nothing can follow an accepted event in another. -/
theorem eq_of_accepted_front {part event : Bytes} (hpart : signedEvent C part = .ok ())
    (hevent : signedEvent C event = .ok ()) (h : part <+: event) : part = event := by
  have hentries : ∀ {bytes : Bytes}, signedEvent C bytes = .ok () →
      ∃ m : SignedEvent, bytes = putEntries m.entries ∧ m.entries.length = 2 := by
    intro bytes hbytes
    obtain ⟨-, m, hm, rfl⟩ := signedEvent_eq_ok.mp hbytes
    obtain ⟨b, hb, hbody⟩ := hm.body
    have hne : m.body ≠ [] := hbody ▸ body_encode_ne_nil hb
    have hsig : m.signature ≠ [] := by
      intro hnil
      have := hm.signature
      rw [hnil] at this
      cases this
    refine ⟨m, rfl, ?_⟩
    rw [SignedEvent.entries, bytesField_of_ne hne, bytesField_of_ne hsig]
    rfl
  obtain ⟨m, rfl, hm⟩ := hentries hpart
  obtain ⟨m', rfl, hm'⟩ := hentries hevent
  obtain ⟨rest, hrest⟩ := h
  obtain ⟨gs, hgs, hx⟩ := putEntries_append_eq hrest
  have hnil : gs = [] := by
    apply List.eq_nil_of_length_eq_zero
    have := congrArg List.length hgs
    rw [List.length_append] at this
    omega
  rw [hgs, hnil, List.append_nil]

/-- The strict reader inverts the writer and accepts nothing else: not a last group of zero behind
others, nor a value of more than 64 bits, nor an eleventh byte. So the size announced for an entry
is the size written, and what an event is cut short to is no event. -/
theorem varints_canonical (C : Crypto) (message : String) :
    (∀ v < 2 ^ 64, ∀ rest, Validate.readVarint message (putVarint v ++ rest) = .ok (v, rest)) ∧
    (∀ bytes v rest, Validate.readVarint message bytes = .ok (v, rest) →
      ∃ taken, bytes = taken ++ rest ∧ taken = putVarint v ∧ v < 2 ^ 64 ∧
        taken.length = varintLen v ∧ varintLen v ≤ 10) ∧
    (∀ head rest, head ≠ [] → (∀ byte ∈ head, continued byte) →
      ∃ e, Validate.readVarint message (head ++ 0 :: rest) = .reject e) ∧
    (∀ v ≥ 2 ^ 64, ∀ rest, ∃ e, Validate.readVarint message (putVarint v ++ rest) = .reject e) ∧
    (∀ head rest, head.length = 10 → (∀ byte ∈ head, continued byte) →
      ∃ e, Validate.readVarint message (head ++ rest) = .reject e) ∧
    (∀ buf number body,
      (putMessage buf number body).length = buf.length + entryLen number body) ∧
    (∀ event, signedEvent C event = .ok () → ∀ part, part <+: event → part ≠ event →
      signedEvent C part ≠ .ok ()) := by
  constructor
  · intro v hv rest
    exact readVarint_eq_ok.mpr ⟨hv, rfl⟩
  constructor
  · intro bytes v rest h
    obtain ⟨hv, hbytes⟩ := readVarint_eq_ok.mp h
    exact ⟨putVarint v, hbytes, rfl, hv, length_putVarint v, varintLen_le_ten hv⟩
  constructor
  · intro head rest hne hhead
    exact readVarint_reject (readVarint_padded hne hhead)
  constructor
  · intro v hv rest
    exact readVarint_reject (readVarint_wide hv rest)
  constructor
  · intro head rest hlen hhead
    exact readVarint_reject (readVarint_long hlen hhead)
  constructor
  · exact length_putMessage
  · intro event hevent part hprefix hne hpart
    exact hne (eq_of_accepted_front hpart hevent hprefix)

end Mabel.Net
