import Mabel.Ledger.Fold.Trace
import Mabel.Net.Store

/-!
# The second reader

The sync layer reads events by hand, without the field tables and without the generated
decoder. Its reader takes any spelling of a varint and drops the bits a 64-bit word cannot
hold. On what the validator accepts it reads the records that were written, and so the same
body, sequence and event id as the fold.
-/

namespace Mabel.Net

open Wire Proto Validate

variable {C : Crypto}

/-! ## Records -/

/-- Read groups into an accumulator from a bit position on. -/
def readVarintFrom (value shift : Nat) : Bytes → Option (Nat × Bytes)
  | [] => none
  | byte :: rest =>
    -- The shift drops what does not fit and itself never reaches 64.
    let value := value ||| (byte &&& 0x7f).toNat <<< shift % 2 ^ 64
    if byte &&& 0x80 = 0 then some (value, rest)
    else if shift + 7 > 63 then none
    else readVarintFrom value (shift + 7) rest

/-- Read one varint off the front of the input. -/
def readVarint (bytes : Bytes) : Option (Nat × Bytes) := readVarintFrom 0 0 bytes

/-- Read the value behind a key. -/
def readField (wire : Nat) (bytes : Bytes) : Option (Value × Bytes) :=
  match wire with
  | 0 => (readVarint bytes).map fun (value, rest) => (.varint value, rest)
  | 2 => do
    let (len, rest) ← readVarint bytes
    (takeBytes len rest).map fun (slice, rest) => (.bytes slice, rest)
  | _ => none

/-- Read one record. -/
def readRecord (bytes : Bytes) : Option (Entry × Bytes) := do
  let (key, rest) ← readVarint bytes
  let number := key >>> 3
  if number ≥ 2 ^ 32 then none
  else (readField (key &&& 7) rest).map fun (value, rest) => ((number, value), rest)

/-- Read records until the input ends. A record takes at least one byte, so the input's
length is fuel enough. -/
def fieldsFrom : Nat → Bytes → Option (List Entry)
  | _, [] => some []
  | 0, _ :: _ => none
  | fuel + 1, byte :: bytes => do
    let (e, rest) ← readRecord (byte :: bytes)
    (fieldsFrom fuel rest).map (e :: ·)

/-- The records of a message. -/
def fields (bytes : Bytes) : Option (List Entry) := fieldsFrom bytes.length bytes

/-- The value of a varint field, 0 when it is absent. -/
def uint (es : List Entry) (number : Nat) : Nat :=
  (es.findSome? fun e =>
    match e.2 with
    | .varint value => if e.1 = number then some value else none
    | .bytes _ => none).getD 0

/-- The bytes of a length-delimited field, or nothing if it is absent. -/
def bytes (es : List Entry) (number : Nat) : Option Bytes :=
  es.findSome? fun e =>
    match e.2 with
    | .bytes slice => if e.1 = number then some slice else none
    | .varint _ => none

/-! ## Events -/

/-- The encoded `EventBody` of an encoded `SignedEvent`. -/
def signedEventBody (event : Bytes) : Option Bytes := do
  let es ← fields event
  bytes es 1

/-- The event id of an encoded `SignedEvent`. -/
def signedEventId (C : Crypto) (event : Bytes) : Option EventId :=
  (signedEventBody event).map (eventId C)

/-- The `seq` of an encoded `SignedEvent`, 0 for an inception. -/
def signedEventSeq (event : Bytes) : Option Nat := do
  let body ← signedEventBody event
  let es ← fields body
  return uint es 3

/-- Encode one fork record. -/
def forkEntry (record : ForkRecord C) : Bytes :=
  putEntries (bytesField 1 record.ledger.toVec ++ uintField 2 record.seq ++
    messageField 3 record.kept ++ messageField 4 record.conflicting ++
    uintField 5 record.observedMs ++
    (record.sourceEndpoint.elim [] fun endpoint => bytesField 6 endpoint.asBytes))

/-! ## Sizes -/

/-- Write a length-delimited field even when it is empty. -/
def putMessage (buf : Bytes) (number : Nat) (value : Bytes) : Bytes :=
  buf ++ putKey number 2 ++ putVarint value.length ++ value

/-- How many bytes one entry of a repeated length-delimited field costs. -/
def entryLen (number : Nat) (body : Bytes) : Nat :=
  varintLen (number <<< 3 ||| 2) + varintLen body.length + body.length

/-! ## Canonical input -/

/-- A group the strict reader keeps loses no bits to the word size. -/
private theorem payload_fits {payload shift : Nat} (hpayload : payload < 128) (hshift : shift ≤ 63)
    (hgroup : shift % 7 = 0) (hlast : ¬ (shift = 63 ∧ payload > 1)) :
    payload <<< shift % 2 ^ 64 = payload <<< shift := by
  rw [Nat.shiftLeft_eq]
  apply Nat.mod_eq_of_lt
  by_cases h63 : shift = 63
  · subst h63
    omega
  · calc payload * 2 ^ shift ≤ payload * 2 ^ 56 :=
          Nat.mul_le_mul_left _ (Nat.pow_le_pow_right (by decide) (by omega))
      _ < 2 ^ 64 := by omega

/-- The reader agrees with the strict one wherever the strict one accepts. -/
private theorem readVarintFrom_of_strict (bytes : Bytes) : ∀ (value shift : Nat)
    (r : Nat × Bytes), shift ≤ 63 → shift % 7 = 0 →
    Wire.readVarintFrom value shift bytes = .ok r → readVarintFrom value shift bytes = some r := by
  induction bytes with
  | nil =>
    intro value shift r _ _ h
    simp [Wire.readVarintFrom] at h
  | cons byte bytes ih =>
    intro value shift r hshift hgroup h
    have hpayload : (byte &&& 0x7f).toNat < 128 := by
      rw [UInt8.toNat_and]
      exact Nat.lt_of_le_of_lt Nat.and_le_right (by decide)
    simp only [Wire.readVarintFrom] at h
    simp only [readVarintFrom]
    split_ifs at h with hover hlast hpad hwide
    · rw [payload_fits hpayload hshift hgroup hover, if_pos hlast, Except.ok.inj h]
    · rw [payload_fits hpayload hshift hgroup hover, if_neg hlast, if_neg hwide]
      exact ih _ _ r (by omega) (by omega) h

/-- A canonical varint reads as its value. -/
theorem readVarint_putVarint {v : Nat} (h : v < 2 ^ 64) (rest : Bytes) :
    readVarint (putVarint v ++ rest) = some (v, rest) :=
  readVarintFrom_of_strict _ 0 0 _ (by decide) (by decide) (Wire.readVarint_putVarint h rest)

/-- A canonical record reads as itself. -/
theorem readRecord_putEntry {e : Entry} (h : Fits e) (rest : Bytes) :
    readRecord (putEntry e ++ rest) = some (e, rest) := by
  have hkey := h.key_lt
  have hwire := e.2.wire_lt
  rw [putEntry, putKey, List.append_assoc, readRecord, readVarint_putVarint (by omega)]
  simp only [Option.bind_eq_bind, Option.bind_some, key_shift _ hwire, key_mask _ hwire]
  rw [if_neg (by have := h.2.1; omega)]
  obtain ⟨n, v | b⟩ := e
  · simp [Value.wire, putValue, readField, readVarint_putVarint h.2.2]
  · simp [Value.wire, putValue, readField, readVarint_putVarint h.2.2, takeBytes_append]

/-- Written entries are read back one by one. -/
private theorem fieldsFrom_putEntries {es : List Entry} (h : ∀ e ∈ es, Fits e) :
    ∀ fuel, (putEntries es).length ≤ fuel → fieldsFrom fuel (putEntries es) = some es := by
  induction es with
  | nil =>
    intro fuel _
    cases fuel <;> rfl
  | cons e es ih =>
    intro fuel hf
    obtain ⟨byte, tail, he⟩ := List.exists_cons_of_ne_nil (putEntry_ne_nil e)
    have hrec := readRecord_putEntry (h e (List.mem_cons_self ..)) (putEntries es)
    simp only [putEntries_cons, he, List.cons_append, List.length_cons,
      List.length_append] at hf hrec ⊢
    cases fuel with
    | zero => omega
    | succ fuel =>
      simp only [fieldsFrom, hrec, Option.bind_eq_bind, Option.bind_some]
      rw [ih (fun x hx => h x (List.mem_cons_of_mem _ hx)) fuel (by omega)]
      rfl

/-- Canonical records read as themselves. -/
theorem fields_putEntries {es : List Entry} (h : ∀ e ∈ es, Fits e) :
    fields (putEntries es) = some es := fieldsFrom_putEntries h _ le_rfl

/-! ## Fields of one number -/

/-- A scan over all records sees the ones of its number only. -/
private theorem findSome?_select {α : Type} (number : Nat) {f : Entry → Option α}
    (hf : ∀ e, e.1 ≠ number → f e = none) (es : List Entry) :
    es.findSome? f = (select number es).findSome? f := by
  induction es with
  | nil => rfl
  | cons e es ih =>
    rw [select, List.filter_cons]
    by_cases he : e.1 = number
    · rw [if_pos (by simpa using he), List.findSome?_cons, List.findSome?_cons, ih]
      rfl
    · rw [if_neg (by simpa using he), List.findSome?_cons, hf e he, ih]
      rfl

/-- A number reads back as what was written. -/
theorem uint_of_select {number value : Nat} {es : List Entry}
    (h : select number es = uintField number value) : uint es number = value := by
  rw [uint, findSome?_select number, h]
  · by_cases hvalue : value = 0
    · simp [hvalue]
    · simp [uintField_of_ne hvalue]
  · rintro ⟨n, v | b⟩ hn
    · simp_all
    · rfl

/-- Bytes read back as what was written. -/
theorem bytes_of_select {number : Nat} {es : List Entry} {value : Bytes}
    (h : select number es = messageField number value) : bytes es number = some value := by
  rw [bytes, findSome?_select number, h]
  · simp [messageField]
  · rintro ⟨n, v | b⟩ hn
    · rfl
    · simp_all

/-- An empty slot reads back as no bytes. -/
theorem bytes_of_select_nil {number : Nat} {es : List Entry} (h : select number es = []) :
    bytes es number = none := by
  rw [bytes, findSome?_select number, h]
  · rfl
  · rintro ⟨n, v | b⟩ hn
    · rfl
    · simp_all

/-! ## Accepted events -/

section Opened

variable {event : Bytes} {signed : SignedEvent} {body : EventBody} {payload : Payload}

/-- The second reader finds the body the validator accepted. -/
theorem signedEventBody_opened (h : Opened C event signed body payload) :
    signedEventBody event = some signed.body := by
  have hfits : ∀ e ∈ signed.entries, Fits e := by
    have hvalid : signed.Valid C 0 :=
      ⟨h.signature, by decide, body, h.valid, h.bodyEncode⟩
    have hlen : signed.encode.length ≤ maxEventBytes := h.encode ▸ h.size
    exact ((admits_signedEvent hlen).mpr ⟨signed, hvalid, rfl⟩).fits wellFormed_signedEvent
  have hne : signed.body ≠ [] := h.bodyEncode ▸ body_encode_ne_nil h.valid
  rw [signedEventBody, h.encode, SignedEvent.encode, fields_putEntries hfits]
  simp [SignedEvent.entries, bytesField_of_ne hne, bytes]

/-- The second reader finds the sequence the validator accepted. -/
theorem signedEventSeq_opened (h : Opened C event signed body payload) :
    signedEventSeq event = some body.seq := by
  have hne : signed.body ≠ [] := h.bodyEncode ▸ body_encode_ne_nil h.valid
  have hlen : body.encode.length ≤ maxEventBytes := by
    rw [← h.bodyEncode]
    exact (body_encode_lt hne).le.trans (h.encode ▸ h.size)
  have hfits := ((admits_eventBody hlen).mpr ⟨body, h.valid, rfl⟩).fits wellFormed_eventBody
  rw [signedEventSeq, signedEventBody_opened h, h.bodyEncode, EventBody.encode]
  simp only [Option.bind_eq_bind, Option.bind_some, fields_putEntries hfits]
  have hseq : select 3 body.entries = uintField 3 body.seq := by simp [EventBody.entries]
  rw [uint_of_select hseq]
  rfl

/-- The id of an opened event is its body's. -/
theorem signedEventId_opened (h : Opened C event signed body payload) :
    signedEventId C event = some (eventId C signed.body) := by
  rw [signedEventId, signedEventBody_opened h]
  rfl

end Opened

/-- The second reader names an accepted event as the fold does. -/
theorem signedEventId_step {s s' : LedgerState C} {event : Bytes} (st : Step s event s') :
    signedEventId C event = some (eventIdOf C event) := by
  rw [signedEventId_opened st.opened, eventIdOf, bodyOf_opened st.opened]

/-- The second reader finds an accepted event where the fold put it. -/
theorem signedEventSeq_step {s s' : LedgerState C} {event : Bytes} (st : Step s event s') :
    signedEventSeq event = some s.nextSeq := by
  rw [signedEventSeq_opened st.opened, st.seq]

end Mabel.Net
