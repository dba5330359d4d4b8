import Mabel.Ledger.Sign.Build
import Mabel.Net.Codec

/-!
# Frames come back as the values they carry

A value within the bounds of its table is written as a frame the table accepts, and reading the
frame answers the value. The reason of a rejection is cut to its cap where a character ends.
-/

namespace Mabel.Net

open Wire Proto Validate

variable {C : Crypto}

/-! ## Sizes -/

section Sizes

variable {number k : Nat}

/-- A field with a small number spends one byte on its key. -/
theorem length_uintField_of_lt (hn : number < 16) {value : Nat} (h : value < 128 ^ (k + 1)) :
    (putEntries (uintField number value)).length ≤ k + 2 := by
  have hkey : varintLen (number * 8) = 1 := varintLen_of_lt (by omega)
  have hvalue := varintLen_le k value h
  by_cases hzero : value = 0
  · simp [uintField, hzero]
  · rw [uintField, if_neg hzero, putEntries_cons, putEntries_nil, List.append_nil,
      length_putEntry_varint]
    omega

/-- A message field costs its body, its tag and its length. -/
theorem length_messageField_of_lt (hn : number < 16) {body : Bytes}
    (h : body.length < 128 ^ (k + 1)) :
    (putEntries (messageField number body)).length ≤ body.length + k + 2 := by
  have hkey : varintLen (number * 8 + 2) = 1 := varintLen_of_lt (by omega)
  have hsize := varintLen_le k body.length h
  rw [messageField, putEntries_cons, putEntries_nil, List.append_nil, length_putEntry_bytes]
  omega

/-- A bytes field costs its value, its tag and its length. -/
theorem length_bytesField_of_lt (hn : number < 16) {value : Bytes}
    (h : value.length < 128 ^ (k + 1)) :
    (putEntries (bytesField number value)).length ≤ value.length + k + 2 := by
  by_cases hvalue : value = []
  · simp [bytesField, hvalue]
  · rw [bytesField_of_ne hvalue]
    exact length_messageField_of_lt hn h

/-- What an id costs on the wire. -/
theorem length_idField (hn : number < 16) {id : Bytes} (h : id.length = idBytes) :
    (putEntries (bytesField number id)).length ≤ 34 := by
  have hlt : id.length < 128 ^ (0 + 1) := by rw [h]; decide
  exact (length_bytesField_of_lt hn hlt).trans (by rw [h]; decide)

theorem length_count64 (hn : number < 16) {value : Nat} (h : value ≤ u64Max) :
    (putEntries (uintField number value)).length ≤ 11 :=
  length_uintField_of_lt (k := 9) hn (lt_of_le_of_lt h (by decide))

theorem length_count32 (hn : number < 16) {value : Nat} (h : value ≤ u32Max) :
    (putEntries (uintField number value)).length ≤ 6 :=
  length_uintField_of_lt (k := 4) hn (lt_of_le_of_lt h (by decide))

theorem length_timestamp (hn : number < 16) {value : Nat} (h : value ≤ maxTimestampMs) :
    (putEntries (uintField number value)).length ≤ 7 :=
  length_uintField_of_lt (k := 5) hn (lt_of_le_of_lt h (by decide))

theorem length_small (hn : number < 16) {value : Nat} (h : value < 128) :
    (putEntries (uintField number value)).length ≤ 2 :=
  length_uintField_of_lt (k := 0) hn h

/-- What a flag costs at most. -/
theorem length_flagField (hn : number < 16) (b : Bool) :
    (putEntries (flagField number b)).length ≤ 2 := by
  refine length_small hn ?_
  cases b <;> decide

/-- Bodies of a bounded size in a repeated field. -/
theorem length_bodies {bodies : List Bytes} {cap : Nat} (hn : number < 16)
    (hcap : cap < 128 ^ (k + 1)) (hbodies : ∀ body ∈ bodies, body.length ≤ cap) :
    (putEntries (repeatedField number bodies)).length ≤ bodies.length * (cap + k + 2) := by
  induction bodies with
  | nil => simp [repeatedField]
  | cons body bodies ih =>
    have hbody := hbodies body List.mem_cons_self
    have hfirst := length_messageField_of_lt hn (hbody.trans_lt hcap)
    have hrest := ih fun b hb => hbodies b (List.mem_cons_of_mem _ hb)
    have hsplit : repeatedField number (body :: bodies) =
        messageField number body ++ repeatedField number bodies := rfl
    rw [hsplit, putEntries_append, List.length_append, List.length_cons, Nat.add_mul]
    omega

/-- What an envelope costs over its entries at most. -/
theorem length_envelope_le {es : List Entry} {cap : Nat} (hn : number < 16)
    (hcap : cap < 128 ^ 4) (h : (putEntries es).length ≤ cap) :
    (envelope number es).length ≤ cap + 5 := by
  have := length_messageField_of_lt (k := 3) hn (h.trans_lt hcap)
  rw [envelope]
  omega

/-- The body is shorter than the frame. -/
theorem length_le_envelope (number : Nat) (es : List Entry) :
    (putEntries es).length ≤ (envelope number es).length := by
  rw [envelope, messageField, putEntries_cons, putEntries_nil, List.append_nil,
    length_putEntry_bytes]
  omega

end Sizes

/-! ## Requests -/

/-- What the table of a push asks of its events and its size. -/
def Request.Sendable (C : Crypto) : Request → Prop
  | .push ledger events => (1 ≤ events.length ∧ events.length ≤ maxPushEvents ∧
      ∀ event ∈ events, signedEvent C event = .ok ()) ∧
      (putEntries (Request.push ledger events).entries).length ≤ maxPushBytes
  | _ => True

/-- The table of a request's body. -/
def Request.table : Request → MessageDescriptor
  | .head .. => Descriptors.headReq
  | .get .. => Descriptors.getReq
  | .push .. => Descriptors.pushReq
  | .list .. => Descriptors.listReq
  | .forks .. => Descriptors.forksReq

theorem le_u64Max (value : UInt64) : value.toNat ≤ u64Max := Nat.le_pred_of_lt value.toNat_lt

theorem le_u32Max (value : UInt32) : value.toNat ≤ u32Max := Nat.le_pred_of_lt value.toNat_lt

/-- What a client may send is admitted. -/
theorem Request.admits {r : Request} (h : r.Sendable C) : Admits C r.table 1 r.entries := by
  cases r with
  | head ledger => exact admits_headReq.mpr ⟨ledger, rfl⟩
  | get ledger since limit =>
    exact admits_getReq.mpr ⟨ledger, _, _, ⟨le_u64Max since, le_u32Max limit⟩, rfl⟩
  | push ledger events => exact admits_pushReq.mpr ⟨ledger, events, h.1, rfl⟩
  | list offset limit =>
    exact admits_listReq.mpr ⟨_, _, ⟨le_u32Max offset, le_u32Max limit⟩, rfl⟩
  | forks ledger offset limit =>
    exact admits_forksReq.mpr ⟨_, _, _, ⟨le_u32Max offset, le_u32Max limit⟩, rfl⟩

/-- What a client may send is within its table's cap. -/
theorem Request.length_entries {r : Request} (h : r.Sendable C) :
    (putEntries r.entries).length ≤ r.table.maxBytes := by
  cases r with
  | head ledger =>
    have hfits : 34 ≤ smallRequestBytes := by decide
    exact (length_idField (by decide) ledger.length_toVec).trans hfits
  | get ledger since limit =>
    have hledger := length_idField (show 1 < 16 by decide) ledger.length_toVec
    have hsince := length_count64 (show 2 < 16 by decide) (le_u64Max since)
    have hlimit := length_count32 (show 3 < 16 by decide) (le_u32Max limit)
    simp only [entries, putEntries_append, List.length_append, table, Descriptors.getReq,
      smallRequestBytes]
    omega
  | push ledger events => exact h.2
  | list offset limit =>
    have hoffset := length_count32 (show 1 < 16 by decide) (le_u32Max offset)
    have hlimit := length_count32 (show 2 < 16 by decide) (le_u32Max limit)
    simp only [entries, putEntries_append, List.length_append, table, Descriptors.listReq,
      smallRequestBytes]
    omega
  | forks ledger offset limit =>
    have hledger : (putEntries (blockField 1 (ledger.map IdentityId.raw))).length ≤ 34 := by
      cases ledger with
      | none => exact Nat.zero_le _
      | some ledger => exact length_idField (by decide) ledger.length_toVec
    have hoffset := length_count32 (show 2 < 16 by decide) (le_u32Max offset)
    have hlimit := length_count32 (show 3 < 16 by decide) (le_u32Max limit)
    simp only [entries, putEntries_append, List.length_append, table, Descriptors.forksReq,
      smallRequestBytes]
    omega

/-- Every request is a variant of the request frame. -/
theorem Request.variant_mem (r : Request) :
    ∃ name, Validate.variant r.number name r.table ∈ Descriptors.request.fields := by
  cases r with
  | head => exact ⟨"head", by simp [number, table, Descriptors.request]⟩
  | get => exact ⟨"get", by simp [number, table, Descriptors.request]⟩
  | push => exact ⟨"push", by simp [number, table, Descriptors.request]⟩
  | list => exact ⟨"list", by simp [number, table, Descriptors.request]⟩
  | forks => exact ⟨"forks", by simp [number, table, Descriptors.request]⟩

/-- The frame of a request within its bounds passes the table. -/
theorem Request.accepted {r : Request} (h : r.Sendable C) :
    message C Descriptors.request r.encode = .ok () := by
  have hbody := length_entries h
  refine isFrame_request.accepts_iff.mpr
    ⟨?_, r.number, r.table, r.entries, ⟨r.variant_mem, hbody, admits h⟩, r.encode_eq⟩
  have htable : r.table.maxBytes ≤ maxPushBytes := by
    cases r with
    | push => exact le_rfl
    | _ => exact show smallRequestBytes ≤ maxPushBytes by decide
  have hnumber : r.number < 16 := by cases r <;> simp [number]
  have hcap : maxPushBytes < 128 ^ 4 := by decide
  have hfits : maxPushBytes + 5 ≤ maxFrameBytes := by decide
  rw [r.encode_eq]
  exact (length_envelope_le hnumber hcap (hbody.trans htable)).trans hfits

/-! ## Where a reason is cut -/

/-- The bytes of characters. -/
def encodeChars (chars : List Char) : Bytes := chars.flatMap String.utf8EncodeChar

theorem utf8_eq (text : String) : utf8 text = encodeChars text.toList := by
  rw [utf8, ← String.utf8Encode_toList, List.utf8Encode, List.data_toByteArray]
  rfl

/-- A byte inside a character. -/
def Continues (byte : UInt8) : Prop := byte &&& 0xc0 = 0x80

/-- Every byte of a character after its first is a continuation. -/
theorem continues_tail (byte : UInt8) : Continues (byte &&& 0x3f ||| 0x80) := by
  have h : ∀ n : Fin 256, UInt8.ofNat n &&& 0x3f ||| 0x80 = 0x80 ||| (UInt8.ofNat n &&& 0x3f) ∧
      (UInt8.ofNat n &&& 0x3f ||| 0x80) &&& 0xc0 = 0x80 := by decide +kernel
  have := (h ⟨byte.toNat, byte.toNat_lt⟩).2
  rwa [UInt8.ofNat_toNat] at this

/-- The first byte of a character is no continuation. -/
theorem not_continues_of_first {byte : UInt8} (h : byte.IsUTF8FirstByte) : ¬ Continues byte := by
  have hall : ∀ n : Fin 256, (UInt8.ofNat n).IsUTF8FirstByte →
      ¬ UInt8.ofNat n &&& 0xc0 = 0x80 := by decide +kernel
  have := hall ⟨byte.toNat, byte.toNat_lt⟩
  rw [UInt8.ofNat_toNat] at this
  exact this h

/-- A character is one byte that begins it and bytes inside it. -/
theorem utf8EncodeChar_eq_cons (c : Char) : ∃ first rest, String.utf8EncodeChar c = first :: rest ∧
    ¬ Continues first ∧ ∀ byte ∈ rest, Continues byte := by
  have hfirst := @UInt8.isUTF8FirstByte_getElem_zero_utf8EncodeChar c
  have htail : ∀ byte ∈ (String.utf8EncodeChar c).tail, Continues byte := by
    rcases Char.utf8Size_eq c with h | h | h | h
    · simp [String.utf8EncodeChar_eq_singleton h]
    · simp [String.utf8EncodeChar_eq_cons_cons h, continues_tail]
    · simp [String.utf8EncodeChar_eq_cons_cons_cons h, continues_tail]
    · simp [String.utf8EncodeChar_eq_cons_cons_cons_cons h, continues_tail]
  cases hencode : String.utf8EncodeChar c with
  | nil =>
    have hpos := c.utf8Size_pos
    rw [← String.length_utf8EncodeChar, hencode] at hpos
    exact absurd hpos (Nat.lt_irrefl 0)
  | cons first rest =>
    simp only [hencode, List.getElem_cons_zero, List.tail_cons] at hfirst htail
    exact ⟨first, rest, rfl, not_continues_of_first hfirst, htail⟩

/-- The boundaries of a text are where a beginning of whole characters ends. -/
theorem isCharBoundary_iff (chars : List Char) : ∀ index ≤ (encodeChars chars).length,
    (isCharBoundary (encodeChars chars) index = true ↔
      ∃ front, front <+: chars ∧ (encodeChars front).length = index) := by
  induction chars with
  | nil =>
    intro index hindex
    obtain rfl := Nat.le_zero.mp hindex
    simp [isCharBoundary, encodeChars]
  | cons c chars ih =>
    intro index hindex
    obtain ⟨first, rest, hencode, hfirst, hrest⟩ := utf8EncodeChar_eq_cons c
    have hcons : ∀ front, encodeChars (c :: front) = first :: rest ++ encodeChars front := by
      intro front
      rw [encodeChars, List.flatMap_cons, hencode]
      rfl
    rw [hcons] at hindex ⊢
    have hsplit : (∃ front, front <+: c :: chars ∧ (encodeChars front).length = index) ↔
        index = 0 ∨ ∃ front, front <+: chars ∧
          (first :: rest).length + (encodeChars front).length = index := by
      constructor
      · rintro ⟨front, hfront, rfl⟩
        rcases List.prefix_cons_iff.mp hfront with rfl | ⟨front, rfl, htail⟩
        · exact .inl rfl
        · refine .inr ⟨front, htail, ?_⟩
          rw [hcons, List.length_append]
      · rintro (rfl | ⟨front, hfront, rfl⟩)
        · exact ⟨[], List.nil_prefix, rfl⟩
        · refine ⟨c :: front, List.cons_prefix_cons.mpr ⟨rfl, hfront⟩, ?_⟩
          rw [hcons, List.length_append]
    rw [hsplit]
    cases index with
    | zero => simp [isCharBoundary, show ¬ first &&& 0xc0 = 0x80 from hfirst]
    | succ index =>
      rcases Nat.lt_or_ge index rest.length with hlt | hge
      -- Inside the character.
      · have hbyte : Continues rest[index] := hrest _ (List.getElem_mem hlt)
        have hget : (first :: rest ++ encodeChars chars)[index + 1]? = some rest[index] := by
          simp [List.getElem?_append_left hlt]
        simp only [isCharBoundary, hget, Nat.succ_ne_zero, false_or]
        constructor
        · intro h
          exact absurd hbyte (by simpa [Continues] using h)
        · rintro ⟨front, -, hlength⟩
          rw [List.length_cons] at hlength
          omega
      · obtain ⟨j, rfl⟩ := Nat.exists_eq_add_of_le hge
        have hget : (first :: rest ++ encodeChars chars)[rest.length + j + 1]? =
            (encodeChars chars)[j]? := by
          simp [List.getElem?_append_right]
        have hj : j ≤ (encodeChars chars).length := by
          simp only [List.cons_append, List.length_cons, List.length_append] at hindex
          omega
        have hshift : isCharBoundary (first :: rest ++ encodeChars chars) (rest.length + j + 1) =
            isCharBoundary (encodeChars chars) j := by
          unfold isCharBoundary
          rw [hget]
          cases (encodeChars chars)[j]? with
          | some byte => rfl
          | none => simp
        rw [hshift, ih j hj]
        simp only [Nat.add_eq_zero_iff, Nat.one_ne_zero, and_false, false_or, List.length_cons]
        refine exists_congr fun front => and_congr_right fun _ => ?_
        omega

/-- Stepping back ends at the last boundary. -/
theorem clipEnd_spec (text : Bytes) (index : Nat) : clipEnd text index ≤ index ∧
    (clipEnd text index = 0 ∨ isCharBoundary text (clipEnd text index) = true) ∧
    ∀ j ≤ index, isCharBoundary text j = true → j ≤ clipEnd text index := by
  induction index with
  | zero => exact ⟨le_rfl, .inl rfl, fun j hj _ => hj⟩
  | succ index ih =>
    unfold clipEnd
    split_ifs with hboundary
    · exact ⟨le_rfl, .inr hboundary, fun j hj _ => hj⟩
    · refine ⟨ih.1.trans (Nat.le_succ index), ih.2.1, fun j hj hb => ?_⟩
      rcases Nat.eq_or_lt_of_le hj with rfl | hlt
      · exact absurd hb hboundary
      · exact ih.2.2 j (Nat.le_of_lt_succ hlt) hb

/-- A message cut to a cap: its longest beginning of whole characters within the cap. -/
structure Clipped (msg kept : String) : Prop where
  beginning : kept.toList <+: msg.toList
  size : (utf8 kept).length ≤ maxRejectMsgBytes
  longest : ∀ other : String, other.toList <+: msg.toList →
    (utf8 other).length ≤ maxRejectMsgBytes → (utf8 other).length ≤ (utf8 kept).length

/-- A clipped message is the UTF-8 of a text. -/
theorem exists_clipped (msg : String) : ∃ kept, clip msg = utf8 kept ∧ Clipped msg kept := by
  unfold clip
  simp only
  split_ifs with hshort
  · refine ⟨msg, rfl, List.prefix_refl _, hshort, fun other hother _ => ?_⟩
    obtain ⟨rest, hrest⟩ := hother
    rw [utf8_eq msg, utf8_eq other, ← hrest, encodeChars, encodeChars, List.flatMap_append,
      List.length_append]
    exact Nat.le_add_right _ _
  · obtain ⟨hle, hboundary, hlast⟩ := clipEnd_spec (utf8 msg) maxRejectMsgBytes
    have hcap : maxRejectMsgBytes ≤ (encodeChars msg.toList).length := by
      rw [← utf8_eq]
      omega
    obtain ⟨front, hfront, hlength⟩ : ∃ front, front <+: msg.toList ∧
        (encodeChars front).length = clipEnd (utf8 msg) maxRejectMsgBytes := by
      rcases hboundary with hzero | hboundary
      · exact ⟨[], List.nil_prefix, hzero.symm⟩
      · rw [utf8_eq] at hboundary hle
        exact utf8_eq msg ▸ (isCharBoundary_iff msg.toList _ (hle.trans hcap)).mp hboundary
    have hkept : utf8 (String.ofList front) = encodeChars front := by
      rw [utf8_eq, String.toList_ofList]
    refine ⟨String.ofList front, ?_, ?_, ?_, fun other hother hsize => ?_⟩
    · obtain ⟨rest, hrest⟩ := hfront
      have hbytes : utf8 msg = encodeChars front ++ encodeChars rest := by
        rw [utf8_eq, ← hrest, encodeChars, List.flatMap_append]
        rfl
      rw [← hlength, hkept, hbytes, List.take_left]
    · rw [String.toList_ofList]
      exact hfront
    · rw [hkept, hlength]
      exact hle
    · rw [hkept, hlength]
      refine hlast _ hsize ?_
      rw [utf8_eq msg]
      refine (isCharBoundary_iff msg.toList _ ?_).mpr ⟨other.toList, hother, by rw [utf8_eq]⟩
      exact hsize.trans hcap

/-! ## Entries of a page -/

/-- A bounded summary fits a small frame. -/
theorem LedgerSummary.length_entries {summary : LedgerSummary} (h : summary.Bounded) :
    (putEntries summary.entries).length ≤ smallRequestBytes := by
  have hledger := length_idField (show 1 < 16 by decide) summary.ledger.length_toVec
  have hkind := length_small (show 2 < 16 by decide)
    (show varintOfInt32 summary.declaredKind.number < 128 by
      cases summary.declaredKind <;> decide)
  have hseq := length_count64 (show 3 < 16 by decide) h.headSeq
  have hevent := length_idField (show 4 < 16 by decide) summary.headEvent.length_toVec
  have hcount := length_count64 (show 5 < 16 by decide) h.eventCount
  have hfirst := length_timestamp (show 6 < 16 by decide) h.firstSeenMs
  have hupdated := length_timestamp (show 7 < 16 by decide) h.updatedMs
  have hforks := length_count32 (show 8 < 16 by decide) h.forkCount
  have htruncated := length_flagField (show 9 < 16 by decide) summary.forksTruncated
  simp only [entries, putEntries_append, List.length_append, smallRequestBytes]
  omega

/-- A bounded fork record is within its cap. -/
theorem RawFork.length_entries {record : RawFork} (h : record.Bounded C) :
    (putEntries record.entries).length ≤ Descriptors.forkRecord.maxBytes := by
  have hevent : ∀ {event : Bytes}, signedEvent C event = .ok () → ∀ {n : Nat}, n < 16 →
      (putEntries (messageField n event)).length ≤ maxEventBytes + 3 := by
    intro event haccepted n hn
    have hsize := length_le_of_accepted haccepted
    have := length_messageField_of_lt (k := 1) hn (hsize.trans_lt (by decide))
    omega
  have hledger := length_idField (show 1 < 16 by decide) record.ledger.length_toVec
  have hseq := length_count64 (show 2 < 16 by decide) h.seq.2
  have hkept := hevent h.kept (show 3 < 16 by decide)
  have hconflicting := hevent h.conflicting (show 4 < 16 by decide)
  have hobserved := length_timestamp (show 5 < 16 by decide) h.observedMs
  have hsource : (putEntries (blockField 6 record.sourceEndpoint)).length ≤ 34 := by
    cases record.sourceEndpoint with
    | none => exact Nat.zero_le _
    | some source => exact length_idField (by decide) source.length_eq
  simp only [entries, putEntries_append, List.length_append, Descriptors.forkRecord,
    smallRequestBytes, maxEventBytes] at *
  omega

/-- An entry within its bounds passes its table. -/
theorem LedgerSummary.validated {summary : LedgerSummary} (h : summary.Bounded) :
    ∃ sc, validate C Descriptors.ledgerSummary (summaryEntry summary) 2 = .ok sc :=
  (accepts_iff (syncDescriptors_wellFormed _ (by simp [syncDescriptors]))).mpr
    ⟨length_entries h, by decide, summary.entries, rfl, admits_ledgerSummary.mpr ⟨summary, h, rfl⟩⟩

/-- A bounded fork record is validated as its own bytes. -/
theorem ForkRecord.validated {record : ForkRecord C} (h : record.unread.Bounded C) :
    ∃ sc, validate C Descriptors.forkRecord (forkEntry record) 2 = .ok sc := by
  rw [record.forkEntry_eq]
  exact (accepts_iff (syncDescriptors_wellFormed _ (by simp [syncDescriptors]))).mpr
    ⟨RawFork.length_entries h, by decide, _, rfl, admits_forkRecord.mpr ⟨record.unread, h, rfl⟩⟩

/-! ## Responses -/

namespace Response

/-- What the tables ask of a response, its reason apart. -/
def Sendable : Response C → Prop
  | .head value => value.headSeq ≤ u64Max ∧ value.updatedMs ≤ maxTimestampMs
  | .events page => ((page.events.length ≤ maxGetLimit ∧
      ∀ event ∈ page.events, signedEvent C event = .ok ()) ∧ page.headSeq ≤ u64Max) ∧
      (Response.events (C := C) page).encode.length ≤ maxFrameBytes
  | .accepted outcome => outcome.headSeq ≤ u64Max ∧ outcome.stored ≤ u32Max
  | .ledgers page => page.items.length ≤ maxListLimit ∧ ∀ summary ∈ page.items, summary.Bounded
  | .forks page => page.items.length ≤ maxForksLimit ∧
      ∀ record ∈ page.items, record.unread.Bounded C
  | .notFound => True
  | .rejected rejection => rejection.code ≠ .unspecified ∧ rejection.atSeq ≤ u64Max

/-- A reason is within its cap. -/
def Short : Response C → Prop
  | .rejected rejection => (utf8 rejection.msg).length ≤ maxRejectMsgBytes
  | _ => True

/-- The table of a response's body. -/
def table : Response C → MessageDescriptor
  | .head .. => Descriptors.headResp
  | .events .. => Descriptors.eventsResp
  | .accepted .. => Descriptors.acceptedResp
  | .ledgers .. => Descriptors.ledgersResp
  | .forks .. => Descriptors.forksResp
  | .notFound => Descriptors.notFoundResp
  | .rejected .. => Descriptors.rejectedResp

variable {r : Response C}

/-- What a server may send is bounded. -/
theorem Sendable.bounded (h : r.Sendable) : r.Bounded := by
  cases r with
  | accepted outcome => exact h.2
  | ledgers page => exact h.2
  | forks page => exact h.2
  | _ => exact trivial

/-- What a server may send is admitted where it is short. -/
theorem Sendable.admits (h : r.Sendable) (hshort : r.Short) : Admits C r.table 1 r.entries := by
  cases r with
  | head value => exact admits_headResp.mpr ⟨_, _, _, h, rfl⟩
  | events page => exact admits_eventsResp.mpr ⟨_, _, _, h.1, rfl⟩
  | accepted outcome => exact admits_acceptedResp.mpr ⟨_, _, h, rfl⟩
  | ledgers page =>
    refine admits_ledgersResp.mpr ⟨_, _, ⟨by rw [List.length_map]; exact h.1, ?_⟩, rfl⟩
    rw [List.forall_mem_map]
    exact fun summary hsummary => LedgerSummary.validated (h.2 summary hsummary)
  | forks page =>
    refine admits_forksResp.mpr ⟨_, _, ⟨by rw [List.length_map]; exact h.1, ?_⟩, rfl⟩
    rw [List.forall_mem_map]
    exact fun record hrecord => ForkRecord.validated (h.2 record hrecord)
  | notFound => exact admits_notFoundResp.mpr rfl
  | rejected rejection => exact admits_rejectedResp.mpr ⟨_, _, _, ⟨h.1, h.2, hshort⟩, rfl⟩

/-- Every response is a variant of the response frame. -/
theorem variant_mem (r : Response C) :
    ∃ name, Validate.variant r.number name r.table ∈ Descriptors.response.fields := by
  cases r with
  | head => exact ⟨"head", by simp [number, table, Descriptors.response]⟩
  | events => exact ⟨"events", by simp [number, table, Descriptors.response]⟩
  | accepted => exact ⟨"accepted", by simp [number, table, Descriptors.response]⟩
  | ledgers => exact ⟨"ledgers", by simp [number, table, Descriptors.response]⟩
  | forks => exact ⟨"forks", by simp [number, table, Descriptors.response]⟩
  | notFound => exact ⟨"not_found", by simp [number, table, Descriptors.response]⟩
  | rejected => exact ⟨"rejected", by simp [number, table, Descriptors.response]⟩

/-- The body and the frame of a response keep their caps. -/
theorem Sendable.sizes (h : r.Sendable) (hshort : r.Short) :
    (putEntries r.entries).length ≤ r.table.maxBytes ∧
      (envelope r.number r.entries).length ≤ maxFrameBytes := by
  have hnumber : r.number < 16 := by cases r <;> simp [number]
  have hframe : ∀ {cap : Nat}, cap + 5 ≤ maxFrameBytes → (putEntries r.entries).length ≤ cap →
      (envelope r.number r.entries).length ≤ maxFrameBytes := by
    intro cap hcap hbody
    have hlt : maxFrameBytes < 128 ^ 4 := by decide
    exact (length_envelope_le hnumber (by omega) hbody).trans hcap
  cases r with
  | head value =>
    have hbody : (putEntries (entries (.head (C := C) value))).length ≤ smallRequestBytes := by
      have hseq := length_count64 (show 1 < 16 by decide) h.1
      have hevent := length_idField (show 2 < 16 by decide) value.headEvent.length_toVec
      have hupdated := length_timestamp (show 3 < 16 by decide) h.2
      simp only [entries, putEntries_append, List.length_append, smallRequestBytes]
      omega
    exact ⟨hbody, hframe (by decide) hbody⟩
  | events page => exact ⟨(length_le_envelope _ _).trans h.2, h.2⟩
  | accepted outcome =>
    have hbody : (putEntries (entries (.accepted (C := C) outcome))).length ≤ smallRequestBytes := by
      have hseq := length_count64 (show 1 < 16 by decide) h.1
      have hstored := length_count32 (show 2 < 16 by decide) h.2
      simp only [entries, putEntries_append, List.length_append, smallRequestBytes]
      omega
    exact ⟨hbody, hframe (by decide) hbody⟩
  | ledgers page =>
    have hbody : (putEntries (entries (.ledgers (C := C) page))).length ≤ 256 * 131 + 2 := by
      have hsizes : ∀ body ∈ page.items.map summaryEntry, body.length ≤ smallRequestBytes := by
        rw [List.forall_mem_map]
        exact fun summary hsummary => LedgerSummary.length_entries (h.2 summary hsummary)
      have hbodies := length_bodies (k := 1) (show 1 < 16 by decide) (by decide) hsizes
      have hcount : page.items.length ≤ 256 := h.1
      have hmore := length_flagField (show 2 < 16 by decide) page.more
      simp only [entries, putEntries_append, List.length_append, List.length_map,
        smallRequestBytes] at *
      omega
    have hcap : 256 * 131 + 2 ≤ maxFrameBytes := by decide
    exact ⟨hbody.trans hcap, hframe (by decide) hbody⟩
  | forks page =>
    have hbody : (putEntries (entries (.forks page))).length ≤ 64 * 8323 + 2 := by
      have hsizes : ∀ body ∈ page.items.map forkEntry, body.length ≤ 8320 := by
        rw [List.forall_mem_map]
        intro record hrecord
        rw [record.forkEntry_eq]
        exact RawFork.length_entries (h.2 record hrecord)
      have hbodies := length_bodies (k := 1) (show 1 < 16 by decide) (by decide) hsizes
      have hcount : page.items.length ≤ 64 := h.1
      have hmore := length_flagField (show 2 < 16 by decide) page.more
      simp only [entries, putEntries_append, List.length_append, List.length_map] at *
      omega
    have hcap : 64 * 8323 + 2 ≤ maxFrameBytes := by decide
    exact ⟨hbody.trans hcap, hframe (by decide) hbody⟩
  | notFound => exact ⟨le_rfl, hframe (show 0 + 5 ≤ maxFrameBytes by decide) le_rfl⟩
  | rejected rejection =>
    have hbody : (putEntries (entries (.rejected (C := C) rejection))).length ≤
        smallRequestBytes + maxRejectMsgBytes := by
      have hcode := length_small (show 1 < 16 by decide)
        (show rejection.code.number < 128 by cases rejection.code <;> decide)
      have hseq := length_count64 (show 2 < 16 by decide) h.2
      have hmsg := length_bytesField_of_lt (k := 1) (show 3 < 16 by decide)
        (lt_of_le_of_lt hshort (by decide))
      have hcap : (utf8 rejection.msg).length ≤ maxRejectMsgBytes := hshort
      simp only [entries, putEntries_append, List.length_append, smallRequestBytes]
      omega
    exact ⟨hbody, hframe (by decide) hbody⟩

/-- A response within its bounds comes back from its frame. -/
theorem Sendable.parse (h : r.Sendable) (hshort : r.Short) :
    parseResponse C (envelope r.number r.entries) = .ok r := by
  obtain ⟨hbody, hframe⟩ := h.sizes hshort
  rw [parseResponse_envelope, r.read_entries h.bounded]
  exact isFrame_response.accepts_iff.mpr
    ⟨hframe, r.number, r.table, r.entries, ⟨r.variant_mem, hbody, h.admits hshort⟩, rfl⟩

/-- What arrives of a response. -/
def Received : Response C → Response C → Prop
  | .rejected sent, .rejected got =>
    got.code = sent.code ∧ got.atSeq = sent.atSeq ∧ Clipped sent.msg got.msg
  | sent, got => got = sent

end Response

/-- Requests and responses within the bounds of their tables come back from the frames their
encoders write, the reason of a rejection cut to the longest beginning of whole characters that
its cap admits. -/
theorem wire_round_trip (C : Crypto) :
    (∀ r : Request, r.Sendable C → parseRequest C r.encode = .ok r) ∧
    ∀ r : Response C, r.Sendable → ∃ got, parseResponse C r.encode = .ok got ∧
      r.Received got := by
  refine ⟨fun r h => parseRequest_encode (Request.accepted h), fun r h => ?_⟩
  cases r with
  | rejected rejection =>
    obtain ⟨kept, hclip, hclipped⟩ := exists_clipped rejection.msg
    have hsent : (Response.rejected (C := C) { rejection with msg := kept }).Sendable := h
    refine ⟨.rejected { rejection with msg := kept }, ?_, rfl, rfl, hclipped⟩
    rw [← hsent.parse hclipped.size]
    refine congrArg (parseResponse C) ?_
    change rejectedResponse rejection = _
    rw [rejectedResponse, hclip]
    rfl
  | _ => exact ⟨_, h.parse trivial, rfl⟩

theorem accepted_sampleLedger :
    ∀ event ∈ sampleLedger, signedEvent Crypto.sample event = .ok () := by decide +kernel

theorem length_push_sampleLedger :
    (putEntries (Request.push ⟨.ofNat idBytes 1⟩ sampleLedger).entries).length ≤ maxPushBytes := by
  decide +kernel

/-- The sample ledger may be pushed. -/
theorem sendable_sampleLedger :
    (Request.push ⟨.ofNat idBytes 1⟩ sampleLedger).Sendable Crypto.sample := by
  refine ⟨⟨?_, ?_, accepted_sampleLedger⟩, length_push_sampleLedger⟩
  · decide +kernel
  · decide +kernel

/-- Every hypothesis is met by a push of the sample ledger and by what answers it. -/
theorem wire_round_trip_sample :
    let push := Request.push ⟨.ofNat idBytes 1⟩ sampleLedger
    let busy := Response.rejected (C := Crypto.sample) ⟨.busy, 0, "the verification queue is full"⟩
    sampleLedger.length = 5 ∧ parseRequest Crypto.sample push.encode = .ok push ∧
      ∃ got, parseResponse Crypto.sample busy.encode = .ok got ∧ busy.Received got :=
  ⟨by decide +kernel, (wire_round_trip Crypto.sample).1 _ sendable_sampleLedger,
    (wire_round_trip Crypto.sample).2 _ ⟨by decide, by decide⟩⟩

end Mabel.Net
