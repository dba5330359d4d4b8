import Mabel.Core.Wire.Record

/-!
# Tolerant proto3 decoding

The wire semantics a generated proto3 decoder implements: padded varints are read,
unknown fields and groups are skipped, the last value of a singular field wins,
repeated fields accumulate and a submessage that recurs under one `oneof` variant is
merged. On canonical records all of this collapses to reading each field once.
-/

namespace Wire

/-- A record as a tolerant reader keeps it. -/
inductive Raw where
  /-- Wire type 0. -/
  | varint (value : Nat)
  /-- Wire type 1. -/
  | fixed64 (slice : Bytes)
  /-- Wire type 2. -/
  | bytes (slice : Bytes)
  /-- Wire type 5. -/
  | fixed32 (slice : Bytes)
  /-- Wire types 3 and 4, skipped whole. -/
  | group
  deriving DecidableEq, Repr

/-- A field number and what a tolerant reader found under it. -/
abbrev RawEntry := Nat × Raw

/-- Read at most ten groups, padding included. -/
def decodeVarintFrom (value count : Nat) : Bytes → Option (Nat × Bytes)
  | [] => none
  | byte :: rest =>
    let value := value ||| (byte &&& 0x7f).toNat <<< (7 * count)
    if byte &&& 0x80 = 0 then
      if count = 9 ∧ byte.toNat ≥ 2 then none else some (value, rest)
    else if count ≥ 9 then none
    else decodeVarintFrom value (count + 1) rest

/-- Read one varint, whatever its spelling. -/
def decodeVarint (bytes : Bytes) : Option (Nat × Bytes) := decodeVarintFrom 0 0 bytes

/-- Read a field number and a wire type. -/
def decodeKey (bytes : Bytes) : Option (Nat × Nat × Bytes) := do
  let (key, rest) ← decodeVarint bytes
  if key ≥ 2 ^ 32 ∨ key >>> 3 = 0 then none else some (key >>> 3, key &&& 7, rest)

/-- Take a prefix of a stated length. -/
def takeBytes (len : Nat) (bytes : Bytes) : Option (Bytes × Bytes) :=
  if len ≤ bytes.length then some (bytes.take len, bytes.drop len) else none

/-- Read the value of any wire type but the group markers. -/
def decodeScalar (wire : Nat) (bytes : Bytes) : Option (Raw × Bytes) :=
  match wire with
  | 0 => (decodeVarint bytes).map fun (value, rest) => (.varint value, rest)
  | 1 => (takeBytes 8 bytes).map fun (slice, rest) => (.fixed64 slice, rest)
  | 2 => do
    let (len, rest) ← decodeVarint bytes
    (takeBytes len rest).map fun (slice, rest) => (.bytes slice, rest)
  | 5 => (takeBytes 4 bytes).map fun (slice, rest) => (.fixed32 slice, rest)
  | _ => none

/-- How deep groups may nest. -/
def recursionLimit : Nat := 100

/-- Skip to the end of the innermost open group, then of those around it. -/
def skipGroups : Nat → List Nat → Bytes → Option Bytes
  | _, [], rest => some rest
  | 0, _ :: _, _ => none
  | fuel + 1, tag :: outer, bytes => do
    let (number, wire, rest) ← decodeKey bytes
    match wire with
    | 3 =>
      if outer.length + 1 ≥ recursionLimit then none
      else skipGroups fuel (number :: tag :: outer) rest
    | 4 => if number = tag then skipGroups fuel outer rest else none
    | _ => do
      let (_, rest) ← decodeScalar wire rest
      skipGroups fuel (tag :: outer) rest

/-- Read one record. -/
def decodeRecord (bytes : Bytes) : Option (RawEntry × Bytes) := do
  let (number, wire, rest) ← decodeKey bytes
  match wire with
  | 3 => (skipGroups rest.length [number] rest).map fun rest => ((number, .group), rest)
  | _ => (decodeScalar wire rest).map fun (raw, rest) => ((number, raw), rest)

/-- Read records until the input ends. A record takes at least one byte, so the input's
length is fuel enough. -/
def decodeRecordsFrom : Nat → Bytes → Option (List RawEntry)
  | _, [] => some []
  | 0, _ :: _ => none
  | fuel + 1, byte :: bytes => do
    let (e, rest) ← decodeRecord (byte :: bytes)
    (decodeRecordsFrom fuel rest).map (e :: ·)

/-- Every record of a message, in order. -/
def decodeRecords (bytes : Bytes) : Option (List RawEntry) :=
  decodeRecordsFrom bytes.length bytes

/-- The `int32` a varint decodes to: its low 32 bits, as a signed number. -/
def int32OfVarint (value : Nat) : Int :=
  if value % 2 ^ 32 < 2 ^ 31 then value % 2 ^ 32 else (value % 2 ^ 32 : Nat) - 2 ^ 32

/-- The varint an `int32` is written as: its sign extension to 64 bits. -/
def varintOfInt32 (value : Int) : Nat := (value % 2 ^ 64).toNat

/-- A small non-negative number is its own varint. -/
theorem int32OfVarint_natCast {n : Nat} (h : n < 2 ^ 31) : int32OfVarint n = n := by
  simp only [int32OfVarint]
  omega

theorem varintOfInt32_natCast {n : Nat} (h : n < 2 ^ 31) : varintOfInt32 n = n := by
  simp only [varintOfInt32]
  omega

/-! ## Canonical input -/

/-- A canonical record as the tolerant reader keeps it. -/
def Entry.raw (e : Entry) : RawEntry :=
  match e.2 with
  | .varint value => (e.1, .varint value)
  | .bytes slice => (e.1, .bytes slice)

@[simp] theorem Entry.raw_fst (e : Entry) : (Entry.raw e).1 = e.1 := by
  obtain ⟨n, v | b⟩ := e <;> rfl

/-- The tolerant reader agrees with the strict one wherever the strict one accepts. -/
private theorem decodeVarintFrom_of_strict (bytes : Bytes) : ∀ (value count : Nat)
    (r : Nat × Bytes), readVarintFrom value (7 * count) bytes = .ok r →
    decodeVarintFrom value count bytes = some r := by
  induction bytes with
  | nil =>
    intro value count r h
    simp [readVarintFrom] at h
  | cons byte bytes ih =>
    intro value count r h
    simp only [readVarintFrom] at h
    simp only [decodeVarintFrom]
    split_ifs at h with hover hlast hpad hwide
    · simp only [Except.ok.injEq] at h
      have hlow : byte.toNat % 128 = (byte &&& 0x7f).toNat := by
        rw [UInt8.toNat_and]
        exact (Nat.and_two_pow_sub_one_eq_mod byte.toNat 7).symm
      have hsmall : byte.toNat < 128 := by
        have hbit : ∀ n : Fin 256, n.val &&& 128 = 0 → n.val < 128 := by decide +kernel
        have := congrArg UInt8.toNat hlast
        rw [UInt8.toNat_and] at this
        exact hbit ⟨byte.toNat, byte.toNat_lt⟩ this
      rw [if_pos hlast, if_neg (by omega), h]
    · rw [if_neg hlast, if_neg (by omega)]
      exact ih _ (count + 1) r h

/-- A canonical varint decodes to its value. -/
theorem decodeVarint_putVarint {v : Nat} (h : v < 2 ^ 64) (rest : Bytes) :
    decodeVarint (putVarint v ++ rest) = some (v, rest) :=
  decodeVarintFrom_of_strict _ 0 0 _ (readVarint_putVarint h rest)

theorem takeBytes_append (slice rest : Bytes) :
    takeBytes slice.length (slice ++ rest) = some (slice, rest) := by
  simp [takeBytes]

/-- A canonical record decodes to itself. -/
theorem decodeRecord_putEntry {e : Entry} (h : Fits e) (rest : Bytes) :
    decodeRecord (putEntry e ++ rest) = some (Entry.raw e, rest) := by
  have hkey := h.key_lt
  have hwire := e.2.wire_lt
  have hnum : (e.1 <<< 3 ||| e.2.wire) >>> 3 = e.1 := key_shift _ hwire
  have hmask : (e.1 <<< 3 ||| e.2.wire) &&& 7 = e.2.wire := key_mask _ hwire
  have hk : decodeKey (putEntry e ++ rest) = some (e.1, e.2.wire, putValue e.2 ++ rest) := by
    rw [putEntry, putKey, List.append_assoc, decodeKey, decodeVarint_putVarint (by omega)]
    simp only [Option.bind_eq_bind, Option.bind_some, hnum, hmask]
    rw [if_neg (by have := h.1; omega)]
  obtain ⟨n, v | b⟩ := e
  · simp only [decodeRecord, hk, Option.bind_eq_bind, Option.bind_some, Value.wire, putValue,
      decodeScalar, decodeVarint_putVarint h.2.2, Option.map_some, Entry.raw]
  · simp only [decodeRecord, hk, Option.bind_eq_bind, Option.bind_some, Value.wire, putValue,
      decodeScalar, List.append_assoc, decodeVarint_putVarint h.2.2, takeBytes_append,
      Option.map_some, Entry.raw]

/-- Records that fit are read back from their encoding. -/
private theorem decodeRecordsFrom_putEntries {es : List Entry} (h : ∀ e ∈ es, Fits e) :
    ∀ fuel, (putEntries es).length ≤ fuel →
      decodeRecordsFrom fuel (putEntries es) = some (es.map Entry.raw) := by
  induction es with
  | nil =>
    intro fuel _
    cases fuel <;> rfl
  | cons e es ih =>
    intro fuel hf
    obtain ⟨byte, tail, he⟩ := List.exists_cons_of_ne_nil (putEntry_ne_nil e)
    have hrec := decodeRecord_putEntry (h e (List.mem_cons_self ..)) (putEntries es)
    simp only [putEntries_cons, he, List.cons_append, List.length_cons,
      List.length_append] at hf hrec ⊢
    cases fuel with
    | zero => omega
    | succ fuel =>
      simp only [decodeRecordsFrom, hrec, Option.bind_eq_bind, Option.bind_some]
      rw [ih (fun x hx => h x (List.mem_cons_of_mem _ hx)) fuel (by omega)]
      rfl

/-- Canonical records decode to themselves. -/
theorem decodeRecords_putEntries {es : List Entry} (h : ∀ e ∈ es, Fits e) :
    decodeRecords (putEntries es) = some (es.map Entry.raw) :=
  decodeRecordsFrom_putEntries h _ le_rfl

/-! ## Fields -/

/-- The records of one field number. -/
def selectRaw (number : Nat) (rs : List RawEntry) : List RawEntry :=
  rs.filter fun r => decide (r.1 = number)

theorem selectRaw_map (number : Nat) (es : List Entry) :
    selectRaw number (es.map Entry.raw) = (select number es).map Entry.raw := by
  simp [selectRaw, select, List.filter_map, Function.comp_def]

/-- The bytes of a record, where the field's type requires them. -/
def RawEntry.bytes? (r : RawEntry) : Option Bytes :=
  match r.2 with
  | .bytes slice => some slice
  | _ => none

/-- The varint of a record, where the field's type requires one. -/
def RawEntry.varint? (r : RawEntry) : Option Nat :=
  match r.2 with
  | .varint value => some value
  | _ => none

/-- A repeated length-delimited field. -/
def repeatedOf (number : Nat) (rs : List RawEntry) : Option (List Bytes) :=
  (selectRaw number rs).mapM RawEntry.bytes?

/-- A singular length-delimited field: the last record wins, none is empty. -/
def bytesOf (number : Nat) (rs : List RawEntry) : Option Bytes :=
  (repeatedOf number rs).map fun values => values.getLast?.getD []

/-- A singular varint field: the last record wins, none is zero. -/
def uintOf (number : Nat) (rs : List RawEntry) : Option Nat :=
  ((selectRaw number rs).mapM RawEntry.varint?).map fun values => values.getLast?.getD 0

/-- The bytes of a string. -/
def utf8 (text : String) : Bytes := text.toByteArray.data.toList

/-- The string a byte string spells, if it is well-formed UTF-8. -/
def fromUtf8 (bytes : Bytes) : Option String := String.fromUTF8? ⟨bytes.toArray⟩

/-- A singular string field, each record of which must be UTF-8. -/
def stringOf (number : Nat) (rs : List RawEntry) : Option String := do
  let values ← repeatedOf number rs
  let texts ← values.mapM fromUtf8
  return texts.getLast?.getD ""

/-- The variant a `oneof` holds so far: its number, its merged records and its value. -/
abbrev OneofState (α : Type) := Option (Nat × List RawEntry × α)

/-- Merge one record into a `oneof`: a recurring variant is merged, another replaces it. -/
def mergeVariant {α : Type} (tags : List Nat) (decode : Nat → List RawEntry → Option α)
    (state : OneofState α) (r : RawEntry) : Option (OneofState α) :=
  if r.1 ∈ tags then do
    let body ← RawEntry.bytes? r
    let records ← decodeRecords body
    let merged := match state with
      | some (tag, held, _) => if tag = r.1 then held ++ records else records
      | none => records
    let value ← decode r.1 merged
    return some (r.1, merged, value)
  else some state

/-- The value of a `oneof`, or nothing when no variant is present. -/
def oneofOf {α : Type} (tags : List Nat) (decode : Nat → List RawEntry → Option α)
    (rs : List RawEntry) : Option (Option α) :=
  (rs.foldlM (mergeVariant tags decode) none).map fun state => state.map fun s => s.2.2

/-- A repeated field is read off records that hold it. -/
theorem repeatedOf_of_select {number : Nat} {es : List Entry} {values : List Bytes}
    (h : select number es = repeatedField number values) :
    repeatedOf number (es.map Entry.raw) = some values := by
  rw [repeatedOf, selectRaw_map, h]
  clear h
  induction values with
  | nil => rfl
  | cons v values ih =>
    simp only [repeatedField, List.map_cons] at ih ⊢
    rw [List.mapM_cons, ih]
    rfl

/-- A bytes field is read off records that hold it. -/
theorem bytesOf_of_select {number : Nat} {es : List Entry} {value : Bytes}
    (h : select number es = bytesField number value) :
    bytesOf number (es.map Entry.raw) = some value := by
  have hr : select number es = repeatedField number (if value = [] then [] else [value]) := by
    rw [h, bytesField]
    split_ifs <;> rfl
  rw [bytesOf, repeatedOf_of_select hr]
  split_ifs with hv <;> simp [hv]

@[simp] theorem repeatedOf_repeatedField (number : Nat) (values : List Bytes) :
    repeatedOf number ((repeatedField number values).map Entry.raw) = some values :=
  repeatedOf_of_select (by simp)

@[simp] theorem bytesOf_bytesField (number : Nat) (value : Bytes) :
    bytesOf number ((bytesField number value).map Entry.raw) = some value :=
  bytesOf_of_select (by simp)

/-- An integer field is read off records that hold it. -/
theorem uintOf_of_select {number value : Nat} {es : List Entry}
    (h : select number es = uintField number value) :
    uintOf number (es.map Entry.raw) = some value := by
  rw [uintOf, selectRaw_map, h, uintField]
  split_ifs with hv <;> simp [Entry.raw, RawEntry.varint?, hv]

/-- Strings and their UTF-8 spellings correspond exactly. -/
theorem fromUtf8_eq_some {bytes : Bytes} {text : String} :
    fromUtf8 bytes = some text ↔ utf8 text = bytes := by
  simp only [fromUtf8, utf8, String.fromUTF8?]
  constructor
  · intro h
    split_ifs at h with hv
    simp only [Option.some.injEq] at h
    rw [← h]
    rfl
  · rintro rfl
    simp only [Array.toArray_toList]
    rw [dif_pos text.isValidUTF8]
    rfl

@[simp] theorem fromUtf8_utf8 (text : String) : fromUtf8 (utf8 text) = some text :=
  fromUtf8_eq_some.mpr rfl

theorem utf8_injective : Function.Injective utf8 := by
  intro a b h
  exact Option.some.inj ((fromUtf8_utf8 a).symm.trans (h ▸ fromUtf8_utf8 b))

@[simp] theorem utf8_eq_nil {text : String} : utf8 text = [] ↔ text = "" := by
  constructor
  · intro h
    exact utf8_injective (h.trans rfl)
  · rintro rfl
    rfl

/-- A text field is read off records that hold it. -/
theorem stringOf_of_select {number : Nat} {es : List Entry} {text : String}
    (h : select number es = bytesField number (utf8 text)) :
    stringOf number (es.map Entry.raw) = some text := by
  have hr : select number es =
      repeatedField number (if utf8 text = [] then [] else [utf8 text]) := by
    rw [h, bytesField]
    split_ifs <;> rfl
  rw [stringOf, repeatedOf_of_select hr]
  split_ifs with hv
  · simp [utf8_eq_nil.mp hv]
  · simp

/-- Records of other fields leave a union as it is. -/
private theorem foldlM_mergeVariant_skip {α : Type} {tags : List Nat}
    {decode : Nat → List RawEntry → Option α} {es : List Entry} (state : OneofState α)
    (h : ∀ e ∈ es, e.1 ∉ tags) :
    (es.map Entry.raw).foldlM (mergeVariant tags decode) state = some state := by
  induction es with
  | nil => rfl
  | cons e es ih =>
    have he : e.1 ∉ tags := h e (List.mem_cons_self ..)
    have hstep : mergeVariant tags decode state (Entry.raw e) = some state := by
      simp [mergeVariant, he]
    rw [List.map_cons, List.foldlM_cons, hstep]
    exact ih fun x hx => h x (List.mem_cons_of_mem _ hx)

/-- A `oneof` written once, after every other field, decodes to its one variant. -/
theorem oneofOf_append_messageField {α : Type} {tags : List Nat}
    {decode : Nat → List RawEntry → Option α} {es : List Entry} {tag : Nat} {body : Bytes}
    {records : List RawEntry} {value : α} (hes : ∀ e ∈ es, e.1 ∉ tags) (htag : tag ∈ tags)
    (hbody : decodeRecords body = some records) (hvalue : decode tag records = some value) :
    oneofOf tags decode ((es ++ messageField tag body).map Entry.raw) = some (some value) := by
  rw [oneofOf, List.map_append, List.foldlM_append, foldlM_mergeVariant_skip _ hes]
  simp [messageField, Entry.raw, mergeVariant, htag, RawEntry.bytes?, hbody, hvalue]

end Wire
