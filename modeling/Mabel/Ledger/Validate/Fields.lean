import Mabel.Ledger.Validate.Recursion

/-!
# What each row of a field table admits

The cardinality pass and the value rules, restated on the slot of one field: a required
field is one accepted value, an optional one at most one, a repeated one a list within
its bounds, and a `oneof` one variant of its list. `validate_iff` assembles them.
-/

namespace Mabel.Validate

open Wire

variable {R : Validator} {message : String} {k n : Nat} {name : String}

/-! ## The cardinality pass -/

/-- The cardinality rule of a field, on its slot. -/
def CountOk (field : Field) (slot : List Entry) : Prop :=
  match field.cardinality with
  | .forbidden => slot = []
  | .required => slot ≠ []
  | .repeated min max distinct =>
    min ≤ slot.length ∧ slot.length ≤ max ∧
      (distinct = true → (slot.filterMap (bytesAt field.number)).Nodup)
  | .optional | .variant => True

/-- Records the scanner and the cardinality pass accept for one field. -/
structure FieldOk (validate : Validator) (message : String) (depth : Nat) (field : Field)
    (slot : List Entry) : Prop extends SlotOk validate message depth field slot where
  count : CountOk field slot

/-- The duplicate check finds nothing exactly when no entry repeats. -/
theorem hasDuplicate_eq_false {entries : List Bytes} :
    hasDuplicate entries = false ↔ entries.Nodup := by
  induction entries with
  | nil => simp [hasDuplicate]
  | cons e es ih => simp [hasDuplicate, ih]

/-- Repeated bytes are read off the entries of the field's slot. -/
theorem repeatedBytes_eq (sc : Scanned) (number : Nat) :
    sc.repeatedBytes number = (select number sc.entries).filterMap (bytesAt number) := by
  rw [Scanned.repeatedBytes, select, List.filterMap_filter]
  refine List.filterMap_congr ?_
  rintro ⟨found, v | s⟩ _
  · simp [bytesAt]
  · by_cases h : found = number <;> simp [bytesAt, h]

theorem count_eq (sc : Scanned) (number : Nat) :
    sc.count number = (select number sc.entries).length := (length_select ..).symm

/-- The count check passes exactly where the slot's length is allowed. -/
theorem checkCount_eq_ok {sc : Scanned} {field : Field} {u : Unit} :
    checkCount sc field = .ok u ↔ CountOk field (select field.number sc.entries) := by
  simp only [checkCount, CountOk, count_eq, repeatedBytes_eq]
  cases field.cardinality with
  | forbidden => simp [List.length_eq_zero_iff]
  | required => simp [List.length_eq_zero_iff]
  | optional => simp
  | variant => simp
  | repeated min max distinct =>
    simp only [Outcome.bind_eq_ok, Outcome.rejectIf_eq_ok, exists_const, not_or, not_lt,
      not_and, Bool.not_eq_true, hasDuplicate_eq_false]
    tauto

/-- The variants of a message's `oneof` that are present. -/
def presentVariants (d : MessageDescriptor) (es : List Entry) : List Field :=
  (d.fields.filter fun f => decide (f.cardinality = .variant)).filter fun f =>
    decide (select f.number es ≠ [])

/-- The variants counted are those present. -/
theorem variantCount_eq (sc : Scanned) :
    variantCount sc = (presentVariants sc.descriptor sc.entries).length := by
  rw [variantCount, presentVariants]
  congr 1
  refine List.filter_congr fun f _ => ?_
  rw [count_eq, decide_eq_decide, gt_iff_lt, List.length_pos_iff]

/-- The cardinality check passes when every slot's length is allowed and a oneof has one variant.
-/
theorem checkCardinality_eq_ok {sc : Scanned} {u : Unit} :
    checkCardinality sc = .ok u ↔
      (∀ f ∈ sc.descriptor.fields, CountOk f (select f.number sc.entries)) ∧
      (sc.descriptor.oneof.isSome = true →
        (presentVariants sc.descriptor sc.entries).length = 1) := by
  simp only [checkCardinality, Outcome.bind_eq_ok, Outcome.forM_eq_ok, checkCount_eq_ok,
    exists_const]
  refine and_congr_right fun _ => ?_
  cases sc.descriptor.oneof with
  | none => simp
  | some o =>
    simp only [Outcome.bind_eq_ok, Outcome.rejectIf_eq_ok, exists_const, variantCount_eq,
      Option.isSome_some, forall_const]
    omega

/-! ## The whole message -/

/-- A record list that keeps every row of a descriptor's table at a depth. -/
structure Tabled (C : Crypto) (d : MessageDescriptor) (k : Nat) (es : List Entry) : Prop where
  slotted : Slotted d es
  fields : ∀ f ∈ d.fields, FieldOk (validate C) d.name k f (select f.number es)
  oneof : d.oneof.isSome = true → (presentVariants d es).length = 1

/-- A record list a descriptor admits at a depth, cross-field rule included. -/
structure Admits (C : Crypto) (d : MessageDescriptor) (k : Nat) (es : List Entry) : Prop
    extends Tabled C d k es where
  check : runCheck C (validate C) ⟨d, k, es⟩ = .ok ()

/-- The scanner and the cardinality pass accept exactly the lists that keep the table. -/
theorem tabled_iff {C : Crypto} {d : MessageDescriptor} (hd : d.WellFormed) {bytes : Bytes}
    {sc : Scanned} {u : Unit} :
    (scan (validate C) d bytes k = .ok sc ∧ checkCardinality sc = .ok u) ↔ k ≤ maxNesting ∧
      ∃ es, sc = ⟨d, k, es⟩ ∧ bytes = putEntries es ∧ Tabled C d k es := by
  rw [scan_eq_ok hd, checkCardinality_eq_ok]
  constructor
  · rintro ⟨⟨hk, es, rfl, hbytes, hslots, hok⟩, hcount, honeof⟩
    exact ⟨hk, es, rfl, hbytes, hslots, fun f hf => ⟨hok f hf, hcount f hf⟩, honeof⟩
  · rintro ⟨hk, es, rfl, hbytes, hslots, hfields, honeof⟩
    exact ⟨⟨hk, es, rfl, hbytes, hslots, fun f hf => (hfields f hf).toSlotOk⟩,
      fun f hf => (hfields f hf).count, honeof⟩

/-- The validator accepts exactly the canonical spellings of the lists it admits. -/
theorem validate_iff {C : Crypto} {d : MessageDescriptor} (hd : d.WellFormed) {bytes : Bytes}
    {sc : Scanned} :
    validate C d bytes k = .ok sc ↔ bytes.length ≤ d.maxBytes ∧ k ≤ maxNesting ∧
      ∃ es, sc = ⟨d, k, es⟩ ∧ bytes = putEntries es ∧ Admits C d k es := by
  rw [validate_eq]
  simp only [validateStep, Outcome.bind_eq_ok, Outcome.rejectIf_eq_ok, not_lt, exists_const]
  constructor
  · rintro ⟨hlen, sc', hscan, _, hcard, _, hcheck, hsc⟩
    obtain ⟨hk, es, rfl, hbytes, htable⟩ := (tabled_iff (u := ()) hd).mp ⟨hscan, hcard⟩
    exact ⟨hlen, hk, es, (Except.ok.inj hsc).symm, hbytes, htable, hcheck⟩
  · rintro ⟨hlen, hk, es, rfl, hbytes, htable, hcheck⟩
    obtain ⟨hscan, hcard⟩ := (tabled_iff (u := ()) hd).mpr ⟨hk, es, rfl, hbytes, htable⟩
    exact ⟨hlen, ⟨d, k, es⟩, hscan, (), hcard, (), hcheck, rfl⟩

/-- Whether the validator accepts a string, leaving aside what it scanned. -/
theorem accepts_iff {C : Crypto} {d : MessageDescriptor} (hd : d.WellFormed) {bytes : Bytes} :
    (∃ sc, validate C d bytes k = .ok sc) ↔ bytes.length ≤ d.maxBytes ∧ k ≤ maxNesting ∧
      ∃ es, bytes = putEntries es ∧ Admits C d k es := by
  simp only [validate_iff hd]
  constructor
  · rintro ⟨_, hlen, hk, es, -, h⟩
    exact ⟨hlen, hk, es, h⟩
  · rintro ⟨hlen, hk, es, h⟩
    exact ⟨_, hlen, hk, es, rfl, h⟩

/-- A cross-field rule that scans an admitted message again reads the same records. -/
theorem scan_of_admits {C : Crypto} {d : MessageDescriptor} (hd : d.WellFormed) {es : List Entry}
    (hk : k ≤ maxNesting) (h : Admits C d k es) :
    scan (validate C) d (putEntries es) k = .ok ⟨d, k, es⟩ :=
  (scan_eq_ok hd).mpr ⟨hk, es, rfl, rfl, h.slotted, fun f hf => (h.fields f hf).toSlotOk⟩

theorem Admits.fits {C : Crypto} {d : MessageDescriptor} (hd : d.WellFormed) {es : List Entry}
    (h : Admits C d k es) : ∀ e ∈ es, Fits e :=
  fits_of_slots hd h.slotted fun f hf => (h.fields f hf).toSlotOk

/-! ## Slots by cardinality -/

/-- A slot of length one is one entry of its field. -/
private theorem slot_singleton {es : List Entry} {slot : List Entry} (h : slot = select n es)
    (hlen : slot.length = 1) : ∃ v, slot = [(n, v)] := by
  obtain ⟨⟨m, v⟩, rfl⟩ := List.length_eq_one_iff.mp hlen
  have hm : m = n := (mem_select.mp (h ▸ List.mem_singleton_self (m, v))).2
  exact ⟨v, by rw [hm]⟩

/-- A forbidden field is admitted exactly when its slot is empty. -/
theorem fieldOk_forbidden {kind : Kind} {slot : List Entry} :
    FieldOk R message k (forbidden n name kind) slot ↔ slot = [] := by
  constructor
  · exact fun h => h.count
  · rintro rfl
    exact ⟨⟨by simp, by simp⟩, rfl⟩

/-- A required field is admitted as one entry with an admitted value. -/
theorem fieldOk_required {kind : Kind} {es : List Entry} :
    FieldOk R message k (required n name kind) (select n es) ↔
      ∃ v, select n es = [(n, v)] ∧ ValueOk R message k (required n name kind) v := by
  constructor
  · intro h
    have hpos : 0 < (select n es).length := List.length_pos_iff.mpr h.count
    have hcap : (select n es).length ≤ 1 := h.cap
    obtain ⟨v, hv⟩ := slot_singleton rfl (by omega : (select n es).length = 1)
    exact ⟨v, hv, h.value (n, v) (hv ▸ List.mem_singleton_self _)⟩
  · rintro ⟨v, hslot, hv⟩
    rw [hslot]
    exact ⟨⟨by simpa using hv, le_rfl⟩, List.cons_ne_nil _ _⟩

/-- An optional field is admitted as an empty slot or as one entry with an admitted value. -/
theorem fieldOk_optional {kind : Kind} {es : List Entry} :
    FieldOk R message k (optional n name kind) (select n es) ↔ select n es = [] ∨
      ∃ v, select n es = [(n, v)] ∧ ValueOk R message k (optional n name kind) v := by
  constructor
  · intro h
    have hcap : (select n es).length ≤ 1 := h.cap
    rcases Nat.eq_zero_or_pos (select n es).length with hz | hpos
    · exact .inl (List.length_eq_zero_iff.mp hz)
    · obtain ⟨v, hv⟩ := slot_singleton rfl (by omega : (select n es).length = 1)
      exact .inr ⟨v, hv, h.value (n, v) (hv ▸ List.mem_singleton_self _)⟩
  · rintro (hslot | ⟨v, hslot, hv⟩)
    · rw [hslot]
      exact ⟨⟨by simp, by simp⟩, trivial⟩
    · rw [hslot]
      exact ⟨⟨by simpa using hv, le_rfl⟩, trivial⟩

/-- A slot of byte values is the encoding of a repeated field. -/
private theorem exists_repeatedField {slot : List Entry}
    (h : ∀ e ∈ slot, ∃ x, e = (n, Value.bytes x)) : ∃ xs, slot = repeatedField n xs := by
  induction slot with
  | nil => exact ⟨[], rfl⟩
  | cons e slot ih =>
    obtain ⟨x, rfl⟩ := h e (List.mem_cons_self ..)
    obtain ⟨xs, rfl⟩ := ih fun e he => h e (List.mem_cons_of_mem _ he)
    exact ⟨x :: xs, rfl⟩

/-- A repeated field is admitted as the encoding of a list within its bounds. -/
theorem fieldOk_repeated {kind : Kind} {min max : Nat} {distinct : Bool} {es : List Entry}
    (hk : FieldDescriptor.wireKind ⟨n, name, .repeated min max distinct, kind⟩ = .len) :
    FieldOk R message k ⟨n, name, .repeated min max distinct, kind⟩ (select n es) ↔
      ∃ xs, select n es = repeatedField n xs ∧ min ≤ xs.length ∧ xs.length ≤ max ∧
        (distinct = true → xs.Nodup) ∧
        ∀ x ∈ xs, ValueOk R message k ⟨n, name, .repeated min max distinct, kind⟩ (.bytes x) := by
  have hfilter : ∀ xs : List Bytes, (repeatedField n xs).filterMap (bytesAt n) = xs := by
    intro xs
    rw [repeatedField, List.filterMap_map]
    simp [Function.comp_def, bytesAt]
  have hlength : ∀ xs : List Bytes, (repeatedField n xs).length = xs.length := by
    simp [repeatedField]
  constructor
  · rintro ⟨⟨hvalue, -⟩, hmin, hmax, hdistinct⟩
    obtain ⟨xs, hxs⟩ : ∃ xs, select n es = repeatedField n xs := by
      refine exists_repeatedField fun e he => ?_
      obtain ⟨m, v⟩ := e
      have hv := hvalue _ he
      obtain rfl : m = n := (mem_select.mp he).2
      cases v with
      | varint x => exact absurd (hk.symm.trans hv.1) (by decide)
      | bytes x => exact ⟨x, rfl⟩
    rw [hxs] at hvalue hmin hmax hdistinct
    rw [hlength] at hmin hmax
    simp only [hfilter] at hdistinct
    exact ⟨xs, hxs, hmin, hmax, hdistinct, fun x hx =>
      hvalue (n, .bytes x) (List.mem_map_of_mem (f := fun x => (n, Value.bytes x)) hx)⟩
  · rintro ⟨xs, hslot, hmin, hmax, hdistinct, hvalue⟩
    rw [hslot]
    refine ⟨⟨?_, ?_⟩, ?_, ?_, ?_⟩
    · intro e he
      obtain ⟨x, hx, rfl⟩ := List.mem_map.mp he
      exact hvalue x hx
    · rw [hlength]
      exact hmax
    · rw [hlength]
      exact hmin
    · rw [hlength]
      exact hmax
    · rw [hfilter]
      exact hdistinct

/-- Only the fields that write something matter for what all of them write. -/
private theorem flatMap_filter {fields : List Field} {g : Field → List Entry} :
    fields.flatMap g = (fields.filter fun f => decide (g f ≠ [])).flatMap g := by
  induction fields with
  | nil => rfl
  | cons f fields ih =>
    by_cases hf : g f = [] <;> simp [hf, ih]

/-- A `oneof` is one variant of its list, and the other slots are empty. -/
theorem exists_variant {fields : List Field} {es : List Entry}
    (hone : (fields.filter fun f => decide (select f.number es ≠ [])).length = 1)
    (hlen : ∀ f ∈ fields, f.wireKind = .len ∧ f.cardinality = .variant)
    (hok : ∀ f ∈ fields, FieldOk R message k f (select f.number es)) :
    ∃ f ∈ fields, ∃ body, fields.flatMap (fun f => select f.number es) =
      messageField f.number body ∧ ValueOk R message k f (.bytes body) := by
  obtain ⟨f, hf⟩ := List.length_eq_one_iff.mp hone
  have hmem : f ∈ fields ∧ select f.number es ≠ [] := by
    have := List.mem_filter.mp (hf ▸ List.mem_singleton_self f)
    exact ⟨this.1, of_decide_eq_true this.2⟩
  obtain ⟨hwire, hcard⟩ := hlen f hmem.1
  have hslot := hok f hmem.1
  have hcap : (select f.number es).length ≤ 1 := by
    have := hslot.cap
    rwa [hcard] at this
  have hpos := List.length_pos_iff.mpr hmem.2
  obtain ⟨v, hv⟩ := slot_singleton rfl (by omega : (select f.number es).length = 1)
  have hvalue := hslot.value (f.number, v) (hv ▸ List.mem_singleton_self _)
  cases v with
  | varint x => exact absurd (hwire.symm.trans hvalue.1) (by decide)
  | bytes body =>
    refine ⟨f, hmem.1, body, ?_, hvalue⟩
    rw [flatMap_filter, hf, List.flatMap_singleton, hv]
    rfl

/-! ## Values by kind -/

/-- Bytes of an exact length are admitted exactly at that length. -/
theorem valueOk_exact {cardinality : Cardinality} {len : Nat} (hpos : 0 < len)
    (hlen : len < 2 ^ 64) {v : Value} :
    ValueOk R message k ⟨n, name, cardinality, .bytes (some len) len⟩ v ↔
      ∃ x, v = .bytes x ∧ x.length = len := by
  cases v with
  | varint x => simp [ValueOk, FieldDescriptor.wireKind]
  | bytes x =>
    simp only [ValueOk, FieldDescriptor.wireKind, checkBytes, checkExact, checkSize,
      Outcome.bind_eq_ok, Outcome.rejectIf_eq_ok, exists_const, Value.bytes.injEq,
      exists_eq_left', true_and, not_not]
    constructor
    · exact fun h => h.2.1
    · intro h
      refine ⟨by omega, h, ?_, by omega⟩
      rintro rfl
      simp at h
      omega

/-- Bounded bytes are admitted when they are not empty and within the bound. -/
theorem valueOk_bounded {cardinality : Cardinality} {max : Nat} (hmax : max < 2 ^ 64)
    {v : Value} :
    ValueOk R message k ⟨n, name, cardinality, .bytes none max⟩ v ↔
      ∃ x, v = .bytes x ∧ x ≠ [] ∧ x.length ≤ max := by
  cases v with
  | varint x => simp [ValueOk, FieldDescriptor.wireKind]
  | bytes x =>
    simp only [ValueOk, FieldDescriptor.wireKind, checkBytes, checkExact, checkSize,
      Outcome.bind_eq_ok, Outcome.rejectIf_eq_ok, exists_const, Value.bytes.injEq,
      exists_eq_left', true_and, not_lt]
    constructor
    · exact fun h => h.2
    · exact fun h => ⟨by omega, h⟩

/-- A bounded varint is admitted within its bounds. -/
theorem valueOk_varint {cardinality : Cardinality} {min max : Nat} (hmin : 0 < min)
    (hmax : max < 2 ^ 64) {v : Value} :
    ValueOk R message k ⟨n, name, cardinality, .varint min max⟩ v ↔
      ∃ x, v = .varint x ∧ min ≤ x ∧ x ≤ max := by
  cases v with
  | bytes x => simp [ValueOk, FieldDescriptor.wireKind]
  | varint x =>
    simp only [ValueOk, FieldDescriptor.wireKind, checkVarint, Outcome.bind_eq_ok,
      Outcome.rejectIf_eq_ok, exists_const, Value.varint.injEq, exists_eq_left', true_and]
    omega

/-- An enum is admitted as one of its numbers. -/
theorem valueOk_enum {cardinality : Cardinality} {values : List EnumValue}
    (hvalues : ∀ e ∈ values, 0 < e.number ∧ e.number < 2 ^ 31) {v : Value} :
    ValueOk R message k ⟨n, name, cardinality, .enum values⟩ v ↔
      ∃ x, v = .varint x ∧ x ∈ values.map EnumValue.number := by
  cases v with
  | bytes x => simp [ValueOk, FieldDescriptor.wireKind]
  | varint x =>
    simp only [ValueOk, FieldDescriptor.wireKind, checkVarint, Outcome.bind_eq_ok,
      Outcome.rejectIf_eq_ok, exists_const, Value.varint.injEq, exists_eq_left', true_and,
      not_not, List.any_eq_true, decide_eq_true_eq, List.mem_map]
    constructor
    · exact fun h => h.2.2
    · rintro ⟨e, he, rfl⟩
      have := hvalues e he
      exact ⟨by omega, by omega, e, he, rfl⟩

/-- A string is admitted as UTF-8 within its cap that passes its rule. -/
theorem valueOk_string {cardinality : Cardinality} {max : Nat} {rule : StringRule}
    (hmax : max < 2 ^ 64) {v : Value} :
    ValueOk R message k ⟨n, name, cardinality, .string max rule⟩ v ↔
      ∃ text, v = .bytes (utf8 text) ∧ text ≠ "" ∧ (utf8 text).length ≤ max ∧
        checkRule rule message name text = .ok () := by
  cases v with
  | varint x => simp [ValueOk, FieldDescriptor.wireKind]
  | bytes x =>
    simp only [ValueOk, FieldDescriptor.wireKind, checkBytes, checkSize, Outcome.bind_eq_ok,
      Outcome.rejectIf_eq_ok, exists_const, Value.bytes.injEq, true_and, not_lt,
      Outcome.orReject_eq_ok, fromUtf8_eq_some]
    constructor
    · rintro ⟨-, ⟨hne, hle⟩, text, rfl, hrule⟩
      exact ⟨text, rfl, fun h => hne (utf8_eq_nil.mpr h), hle, hrule⟩
    · rintro ⟨text, rfl, hne, hle, hrule⟩
      exact ⟨by omega, ⟨fun h => hne (utf8_eq_nil.mp h), hle⟩, text, rfl, hrule⟩

/-- A nested message is admitted as nonempty bytes its own descriptor accepts. -/
theorem valueOk_nested {cardinality : Cardinality} {d : MessageDescriptor} {max : Nat}
    (hmax : max < 2 ^ 64) {v : Value} :
    ValueOk R message k ⟨n, name, cardinality, .nested d max⟩ v ↔
      ∃ x, v = .bytes x ∧ x ≠ [] ∧ x.length ≤ max ∧ ∃ sc, R d x (k + 1) = .ok sc := by
  cases v with
  | varint x => simp [ValueOk, FieldDescriptor.wireKind]
  | bytes x =>
    simp only [ValueOk, FieldDescriptor.wireKind, checkBytes, checkSize, Outcome.bind_eq_ok,
      Outcome.rejectIf_eq_ok, exists_const, Value.bytes.injEq, exists_eq_left', true_and, not_lt,
      and_true]
    constructor
    · rintro ⟨-, ⟨hne, hle⟩, hsc⟩
      exact ⟨hne, hle, hsc⟩
    · rintro ⟨hne, hle, hsc⟩
      exact ⟨by omega, ⟨hne, hle⟩, hsc⟩

/-- A variant is admitted as bytes its own descriptor accepts. -/
theorem valueOk_message {d : MessageDescriptor} {v : Value} :
    ValueOk R message k (variant n name d) v ↔
      ∃ x, v = .bytes x ∧ x.length < 2 ^ 64 ∧ ∃ sc, R d x (k + 1) = .ok sc := by
  cases v with
  | varint x => simp [ValueOk, FieldDescriptor.wireKind, variant]
  | bytes x =>
    simp only [ValueOk, FieldDescriptor.wireKind, checkBytes, variant, Outcome.bind_eq_ok,
      Value.bytes.injEq, exists_eq_left', true_and, and_true]

@[simp] theorem forbidden_number (kind : Kind) : (forbidden n name kind).number = n := rfl

@[simp] theorem optional_number (kind : Kind) : (optional n name kind).number = n := rfl

@[simp] theorem required_number (kind : Kind) : (required n name kind).number = n := rfl

@[simp] theorem variant_number (d : MessageDescriptor) : (variant n name d).number = n := rfl

/-! ## Rows of the tables

Each row, as the records its proto3 field contributes. -/

variable {es : List Entry}

theorem row_forbidden {kind : Kind} :
    FieldOk R message k (forbidden n name kind) (select n es) ↔ select n es = uintField n 0 :=
  fieldOk_forbidden

/-- The row of a required field of an exact length. -/
theorem row_exact {len : Nat} (hpos : 0 < len) (hlen : len < 2 ^ 64) :
    FieldOk R message k (required n name (.bytes (some len) len)) (select n es) ↔
      ∃ x, x.length = len ∧ select n es = bytesField n x := by
  rw [fieldOk_required]
  simp only [required, valueOk_exact hpos hlen]
  constructor
  · rintro ⟨_, hslot, x, rfl, hx⟩
    refine ⟨x, hx, ?_⟩
    rw [hslot, bytesField_of_ne (List.ne_nil_of_length_pos (by omega))]
  · rintro ⟨x, hx, hslot⟩
    refine ⟨.bytes x, ?_, x, rfl, hx⟩
    rw [hslot, bytesField_of_ne (List.ne_nil_of_length_pos (by omega))]

theorem row_id : FieldOk R message k (required n name Kinds.id) (select n es) ↔
    ∃ x, x.length = idBytes ∧ select n es = bytesField n x :=
  row_exact (by decide) (by decide)

/-- The row of an optional id: absent or of the id's length. -/
theorem row_optional_id : FieldOk R message k (optional n name Kinds.id) (select n es) ↔
    ∃ x, (x = [] ∨ x.length = idBytes) ∧ select n es = bytesField n x := by
  rw [fieldOk_optional]
  simp only [optional, Kinds.id,
    valueOk_exact (show 0 < idBytes by decide) (show idBytes < 2 ^ 64 by decide)]
  constructor
  · rintro (hslot | ⟨_, hslot, x, rfl, hx⟩)
    · exact ⟨[], .inl rfl, hslot⟩
    · refine ⟨x, .inr hx, ?_⟩
      rw [hslot, bytesField_of_ne (List.ne_nil_of_length_pos (hx ▸ by decide))]
  · rintro ⟨x, rfl | hx, hslot⟩
    · exact .inl hslot
    · refine .inr ⟨.bytes x, ?_, x, rfl, hx⟩
      rw [hslot, bytesField_of_ne (List.ne_nil_of_length_pos (hx ▸ by decide))]

/-- The row of an embedded inception. -/
theorem row_embedded :
    FieldOk R message k (required n name Kinds.embeddedInception) (select n es) ↔
      ∃ x, x ≠ [] ∧ x.length ≤ maxEmbeddedInceptionBytes ∧ select n es = bytesField n x := by
  rw [fieldOk_required]
  simp only [required, Kinds.embeddedInception,
    valueOk_bounded (show maxEmbeddedInceptionBytes < 2 ^ 64 by decide)]
  constructor
  · rintro ⟨_, hslot, x, rfl, hne, hx⟩
    exact ⟨x, hne, hx, by rw [hslot, bytesField_of_ne hne]⟩
  · rintro ⟨x, hne, hx, hslot⟩
    exact ⟨.bytes x, by rw [hslot, bytesField_of_ne hne], x, rfl, hne, hx⟩

/-- The row of a required nested message. -/
theorem row_nested {d : MessageDescriptor} {max : Nat} (hmax : max < 2 ^ 64) :
    FieldOk R message k (required n name (.nested d max)) (select n es) ↔
      ∃ x, x ≠ [] ∧ x.length ≤ max ∧ (∃ sc, R d x (k + 1) = .ok sc) ∧
        select n es = bytesField n x := by
  rw [fieldOk_required]
  simp only [required, valueOk_nested hmax]
  constructor
  · rintro ⟨_, hslot, x, rfl, hne, hx, hsc⟩
    exact ⟨x, hne, hx, hsc, by rw [hslot, bytesField_of_ne hne]⟩
  · rintro ⟨x, hne, hx, hsc, hslot⟩
    exact ⟨.bytes x, by rw [hslot, bytesField_of_ne hne], x, rfl, hne, hx, hsc⟩

/-- The row of a required varint. -/
theorem row_varint {min max : Nat} (hmin : 0 < min) (hmax : max < 2 ^ 64) :
    FieldOk R message k (required n name (.varint min max)) (select n es) ↔
      ∃ x, (min ≤ x ∧ x ≤ max) ∧ select n es = uintField n x := by
  rw [fieldOk_required]
  simp only [required, valueOk_varint hmin hmax]
  constructor
  · rintro ⟨_, hslot, x, rfl, hx⟩
    exact ⟨x, hx, by rw [hslot, uintField_of_ne (by omega)]⟩
  · rintro ⟨x, hx, hslot⟩
    exact ⟨.varint x, by rw [hslot, uintField_of_ne (by omega)], x, rfl, hx⟩

/-- The row of an optional varint, absent where it is zero. -/
theorem row_optional_varint {max : Nat} (hmax : max < 2 ^ 64) :
    FieldOk R message k (optional n name (.varint 1 max)) (select n es) ↔
      ∃ x, x ≤ max ∧ select n es = uintField n x := by
  rw [fieldOk_optional]
  simp only [optional, valueOk_varint (show 0 < 1 by decide) hmax]
  constructor
  · rintro (hslot | ⟨_, hslot, x, rfl, hx⟩)
    · exact ⟨0, Nat.zero_le _, hslot⟩
    · exact ⟨x, hx.2, by rw [hslot, uintField_of_ne (by omega)]⟩
  · rintro ⟨x, hx, hslot⟩
    by_cases hz : x = 0
    · subst hz
      exact .inl hslot
    · exact .inr ⟨.varint x, by rw [hslot, uintField_of_ne hz], x, rfl, by omega, hx⟩

/-- The row of a required enum. -/
theorem row_enum {values : List EnumValue}
    (hvalues : ∀ e ∈ values, 0 < e.number ∧ e.number < 2 ^ 31) :
    FieldOk R message k (required n name (.enum values)) (select n es) ↔
      ∃ x ∈ values.map EnumValue.number, select n es = uintField n x := by
  have hne : ∀ x ∈ values.map EnumValue.number, x ≠ 0 := by
    rintro _ hx rfl
    obtain ⟨e, he, hz⟩ := List.mem_map.mp hx
    exact (hvalues e he).1.ne' hz
  rw [fieldOk_required]
  simp only [required, valueOk_enum hvalues]
  constructor
  · rintro ⟨_, hslot, x, rfl, hx⟩
    exact ⟨x, hx, by rw [hslot, uintField_of_ne (hne x hx)]⟩
  · rintro ⟨x, hx, hslot⟩
    exact ⟨.varint x, by rw [hslot, uintField_of_ne (hne x hx)], x, rfl, hx⟩

/-- A string that is absent, or within its cap and its codepoint rule. -/
def TextOk (message name : String) (max : Nat) (rule : StringRule) (text : String) : Prop :=
  text = "" ∨ ((utf8 text).length ≤ max ∧ checkRule rule message name text = .ok ())

/-- The row of an optional string, absent where it is empty. -/
theorem row_string {max : Nat} {rule : StringRule} (hmax : max < 2 ^ 64) :
    FieldOk R message k (optional n name (.string max rule)) (select n es) ↔
      ∃ text, TextOk message name max rule text ∧ select n es = bytesField n (utf8 text) := by
  rw [fieldOk_optional]
  simp only [optional, valueOk_string hmax]
  constructor
  · rintro (hslot | ⟨_, hslot, text, rfl, hne, htext⟩)
    · exact ⟨"", .inl rfl, hslot⟩
    · refine ⟨text, .inr htext, ?_⟩
      rw [hslot, bytesField_of_ne (utf8_eq_nil.not.mpr hne)]
  · rintro ⟨text, htext, hslot⟩
    by_cases hne : text = ""
    · subst hne
      exact .inl hslot
    · refine .inr ⟨.bytes (utf8 text), ?_, text, rfl, hne, htext.resolve_left hne⟩
      rw [hslot, bytesField_of_ne (utf8_eq_nil.not.mpr hne)]

/-- The row of a repeated id without repetitions. -/
theorem row_repeated_id {min max : Nat} :
    FieldOk R message k ⟨n, name, .repeated min max true, Kinds.id⟩ (select n es) ↔
      ∃ xs : List Bytes, (min ≤ xs.length ∧ xs.length ≤ max ∧ xs.Nodup ∧
        ∀ x ∈ xs, x.length = idBytes) ∧ select n es = repeatedField n xs := by
  have hvalue : ∀ x, ValueOk R message k ⟨n, name, .repeated min max true, Kinds.id⟩ (.bytes x) ↔
      x.length = idBytes := by
    intro x
    rw [Kinds.id, valueOk_exact (by decide) (by decide)]
    simp
  rw [fieldOk_repeated (by rfl)]
  simp only [hvalue, forall_const]
  constructor
  · rintro ⟨xs, hslot, hmin, hmax, hnodup, hlen⟩
    exact ⟨xs, ⟨hmin, hmax, hnodup, hlen⟩, hslot⟩
  · rintro ⟨xs, ⟨hmin, hmax, hnodup, hlen⟩, hslot⟩
    exact ⟨xs, hslot, hmin, hmax, hnodup, hlen⟩

/-! ## Lookups -/

/-- A search that only one field can answer looks at that field's slot alone. -/
private theorem findSome?_select {α : Type} {g : Entry → Option α} {number : Nat}
    (hg : ∀ e, e.1 ≠ number → g e = none) (es : List Entry) :
    es.findSome? g = (select number es).findSome? g := by
  induction es with
  | nil => rfl
  | cons e es ih =>
    by_cases he : e.1 = number
    · simp only [select, List.filter_cons, he, decide_true, if_true, List.findSome?_cons]
      rw [ih, select]
    · simpa [select, he, List.findSome?_cons, hg e he] using ih

/-- The bytes of a field are read off its slot. -/
theorem bytes_eq (sc : Scanned) (number : Nat) :
    sc.bytes number = (select number sc.entries).findSome? (bytesAt number) := by
  refine findSome?_select ?_ sc.entries
  rintro ⟨found, v | s⟩ h <;> simp_all [bytesAt]

/-- The varint of a field is read off its slot. -/
theorem varint_eq (sc : Scanned) (number : Nat) :
    sc.varint number = (select number sc.entries).findSome? (varintAt number) := by
  refine findSome?_select ?_ sc.entries
  rintro ⟨found, v | s⟩ h <;> simp_all [varintAt]

/-- A field written from bytes reads back as these bytes, or as none where they are empty. -/
theorem bytes_of_select {sc : Scanned} {x : Bytes} (h : select n sc.entries = bytesField n x) :
    sc.bytes n = if x = [] then none else some x := by
  rw [bytes_eq, h, bytesField]
  split_ifs <;> simp [bytesAt]

theorem bytes_some {sc : Scanned} {x : Bytes} (h : select n sc.entries = bytesField n x)
    (hx : x ≠ []) : sc.bytes n = some x := by
  rw [bytes_of_select h, if_neg hx]

/-- A field written from a number reads back as that number, or as none where it is zero. -/
theorem varint_of_select {sc : Scanned} {x : Nat} (h : select n sc.entries = uintField n x) :
    sc.varint n = if x = 0 then none else some x := by
  rw [varint_eq, h, uintField]
  split_ifs <;> simp [varintAt]

/-! ## Messages with a `oneof` -/

/-- The split of a table into its singular fields and the variants of its `oneof`. -/
structure MessageDescriptor.OneofSplit (d : MessageDescriptor) (plain variants : List Field) :
    Prop where
  fields : d.fields = plain ++ variants
  plain : ∀ f ∈ plain, f.cardinality ≠ .variant
  variants : ∀ f ∈ variants, f.wireKind = .len ∧ f.cardinality = .variant

section Oneof

variable {d : MessageDescriptor} {plain variants : List Field}

/-- The variants of a split descriptor are the fields it declares as such. -/
private theorem OneofSplit.filter (h : d.OneofSplit plain variants) :
    (d.fields.filter fun f => decide (f.cardinality = .variant)) = variants := by
  rw [h.fields, List.filter_append, List.filter_eq_nil_iff.mpr, List.filter_eq_self.mpr,
    List.nil_append]
  · intro f hf
    simp [(h.variants f hf).2]
  · intro f hf
    simp [h.plain f hf]

/-- The variant of a message is its `oneof`'s one record. -/
theorem oneof_append (hd : d.WellFormed) (h : d.OneofSplit plain variants)
    {front : List Entry} (hfront : ∀ e ∈ front, ∃ g ∈ plain, e.1 = g.number) {f : Field}
    (hf : f ∈ variants) {body : Bytes} :
    (Scanned.mk d k (front ++ messageField f.number body)).oneof = some (f.number, body) := by
  have hlisted : ∀ g ∈ plain ++ variants, d.field g.number = some g := fun g hg =>
    (field_eq_some hd).mpr ⟨h.fields ▸ hg, rfl⟩
  simp only [Scanned.oneof, List.findSome?_append]
  rw [List.findSome?_eq_none_iff.mpr]
  · simp [messageField, hlisted f (List.mem_append_right _ hf), (h.variants f hf).2]
  · rintro ⟨found, v | s⟩ he
    · rfl
    · obtain ⟨g, hg, hnum⟩ := hfront _ he
      simp only at hnum
      simp [hnum, hlisted g (List.mem_append_left _ hg), h.plain g hg]

/-- A message with a `oneof` ends in one record of one of its variants. -/
theorem Tabled.split {C : Crypto} (hsplit : d.OneofSplit plain variants)
    (honeof : d.oneof.isSome = true) (h : Tabled C d k es) :
    ∃ f ∈ variants, ∃ body, es = plain.flatMap (fun g => select g.number es) ++
      messageField f.number body ∧ ValueOk (validate C) d.name k f (.bytes body) := by
  obtain ⟨f, hf, body, hflat, hvalue⟩ := exists_variant
    (by simpa only [presentVariants, OneofSplit.filter hsplit] using h.oneof honeof)
    hsplit.variants fun g hg => h.fields g (hsplit.fields ▸ List.mem_append_right _ hg)
  refine ⟨f, hf, body, ?_, hvalue⟩
  have := h.slotted
  rwa [Slotted, hsplit.fields, List.flatMap_append, hflat] at this

/-- A field number names one field of an ordered descriptor. -/
private theorem filter_number {fields : List Field}
    (hasc : fields.Pairwise fun f g => f.number < g.number) {f : Field} (hf : f ∈ fields) :
    fields.filter (fun g => decide (g.number = f.number)) = [f] := by
  obtain ⟨before, after, rfl⟩ := List.append_of_mem hf
  rw [List.pairwise_append, List.pairwise_cons] at hasc
  obtain ⟨-, ⟨hafter, -⟩, hbefore⟩ := hasc
  rw [List.filter_append, List.filter_cons, List.filter_eq_nil_iff.mpr,
    List.filter_eq_nil_iff.mpr]
  · simp
  · intro g hg
    simpa using (hafter g hg).ne'
  · intro g hg
    simpa using (hbefore g hg f (List.mem_cons_self ..)).ne

/-- Singular fields followed by one record of one variant keep every row of the table. -/
theorem slots_of_variant (message : String) (hd : d.WellFormed)
    (hsplit : d.OneofSplit plain variants) (front : List Entry) (hfront : front = plain.flatMap fun g => select g.number front)
    (hok : ∀ g ∈ plain, FieldOk R message k g (select g.number front)) {f : Field}
    (hf : f ∈ variants) {body : Bytes} (hvalue : ValueOk R message k f (.bytes body)) :
    Slotted d (front ++ messageField f.number body) ∧
    (∀ g ∈ d.fields, FieldOk R message k g
      (select g.number (front ++ messageField f.number body))) ∧
    (presentVariants d (front ++ messageField f.number body)).length = 1 := by
  have hasc := hd.ascending
  rw [hsplit.fields, List.pairwise_append] at hasc
  obtain ⟨-, hvariants, hcross⟩ := hasc
  have hplain : ∀ g ∈ plain, select g.number (front ++ messageField f.number body) =
      select g.number front := by
    intro g hg
    rw [select_append, select_messageField, if_neg (hcross g hg f hf).ne', List.append_nil]
  have hvar : ∀ g ∈ variants, select g.number (front ++ messageField f.number body) =
      if f.number = g.number then messageField f.number body else [] := by
    intro g hg
    rw [select_append, select_messageField, select_eq_nil, List.nil_append]
    intro e he
    rw [hfront] at he
    obtain ⟨x, hx, he⟩ := List.mem_flatMap.mp he
    rw [(mem_select.mp he).2]
    exact (hcross x hx g hg).ne
  have hpresent : variants.filter (fun g => decide
      (select g.number (front ++ messageField f.number body) ≠ [])) = [f] := by
    rw [← filter_number hvariants hf]
    refine List.filter_congr fun g hg => ?_
    rw [hvar g hg, decide_eq_decide]
    split_ifs with hnum
    · simp [messageField, hnum]
    · simpa using Ne.symm hnum
  refine ⟨?_, ?_, ?_⟩
  · rw [Slotted, hsplit.fields, List.flatMap_append, List.flatMap_congr hplain, ← hfront,
      flatMap_filter, hpresent, List.flatMap_singleton, hvar f hf, if_pos rfl]
  · intro g hg
    rw [hsplit.fields] at hg
    rcases List.mem_append.mp hg with hg | hg
    · rw [hplain g hg]
      exact hok g hg
    · have hcard := (hsplit.variants g hg).2
      have hcount : ∀ slot, CountOk g slot := fun slot => by rw [CountOk, hcard]; trivial
      rw [hvar g hg]
      split_ifs with hnum
      · have hfg : f ∈ variants.filter (fun g' => decide (g'.number = g.number)) := by
          simp [hf, hnum]
        rw [filter_number hvariants hg, List.mem_singleton] at hfg
        subst hfg
        refine ⟨⟨by simpa [messageField] using hvalue, ?_⟩, hcount _⟩
        rw [hcard]
        exact le_rfl
      · exact ⟨⟨by simp, by simp⟩, hcount _⟩
  · rw [presentVariants, OneofSplit.filter hsplit, hpresent]
    rfl

end Oneof

end Mabel.Validate
