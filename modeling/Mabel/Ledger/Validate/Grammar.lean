import Mabel.Ledger.Validate.Scan

/-!
# The grammar the scanner recognises

A scan accepts exactly the canonical spellings of record lists that keep the field
table: numbers ascend, each field stays within its cap and each value passes its own
rule. Under an ascending table such a list is the concatenation of one slot for each
field, which is how the messages are read off it.
-/

namespace Mabel.Validate

open Wire

/-! ## One record -/

/-- A value the scanner accepts under a field. -/
def ValueOk (validate : Validator) (message : String) (depth : Nat) (field : Field) :
    Value → Prop
  | .varint value =>
    field.wireKind = .varint ∧ value < 2 ^ 64 ∧ checkVarint field message value = .ok ()
  | .bytes slice =>
    field.wireKind = .len ∧ slice.length < 2 ^ 64 ∧
      checkBytes validate field message slice depth = .ok ()

/-- How many records of a field the scanner reads. -/
def Cardinality.cap : Cardinality → Nat
  | .repeated _ max _ => max
  | _ => 1

/-- How many records of a list carry a number. -/
def countOf (number : Nat) (es : List Entry) : Nat := es.countP fun e => decide (e.1 = number)

/-- A descriptor lists its fields in ascending order, under numbers a key can carry. -/
structure MessageDescriptor.WellFormed (d : MessageDescriptor) : Prop where
  ascending : d.fields.Pairwise fun f g => f.number < g.number
  numbered : ∀ f ∈ d.fields, 0 < f.number ∧ f.number < 2 ^ 29

/-- A number finds the field that declares it. -/
theorem field_eq_some {d : MessageDescriptor} (hd : d.WellFormed) {number : Nat} {f : Field} :
    d.field number = some f ↔ f ∈ d.fields ∧ f.number = number := by
  constructor
  · intro h
    exact ⟨List.mem_of_find?_eq_some h, by simpa using List.find?_some h⟩
  · rintro ⟨hmem, rfl⟩
    cases hfind : d.field f.number with
    | none =>
      have := List.find?_eq_none.mp hfind f hmem
      simp at this
    | some g =>
      have hg : g ∈ d.fields := List.mem_of_find?_eq_some hfind
      have hnum : g.number = f.number := by simpa using List.find?_some hfind
      have hinj := List.Pairwise.forall_of_forall_of_flip
        (R := fun f g : Field => f.number = g.number → f = g) (fun _ _ _ => rfl)
        (hd.ascending.imp fun hlt heq => absurd heq hlt.ne)
        (hd.ascending.imp fun hlt heq => absurd heq hlt.ne')
      rw [hinj hg hmem hnum]

/-- The strict reader takes exactly the encoding of a number of 64 bits. -/
theorem readVarint_eq_ok {message : String} {bytes rest : Bytes} {v : Nat} :
    readVarint message bytes = .ok (v, rest) ↔ v < 2 ^ 64 ∧ bytes = putVarint v ++ rest := by
  constructor
  · intro h
    simp only [readVarint] at h
    split at h
    · rename_i hr
      exact readVarint_sound (hr.trans (by rw [Except.ok.inj h]))
    · simp at h
  · rintro ⟨hlt, rfl⟩
    simp [readVarint, readVarint_putVarint hlt]

/-- The value reader accepts exactly a canonical value that passes its field's rule. -/
theorem scanValue_eq_ok {R : Validator} {message : String} {k : Nat} {field : Field}
    {bytes rest : Bytes} {v : Value} :
    scanValue R message k field bytes = .ok (v, rest) ↔
      ValueOk R message k field v ∧ bytes = putValue v ++ rest := by
  simp only [scanValue, Outcome.bind_eq_ok, Prod.exists, readVarint_eq_ok]
  cases hk : field.wireKind with
  | varint =>
    constructor
    · rintro ⟨n, mid, ⟨hlt, rfl⟩, h⟩
      simp only [Outcome.bind_eq_ok, Except.ok.injEq, Prod.mk.injEq] at h
      obtain ⟨_, hcheck, rfl, rfl⟩ := h
      exact ⟨⟨hk, hlt, hcheck⟩, rfl⟩
    · rintro ⟨hv, rfl⟩
      cases v with
      | bytes slice => exact absurd (hk.symm.trans hv.1) (by decide)
      | varint n =>
        refine ⟨n, rest, ⟨hv.2.1, rfl⟩, ?_⟩
        simp [hv.2.2]
  | len =>
    constructor
    · rintro ⟨n, mid, ⟨hlt, rfl⟩, h⟩
      simp only [Outcome.bind_eq_ok, Outcome.rejectIf_eq_ok, Except.ok.injEq,
        Prod.mk.injEq] at h
      obtain ⟨_, hn, _, hcheck, rfl, rfl⟩ := h
      have hlen : (mid.take n).length = n := by
        rw [List.length_take]
        omega
      refine ⟨⟨hk, by omega, hcheck⟩, ?_⟩
      rw [putValue, hlen, List.append_assoc, List.take_append_drop]
    · rintro ⟨hv, rfl⟩
      cases v with
      | varint n => exact absurd (hk.symm.trans hv.1) (by decide)
      | bytes slice =>
        refine ⟨slice.length, slice ++ rest, ⟨hv.2.1, by simp [putValue]⟩, ?_⟩
        simp [Outcome.rejectIf, hv.2.2]

/-- A record that may follow the records already read. -/
structure Follows (validate : Validator) (d : MessageDescriptor) (depth : Nat)
    (entries : List Entry) (lastNumber : Nat) (e : Entry) (field : Field) : Prop where
  listed : d.field e.1 = some field
  place : checkPlace d.name field entries e.1 lastNumber = .ok ()
  cap : checkRepeatedCap d.name field entries e.1 = .ok ()
  value : ValueOk validate d.name depth field e.2

theorem ValueOk.wire {R : Validator} {message : String} {k : Nat} {field : Field} {v : Value}
    (h : ValueOk R message k field v) : v.wire = field.wireKind.number := by
  cases v <;> simp [Value.wire, h.1, WireKind.number]

/-- The record reader accepts exactly the canonical spelling of a record in place. -/
theorem scanRecord_eq_ok {R : Validator} {d : MessageDescriptor} (hd : d.WellFormed)
    {k last : Nat} {es : List Entry} {bytes rest : Bytes} {e : Entry} :
    scanRecord R d k es last bytes = .ok (e, rest) ↔
      (∃ field, Follows R d k es last e field) ∧ bytes = putEntry e ++ rest := by
  simp only [scanRecord, Outcome.bind_eq_ok, Prod.exists, readVarint_eq_ok]
  constructor
  · rintro ⟨key, mid, ⟨-, rfl⟩, field, hfield, _, hplace, _, hwire, _, hcap, v, rest', hv, h⟩
    simp only [Outcome.orReject_eq_ok, Outcome.rejectIf_eq_ok, ne_eq, not_not] at hfield hwire
    obtain ⟨hval, rfl⟩ := scanValue_eq_ok.mp hv
    simp only [Except.ok.injEq, Prod.mk.injEq] at h
    obtain ⟨rfl, rfl⟩ := h
    refine ⟨⟨field, hfield, hplace, hcap, hval⟩, ?_⟩
    -- A listed number is far below the saturation bound, so the key is the one written.
    have hnum := (field_eq_some hd).mp hfield
    have hbound := (hd.numbered field hnum.1).2
    have hmin : min (key >>> 3) u32Max = key >>> 3 := by
      have : u32Max = 4294967295 := rfl
      omega
    have hkey : putKey (min (key >>> 3) u32Max) v.wire = putVarint key := by
      rw [putKey, hmin, hval.wire, ← hwire, key_split]
    rw [putEntry, hkey, List.append_assoc]
  · rintro ⟨⟨field, h⟩, rfl⟩
    obtain ⟨hmem, hnum⟩ := (field_eq_some hd).mp h.listed
    have hbound := (hd.numbered field hmem).2
    have hwire := e.2.wire_lt
    have hshift : (e.1 <<< 3 ||| e.2.wire) >>> 3 = e.1 := key_shift _ hwire
    have hmask : (e.1 <<< 3 ||| e.2.wire) &&& 7 = e.2.wire := key_mask _ hwire
    have hmin : min e.1 u32Max = e.1 := by
      have : u32Max = 4294967295 := rfl
      omega
    refine ⟨e.1 <<< 3 ||| e.2.wire, putValue e.2 ++ rest, ⟨?_, ?_⟩, field, ?_⟩
    · rw [key_eq _ hwire]
      omega
    · rw [putEntry, putKey, List.append_assoc]
    · simp only [hshift, hmask, hmin]
      refine ⟨by simp [h.listed], (), h.place, (), by simp [h.value.wire], (), h.cap, e.2, rest,
        scanValue_eq_ok.mpr ⟨h.value, rfl⟩, rfl⟩

/-! ## The record list -/

/-- Each record of a list may follow those before it. -/
def Conforms (validate : Validator) (d : MessageDescriptor) (depth : Nat) :
    List Entry → Nat → List Entry → Prop
  | _, _, [] => True
  | before, last, e :: es =>
    (∃ field, Follows validate d depth before last e field) ∧
      Conforms validate d depth (before ++ [e]) e.1 es

/-- The record loop accepts exactly the canonical spelling of a conforming list. -/
theorem scanRecords_eq_ok {R : Validator} {d : MessageDescriptor} (hd : d.WellFormed) {k : Nat} :
    ∀ (fuel : Nat) (before : List Entry) (last : Nat) (bytes : Bytes) (all : List Entry),
      bytes.length ≤ fuel →
      (scanRecords R d k fuel before last bytes = .ok all ↔
        ∃ es, all = before ++ es ∧ bytes = putEntries es ∧ Conforms R d k before last es) := by
  intro fuel
  induction fuel with
  | zero =>
    intro before last bytes all hlen
    obtain rfl : bytes = [] := List.length_eq_zero_iff.mp (by omega)
    simp only [scanRecords, Except.ok.injEq]
    constructor
    · rintro rfl
      exact ⟨[], by simp, rfl, trivial⟩
    · rintro ⟨es, rfl, hes, -⟩
      cases es with
      | nil => simp
      | cons e es => simp at hes
  | succ fuel ih =>
    intro before last bytes all hlen
    cases bytes with
    | nil =>
      simp only [scanRecords, Except.ok.injEq]
      constructor
      · rintro rfl
        exact ⟨[], by simp, rfl, trivial⟩
      · rintro ⟨es, rfl, hes, -⟩
        cases es with
        | nil => simp
        | cons e es => simp at hes
    | cons byte bytes =>
      simp only [scanRecords, Outcome.bind_eq_ok, Prod.exists]
      have hshort : ∀ (e : Entry) (rest : Bytes), byte :: bytes = putEntry e ++ rest →
          rest.length ≤ fuel := by
        intro e rest h
        have hpos := List.length_pos_iff.mpr (putEntry_ne_nil e)
        have := congrArg List.length h
        simp only [List.length_cons, List.length_append] at this hlen
        omega
      constructor
      · rintro ⟨n, v, rest, hrec, hrest⟩
        obtain ⟨hfield, hbytes⟩ := (scanRecord_eq_ok hd).mp hrec
        obtain ⟨es, rfl, rfl, hes⟩ :=
          (ih _ _ _ _ (hshort (n, v) rest hbytes)).mp hrest
        exact ⟨(n, v) :: es, by simp, hbytes, hfield, hes⟩
      · rintro ⟨es, rfl, hbytes, hes⟩
        cases es with
        | nil => simp at hbytes
        | cons e es =>
          refine ⟨e.1, e.2, putEntries es, (scanRecord_eq_ok hd).mpr ⟨hes.1, hbytes⟩, ?_⟩
          exact (ih _ _ _ _ (hshort e _ hbytes)).mpr ⟨es, by simp, rfl, hes.2⟩

/-- A record is in place when it comes after the last one and repeats only where it may. -/
theorem checkPlace_eq_ok {message : String} {field : Field} {es : List Entry}
    {number last : Nat} (hes : ∀ e ∈ es, e.1 ≤ last) :
    checkPlace message field es number last = .ok () ↔
      last ≤ number ∧ (field.cardinality.isRepeated = false → countOf number es = 0) := by
  have hseen : (es.any fun e => decide (e.1 = number)) = true ↔ countOf number es ≠ 0 := by
    rw [countOf, ← Nat.pos_iff_ne_zero, List.countP_pos_iff, List.any_eq_true]
  have hle : countOf number es ≠ 0 → number ≤ last := by
    intro h
    obtain ⟨e, he, hnum⟩ := List.any_eq_true.mp (hseen.mpr h)
    exact of_decide_eq_true hnum ▸ hes e he
  simp only [checkPlace, Outcome.bind_eq_ok, Outcome.rejectIf_eq_ok, hseen, exists_const]
  cases field.cardinality.isRepeated <;> simp <;> omega

/-- The cap check passes while the repeated field has room. -/
theorem checkRepeatedCap_eq_ok {message : String} {field : Field} {es : List Entry}
    {number : Nat} :
    checkRepeatedCap message field es number = .ok () ↔
      (field.cardinality.isRepeated = true → countOf number es < field.cardinality.cap) := by
  cases h : field.cardinality <;>
    simp [checkRepeatedCap, h, Cardinality.isRepeated, Cardinality.cap, countOf]

/-- A record may follow the ones before it exactly when its number does not descend and
its field's cap is not yet reached. -/
theorem follows_iff {R : Validator} {d : MessageDescriptor} {k last : Nat} {es : List Entry}
    (hes : ∀ e ∈ es, e.1 ≤ last) {e : Entry} {field : Field} :
    Follows R d k es last e field ↔ d.field e.1 = some field ∧ last ≤ e.1 ∧
      countOf e.1 es < field.cardinality.cap ∧ ValueOk R d.name k field e.2 := by
  have hcap : field.cardinality.isRepeated = false → field.cardinality.cap = 1 := by
    cases field.cardinality <;> simp [Cardinality.isRepeated, Cardinality.cap]
  constructor
  · intro h
    have hplace := (checkPlace_eq_ok hes).mp h.place
    have hrep := checkRepeatedCap_eq_ok.mp h.cap
    refine ⟨h.listed, hplace.1, ?_, h.value⟩
    cases hr : field.cardinality.isRepeated with
    | false => rw [hcap hr, hplace.2 hr]; exact Nat.zero_lt_one
    | true => exact hrep hr
  · rintro ⟨hlisted, hlast, hcount, hvalue⟩
    refine ⟨hlisted, (checkPlace_eq_ok hes).mpr ⟨hlast, ?_⟩, ?_, hvalue⟩
    · intro hr
      rw [hcap hr] at hcount
      omega
    · exact checkRepeatedCap_eq_ok.mpr fun _ => hcount

@[simp] theorem countOf_append (number : Nat) (es fs : List Entry) :
    countOf number (es ++ fs) = countOf number es + countOf number fs := by
  simp [countOf]

theorem countOf_cons (number : Nat) (e : Entry) (es : List Entry) :
    countOf number (e :: es) = countOf number es + if e.1 = number then 1 else 0 := by
  simp [countOf, List.countP_cons]

/-- Conformance without reference to the order of reading: numbers ascend, every field
is listed and within its cap, every value passes its rule. -/
theorem conforms_iff {R : Validator} {d : MessageDescriptor} {k : Nat} (es : List Entry) :
    ∀ (before : List Entry) (last : Nat), (∀ e ∈ before, e.1 ≤ last) →
      (Conforms R d k before last es ↔
        es.Pairwise (fun a b => a.1 ≤ b.1) ∧ (∀ e ∈ es, last ≤ e.1) ∧
        ∀ e ∈ es, ∃ field, d.field e.1 = some field ∧ ValueOk R d.name k field e.2 ∧
          countOf e.1 (before ++ es) ≤ field.cardinality.cap) := by
  induction es with
  | nil =>
    intro before last _
    simp [Conforms]
  | cons e es ih =>
    intro before last hbefore
    have hnext : last ≤ e.1 → ∀ x ∈ before ++ [e], x.1 ≤ e.1 := by
      intro hle x hx
      rcases List.mem_append.mp hx with hx | hx
      · exact (hbefore x hx).trans hle
      · simp [List.mem_singleton.mp hx]
    have hsame : before ++ [e] ++ es = before ++ e :: es := by simp
    rw [Conforms]
    constructor
    · rintro ⟨⟨field, hf⟩, hrest⟩
      obtain ⟨hlisted, hle, hcount, hvalue⟩ := (follows_iff hbefore).mp hf
      obtain ⟨hpair, hlast, hall⟩ := (ih _ _ (hnext hle)).mp hrest
      rw [hsame] at hall
      refine ⟨List.pairwise_cons.mpr ⟨hlast, hpair⟩, ?_, ?_⟩
      · intro x hx
        rcases List.mem_cons.mp hx with rfl | hx
        · exact hle
        · exact hle.trans (hlast x hx)
      · intro x hx
        rcases List.mem_cons.mp hx with rfl | hx
        · refine ⟨field, hlisted, hvalue, ?_⟩
          -- The last record of this number carries the bound for all of them.
          by_cases hmore : ∃ y ∈ es, y.1 = x.1
          · obtain ⟨y, hy, hnum⟩ := hmore
            obtain ⟨g, hg, -, hgcount⟩ := hall y hy
            rw [hnum] at hg hgcount
            obtain rfl : field = g := Option.some.inj (hlisted.symm.trans hg)
            exact hgcount
          · have hzero : countOf x.1 es = 0 := by
              rw [countOf, List.countP_eq_zero]
              intro y hy
              simpa using fun hnum => hmore ⟨y, hy, hnum⟩
            simp only [countOf_append, countOf_cons, hzero, if_true]
            omega
        · exact hall x hx
    · rintro ⟨hpair, hlast, hall⟩
      obtain ⟨hle, hpair⟩ := List.pairwise_cons.mp hpair
      obtain ⟨field, hlisted, hvalue, hcount⟩ := hall e (List.mem_cons_self ..)
      have helast : last ≤ e.1 := hlast e (List.mem_cons_self ..)
      refine ⟨⟨field, (follows_iff hbefore).mpr ⟨hlisted, helast, ?_, hvalue⟩⟩, ?_⟩
      · simp only [countOf_append, countOf_cons, if_true] at hcount
        omega
      · refine (ih _ _ (hnext helast)).mpr ⟨hpair, hle, ?_⟩
        rw [hsame]
        exact fun x hx => hall x (List.mem_cons_of_mem _ hx)

/-! ## Slots -/

/-- Records the scanner accepts for one field. -/
structure SlotOk (validate : Validator) (message : String) (depth : Nat) (field : Field)
    (slot : List Entry) : Prop where
  value : ∀ e ∈ slot, ValueOk validate message depth field e.2
  cap : slot.length ≤ field.cardinality.cap

/-- The records of a message, field by field. -/
def Slotted (d : MessageDescriptor) (es : List Entry) : Prop :=
  es = d.fields.flatMap fun f => select f.number es

theorem length_select (number : Nat) (es : List Entry) :
    (select number es).length = countOf number es := by
  rw [select, countOf, List.countP_eq_length_filter]

/-- A list conforms exactly when it is the concatenation of one accepted slot a field. -/
theorem conforms_iff_slots {R : Validator} {d : MessageDescriptor} (hd : d.WellFormed) {k : Nat}
    {es : List Entry} :
    Conforms R d k [] 0 es ↔
      Slotted d es ∧ ∀ f ∈ d.fields, SlotOk R d.name k f (select f.number es) := by
  rw [conforms_iff es [] 0 (by simp)]
  constructor
  · rintro ⟨hsorted, -, hall⟩
    have hfield : ∀ f ∈ d.fields, ∀ e ∈ select f.number es,
        ValueOk R d.name k f e.2 ∧ countOf f.number es ≤ f.cardinality.cap := by
      intro f hf e he
      obtain ⟨he, hnum⟩ := mem_select.mp he
      obtain ⟨g, hg, hvalue, hcount⟩ := hall e he
      obtain rfl : f = g :=
        Option.some.inj (((field_eq_some hd).mpr ⟨hf, hnum.symm⟩).symm.trans hg)
      exact ⟨hvalue, hnum ▸ hcount⟩
    refine ⟨?_, fun f hf => ⟨fun e he => (hfield f hf e he).1, ?_⟩⟩
    · have hmem : ∀ e ∈ es, e.1 ∈ d.fields.map FieldDescriptor.number := by
        intro e he
        obtain ⟨f, hf, -, -⟩ := hall e he
        obtain ⟨hf, hnum⟩ := (field_eq_some hd).mp hf
        exact List.mem_map.mpr ⟨f, hf, hnum⟩
      have := flatMap_select (List.pairwise_map.mpr hd.ascending) hsorted hmem
      rw [List.flatMap_map] at this
      exact this.symm
    · cases hslot : select f.number es with
      | nil => simp
      | cons e slot =>
        rw [← hslot, length_select]
        exact (hfield f hf e (hslot ▸ List.mem_cons_self ..)).2
  · rintro ⟨hslots, hok⟩
    have hfield : ∀ e ∈ es, ∃ f ∈ d.fields, e.1 = f.number := by
      intro e he
      rw [hslots] at he
      obtain ⟨f, hf, he⟩ := List.mem_flatMap.mp he
      exact ⟨f, hf, (mem_select.mp he).2⟩
    refine ⟨?_, fun _ _ => Nat.zero_le _, ?_⟩
    · rw [hslots, List.pairwise_flatMap]
      constructor
      · intro f _
        refine List.pairwise_of_forall_mem_list fun a ha b hb => ?_
        rw [(mem_select.mp ha).2, (mem_select.mp hb).2]
      · refine hd.ascending.imp fun hlt a ha b hb => ?_
        rw [(mem_select.mp ha).2, (mem_select.mp hb).2]
        exact hlt.le
    · intro e he
      obtain ⟨f, hf, hnum⟩ := hfield e he
      have hslot := hok f hf
      refine ⟨f, (field_eq_some hd).mpr ⟨hf, hnum.symm⟩,
        hslot.value e (mem_select.mpr ⟨he, hnum⟩), ?_⟩
      rw [List.nil_append, hnum, ← length_select]
      exact hslot.cap

/-- A scan accepts exactly the canonical spellings of slotted record lists. -/
theorem scan_eq_ok {R : Validator} {d : MessageDescriptor} (hd : d.WellFormed) {k : Nat}
    {bytes : Bytes} {sc : Scanned} :
    scan R d bytes k = .ok sc ↔ k ≤ maxNesting ∧ ∃ es, sc = ⟨d, k, es⟩ ∧ bytes = putEntries es ∧
      Slotted d es ∧ ∀ f ∈ d.fields, SlotOk R d.name k f (select f.number es) := by
  simp only [scan, Outcome.bind_eq_ok, Outcome.rejectIf_eq_ok, not_lt,
    scanRecords_eq_ok hd _ _ _ _ _ le_rfl, List.nil_append, conforms_iff_slots hd]
  constructor
  · rintro ⟨_, hk, all, ⟨es, rfl, hbytes, hslots⟩, hsc⟩
    exact ⟨hk, _, (Except.ok.inj hsc).symm, hbytes, hslots⟩
  · rintro ⟨hk, es, rfl, hbytes, hslots⟩
    exact ⟨(), hk, es, ⟨es, rfl, hbytes, hslots⟩, rfl⟩

/-- What a scan accepts is one a 64-bit reader reads back. -/
theorem fits_of_slots {R : Validator} {d : MessageDescriptor} (hd : d.WellFormed) {k : Nat}
    {es : List Entry} (hslots : Slotted d es)
    (hok : ∀ f ∈ d.fields, SlotOk R d.name k f (select f.number es)) : ∀ e ∈ es, Fits e := by
  intro e he
  have he' := he
  rw [hslots] at he'
  obtain ⟨f, hf, hsel⟩ := List.mem_flatMap.mp he'
  have hnum := (mem_select.mp hsel).2
  have hvalue := (hok f hf).value e hsel
  refine ⟨hnum ▸ (hd.numbered f hf).1, hnum ▸ (hd.numbered f hf).2, ?_⟩
  cases hv : e.2 with
  | varint n => rw [hv] at hvalue; exact hvalue.2.1
  | bytes slice => rw [hv] at hvalue; exact hvalue.2.1

/-- Every slice of a canonical message is strictly shorter than the message. -/
theorem length_lt_of_mem (es : List Entry) (number : Nat) {slice : Bytes}
    (h : (number, Value.bytes slice) ∈ es) : slice.length < (putEntries es).length := by
  induction es with
  | nil => simp at h
  | cons e es ih =>
    rw [putEntries_cons, List.length_append]
    rcases List.mem_cons.mp h with rfl | h
    · have := varintLen_pos slice.length
      rw [length_putEntry_bytes]
      omega
    · exact (ih h).trans_le (Nat.le_add_left _ _)

end Mabel.Validate
