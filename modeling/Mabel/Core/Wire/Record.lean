import Mabel.Core.Wire.Varint
import Mathlib.Data.List.Basic

/-!
# Canonical records

A message is a sequence of records, each a key followed by a varint or by a length
and that many bytes. The canonical writer spells every record one way. The field
builders say which records a proto3 field contributes: none for a default value, one
for any other, and one for each entry of a repeated field.
-/

namespace Wire

/-- The value one record carries. -/
inductive Value where
  /-- Wire type 0. -/
  | varint (value : Nat)
  /-- Wire type 2. -/
  | bytes (slice : Bytes)
  deriving DecidableEq, Repr

/-- A field number and the value recorded under it. -/
abbrev Entry := Nat × Value

/-- The wire type a value is written with. -/
def Value.wire : Value → Nat
  | .varint _ => 0
  | .bytes _ => 2

/-- A record key: the field number over the wire type. -/
def putKey (number wire : Nat) : Bytes := putVarint (number <<< 3 ||| wire)

/-- A value behind its key. -/
def putValue : Value → Bytes
  | .varint value => putVarint value
  | .bytes slice => putVarint slice.length ++ slice

/-- One record. -/
def putEntry (e : Entry) : Bytes := putKey e.1 e.2.wire ++ putValue e.2

/-- A sequence of records. -/
def putEntries (es : List Entry) : Bytes := es.flatMap putEntry

@[simp] theorem putEntries_nil : putEntries [] = [] := rfl

@[simp] theorem putEntries_cons (e : Entry) (es : List Entry) :
    putEntries (e :: es) = putEntry e ++ putEntries es := rfl

@[simp] theorem putEntries_append (es fs : List Entry) :
    putEntries (es ++ fs) = putEntries es ++ putEntries fs := by
  simp [putEntries]

/-- The number written in a key is the field number above three wire bits. -/
theorem key_eq (number : Nat) {wire : Nat} (h : wire < 8) :
    number <<< 3 ||| wire = number * 8 + wire := by
  rw [← Nat.shiftLeft_add_eq_or_of_lt h, Nat.shiftLeft_eq]

/-- The key of a record gives back its field number. -/
theorem key_shift (number : Nat) {wire : Nat} (h : wire < 8) :
    (number <<< 3 ||| wire) >>> 3 = number := by
  rw [key_eq number h, Nat.shiftRight_eq_div_pow]
  omega

/-- The key of a record gives back its wire type. -/
theorem key_mask (number : Nat) {wire : Nat} (h : wire < 8) :
    (number <<< 3 ||| wire) &&& 7 = wire := by
  rw [key_eq number h]
  have hmask : (number * 8 + wire) &&& 7 = (number * 8 + wire) % 8 :=
    Nat.and_two_pow_sub_one_eq_mod _ 3
  omega

/-- A key is made of its field number and its wire type. -/
theorem key_split (key : Nat) : (key >>> 3) <<< 3 ||| key &&& 7 = key := by
  have hmask : key &&& 7 = key % 8 := Nat.and_two_pow_sub_one_eq_mod key 3
  rw [hmask, key_eq _ (Nat.mod_lt _ (by decide)), Nat.shiftRight_eq_div_pow]
  omega

theorem Value.wire_lt (v : Value) : v.wire < 8 := by
  cases v <;> simp [Value.wire]

/-- The value is one a 64-bit reader can return. -/
def Value.Fits : Value → Prop
  | .varint value => value < 2 ^ 64
  | .bytes slice => slice.length < 2 ^ 64

/-- The record's number and value are ones a reader can return. -/
def Fits (e : Entry) : Prop := 0 < e.1 ∧ e.1 < 2 ^ 29 ∧ e.2.Fits

/-- The key of a record that fits takes 32 bits. -/
theorem Fits.key_lt {e : Entry} (h : Fits e) : e.1 <<< 3 ||| e.2.wire < 2 ^ 32 := by
  rw [key_eq _ e.2.wire_lt]
  have := e.2.wire_lt
  have := h.2.1
  omega

@[simp] theorem putEntry_ne_nil (e : Entry) : putEntry e ≠ [] := by
  simp [putEntry, putKey]

/-- The size of a length-delimited record. -/
theorem length_putEntry_bytes (number : Nat) (slice : Bytes) :
    (putEntry (number, .bytes slice)).length =
      varintLen (number * 8 + 2) + (varintLen slice.length + slice.length) := by
  simp only [putEntry, putKey, Value.wire, putValue, List.length_append, length_putVarint]
  rw [key_eq number (by decide)]

/-- The size of a varint record. -/
theorem length_putEntry_varint (number value : Nat) :
    (putEntry (number, .varint value)).length = varintLen (number * 8) + varintLen value := by
  simp only [putEntry, putKey, Value.wire, putValue, List.length_append, length_putVarint]
  rw [key_eq number (by decide), Nat.add_zero]

/-! ## The records of a proto3 field -/

/-- A singular `bytes` or `string` field, omitted when empty. -/
def bytesField (number : Nat) (value : Bytes) : List Entry :=
  if value = [] then [] else [(number, .bytes value)]

/-- A singular varint field, omitted when zero. -/
def uintField (number value : Nat) : List Entry :=
  if value = 0 then [] else [(number, .varint value)]

/-- A submessage that is present, which is written even when it is empty. -/
def messageField (number : Nat) (body : Bytes) : List Entry := [(number, .bytes body)]

/-- A repeated length-delimited field, one record for each entry. -/
def repeatedField (number : Nat) (values : List Bytes) : List Entry :=
  values.map fun value => (number, .bytes value)

/-- The records of one field number. -/
def select (number : Nat) (es : List Entry) : List Entry :=
  es.filter fun e => decide (e.1 = number)

@[simp] theorem select_nil (number : Nat) : select number [] = [] := rfl

@[simp] theorem select_append (number : Nat) (es fs : List Entry) :
    select number (es ++ fs) = select number es ++ select number fs := by
  simp [select]

theorem select_eq_self {number : Nat} {es : List Entry} (h : ∀ e ∈ es, e.1 = number) :
    select number es = es := by
  simpa [select] using h

theorem select_eq_nil {number : Nat} {es : List Entry} (h : ∀ e ∈ es, e.1 ≠ number) :
    select number es = [] := by
  simpa [select] using h

theorem mem_select {number : Nat} {es : List Entry} {e : Entry} :
    e ∈ select number es ↔ e ∈ es ∧ e.1 = number := by
  simp [select]

/-- The records of the least number stand first in an ascending list. -/
private theorem select_append_filter {number : Nat} {es : List Entry}
    (hsorted : es.Pairwise fun a b => a.1 ≤ b.1) (hleast : ∀ e ∈ es, number ≤ e.1) :
    select number es ++ es.filter (fun e => decide (e.1 ≠ number)) = es := by
  induction es with
  | nil => rfl
  | cons e es ih =>
    obtain ⟨hle, hsorted⟩ := List.pairwise_cons.mp hsorted
    have hrest := ih hsorted fun x hx => hleast x (List.mem_cons_of_mem _ hx)
    by_cases he : e.1 = number
    · simp [select, he] at hrest ⊢
      exact hrest
    · have hlt : number < e.1 := lt_of_le_of_ne (hleast e (List.mem_cons_self ..)) (Ne.symm he)
      have hall : ∀ x ∈ e :: es, x.1 ≠ number := by
        intro x hx
        rcases List.mem_cons.mp hx with rfl | hx
        · exact he
        · exact (hlt.trans_le (hle x hx)).ne'
      rw [select_eq_nil hall, List.nil_append, List.filter_eq_self]
      simpa using hall

/-- An ascending list is the concatenation of its selections. -/
theorem flatMap_select {numbers : List Nat} (hasc : numbers.Pairwise (· < ·)) :
    ∀ {es : List Entry}, es.Pairwise (fun a b => a.1 ≤ b.1) → (∀ e ∈ es, e.1 ∈ numbers) →
      numbers.flatMap (fun number => select number es) = es := by
  induction numbers with
  | nil =>
    intro es _ hmem
    cases es with
    | nil => rfl
    | cons e es => simpa using hmem e (List.mem_cons_self ..)
  | cons n numbers ih =>
    intro es hsorted hmem
    obtain ⟨hlt, hasc⟩ := List.pairwise_cons.mp hasc
    have hleast : ∀ e ∈ es, n ≤ e.1 := by
      intro e he
      rcases List.mem_cons.mp (hmem e he) with h | h
      · exact h.ge
      · exact (hlt _ h).le
    have hrest := @ih hasc (es.filter fun e => decide (e.1 ≠ n)) (hsorted.filter _) (by
      intro e he
      obtain ⟨he, hne⟩ := List.mem_filter.mp he
      exact (List.mem_cons.mp (hmem e he)).resolve_left (of_decide_eq_true hne))
    have hsame : numbers.flatMap (fun m => select m (es.filter fun e => decide (e.1 ≠ n))) =
        numbers.flatMap (fun m => select m es) := by
      refine List.flatMap_congr fun m hm => ?_
      rw [select, List.filter_filter]
      refine List.filter_congr fun e _ => ?_
      by_cases hem : e.1 = m
      · simp [hem, (hlt m hm).ne']
      · simp [hem]
    rw [List.flatMap_cons, ← hsame, hrest, select_append_filter hsorted hleast]

/-- Every record of a field builder carries the field's number. -/
theorem number_bytesField {number : Nat} {value : Bytes} {e : Entry}
    (h : e ∈ bytesField number value) : e.1 = number := by
  simp only [bytesField] at h
  split_ifs at h <;> simp_all

/-- An integer field writes records of its own number. -/
theorem number_uintField {number value : Nat} {e : Entry}
    (h : e ∈ uintField number value) : e.1 = number := by
  simp only [uintField] at h
  split_ifs at h <;> simp_all

theorem number_messageField {number : Nat} {body : Bytes} {e : Entry}
    (h : e ∈ messageField number body) : e.1 = number := by
  simp_all [messageField]

/-- A repeated field writes records of its own number. -/
theorem number_repeatedField {number : Nat} {values : List Bytes} {e : Entry}
    (h : e ∈ repeatedField number values) : e.1 = number := by
  simp only [repeatedField, List.mem_map] at h
  obtain ⟨_, _, rfl⟩ := h
  rfl

@[simp] theorem select_bytesField (number n : Nat) (value : Bytes) :
    select number (bytesField n value) = if n = number then bytesField n value else [] := by
  split_ifs with h
  · exact select_eq_self fun e he => (number_bytesField he).trans h
  · exact select_eq_nil fun e he => (number_bytesField he).symm ▸ h

@[simp] theorem select_uintField (number n value : Nat) :
    select number (uintField n value) = if n = number then uintField n value else [] := by
  split_ifs with h
  · exact select_eq_self fun e he => (number_uintField he).trans h
  · exact select_eq_nil fun e he => (number_uintField he).symm ▸ h

@[simp] theorem select_messageField (number n : Nat) (body : Bytes) :
    select number (messageField n body) = if n = number then messageField n body else [] := by
  split_ifs with h
  · exact select_eq_self fun e he => (number_messageField he).trans h
  · exact select_eq_nil fun e he => (number_messageField he).symm ▸ h

@[simp] theorem select_repeatedField (number n : Nat) (values : List Bytes) :
    select number (repeatedField n values) = if n = number then repeatedField n values else [] := by
  split_ifs with h
  · exact select_eq_self fun e he => (number_repeatedField he).trans h
  · exact select_eq_nil fun e he => (number_repeatedField he).symm ▸ h

@[simp] theorem bytesField_nil (number : Nat) : bytesField number [] = [] := rfl

@[simp] theorem uintField_zero (number : Nat) : uintField number 0 = [] := rfl

theorem bytesField_of_ne {number : Nat} {value : Bytes} (h : value ≠ []) :
    bytesField number value = [(number, .bytes value)] := by
  simp [bytesField, h]

theorem uintField_of_ne {number value : Nat} (h : value ≠ 0) :
    uintField number value = [(number, .varint value)] := by
  simp [uintField, h]

/-- A bytes field writes no record but its value's. -/
theorem eq_of_mem_bytesField {number : Nat} {value : Bytes} {e : Entry}
    (h : e ∈ bytesField number value) : e = (number, .bytes value) := by
  rw [bytesField] at h
  split_ifs at h
  · simp at h
  · exact List.mem_singleton.mp h

/-! ## Sizes

A record spends at most twelve bytes on its key and its length. -/

/-- A record of a capped slice adds at most twelve bytes to it. -/
theorem length_putEntry_bytes_le {number cap : Nat} (hn : number < 2 ^ 10) (hcap : cap < 2 ^ 64)
    {slice : Bytes} (h : slice.length ≤ cap) :
    (putEntry (number, .bytes slice)).length ≤ cap + 12 := by
  have hkey : varintLen (number * 8 + 2) ≤ 2 := varintLen_le 1 _ (by omega)
  have hsize : varintLen slice.length ≤ 10 := varintLen_le 9 _ (by omega)
  rw [length_putEntry_bytes]
  omega

/-- A capped bytes field takes at most twelve bytes more than its cap. -/
theorem length_bytesField_le {number cap : Nat} (hn : number < 2 ^ 10) (hcap : cap < 2 ^ 64)
    {value : Bytes} (h : value.length ≤ cap) :
    (putEntries (bytesField number value)).length ≤ cap + 12 := by
  by_cases hvalue : value = []
  · simp [bytesField, hvalue]
  · simpa [bytesField, hvalue] using length_putEntry_bytes_le hn hcap h

/-- A capped message field takes at most twelve bytes more than its cap. -/
theorem length_messageField_le {number cap : Nat} (hn : number < 2 ^ 10) (hcap : cap < 2 ^ 64)
    {body : Bytes} (h : body.length ≤ cap) :
    (putEntries (messageField number body)).length ≤ cap + 12 := by
  simpa [messageField] using length_putEntry_bytes_le hn hcap h

/-- An integer field takes at most twelve bytes. -/
theorem length_uintField_le {number value : Nat} (hn : number < 2 ^ 10) (h : value < 2 ^ 64) :
    (putEntries (uintField number value)).length ≤ 12 := by
  have hkey : varintLen (number * 8) ≤ 2 := varintLen_le 1 _ (by omega)
  have hsize : varintLen value ≤ 10 := varintLen_le 9 _ (by omega)
  by_cases hvalue : value = 0
  · simp [uintField, hvalue]
  · simp only [uintField, hvalue, if_false, putEntries_cons, putEntries_nil, List.append_nil,
      length_putEntry_varint]
    omega

/-- A repeated field takes at most twelve bytes more than the cap for each value. -/
theorem length_repeatedField_le {number cap : Nat} (hn : number < 2 ^ 10) (hcap : cap < 2 ^ 64)
    {values : List Bytes} (h : ∀ value ∈ values, value.length ≤ cap) :
    (putEntries (repeatedField number values)).length ≤ values.length * (cap + 12) := by
  induction values with
  | nil => simp [repeatedField]
  | cons value values ih =>
    have hhead := length_putEntry_bytes_le hn hcap (h value (List.mem_cons_self ..))
    have htail := ih fun v hv => h v (List.mem_cons_of_mem _ hv)
    simp only [repeatedField, List.map_cons, putEntries_cons, List.length_append,
      List.length_cons] at htail ⊢
    rw [Nat.add_mul]
    omega

/-! ## Reading from the front

No record's spelling is the beginning of another's, so a string has at most one reading. -/

/-- The encoding of a record tells where the record ends. -/
theorem putEntry_append_inj {e f : Entry} {x y : Bytes} (h : putEntry e ++ x = putEntry f ++ y) :
    e = f ∧ x = y := by
  obtain ⟨n, v⟩ := e
  obtain ⟨m, w⟩ := f
  simp only [putEntry, putKey, List.append_assoc] at h
  obtain ⟨hkey, hvalue⟩ := putVarint_append_inj _ _ _ _ h
  rw [key_eq n v.wire_lt, key_eq m w.wire_lt] at hkey
  have hv := v.wire_lt
  have hw := w.wire_lt
  have hwire : v.wire = w.wire := by omega
  obtain rfl : n = m := by omega
  cases v with
  | varint a =>
    cases w with
    | varint b =>
      obtain ⟨rfl, rfl⟩ := putVarint_append_inj _ _ _ _ hvalue
      exact ⟨rfl, rfl⟩
    | bytes s => simp [Value.wire] at hwire
  | bytes s =>
    cases w with
    | varint b => simp [Value.wire] at hwire
    | bytes t =>
      simp only [putValue, List.append_assoc] at hvalue
      obtain ⟨hlen, hrest⟩ := putVarint_append_inj _ _ _ _ hvalue
      obtain ⟨rfl, rfl⟩ := List.append_inj hrest hlen
      exact ⟨rfl, rfl⟩

/-- Records read off the front of a spelled list are the first of the list. -/
theorem putEntries_append_eq {es : List Entry} : ∀ {fs : List Entry} {x : Bytes},
    putEntries es ++ x = putEntries fs → ∃ gs, fs = es ++ gs ∧ x = putEntries gs := by
  induction es with
  | nil =>
    intro fs x h
    exact ⟨fs, rfl, h⟩
  | cons e es ih =>
    intro fs x h
    rw [putEntries_cons, List.append_assoc] at h
    cases fs with
    | nil => simp at h
    | cons f fs =>
      rw [putEntries_cons] at h
      obtain ⟨rfl, hrest⟩ := putEntry_append_inj h
      obtain ⟨gs, rfl, hx⟩ := ih hrest
      exact ⟨gs, rfl, hx⟩

/-- Records are read back from their encoding, whatever they are. -/
theorem putEntries_injective : Function.Injective putEntries := by
  intro es fs h
  obtain ⟨gs, rfl, hgs⟩ := putEntries_append_eq ((List.append_nil _).trans h)
  cases gs with
  | nil => exact (List.append_nil es).symm
  | cons g gs => simp at hgs

/-- A string starts with records among which one carries a slice under a number. -/
def Carries (bytes : Bytes) (number : Nat) (slice : Bytes) : Prop :=
  ∃ es rest, bytes = putEntries es ++ (putEntry (number, .bytes slice) ++ rest)

/-- A slice that is carried is shorter than what carries it. -/
theorem Carries.length_lt {bytes slice : Bytes} {number : Nat} (h : Carries bytes number slice) :
    slice.length < bytes.length := by
  obtain ⟨es, rest, rfl⟩ := h
  have := varintLen_pos slice.length
  rw [List.length_append, List.length_append, length_putEntry_bytes]
  omega

/-- The slices that encoded records carry are those of their bytes records. -/
theorem carries_putEntries {es : List Entry} {number : Nat} {slice : Bytes} :
    Carries (putEntries es) number slice ↔ (number, .bytes slice) ∈ es := by
  constructor
  · rintro ⟨front, rest, h⟩
    rw [← List.append_assoc, show putEntries front ++ putEntry (number, .bytes slice) =
      putEntries (front ++ [(number, .bytes slice)]) by simp] at h
    obtain ⟨gs, rfl, -⟩ := putEntries_append_eq h.symm
    simp
  · intro h
    obtain ⟨front, back, rfl⟩ := List.append_of_mem h
    exact ⟨front, putEntries back, by simp⟩

end Wire
