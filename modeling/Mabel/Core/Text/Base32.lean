import Mabel.Core.Wire.Varint

/-!
# RFC 4648 base32 without padding

Bytes are read as one big-endian number, shifted up to a whole number of five-bit
symbols. Decoding is strict: a symbol outside the uppercase alphabet, a length that no
byte string has and trailing bits that are not zero are all refused.
-/

namespace Base32

open Wire

/-- The symbol of a five-bit group. -/
def symbol (digit : Nat) : Char :=
  if digit < 26 then Char.ofNat (65 + digit) else Char.ofNat (50 + (digit - 26))

/-- The five-bit group of an uppercase symbol. -/
def digit? (c : Char) : Option Nat :=
  if 'A' ≤ c ∧ c ≤ 'Z' then some (c.toNat - 65)
  else if '2' ≤ c ∧ c ≤ '7' then some (c.toNat - 50 + 26)
  else none

/-- A big-endian number in the given base. -/
def ofDigits (base : Nat) (digits : List Nat) : Nat :=
  digits.foldl (fun value digit => value * base + digit) 0

/-- The big-endian digits of a number, at a fixed width. -/
def toDigits (base : Nat) : Nat → Nat → List Nat
  | 0, _ => []
  | width + 1, value => toDigits base width (value / base) ++ [value % base]

/-- The uppercase text of a byte string. -/
def encode (bytes : Bytes) : String :=
  let symbols := (8 * bytes.length + 4) / 5
  let value := ofDigits 256 (bytes.map UInt8.toNat) <<< (5 * symbols - 8 * bytes.length)
  String.ofList ((toDigits 32 symbols value).map symbol)

/-- The bytes an uppercase text spells. -/
def decode (text : String) : Option Bytes := do
  let digits ← text.toList.mapM digit?
  let trailing := 5 * digits.length % 8
  let value := ofDigits 32 digits
  if trailing ≥ 5 ∨ value % 2 ^ trailing ≠ 0 then none
  else some ((toDigits 256 (5 * digits.length / 8) (value >>> trailing)).map UInt8.ofNat)

/-! ## Digits -/

theorem ofDigits_append (base : Nat) (digits : List Nat) (last : Nat) :
    ofDigits base (digits ++ [last]) = ofDigits base digits * base + last := by
  simp [ofDigits, List.foldl_append]

@[simp] theorem length_toDigits (base width value : Nat) :
    (toDigits base width value).length = width := by
  induction width generalizing value with
  | zero => rfl
  | succ width ih => simp [toDigits, ih]

/-- Digits are below their base. -/
theorem toDigits_lt {base : Nat} (hbase : 0 < base) (width value : Nat) :
    ∀ digit ∈ toDigits base width value, digit < base := by
  induction width generalizing value with
  | zero => simp [toDigits]
  | succ width ih =>
    intro digit hdigit
    rw [toDigits, List.mem_append, List.mem_singleton] at hdigit
    rcases hdigit with hdigit | rfl
    · exact ih _ digit hdigit
    · exact Nat.mod_lt _ hbase

/-- A number of so many digits is below that power of the base. -/
theorem ofDigits_lt {base : Nat} (digits : List Nat) (h : ∀ digit ∈ digits, digit < base) :
    ofDigits base digits < base ^ digits.length := by
  induction digits using List.reverseRecOn with
  | nil => simp [ofDigits]
  | append_singleton digits last ih =>
    have hlast : last < base := h last (by simp)
    have hrest : ofDigits base digits < base ^ digits.length :=
      ih fun digit hdigit => h digit (List.mem_append_left _ hdigit)
    rw [ofDigits_append, List.length_append, List.length_singleton, pow_succ]
    calc ofDigits base digits * base + last
        < ofDigits base digits * base + base := Nat.add_lt_add_left hlast _
      _ = (ofDigits base digits + 1) * base := (Nat.succ_mul _ _).symm
      _ ≤ base ^ digits.length * base := Nat.mul_le_mul_right _ hrest

/-- A number that fits a width is the number its digits spell. -/
theorem ofDigits_toDigits {base width value : Nat} (h : value < base ^ width) :
    ofDigits base (toDigits base width value) = value := by
  induction width generalizing value with
  | zero =>
    have : value = 0 := by simpa using h
    simp [toDigits, ofDigits, this]
  | succ width ih =>
    have hbase : 0 < base := by
      by_contra hzero
      simp [Nat.eq_zero_of_not_pos hzero] at h
    have hquotient : value / base < base ^ width := by
      rw [Nat.div_lt_iff_lt_mul hbase, ← pow_succ]
      exact h
    rw [toDigits, ofDigits_append, ih hquotient]
    exact Nat.div_add_mod' value base

/-- Digits are those of the number they spell. -/
theorem toDigits_ofDigits {base : Nat} (digits : List Nat) (h : ∀ digit ∈ digits, digit < base) :
    toDigits base digits.length (ofDigits base digits) = digits := by
  induction digits using List.reverseRecOn with
  | nil => rfl
  | append_singleton digits last ih =>
    have hlast : last < base := h last (by simp)
    have hquotient : (ofDigits base digits * base + last) / base = ofDigits base digits := by
      rw [Nat.mul_comm, Nat.mul_add_div (by omega), Nat.div_eq_of_lt hlast, Nat.add_zero]
    have hremainder : (ofDigits base digits * base + last) % base = last := by
      rw [Nat.mul_comm, Nat.mul_add_mod, Nat.mod_eq_of_lt hlast]
    rw [List.length_append, List.length_singleton, toDigits, ofDigits_append, hquotient,
      hremainder, ih fun digit hdigit => h digit (List.mem_append_left _ hdigit)]

/-! ## Symbols -/

theorem digit?_symbol {digit : Nat} (h : digit < 32) : digit? (symbol digit) = some digit := by
  have hall : ∀ d : Fin 32, digit? (symbol d) = some d.val := by decide
  exact hall ⟨digit, h⟩

/-- What is read as a digit is the symbol of it. -/
theorem digit?_eq_some {c : Char} {digit : Nat} (h : digit? c = some digit) :
    digit < 32 ∧ symbol digit = c := by
  rw [digit?] at h
  split_ifs at h with hletter hnumber
  · obtain rfl := Option.some.inj h
    have hlow : 65 ≤ c.toNat := hletter.1
    have hhigh : c.toNat ≤ 90 := hletter.2
    refine ⟨by omega, ?_⟩
    rw [symbol, if_pos (by omega), Nat.add_sub_cancel' hlow, Char.ofNat_toNat]
  · obtain rfl := Option.some.inj h
    have hlow : 50 ≤ c.toNat := hnumber.1
    have hhigh : c.toNat ≤ 55 := hnumber.2
    refine ⟨by omega, ?_⟩
    rw [symbol, if_neg (by omega), Nat.add_sub_cancel, Nat.add_sub_cancel' hlow, Char.ofNat_toNat]

/-- Symbols are read as their digits. -/
theorem mapM_digit?_symbol (digits : List Nat) (h : ∀ digit ∈ digits, digit < 32) :
    (digits.map symbol).mapM digit? = some digits := by
  induction digits with
  | nil => rfl
  | cons digit digits ih =>
    rw [List.map_cons, List.mapM_cons, digit?_symbol (h digit (by simp)),
      ih fun d hd => h d (List.mem_cons_of_mem _ hd)]
    rfl

/-- What is read as digits are the symbols of them. -/
theorem mapM_digit?_eq_some {symbols : List Char} {digits : List Nat}
    (h : symbols.mapM digit? = some digits) :
    (∀ digit ∈ digits, digit < 32) ∧ digits.map symbol = symbols := by
  induction symbols generalizing digits with
  | nil =>
    obtain rfl : [] = digits := by simpa using h
    simp
  | cons c symbols ih =>
    rw [List.mapM_cons] at h
    obtain ⟨digit, hdigit, h⟩ := Option.bind_eq_some_iff.mp h
    obtain ⟨rest, hrest, h⟩ := Option.bind_eq_some_iff.mp h
    obtain rfl : digit :: rest = digits := Option.some.inj h
    obtain ⟨hlt, hsymbol⟩ := digit?_eq_some hdigit
    obtain ⟨hall, hmap⟩ := ih hrest
    exact ⟨List.forall_mem_cons.mpr ⟨hlt, hall⟩, by rw [List.map_cons, hsymbol, hmap]⟩

/-! ## The two directions -/

/-- The bytes of a number at a fixed width. -/
theorem toNat_toDigits (width value : Nat) :
    ((toDigits 256 width value).map UInt8.ofNat).map UInt8.toNat = toDigits 256 width value := by
  rw [List.map_map]
  refine (List.map_congr_left fun digit hdigit => ?_).trans (List.map_id _)
  have hlt := toDigits_lt (by decide) width value digit hdigit
  simp [Nat.mod_eq_of_lt hlt]

theorem ofNat_toNat (bytes : Bytes) : (bytes.map UInt8.toNat).map UInt8.ofNat = bytes := by
  rw [List.map_map]
  exact (List.map_congr_left fun byte _ => by simp).trans (List.map_id _)

/-- The digits of bytes are below 256. -/
theorem toNat_lt (bytes : Bytes) : ∀ digit ∈ bytes.map UInt8.toNat, digit < 256 := by
  intro digit hdigit
  obtain ⟨byte, -, rfl⟩ := List.mem_map.mp hdigit
  exact byte.toNat_lt

/-- The digits a byte string is spelled with. -/
def digitsOf (bytes : Bytes) : List Nat :=
  let symbols := (8 * bytes.length + 4) / 5
  toDigits 32 symbols
    (ofDigits 256 (bytes.map UInt8.toNat) <<< (5 * symbols - 8 * bytes.length))

theorem toList_encode (bytes : Bytes) : (encode bytes).toList = (digitsOf bytes).map symbol := by
  simp [encode, digitsOf]

theorem length_encode (bytes : Bytes) :
    (encode bytes).toList.length = (8 * bytes.length + 4) / 5 := by
  simp [toList_encode, digitsOf]

theorem digitsOf_lt (bytes : Bytes) : ∀ digit ∈ digitsOf bytes, digit < 32 :=
  toDigits_lt (by decide) _ _

/-- The digits of an encoding spell the bytes, shifted past the bits that pad them. -/
theorem ofDigits_digitsOf (bytes : Bytes) : ofDigits 32 (digitsOf bytes) =
    ofDigits 256 (bytes.map UInt8.toNat) * 2 ^ (5 * ((8 * bytes.length + 4) / 5) - 8 * bytes.length) := by
  have hvalue := ofDigits_lt _ (toNat_lt bytes)
  rw [List.length_map, show 256 = 2 ^ 8 from rfl, ← pow_mul] at hvalue
  rw [digitsOf, Nat.shiftLeft_eq]
  refine ofDigits_toDigits ?_
  rw [show 32 = 2 ^ 5 from rfl, ← pow_mul]
  calc ofDigits 256 (bytes.map UInt8.toNat) *
        2 ^ (5 * ((8 * bytes.length + 4) / 5) - 8 * bytes.length)
      < 2 ^ (8 * bytes.length) * 2 ^ (5 * ((8 * bytes.length + 4) / 5) - 8 * bytes.length) :=
        Nat.mul_lt_mul_of_pos_right hvalue (by positivity)
    _ = 2 ^ (5 * ((8 * bytes.length + 4) / 5)) := by
        rw [← pow_add]
        congr 1
        omega

/-- Bytes come back from their encoding. -/
theorem decode_encode (bytes : Bytes) : decode (encode bytes) = some bytes := by
  have hlength : (digitsOf bytes).length = (8 * bytes.length + 4) / 5 := by simp [digitsOf]
  have htrailing : 5 * ((8 * bytes.length + 4) / 5) % 8 =
      5 * ((8 * bytes.length + 4) / 5) - 8 * bytes.length := by omega
  have hwidth : 5 * ((8 * bytes.length + 4) / 5) / 8 = bytes.length := by omega
  rw [decode, toList_encode, mapM_digit?_symbol _ (digitsOf_lt bytes)]
  simp only [Option.bind_eq_bind, Option.bind_some, hlength, htrailing, hwidth, ofDigits_digitsOf,
    Nat.shiftRight_eq_div_pow]
  rw [if_neg, Nat.mul_div_cancel _ (by positivity), Option.some.injEq]
  · have hbytes := toDigits_ofDigits _ (toNat_lt bytes)
    rw [List.length_map] at hbytes
    rw [hbytes, ofNat_toNat]
  · rw [Nat.mul_mod_left]
    omega

/-- What decodes is the text of what it decodes to. -/
theorem encode_of_decode {text : String} {bytes : Bytes} (h : decode text = some bytes) :
    encode bytes = text := by
  rw [decode] at h
  obtain ⟨digits, hdigits, h⟩ := Option.bind_eq_some_iff.mp h
  obtain ⟨hlt, hsymbols⟩ := mapM_digit?_eq_some hdigits
  dsimp only at h
  split_ifs at h with hrefused
  obtain ⟨hfew, hzero⟩ := not_or.mp hrefused
  obtain rfl := Option.some.inj h
  have hlength : (digitsOf ((toDigits 256 (5 * digits.length / 8)
      (ofDigits 32 digits >>> (5 * digits.length % 8))).map UInt8.ofNat)) = digits := by
    have hsymbolCount : (8 * (5 * digits.length / 8) + 4) / 5 = digits.length := by omega
    have hshift : 5 * digits.length - 8 * (5 * digits.length / 8) = 5 * digits.length % 8 := by
      omega
    have hvalue := ofDigits_lt digits hlt
    have hfits : ofDigits 32 digits >>> (5 * digits.length % 8) <
        256 ^ (5 * digits.length / 8) := by
      rw [Nat.shiftRight_eq_div_pow, Nat.div_lt_iff_lt_mul (by positivity),
        show 256 = 2 ^ 8 from rfl, ← pow_mul, ← pow_add, Nat.div_add_mod]
      rwa [show 32 = 2 ^ 5 from rfl, ← pow_mul] at hvalue
    have hback : (ofDigits 32 digits >>> (5 * digits.length % 8)) <<< (5 * digits.length % 8) =
        ofDigits 32 digits := by
      rw [Nat.shiftRight_eq_div_pow, Nat.shiftLeft_eq]
      exact Nat.div_mul_cancel (Nat.dvd_of_mod_eq_zero (not_not.mp hzero))
    rw [digitsOf, toNat_toDigits, ofDigits_toDigits hfits]
    simp only [List.length_map, length_toDigits, hsymbolCount, hshift, hback]
    exact toDigits_ofDigits digits hlt
  apply String.ext
  rw [toList_encode, hlength, hsymbols]

end Base32
