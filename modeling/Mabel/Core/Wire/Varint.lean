import Mathlib.Algebra.Order.Ring.Nat
import Mathlib.Tactic.Common
import Mathlib.Tactic.Positivity
import Mathlib.Tactic.Ring

/-!
# Canonical base-128 varints

The writer emits seven payload bits a byte, least significant group first, with the
continuation bit on every byte but the last. The strict reader refuses padding and
values of more than 64 bits. The two are exact inverses: the reader accepts precisely
the writer's output, and stops where it ends.
-/

namespace Wire

/-- A byte string. -/
abbrev Bytes := List UInt8

/-- Why a varint was refused. -/
inductive VarintError where
  /-- The input ended inside the varint. -/
  | truncated
  /-- The value needs more than 64 bits. -/
  | overflow
  /-- The last group is padding. -/
  | nonMinimal
  deriving DecidableEq, Repr

/-- Write the shortest form of a value. -/
def putVarint (value : Nat) : Bytes :=
  if value < 0x80 then [UInt8.ofNat value]
  else (UInt8.ofNat value ||| 0x80) :: putVarint (value >>> 7)
termination_by value
decreasing_by
  rw [Nat.shiftRight_eq_div_pow]
  omega

/-- Read groups into an accumulator from a bit position on. -/
def readVarintFrom (value shift : Nat) : Bytes → Except VarintError (Nat × Bytes)
  | [] => .error .truncated
  | byte :: rest =>
    let payload := (byte &&& 0x7f).toNat
    if shift = 63 ∧ payload > 1 then .error .overflow
    else
      let value := value ||| payload <<< shift
      if byte &&& 0x80 = 0 then
        if payload = 0 ∧ shift > 0 then .error .nonMinimal else .ok (value, rest)
      else if shift + 7 > 63 then .error .overflow
      else readVarintFrom value (shift + 7) rest

/-- Read one varint off the front of the input. -/
def readVarint (bytes : Bytes) : Except VarintError (Nat × Bytes) := readVarintFrom 0 0 bytes

/-- The number of bytes the shortest form takes. -/
def varintLen (value : Nat) : Nat :=
  if value < 0x80 then 1 else varintLen (value >>> 7) + 1
termination_by value
decreasing_by
  rw [Nat.shiftRight_eq_div_pow]
  omega

theorem putVarint_of_lt {v : Nat} (h : v < 128) : putVarint v = [UInt8.ofNat v] := by
  rw [putVarint, if_pos h]

theorem putVarint_of_ge {v : Nat} (h : 128 ≤ v) :
    putVarint v = (UInt8.ofNat v ||| 0x80) :: putVarint (v / 128) := by
  rw [putVarint, if_neg (by omega), Nat.shiftRight_eq_div_pow]

@[simp] theorem putVarint_ne_nil (v : Nat) : putVarint v ≠ [] := by
  rw [putVarint]
  split <;> simp

/-- The announced length is the length written. -/
theorem length_putVarint (v : Nat) : (putVarint v).length = varintLen v := by
  induction v using Nat.strongRecOn with
  | ind v ih =>
    rw [putVarint, varintLen]
    split
    · rfl
    · rw [List.length_cons, ih _ (by rw [Nat.shiftRight_eq_div_pow]; omega)]

theorem varintLen_pos (v : Nat) : 0 < varintLen v := by
  rw [varintLen]
  split <;> omega

theorem varintLen_of_lt {v : Nat} (h : v < 128) : varintLen v = 1 := by
  rw [varintLen, if_pos h]

theorem varintLen_of_ge {v : Nat} (h : 128 ≤ v) : varintLen v = varintLen (v / 128) + 1 := by
  rw [varintLen, if_neg (by omega), Nat.shiftRight_eq_div_pow]

/-- A value of `7 * k` bits takes at most `k` bytes. -/
theorem varintLen_le (k : Nat) : ∀ v, v < 128 ^ (k + 1) → varintLen v ≤ k + 1 := by
  induction k with
  | zero =>
    intro v h
    exact (varintLen_of_lt (by omega)).le
  | succ k ih =>
    intro v h
    by_cases hv : v < 128
    · rw [varintLen_of_lt hv]
      omega
    · rw [varintLen_of_ge (by omega)]
      have := ih (v / 128) (by
        rw [Nat.div_lt_iff_lt_mul (by decide)]
        rw [Nat.pow_succ 128 (k + 1)] at h
        exact h)
      omega

private theorem toNat_low (b : UInt8) : (b &&& 0x7f).toNat = b.toNat % 128 := by
  rw [UInt8.toNat_and]
  exact Nat.and_two_pow_sub_one_eq_mod b.toNat 7

/-- The last byte of a varint is below 128. -/
private theorem high_eq_zero (b : UInt8) : b &&& 0x80 = 0 ↔ b.toNat < 128 := by
  have h : ∀ n : Fin 256, n.val &&& 128 = 0 ↔ n.val < 128 := by decide +kernel
  rw [← UInt8.toNat_inj, UInt8.toNat_and]
  exact h ⟨b.toNat, b.toNat_lt⟩

/-- A byte that is continued carries its payload and the high bit. -/
private theorem toNat_continued (v : Nat) :
    (UInt8.ofNat v ||| 0x80).toNat = v % 128 + 128 := by
  have h : ∀ n : Fin 256, n.val ||| 128 = n.val % 128 + 128 := by decide +kernel
  rw [UInt8.toNat_or, UInt8.toNat_ofNat']
  exact (h ⟨v % 2 ^ 8, Nat.mod_lt _ (by decide)⟩).trans (by simp only; omega)

private theorem accumulate {value shift payload : Nat} (h : value < 2 ^ shift) :
    value ||| payload <<< shift = value + payload * 2 ^ shift := by
  rw [Nat.or_comm, ← Nat.shiftLeft_add_eq_or_of_lt h, Nat.shiftLeft_eq, Nat.add_comm]

/-- The accumulator after one group stays below the next bit position. -/
private theorem accumulate_lt {value shift payload : Nat} (h : value < 2 ^ shift)
    (hp : payload < 128) : value + payload * 2 ^ shift < 2 ^ (shift + 7) := by
  calc value + payload * 2 ^ shift < 2 ^ shift + payload * 2 ^ shift := by omega
    _ = (payload + 1) * 2 ^ shift := by ring
    _ ≤ 128 * 2 ^ shift := Nat.mul_le_mul_right _ (by omega)
    _ = 2 ^ (shift + 7) := by rw [Nat.pow_add]; ring

/-- What is left of a varint is read back above the bits read so far. -/
private theorem readVarintFrom_putVarint (u : Nat) : ∀ (value k : Nat) (rest : Bytes),
    k ≤ 9 → value < 2 ^ (7 * k) → u * 2 ^ (7 * k) < 2 ^ 64 → (u = 0 → k = 0) →
    readVarintFrom value (7 * k) (putVarint u ++ rest) = .ok (value + u * 2 ^ (7 * k), rest) := by
  -- Each group moves seven bits of `u` into the accumulator and `k` one step up.
  induction u using Nat.strongRecOn with
  | ind u ih =>
    intro value k rest hk hv hu h0
    have hu1 : k = 9 → u < 2 := by
      rintro rfl
      omega
    by_cases hlast : u < 128
    · have hb : (UInt8.ofNat u).toNat = u := by rw [UInt8.toNat_ofNat']; omega
      have hlow : (UInt8.ofNat u &&& 0x7f).toNat = u := by rw [toNat_low, hb]; omega
      rw [putVarint_of_lt hlast]
      simp only [List.cons_append, List.nil_append, readVarintFrom, hlow]
      rw [if_neg (by rintro ⟨h1, h2⟩; have := hu1 (by omega); omega),
        if_pos ((high_eq_zero _).mpr (by omega)),
        if_neg (by rintro ⟨h1, h2⟩; have := h0 h1; omega), accumulate hv]
    · have hk8 : k ≤ 8 := by
        by_contra hk9
        have := hu1 (by omega)
        omega
      have hlow : ((UInt8.ofNat u ||| 0x80) &&& 0x7f).toNat = u % 128 := by
        rw [toNat_low, toNat_continued]
        omega
      have hstep : u / 128 * 2 ^ (7 * (k + 1)) + u % 128 * 2 ^ (7 * k) = u * 2 ^ (7 * k) := by
        rw [show 7 * (k + 1) = 7 * k + 7 by omega, Nat.pow_add]
        have hdm := Nat.div_add_mod u 128
        calc u / 128 * (2 ^ (7 * k) * 2 ^ 7) + u % 128 * 2 ^ (7 * k)
            = (128 * (u / 128) + u % 128) * 2 ^ (7 * k) := by ring
          _ = u * 2 ^ (7 * k) := by rw [hdm]
      have hacc : value + u % 128 * 2 ^ (7 * k) < 2 ^ (7 * (k + 1)) :=
        accumulate_lt hv (Nat.mod_lt _ (by decide))
      rw [putVarint_of_ge (by omega)]
      simp only [List.cons_append, readVarintFrom, hlow]
      rw [if_neg (by omega),
        if_neg (by rw [high_eq_zero, toNat_continued]; omega), if_neg (by omega),
        accumulate hv, show 7 * k + 7 = 7 * (k + 1) by omega,
        ih (u / 128) (by omega) _ (k + 1) rest (by omega) hacc (by omega) (by omega),
        Nat.add_assoc, Nat.add_comm (u % 128 * _), hstep]

/-- What is read above some bits is the varint of a value that fits there. -/
private theorem readVarintFrom_sound (bytes : Bytes) : ∀ (value k v : Nat) (rest : Bytes),
    k ≤ 9 → value < 2 ^ (7 * k) → readVarintFrom value (7 * k) bytes = .ok (v, rest) →
    ∃ u, v = value + u * 2 ^ (7 * k) ∧ bytes = putVarint u ++ rest ∧ (u = 0 → k = 0) ∧
      u * 2 ^ (7 * k) < 2 ^ 64 := by
  induction bytes with
  | nil =>
    intro value k v rest _ _ h
    simp [readVarintFrom] at h
  | cons byte bytes ih =>
    intro value k v rest hk hv h
    simp only [readVarintFrom, toNat_low, accumulate hv] at h
    have hbyte := byte.toNat_lt
    split_ifs at h with hover hlast hpad hwide
    · simp only [Except.ok.injEq, Prod.mk.injEq] at h
      obtain ⟨rfl, rfl⟩ := h
      rw [high_eq_zero] at hlast
      have hmod : byte.toNat % 128 = byte.toNat := Nat.mod_eq_of_lt hlast
      rw [hmod] at hover hpad
      refine ⟨byte.toNat, by rw [hmod], ?_, by omega, ?_⟩
      · rw [putVarint_of_lt hlast]
        simp
      · by_cases hk9 : k = 9
        · subst hk9
          have : byte.toNat ≤ 1 := by omega
          omega
        · calc byte.toNat * 2 ^ (7 * k) ≤ byte.toNat * 2 ^ 56 :=
                Nat.mul_le_mul_left _ (Nat.pow_le_pow_right (by decide) (by omega))
            _ < 2 ^ 64 := by omega
    · have hk9 : k + 1 ≤ 9 := by omega
      rw [show 7 * k + 7 = 7 * (k + 1) by omega] at h
      have hacc : value + byte.toNat % 128 * 2 ^ (7 * k) < 2 ^ (7 * (k + 1)) :=
        accumulate_lt hv (Nat.mod_lt _ (by decide))
      obtain ⟨u, hvu, hbytes, hu0, hu⟩ := ih _ (k + 1) v rest hk9 hacc h
      rw [high_eq_zero] at hlast
      have hpow : 2 ^ (7 * (k + 1)) = 128 * 2 ^ (7 * k) := by
        rw [show 7 * (k + 1) = 7 + 7 * k by omega, Nat.pow_add]
      have hval : (128 * u + byte.toNat % 128) * 2 ^ (7 * k) =
          byte.toNat % 128 * 2 ^ (7 * k) + u * 2 ^ (7 * (k + 1)) := by
        rw [hpow]
        ring
      have hne : u ≠ 0 := fun h => by have := hu0 h; omega
      refine ⟨128 * u + byte.toNat % 128, ?_, ?_, by omega, ?_⟩
      · rw [hvu, hval, Nat.add_assoc]
      · rw [putVarint_of_ge (by omega), hbytes,
          show (128 * u + byte.toNat % 128) / 128 = u by omega, List.cons_append]
        congr 1
        apply UInt8.toNat_inj.mp
        rw [toNat_continued]
        omega
      · have hlt : 128 * u + byte.toNat % 128 < 128 * (u + 1) := by omega
        -- `u` fits below the next group, so the low group cannot carry past 64 bits.
        have hdiv : u < 2 ^ (64 - 7 * (k + 1)) := by
          have hsplit : 2 ^ 64 = 2 ^ (64 - 7 * (k + 1)) * 2 ^ (7 * (k + 1)) := by
            rw [← Nat.pow_add]
            congr 1
            omega
          rw [hsplit] at hu
          exact lt_of_mul_lt_mul_right hu (Nat.zero_le _)
        calc (128 * u + byte.toNat % 128) * 2 ^ (7 * k)
            < 128 * (u + 1) * 2 ^ (7 * k) := Nat.mul_lt_mul_of_pos_right hlt (by positivity)
          _ = (u + 1) * 2 ^ (7 * (k + 1)) := by rw [hpow]; ring
          _ ≤ 2 ^ (64 - 7 * (k + 1)) * 2 ^ (7 * (k + 1)) :=
              Nat.mul_le_mul_right _ hdiv
          _ = 2 ^ 64 := by rw [← Nat.pow_add]; congr 1; omega

/-- The reader returns what was written and stops exactly behind it. -/
theorem readVarint_putVarint {v : Nat} (h : v < 2 ^ 64) (rest : Bytes) :
    readVarint (putVarint v ++ rest) = .ok (v, rest) := by
  have := readVarintFrom_putVarint v 0 0 rest (by decide) (by decide) (by omega) (by omega)
  simpa [readVarint] using this

/-- The reader accepts nothing but the shortest form of a 64-bit value. -/
theorem readVarint_sound {bytes rest : Bytes} {v : Nat}
    (h : readVarint bytes = .ok (v, rest)) : v < 2 ^ 64 ∧ bytes = putVarint v ++ rest := by
  obtain ⟨u, hv, hbytes, _, hu⟩ :=
    readVarintFrom_sound bytes 0 0 v rest (by decide) (by decide) h
  obtain rfl : v = u := by omega
  exact ⟨by omega, hbytes⟩

/-- No shortest form is the beginning of another: what follows two equal strings of them is
equal. -/
theorem putVarint_append_inj (u : Nat) : ∀ (v : Nat) (x y : Bytes),
    putVarint u ++ x = putVarint v ++ y → u = v ∧ x = y := by
  induction u using Nat.strongRecOn with
  | ind u ih =>
    intro v x y h
    by_cases hu : u < 128 <;> by_cases hv : v < 128
    · rw [putVarint_of_lt hu, putVarint_of_lt hv] at h
      obtain ⟨hbyte, hrest⟩ := List.cons.inj h
      have := congrArg UInt8.toNat hbyte
      rw [UInt8.toNat_ofNat', UInt8.toNat_ofNat'] at this
      exact ⟨by omega, hrest⟩
    · rw [putVarint_of_lt hu, putVarint_of_ge (not_lt.mp hv)] at h
      have := congrArg UInt8.toNat (List.cons.inj h).1
      rw [UInt8.toNat_ofNat', toNat_continued] at this
      omega
    · rw [putVarint_of_ge (not_lt.mp hu), putVarint_of_lt hv] at h
      have := congrArg UInt8.toNat (List.cons.inj h).1
      rw [UInt8.toNat_ofNat', toNat_continued] at this
      omega
    · rw [putVarint_of_ge (not_lt.mp hu), putVarint_of_ge (not_lt.mp hv)] at h
      obtain ⟨hbyte, hrest⟩ := List.cons.inj h
      have hlow := congrArg UInt8.toNat hbyte
      rw [toNat_continued, toNat_continued] at hlow
      obtain ⟨hhigh, hrest⟩ := ih (u / 128) (by omega) (v / 128) x y hrest
      exact ⟨by omega, hrest⟩

/-! ## Groups -/

/-- Whether a group is followed by another. -/
def continued (byte : UInt8) : Bool := byte &&& 0x80 ≠ 0

theorem continued_iff {byte : UInt8} : continued byte = true ↔ 128 ≤ byte.toNat := by
  rw [continued, decide_eq_true_eq, Ne, high_eq_zero, Nat.not_lt]

/-- The shortest form is continued groups and a last one, which is zero only when it is alone. -/
theorem putVarint_groups (v : Nat) : ∃ head last, putVarint v = head ++ [last] ∧
    (∀ byte ∈ head, continued byte) ∧ continued last = false ∧ (last = 0 → head = []) := by
  induction v using Nat.strongRecOn with
  | ind v ih =>
    by_cases hv : v < 128
    · refine ⟨[], UInt8.ofNat v, putVarint_of_lt hv, by simp, ?_, fun _ => rfl⟩
      rw [← Bool.not_eq_true, continued_iff, UInt8.toNat_ofNat']
      omega
    · obtain ⟨head, last, hgroups, hhead, hlast, hzero⟩ := ih (v / 128) (by omega)
      refine ⟨(UInt8.ofNat v ||| 0x80) :: head, last, ?_, ?_, hlast, ?_⟩
      · rw [putVarint_of_ge (by omega), hgroups, List.cons_append]
      · intro byte hbyte
        cases hbyte with
        | head =>
          rw [continued_iff, toNat_continued]
          omega
        | tail _ hbyte => exact hhead byte hbyte
      · rintro rfl
        obtain rfl := hzero rfl
        -- The one group left would be that of zero, and a wide value has more above it.
        have h0 : putVarint (v / 128) = putVarint 0 := by
          rw [hgroups, putVarint_of_lt (by decide)]
          rfl
        have hsame : v / 128 = 0 := (putVarint_append_inj _ _ [] [] (by rw [h0])).1
        omega

/-- A string of groups ends at its first group that is not continued. -/
theorem groups_inj {head head' rest rest' : Bytes} {last last' : UInt8}
    (hhead : ∀ byte ∈ head, continued byte) (hlast : continued last = false)
    (hhead' : ∀ byte ∈ head', continued byte) (hlast' : continued last' = false)
    (h : head ++ last :: rest = head' ++ last' :: rest') :
    head = head' ∧ last = last' ∧ rest = rest' := by
  have htake := congrArg (List.takeWhile continued) h
  rw [List.takeWhile_append_of_pos hhead, List.takeWhile_append_of_pos hhead',
    List.takeWhile_cons_of_neg (by simp [hlast]), List.takeWhile_cons_of_neg (by simp [hlast']),
    List.append_nil, List.append_nil] at htake
  subst htake
  obtain ⟨hlast, hrest⟩ := List.cons.inj (List.append_cancel_left h)
  exact ⟨rfl, hlast, hrest⟩

/-- The strict reader returns no value for a string that is not a shortest form. -/
theorem readVarint_refuses {bytes : Bytes}
    (h : ∀ v rest, v < 2 ^ 64 → bytes ≠ putVarint v ++ rest) :
    ∃ e, readVarint bytes = .error e := by
  cases hread : readVarint bytes with
  | error e => exact ⟨e, rfl⟩
  | ok p =>
    obtain ⟨hv, hbytes⟩ := readVarint_sound hread
    exact absurd hbytes (h _ _ hv)

/-- A last group of zero behind others is refused. -/
theorem readVarint_padded {head rest : Bytes} (hne : head ≠ [])
    (hhead : ∀ byte ∈ head, continued byte) :
    ∃ e, readVarint (head ++ 0 :: rest) = .error e := by
  apply readVarint_refuses
  intro v rest' hv h
  obtain ⟨head', last, hgroups, hhead', hlast, hzero⟩ := putVarint_groups v
  rw [hgroups, List.append_assoc] at h
  obtain ⟨rfl, hsame, -⟩ := groups_inj hhead (by decide) hhead' hlast h
  exact hne (hzero hsame.symm)

/-- A value that needs more than 64 bits is refused. -/
theorem readVarint_wide {v : Nat} (hv : 2 ^ 64 ≤ v) (rest : Bytes) :
    ∃ e, readVarint (putVarint v ++ rest) = .error e := by
  apply readVarint_refuses
  intro w rest' hw h
  have := (putVarint_append_inj _ _ _ _ h).1
  omega

theorem varintLen_le_ten {v : Nat} (h : v < 2 ^ 64) : varintLen v ≤ 10 :=
  varintLen_le 9 v (h.trans_le (by decide))

/-- Ten continued groups are refused whatever follows. -/
theorem readVarint_long {head rest : Bytes} (hlen : head.length = 10)
    (hhead : ∀ byte ∈ head, continued byte) :
    ∃ e, readVarint (head ++ rest) = .error e := by
  apply readVarint_refuses
  intro v rest' hv h
  obtain ⟨head', last, hgroups, -, hlast, -⟩ := putVarint_groups v
  have hshort : (putVarint v).length ≤ head.length := by
    rw [length_putVarint, hlen]
    exact varintLen_le_ten hv
  have hprefix : putVarint v <+: head :=
    List.prefix_of_prefix_length_le ⟨rest', h.symm⟩ (List.prefix_append head rest) hshort
  have hmem : last ∈ head := hprefix.subset (by simp [hgroups])
  simp [hhead last hmem] at hlast

end Wire
