import Mathlib.Data.String.Basic
import Mathlib.Tactic.Common

/-!
# ASCII case

Changing the case of ASCII letters moves no other character, so text splits at a separator that
is not a letter wherever its other spelling does.
-/

namespace Ascii

/-! ## Characters -/

/-- Lowering a text lowers its characters. -/
theorem toList_toLower (text : String) : text.toLower.toList = text.toList.map Char.toLower :=
  String.toList_map

/-- The code of a letter in lower case. -/
theorem toNat_toLower (c : Char) :
    c.toLower.toNat = if 65 ≤ c.toNat ∧ c.toNat ≤ 90 then c.toNat + 32 else c.toNat := by
  have hupper : (c.val ≥ 'A'.val ∧ c.val ≤ 'Z'.val) ↔ 65 ≤ c.toNat ∧ c.toNat ≤ 90 := Iff.rfl
  unfold Char.toLower
  by_cases h : c.val ≥ 'A'.val ∧ c.val ≤ 'Z'.val
  · rw [dif_pos h, if_pos (hupper.mp h)]
    have hbounds := hupper.mp h
    change (c.val + ('a'.val - 'A'.val)).toNat = c.val.toNat + 32
    rw [UInt32.toNat_add, show ('a'.val - 'A'.val).toNat = 32 by decide]
    exact Nat.mod_eq_of_lt (by change c.toNat + 32 < _; omega)
  · rw [dif_neg h, if_neg fun hbounds => h (hupper.mpr hbounds)]

/-- The code of a letter in upper case. -/
theorem toNat_toUpper (c : Char) :
    c.toUpper.toNat = if 97 ≤ c.toNat ∧ c.toNat ≤ 122 then c.toNat - 32 else c.toNat := by
  have hlower : ('a'.val ≤ c.val ∧ c.val ≤ 'z'.val) ↔ 97 ≤ c.toNat ∧ c.toNat ≤ 122 := Iff.rfl
  unfold Char.toUpper
  by_cases h : 'a'.val ≤ c.val ∧ c.val ≤ 'z'.val
  · rw [dif_pos h, if_pos (hlower.mp h)]
    have hbounds := hlower.mp h
    change (c.val + ('A'.val - 'a'.val)).toNat = c.val.toNat - 32
    rw [UInt32.toNat_add, show ('A'.val - 'a'.val).toNat = 2 ^ 32 - 32 by decide]
    change (c.toNat + (2 ^ 32 - 32)) % 2 ^ 32 = c.toNat - 32
    omega
  · rw [dif_neg h, if_neg fun hbounds => h (hlower.mpr hbounds)]

theorem eq_of_toNat {c d : Char} (h : c.toNat = d.toNat) : c = d := by
  rw [← Char.ofNat_toNat c, h, Char.ofNat_toNat]

@[simp] theorem toLower_toUpper (c : Char) : c.toUpper.toLower = c.toLower := by
  apply eq_of_toNat
  rw [toNat_toLower, toNat_toUpper, toNat_toLower]
  split_ifs <;> omega

@[simp] theorem toUpper_toLower (c : Char) : c.toLower.toUpper = c.toUpper := by
  apply eq_of_toNat
  rw [toNat_toUpper, toNat_toLower, toNat_toUpper]
  split_ifs <;> omega

@[simp] theorem toLower_toLower (c : Char) : c.toLower.toLower = c.toLower := by
  apply eq_of_toNat
  rw [toNat_toLower, toNat_toLower]
  split_ifs <;> omega

/-- Only a letter has another spelling. -/
theorem toLower_eq_iff {c d : Char} (h : ¬ (65 ≤ d.toNat ∧ d.toNat ≤ 90))
    (h' : ¬ (97 ≤ d.toNat ∧ d.toNat ≤ 122)) : c.toLower = d ↔ c = d := by
  constructor
  · intro heq
    apply eq_of_toNat
    have hnat := congrArg Char.toNat heq
    rw [toNat_toLower] at hnat
    split_ifs at hnat <;> omega
  · rintro rfl
    apply eq_of_toNat
    rw [toNat_toLower, if_neg h]

/-! ## Text -/

/-- Renaming the characters before or after a text is split. -/
theorem splitOn_map {α β : Type} [DecidableEq α] [DecidableEq β] {f : α → β} {x : α} {y : β}
    (h : ∀ a, f a = y ↔ a = x) (text : List α) :
    (text.map f).splitOn y = (text.splitOn x).map (List.map f) := by
  induction text with
  | nil => simp
  | cons a text ih =>
    rw [List.map_cons, List.splitOn_cons_eq_if_modifyHead, List.splitOn_cons_eq_if_modifyHead, ih]
    by_cases ha : a = x
    · rw [if_pos (by simp [(h a).mpr ha]), if_pos (by simp [ha]), List.map_cons, List.map_nil]
    · rw [if_neg (by simpa using fun hfa => ha ((h a).mp hfa)), if_neg (by simpa using ha)]
      cases text.splitOn x <;> simp

/-- An ASCII text has as many bytes as characters. -/
theorem utf8ByteSize_ofList {text : List Char} (h : ∀ c ∈ text, c.toNat < 128) :
    (String.ofList text).utf8ByteSize = text.length := by
  rw [String.utf8ByteSize_ofList]
  induction text with
  | nil => rfl
  | cons c text ih =>
    have hsize : c.utf8Size = 1 := Char.utf8Size_eq_one_iff.mpr (by
      have := h c (by simp)
      exact UInt32.le_iff_toNat_le.mpr (by change c.toNat ≤ 127; omega))
    rw [String.utf8Len, ih fun d hd => h d (List.mem_cons_of_mem _ hd), hsize, List.length_cons]

end Ascii
