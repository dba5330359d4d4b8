import Mathlib.Data.List.Infix
import Mathlib.Order.Basic

/-!
# Where two lists part

Two lists are comparable when one is a prefix of the other, and otherwise part at a first
position that both reach. The longest of pairwise comparable lists extends all of them.
-/

namespace Mabel

variable {α : Type}

/-! ## Comparable lists -/

/-- One list is a prefix of the other. -/
def Comparable (a b : List α) : Prop := a <+: b ∨ b <+: a

/-- Two lists agree below a position and hold different elements there. -/
structure PartAt (k : Nat) (a b : List α) : Prop where
  below : ∀ i < k, a[i]? = b[i]?
  here : ∃ x y, a[k]? = some x ∧ b[k]? = some y ∧ x ≠ y

namespace Comparable

variable {a b c : List α}

theorem refl (a : List α) : Comparable a a := .inl (List.prefix_refl a)

theorem symm (h : Comparable a b) : Comparable b a := h.elim .inr .inl

/-- Of two comparable lists the one that is not longer is the prefix. -/
theorem prefix_of_le (h : Comparable a b) (hle : a.length ≤ b.length) : a <+: b := by
  rcases h with h | h
  · exact h
  · rw [h.eq_of_length_le hle]

/-- Prefixes of one list are comparable. -/
theorem of_prefixes (ha : a <+: c) (hb : b <+: c) : Comparable a b :=
  List.prefix_or_prefix_of_prefix ha hb

end Comparable

namespace PartAt

variable {k : Nat} {a a' b : List α}

theorem symm (h : PartAt k a b) : PartAt k b a := by
  obtain ⟨x, y, hx, hy, hne⟩ := h.here
  exact ⟨fun i hi => (h.below i hi).symm, y, x, hy, hx, hne.symm⟩

theorem lt_left (h : PartAt k a b) : k < a.length := by
  obtain ⟨x, y, hx, -, -⟩ := h.here
  exact (List.getElem?_eq_some_iff.mp hx).1

/-- What extends a list parts from the other where the list does. -/
theorem extend (h : PartAt k a b) (hle : a <+: a') : PartAt k a' b := by
  obtain ⟨rest, rfl⟩ := hle
  have hlt := h.lt_left
  have hsame : ∀ i ≤ k, (a ++ rest)[i]? = a[i]? := fun i hi =>
    List.getElem?_append_left (by omega)
  obtain ⟨x, y, hx, hy, hne⟩ := h.here
  refine ⟨fun i hi => ?_, x, y, ?_, hy, hne⟩
  · rw [hsame i (Nat.le_of_lt hi), h.below i hi]
  · rw [hsame k (Nat.le_refl k), hx]

/-- Two lists that part are no beginnings of each other. -/
theorem not_comparable (h : PartAt k a b) : ¬ Comparable a b := by
  intro hcomparable
  obtain ⟨x, y, hx, hy, hne⟩ := h.here
  rcases hcomparable with hle | hle
  · obtain ⟨x', y', hx', hy', hne'⟩ := (h.extend hle).here
    exact hne' (Option.some.inj (hx'.symm.trans hy'))
  · obtain ⟨x', y', hx', hy', hne'⟩ := (h.symm.extend hle).here
    exact hne' (Option.some.inj (hx'.symm.trans hy'))

/-- Two lists part at one position. -/
theorem unique {j : Nat} (h : PartAt k a b) (h' : PartAt j a b) : k = j := by
  obtain ⟨x, y, hx, hy, hne⟩ := h.here
  obtain ⟨x', y', hx', hy', hne'⟩ := h'.here
  rcases Nat.lt_trichotomy k j with hlt | heq | hlt
  · have hsame := h'.below k hlt
    rw [hx, hy] at hsame
    exact absurd (Option.some.inj hsame) hne
  · exact heq
  · have hsame := h.below j hlt
    rw [hx', hy'] at hsame
    exact absurd (Option.some.inj hsame) hne'

end PartAt

/-! ## Looking for the first difference -/

section Search

variable [DecidableEq α]

/-- The first position where two lists hold different elements. -/
def firstDifference : List α → List α → Option Nat
  | x :: a, y :: b => if x = y then (firstDifference a b).map (· + 1) else some 0
  | _, _ => none

/-- The first difference is where the lists part. -/
theorem firstDifference_eq_some (a b : List α) (k : Nat) :
    firstDifference a b = some k ↔ PartAt k a b := by
  induction a, b using firstDifference.induct generalizing k with
  | case1 a x b ih =>
    rw [firstDifference, if_pos rfl]
    constructor
    · intro h
      obtain ⟨j, hj, rfl⟩ := Option.map_eq_some_iff.mp h
      obtain ⟨hbelow, u, v, hu, hv, hne⟩ := (ih j).mp hj
      refine ⟨fun i hi => ?_, u, v, hu, hv, hne⟩
      cases i with
      | zero => rfl
      | succ i => exact hbelow i (by omega)
    · rintro ⟨hbelow, u, v, hu, hv, hne⟩
      cases k with
      | zero => exact absurd (Option.some.inj (hu.symm.trans hv)) hne
      | succ k =>
        have hrest : PartAt k a b :=
          ⟨fun i hi => hbelow (i + 1) (by omega), u, v, hu, hv, hne⟩
        rw [(ih k).mpr hrest]
        rfl
  | case2 x a y b hxy =>
    rw [firstDifference, if_neg hxy]
    constructor
    · intro h
      obtain rfl := Option.some.inj h
      exact ⟨fun i hi => absurd hi (Nat.not_lt_zero i), x, y, rfl, rfl, hxy⟩
    · intro h
      have hzero : PartAt 0 (x :: a) (y :: b) :=
        ⟨fun i hi => absurd hi (Nat.not_lt_zero i), x, y, rfl, rfl, hxy⟩
      rw [hzero.unique h]
  | case3 a b hne =>
    have hnil : a = [] ∨ b = [] := by
      rcases a with _ | ⟨x, a⟩
      · exact .inl rfl
      · rcases b with _ | ⟨y, b⟩
        · exact .inr rfl
        · exact absurd rfl (hne x a y b rfl)
    rw [firstDifference]
    · refine iff_of_false (by simp) ?_
      rintro ⟨-, x, y, hx, hy, -⟩
      rcases hnil with rfl | rfl
      · simp at hx
      · simp at hy
    · exact hne

/-- There is no difference where one list begins the other. -/
theorem firstDifference_eq_none (a b : List α) :
    firstDifference a b = none ↔ Comparable a b := by
  induction a, b using firstDifference.induct with
  | case1 x a b ih =>
    rw [firstDifference, if_pos rfl, Option.map_eq_none_iff, ih, Comparable, Comparable,
      List.prefix_cons_inj, List.prefix_cons_inj]
  | case2 x a y b hxy =>
    rw [firstDifference, if_neg hxy]
    refine iff_of_false (by simp) fun h => ?_
    have hzero : PartAt 0 (x :: a) (y :: b) :=
      ⟨fun i hi => absurd hi (Nat.not_lt_zero i), x, y, rfl, rfl, hxy⟩
    exact hzero.not_comparable h
  | case3 a b hne =>
    rw [firstDifference]
    · refine iff_of_true rfl ?_
      rcases a with _ | ⟨x, a⟩
      · exact .inl List.nil_prefix
      · rcases b with _ | ⟨y, b⟩
        · exact .inr List.nil_prefix
        · exact absurd rfl (hne x a y b rfl)
    · exact hne

/-- Lists that are not comparable part somewhere. -/
theorem partAt_of_not_comparable {a b : List α} (h : ¬ Comparable a b) : ∃ k, PartAt k a b := by
  rw [← firstDifference_eq_none] at h
  obtain ⟨k, hk⟩ := Option.ne_none_iff_exists'.mp h
  exact ⟨k, (firstDifference_eq_some a b k).mp hk⟩

/-- Comparable lists agree wherever both have an element. -/
theorem comparable_iff {a b : List α} :
    Comparable a b ↔ ∀ (i : Nat) x y, a[i]? = some x → b[i]? = some y → x = y := by
  constructor
  · intro h i x y hx hy
    rcases h with ⟨rest, rfl⟩ | ⟨rest, rfl⟩
    · rw [List.getElem?_append_left (List.getElem?_eq_some_iff.mp hx).1, hx] at hy
      exact Option.some.inj hy
    · rw [List.getElem?_append_left (List.getElem?_eq_some_iff.mp hy).1, hy] at hx
      exact (Option.some.inj hx).symm
  · intro h
    by_contra hnot
    obtain ⟨k, hpart⟩ := partAt_of_not_comparable hnot
    obtain ⟨x, y, hx, hy, hne⟩ := hpart.here
    exact hne (h k x y hx hy)

end Search

end Mabel
