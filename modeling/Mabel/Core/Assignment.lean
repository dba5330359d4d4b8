import Mabel.Core.SortedMap

/-!
# Finitely supported assignments

A total assignment of values to keys that differs from a default at finitely many keys and
lists those. Assignments with equal values are equal, so writing back what was read is no
change at all.
-/

/-- Values for all keys, with the finitely many that are not the default listed. -/
structure Assignment (κ ν : Type) [LinearOrder κ] (default : ν) where
  /-- The values that are not the default. -/
  listed : SortedMap κ ν
  /-- A listed value is not the default. -/
  proper : ∀ k, listed.get? k ≠ some default

namespace Assignment

variable {κ ν : Type} [LinearOrder κ] {default : ν}

/-- The value of a key. -/
def get (a : Assignment κ ν default) (k : κ) : ν := (a.listed.get? k).getD default

/-- The default everywhere. -/
def empty : Assignment κ ν default := ⟨.empty, by simp⟩

@[simp] theorem get_empty (k : κ) : (empty : Assignment κ ν default).get k = default := rfl

/-- The listed entries are those that differ from the default. -/
theorem listed_eq_some {a : Assignment κ ν default} {k : κ} {v : ν} :
    a.listed.get? k = some v ↔ a.get k = v ∧ v ≠ default := by
  rw [get]
  constructor
  · intro h
    refine ⟨by simp [h], ?_⟩
    rintro rfl
    exact a.proper k h
  · rintro ⟨hv, hne⟩
    cases hk : a.listed.get? k with
    | none =>
      rw [hk] at hv
      exact absurd hv.symm hne
    | some w =>
      rw [hk] at hv
      exact congrArg some hv

/-- Assignments with equal values are equal. -/
theorem ext {a b : Assignment κ ν default} (h : ∀ k, a.get k = b.get k) : a = b := by
  have hlisted : a.listed = b.listed := by
    apply SortedMap.ext
    intro k
    apply Option.ext
    intro v
    rw [listed_eq_some, listed_eq_some, h k]
  cases a
  cases b
  simpa using hlisted

variable [DecidableEq ν]

/-- Assign a value to a key. -/
def set (a : Assignment κ ν default) (k : κ) (v : ν) : Assignment κ ν default :=
  ⟨if v = default then a.listed.remove k else a.listed.insert k v, by
    intro k' h
    split_ifs at h with hv
    · rw [SortedMap.get?_remove] at h
      split_ifs at h
      exact a.proper k' h
    · rw [SortedMap.get?_insert] at h
      split_ifs at h
      · exact hv (Option.some.inj h)
      · exact a.proper k' h⟩

/-- An assignment changes the value of its own key only. -/
@[simp] theorem get_set (a : Assignment κ ν default) (k k' : κ) (v : ν) :
    (a.set k v).get k' = if k' = k then v else a.get k' := by
  simp only [get, set]
  split_ifs with hv hk hk
  · simp [hk, hv]
  · simp [hk]
  · simp [hk]
  · simp [hk]

/-- Writing back what was read changes nothing. -/
@[simp] theorem set_get (a : Assignment κ ν default) (k : κ) : a.set k (a.get k) = a := by
  apply ext
  intro k'
  rw [get_set]
  split_ifs with h
  · rw [h]
  · rfl

/-- Only the last of two values assigned to one key counts. -/
@[simp] theorem set_set (a : Assignment κ ν default) (k : κ) (v w : ν) :
    (a.set k v).set k w = a.set k w := by
  apply ext
  intro k'
  simp only [get_set]
  split_ifs <;> rfl

end Assignment
