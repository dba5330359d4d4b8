import Mathlib.Algebra.GroupWithZero.Nat
import Mathlib.Order.Defs.LinearOrder
import Mathlib.Order.Lattice
import Mathlib.Data.List.Nodup
import Mathlib.Tactic.Common

/-!
# Ordered maps as strictly sorted association lists

A finite map iterated in ascending key order. Sortedness is a field, so two maps
with the same lookups are equal and iteration order is a function of the contents.
Every operation is specified by its effect on lookups alone.
-/

/-- A finite map whose entries are listed once each, by ascending key. -/
structure SortedMap (κ ν : Type) [LinearOrder κ] where
  /-- The entries in iteration order. -/
  entries : List (κ × ν)
  /-- Keys ascend strictly, so no key is listed twice. -/
  sorted : entries.Pairwise fun a b => a.1 < b.1
  deriving DecidableEq

namespace SortedMap

variable {κ ν : Type} [LinearOrder κ]

/-- The map with no entry. -/
def empty : SortedMap κ ν := ⟨[], List.Pairwise.nil⟩

instance : Inhabited (SortedMap κ ν) := ⟨empty⟩

/-- The value recorded for a key. -/
def get? (m : SortedMap κ ν) (k : κ) : Option ν :=
  (m.entries.find? fun e => decide (e.1 = k)).map Prod.snd

/-- Lookup is membership of the entry list. -/
theorem get?_eq_some {m : SortedMap κ ν} {k : κ} {v : ν} :
    m.get? k = some v ↔ (k, v) ∈ m.entries := by
  obtain ⟨l, hl⟩ := m
  simp only [get?]
  induction l with
  | nil => simp
  | cons e l ih =>
    obtain ⟨hlt, hp⟩ := List.pairwise_cons.mp hl
    by_cases he : e.1 = k
    · have hrest : (k, v) ∉ l := fun hm => (he ▸ hlt _ hm).false
      subst he
      simp only [List.find?_cons, decide_true, Option.map_some, Option.some.injEq,
        List.mem_cons, hrest, or_false]
      exact ⟨fun h => h ▸ rfl, fun h => (congrArg Prod.snd h).symm⟩
    · have hne : (k, v) ≠ e := fun h => he (congrArg Prod.fst h).symm
      simp only [List.find?_cons, he, decide_false, List.mem_cons, hne, false_or]
      exact ih hp

/-- Lookup fails exactly when no entry carries the key. -/
theorem get?_eq_none {m : SortedMap κ ν} {k : κ} :
    m.get? k = none ↔ ∀ v, (k, v) ∉ m.entries := by
  simp only [Option.eq_none_iff_forall_ne_some, ne_eq, get?_eq_some]

/-- The keys of a map, in iteration order. -/
def keys (m : SortedMap κ ν) : List κ := m.entries.map Prod.fst

theorem nodup_keys (m : SortedMap κ ν) : m.keys.Nodup :=
  List.pairwise_map.mpr (m.sorted.imp fun hab => hab.ne)

theorem mem_keys {m : SortedMap κ ν} {k : κ} : k ∈ m.keys ↔ ∃ v, m.get? k = some v := by
  simp [keys, get?_eq_some]

/-- Maps with equal lookups are equal. -/
theorem ext {m₁ m₂ : SortedMap κ ν} (h : ∀ k, m₁.get? k = m₂.get? k) : m₁ = m₂ := by
  have hnodup (m : SortedMap κ ν) : m.entries.Nodup :=
    m.sorted.imp fun hab heq => (heq ▸ hab).false
  have hmem : ∀ e, e ∈ m₁.entries ↔ e ∈ m₂.entries := by
    rintro ⟨k, v⟩
    rw [← get?_eq_some, ← get?_eq_some, h k]
  have hperm := (List.perm_ext_iff_of_nodup (hnodup m₁) (hnodup m₂)).mpr hmem
  have heq : m₁.entries = m₂.entries := hperm.eq_of_pairwise
    (fun a b _ _ hab hba => absurd hab hba.asymm) m₁.sorted m₂.sorted
  cases m₁
  cases m₂
  simpa using heq

/-- A map that agrees with another on all of its keys, and holds nothing else. -/
theorem ext_of_keys {m₁ m₂ : SortedMap κ ν} {ks : List κ} (hkeys : ∀ k ∈ m₂.keys, k ∈ ks)
    (h : ∀ k, m₁.get? k = if k ∈ ks then m₂.get? k else none) : m₁ = m₂ := by
  refine ext fun k => (h k).trans ?_
  split_ifs with hk
  · rfl
  · cases hget : m₂.get? k with
    | none => rfl
    | some v => exact absurd (hkeys k (mem_keys.mpr ⟨v, hget⟩)) hk

@[simp] theorem get?_empty (k : κ) : (empty : SortedMap κ ν).get? k = none := rfl

/-- Place an entry at its position, replacing one of the same key. -/
def insertEntry (k : κ) (v : ν) : List (κ × ν) → List (κ × ν)
  | [] => [(k, v)]
  | e :: rest =>
    if k < e.1 then (k, v) :: e :: rest
    else if e.1 < k then e :: insertEntry k v rest
    else (k, v) :: rest

/-- Inserting adds one entry in the place of any with its key. -/
private theorem mem_insertEntry {k : κ} {v : ν} {l : List (κ × ν)} {e : κ × ν}
    (hl : l.Pairwise fun a b => a.1 < b.1) :
    e ∈ insertEntry k v l ↔ e = (k, v) ∨ (e.1 ≠ k ∧ e ∈ l) := by
  induction l with
  | nil => simp [insertEntry]
  | cons x l ih =>
    obtain ⟨hlt, hp⟩ := List.pairwise_cons.mp hl
    simp only [insertEntry]
    split_ifs with h1 h2
    · have hall : ∀ y ∈ x :: l, y.1 ≠ k := by
        intro y hy
        rcases List.mem_cons.mp hy with rfl | hy
        · exact h1.ne'
        · exact (h1.trans (hlt y hy)).ne'
      rw [List.mem_cons]
      exact or_congr_right ⟨fun hm => ⟨hall e hm, hm⟩, And.right⟩
    · rw [List.mem_cons, ih hp, List.mem_cons]
      have hx : e = x → e.1 ≠ k := fun h => h ▸ h2.ne
      constructor
      · rintro (h | h | ⟨hk, h⟩)
        · exact .inr ⟨hx h, .inl h⟩
        · exact .inl h
        · exact .inr ⟨hk, .inr h⟩
      · rintro (h | ⟨hk, h | h⟩)
        · exact .inr (.inl h)
        · exact .inl h
        · exact .inr (.inr ⟨hk, h⟩)
    · have hxk : x.1 = k := le_antisymm (not_lt.mp h1) (not_lt.mp h2)
      have hrest : ∀ y ∈ l, y.1 ≠ k := fun y hy => hxk ▸ (hlt y hy).ne'
      rw [List.mem_cons, List.mem_cons]
      have hx : e = x → e.1 = k := fun h => h ▸ hxk
      refine or_congr_right ⟨fun h => ⟨hrest e h, .inr h⟩, ?_⟩
      rintro ⟨hk, h | h⟩
      · exact absurd (hx h) hk
      · exact h

/-- Inserting keeps the keys ascending. -/
private theorem insertEntry_sorted (k : κ) (v : ν) {l : List (κ × ν)}
    (hl : l.Pairwise fun a b => a.1 < b.1) :
    (insertEntry k v l).Pairwise fun a b => a.1 < b.1 := by
  induction l with
  | nil => simp [insertEntry]
  | cons x l ih =>
    obtain ⟨hlt, hp⟩ := List.pairwise_cons.mp hl
    simp only [insertEntry]
    split_ifs with h1 h2
    · refine List.pairwise_cons.mpr ⟨?_, hl⟩
      intro y hy
      rcases List.mem_cons.mp hy with rfl | hy
      · exact h1
      · exact h1.trans (hlt y hy)
    · refine List.pairwise_cons.mpr ⟨?_, ih hp⟩
      intro y hy
      rcases (mem_insertEntry hp).mp hy with rfl | ⟨_, hy⟩
      · exact h2
      · exact hlt y hy
    · have hxk : x.1 = k := le_antisymm (not_lt.mp h1) (not_lt.mp h2)
      exact List.pairwise_cons.mpr ⟨fun y hy => hxk ▸ hlt y hy, hp⟩

/-- Record a value for a key, replacing the one it had. -/
def insert (m : SortedMap κ ν) (k : κ) (v : ν) : SortedMap κ ν :=
  ⟨insertEntry k v m.entries, insertEntry_sorted k v m.sorted⟩

/-- An insertion changes the lookup of its own key only. -/
@[simp] theorem get?_insert (m : SortedMap κ ν) (k k' : κ) (v : ν) :
    (m.insert k v).get? k' = if k' = k then some v else m.get? k' := by
  apply Option.ext
  intro w
  rw [get?_eq_some, insert, mem_insertEntry m.sorted]
  split_ifs with h
  · subst h
    simp [eq_comm]
  · simp [h, get?_eq_some]

/-- Drop the entry of a key. -/
def remove (m : SortedMap κ ν) (k : κ) : SortedMap κ ν :=
  ⟨m.entries.filter fun e => decide (e.1 ≠ k), m.sorted.filter _⟩

/-- A removal changes the lookup of its own key only. -/
@[simp] theorem get?_remove (m : SortedMap κ ν) (k k' : κ) :
    (m.remove k).get? k' = if k' = k then none else m.get? k' := by
  apply Option.ext
  intro w
  rw [get?_eq_some, remove, List.mem_filter, ← get?_eq_some]
  split_ifs with h <;> simp [h]

/-- Update in place the value of a key, if it has one. -/
def adjust (m : SortedMap κ ν) (k : κ) (f : ν → ν) : SortedMap κ ν :=
  ⟨m.entries.map fun e => if e.1 = k then (e.1, f e.2) else e, by
    refine List.pairwise_map.mpr (m.sorted.imp ?_)
    intro a b hab
    split_ifs <;> exact hab⟩

/-- An update in place changes the lookup of its own key only. -/
@[simp] theorem get?_adjust (m : SortedMap κ ν) (k k' : κ) (f : ν → ν) :
    (m.adjust k f).get? k' = if k' = k then (m.get? k').map f else m.get? k' := by
  apply Option.ext
  intro w
  rw [get?_eq_some, adjust, List.mem_map]
  constructor
  · rintro ⟨⟨a, b⟩, hmem, he⟩
    by_cases ha : a = k
    · simp only [ha, if_true, Prod.mk.injEq] at he
      obtain ⟨rfl, rfl⟩ := he
      simp [get?_eq_some.mpr (ha ▸ hmem)]
    · simp only [ha, if_false, Prod.mk.injEq] at he
      obtain ⟨rfl, rfl⟩ := he
      simp [ha, get?_eq_some.mpr hmem]
  · intro h
    split_ifs at h with hk
    · obtain ⟨b, hb, rfl⟩ := Option.map_eq_some_iff.mp h
      exact ⟨(k', b), get?_eq_some.mp hb, by simp [hk]⟩
    · exact ⟨(k', w), get?_eq_some.mp h, by simp [hk]⟩

/-- A search in iteration order finds an entry the map holds. -/
theorem find?_some {m : SortedMap κ ν} {p : κ × ν → Bool} {e : κ × ν}
    (h : m.entries.find? p = some e) : m.get? e.1 = some e.2 ∧ p e = true :=
  ⟨get?_eq_some.mpr (List.mem_of_find?_eq_some h), List.find?_some h⟩

/-- A failed search rules out every entry. -/
theorem find?_none {m : SortedMap κ ν} {p : κ × ν → Bool} :
    m.entries.find? p = none ↔ ∀ k v, m.get? k = some v → p (k, v) = false := by
  simp only [List.find?_eq_none, Bool.not_eq_true, Prod.forall, ← get?_eq_some]

/-- A search that one entry at most can satisfy finds it in whatever order they are listed. -/
theorem find?_of_perm {m : SortedMap κ ν} {p : κ × ν → Bool} {entries : List (κ × ν)}
    (hperm : entries.Perm m.entries)
    (hunique : ∀ a ∈ m.entries, ∀ b ∈ m.entries, p a = true → p b = true → a = b) :
    entries.find? p = m.entries.find? p := by
  cases h : m.entries.find? p with
  | none =>
    rw [List.find?_eq_none] at h ⊢
    exact fun a ha => h a (hperm.mem_iff.mp ha)
  | some a =>
    have ha := List.mem_of_find?_eq_some h
    cases h' : entries.find? p with
    | none =>
      exact absurd (List.find?_some h) (List.find?_eq_none.mp h' a (hperm.mem_iff.mpr ha))
    | some b =>
      have hb := hperm.mem_iff.mp (List.mem_of_find?_eq_some h')
      rw [hunique b hb a ha (List.find?_some h') (List.find?_some h)]

/-! ## Values seen through a function -/

/-- Replace every value by what a function makes of it. -/
def mapValues {μ : Type} (f : ν → μ) (m : SortedMap κ ν) : SortedMap κ μ where
  entries := m.entries.map fun e => (e.1, f e.2)
  sorted := List.pairwise_map.mpr m.sorted

@[simp] theorem get?_mapValues {μ : Type} (f : ν → μ) (m : SortedMap κ ν) (k : κ) :
    (m.mapValues f).get? k = (m.get? k).map f := by
  rw [get?, get?, mapValues, List.find?_map, Option.map_map, Option.map_map]
  rfl

theorem length_mapValues {μ : Type} (f : ν → μ) (m : SortedMap κ ν) :
    (m.mapValues f).entries.length = m.entries.length := List.length_map _

/-- A map without the values a test turns down. -/
def retain (p : ν → Bool) (m : SortedMap κ ν) : SortedMap κ ν :=
  ⟨m.entries.filter fun e => p e.2, m.sorted.filter _⟩

@[simp] theorem get?_retain (p : ν → Bool) (m : SortedMap κ ν) (k : κ) :
    (m.retain p).get? k = (m.get? k).filter p := by
  apply Option.ext
  intro v
  rw [get?_eq_some, Option.filter_eq_some_iff, get?_eq_some]
  exact List.mem_filter

/-- Changing every value after an insertion or before it. -/
theorem mapValues_insert {μ : Type} (f : ν → μ) (m : SortedMap κ ν) (k : κ) (v : ν) :
    (m.insert k v).mapValues f = (m.mapValues f).insert k (f v) := by
  apply ext
  intro k'
  rw [get?_mapValues, get?_insert, get?_insert, get?_mapValues]
  split_ifs <;> rfl

/-- Changing every value after one value is adjusted or before it. -/
theorem mapValues_adjust {μ : Type} {f : ν → μ} {g : ν → ν} {g' : μ → μ}
    (h : ∀ v, f (g v) = g' (f v)) (m : SortedMap κ ν) (k : κ) :
    (m.adjust k g).mapValues f = (m.mapValues f).adjust k g' := by
  apply ext
  intro k'
  rw [get?_mapValues, get?_adjust, get?_adjust, get?_mapValues]
  split_ifs
  · rw [Option.map_map, Option.map_map]
    exact congrArg (Option.map · (m.get? k')) (funext h)
  · rfl

/-! ## Totals -/

/-- The sum of a quantity over all values. -/
def total (f : ν → Nat) (m : SortedMap κ ν) : Nat := (m.entries.map fun e => f e.2).sum

@[simp] theorem total_empty (f : ν → Nat) : total f (empty : SortedMap κ ν) = 0 := rfl

/-- What inserting does to a sum over the values. -/
private theorem sum_insertEntry (f : ν → Nat) (k : κ) (v : ν) {l : List (κ × ν)}
    (hl : l.Pairwise fun a b => a.1 < b.1) :
    ((insertEntry k v l).map fun e => f e.2).sum +
        (((l.find? fun e => decide (e.1 = k)).map Prod.snd).elim 0 f) =
      (l.map fun e => f e.2).sum + f v := by
  induction l with
  | nil => simp [insertEntry]
  | cons e l ih =>
    obtain ⟨hlt, hp⟩ := List.pairwise_cons.mp hl
    rw [insertEntry]
    split_ifs with h1 h2
    · have hnone : (e :: l).find? (fun e => decide (e.1 = k)) = none := by
        rw [List.find?_eq_none]
        intro x hx
        rcases List.mem_cons.mp hx with rfl | hx
        · simpa using h1.ne'
        · simpa using (h1.trans (hlt x hx)).ne'
      rw [hnone]
      simp only [List.map_cons, List.sum_cons, Option.map_none, Option.elim_none]
      omega
    · have := ih hp
      rw [List.find?_cons_of_neg (by simpa using h2.ne)]
      simp only [List.map_cons, List.sum_cons]
      omega
    · have hek : e.1 = k := le_antisymm (not_lt.mp h1) (not_lt.mp h2)
      rw [List.find?_cons_of_pos (by simpa using hek)]
      simp only [List.map_cons, List.sum_cons, Option.map_some, Option.elim_some]
      omega

/-- An insertion moves a total by the value it adds and the one it replaces. -/
theorem total_insert (f : ν → Nat) (m : SortedMap κ ν) (k : κ) (v : ν) :
    total f (m.insert k v) + (m.get? k).elim 0 f = total f m + f v := sum_insertEntry f k v m.sorted

/-- An update in place that keeps a quantity keeps its total. -/
theorem total_adjust {f : ν → Nat} {g : ν → ν} (h : ∀ v, f (g v) = f v) (m : SortedMap κ ν)
    (k : κ) : total f (m.adjust k g) = total f m := by
  simp only [total, adjust, List.map_map]
  congr 1
  refine List.map_congr_left fun e _ => ?_
  simp only [Function.comp_apply]
  split_ifs
  · exact h e.2
  · rfl

theorem length_eq_total (m : SortedMap κ ν) : m.entries.length = total (fun _ => 1) m := by
  simp [total]

/-- A new key adds one entry. -/
theorem length_insert_of_none {m : SortedMap κ ν} {k : κ} (v : ν) (h : m.get? k = none) :
    (m.insert k v).entries.length = m.entries.length + 1 := by
  have := total_insert (fun _ => 1) m k v
  rw [h] at this
  rwa [length_eq_total, length_eq_total]

/-- Dropping a key drops one entry. -/
theorem length_remove_of_some {m : SortedMap κ ν} {k : κ} {v : ν} (h : m.get? k = some v) :
    (m.remove k).entries.length + 1 = m.entries.length := by
  have hsame : (m.remove k).insert k v = m := by
    apply ext
    intro k'
    rw [get?_insert, get?_remove]
    by_cases hk : k' = k
    · rw [if_pos hk, hk, h]
    · rw [if_neg hk, if_neg hk]
  have hgone : (m.remove k).get? k = none := by rw [get?_remove, if_pos rfl]
  rw [← length_insert_of_none v hgone, hsame]

/-- Replacing a value keeps the number of entries. -/
theorem length_insert_of_some {m : SortedMap κ ν} {k : κ} {w : ν} (v : ν) (h : m.get? k = some w) :
    (m.insert k v).entries.length = m.entries.length := by
  have := total_insert (fun _ => 1) m k v
  rw [h] at this
  rw [length_eq_total, length_eq_total]
  exact Nat.add_right_cancel this

/-! ## Maps filled from lists -/

/-- What inserting many distinct keys one after another leaves. -/
theorem get?_foldl_insert {ι : Type} {key : ι → κ} {value : ι → ν} (l : List ι) :
    ∀ {m : SortedMap κ ν}, (l.map key).Nodup → ∀ k v,
      (l.foldl (fun m i => m.insert (key i) (value i)) m).get? k = some v ↔
        (∃ i ∈ l, key i = k ∧ value i = v) ∨ (k ∉ l.map key ∧ m.get? k = some v) := by
  induction l with
  | nil => simp
  | cons i l ih =>
    intro m hnodup k v
    obtain ⟨hnot, hnodup⟩ := List.nodup_cons.mp hnodup
    rw [List.foldl_cons, ih hnodup, get?_insert]
    by_cases hk : k = key i
    · subst hk
      have hother : ∀ j ∈ l, key j ≠ key i :=
        fun j hj heq => hnot (heq ▸ List.mem_map_of_mem hj)
      simp only [if_true, List.mem_cons, List.map_cons, not_true, false_and, or_false,
        hnot, not_false_iff, true_and, Option.some.injEq, exists_eq_or_imp]
      constructor
      · rintro (⟨j, hj, heq, -⟩ | hv)
        · exact absurd heq (hother j hj)
        · exact .inl hv
      · rintro (hv | ⟨j, hj, heq, -⟩)
        · exact .inr hv
        · exact absurd heq (hother j hj)
    · simp [hk, Ne.symm hk]

/-- Inserting many keys adds at most as many entries. -/
theorem length_foldl_insert_le {ι : Type} (key : ι → κ) (value : ι → ν) (l : List ι) :
    ∀ m : SortedMap κ ν, (l.foldl (fun m i => m.insert (key i) (value i)) m).entries.length ≤
      m.entries.length + l.length := by
  induction l with
  | nil => exact fun m => le_rfl
  | cons i l ih =>
    intro m
    have hle := ih (m.insert (key i) (value i))
    have hinsert : (m.insert (key i) (value i)).entries.length ≤ m.entries.length + 1 := by
      cases hget : m.get? (key i) with
      | none => rw [length_insert_of_none _ hget]
      | some w => rw [length_insert_of_some _ hget]; exact Nat.le_succ _
    rw [List.foldl_cons, List.length_cons]
    omega

/-- What adjusting many distinct keys one after another leaves. -/
theorem foldl_adjust {μ : Type} {f : μ → ν → ν} (l : List (κ × μ)) : ∀ {m : SortedMap κ ν},
    (l.map Prod.fst).Nodup → ∀ k, (l.foldl (fun m e => m.adjust e.1 (f e.2)) m).get? k =
      (m.get? k).map fun v =>
        ((l.find? fun e => decide (e.1 = k)).map Prod.snd).elim v fun w => f w v := by
  induction l with
  | nil => simp
  | cons e l ih =>
    intro m hnodup k
    obtain ⟨hnot, hnodup⟩ := List.nodup_cons.mp hnodup
    rw [List.foldl_cons, ih hnodup, get?_adjust]
    by_cases hk : k = e.1
    · subst hk
      have hnone : (l.find? fun other => decide (other.1 = e.1)) = none := by
        rw [List.find?_eq_none]
        intro other hother
        simp only [decide_eq_true_eq]
        exact fun heq => hnot (heq ▸ List.mem_map_of_mem hother)
      simp [hnone, Function.comp_def]
    · simp [hk, Ne.symm hk]

/-- Updating at every entry of another map. -/
theorem get?_foldl_adjust {μ : Type} (f : μ → ν → ν) (entries : SortedMap κ μ)
    (m : SortedMap κ ν) (k : κ) :
    (entries.entries.foldl (fun m e => m.adjust e.1 (f e.2)) m).get? k =
      (m.get? k).map fun v => (entries.get? k).elim v fun w => f w v :=
  foldl_adjust entries.entries entries.nodup_keys k

/-- Adjusting values adds no entry. -/
theorem length_foldl_adjust {μ : Type} (f : μ → ν → ν) (l : List (κ × μ)) :
    ∀ m : SortedMap κ ν, (l.foldl (fun m e => m.adjust e.1 (f e.2)) m).entries.length =
      m.entries.length := by
  induction l with
  | nil => exact fun m => rfl
  | cons e l ih =>
    intro m
    rw [List.foldl_cons, ih, adjust, List.length_map]

/-! ## Numbered values -/

/-- A map that looks up like a list lists its values by their positions. -/
theorem entries_of_get? {m : SortedMap Nat ν} {log : List ν} (h : ∀ k, m.get? k = log[k]?) :
    m.entries = log.zipIdx.map Prod.swap := by
  have hsorted : (log.zipIdx.map Prod.swap).Pairwise fun a b => a.1 < b.1 := by
    rw [List.pairwise_iff_getElem]
    intro i j hi hj hij
    simpa using hij
  have hnodup {l : List (Nat × ν)} (hl : l.Pairwise fun a b => a.1 < b.1) : l.Nodup :=
    hl.imp fun hab heq => (heq ▸ hab).false
  have hmem : ∀ e, e ∈ m.entries ↔ e ∈ log.zipIdx.map Prod.swap := by
    rintro ⟨k, v⟩
    rw [← get?_eq_some, h k, List.mem_map]
    constructor
    · intro hk
      exact ⟨(v, k), List.mem_zipIdx_iff_getElem?.mpr hk, rfl⟩
    · rintro ⟨⟨w, i⟩, hw, he⟩
      obtain ⟨rfl, rfl⟩ := Prod.mk.inj he
      exact List.mem_zipIdx_iff_getElem?.mp hw
  have hperm := (List.perm_ext_iff_of_nodup (hnodup m.sorted) (hnodup hsorted)).mpr hmem
  exact hperm.eq_of_pairwise (fun a b _ _ hab hba => absurd hab hba.asymm) m.sorted hsorted

/-- The values of a map that a list indexes are the list. -/
theorem values_of_get? {m : SortedMap Nat ν} {log : List ν} (h : ∀ k, m.get? k = log[k]?) :
    m.entries.map Prod.snd = log := by
  rw [entries_of_get? h, List.map_map]
  change log.zipIdx.map Prod.fst = log
  simp

/-- The keys of a map that a list indexes are the positions of the list. -/
theorem keys_of_get? {m : SortedMap Nat ν} {log : List ν} (h : ∀ k, m.get? k = log[k]?) :
    m.keys = List.range log.length := by
  rw [keys, entries_of_get? h, List.map_map]
  change log.zipIdx.map Prod.snd = _
  rw [List.zipIdx_map_snd, List.range_eq_range']

end SortedMap
