import Mathlib.Data.List.Infix

/-!
# Reading a list page by page

A list is served in pages: from an offset on, some of what follows and whether more comes after it.
A reader goes on from as many items as it has read and stops at a page that says it is the last.
-/

namespace Mabel.Paging

variable {α : Type} {page : Nat → List α → Bool → Prop} {all got items : List α} {offset : Nat}

/-- A reading from an offset to a last page, and what it gathers. -/
inductive Reading (page : Nat → List α → Bool → Prop) : Nat → List α → Prop
  | last {offset : Nat} {items : List α} (hpage : page offset items false) :
    Reading page offset items
  | more {offset : Nat} {items rest : List α} (hpage : page offset items true)
    (hrest : Reading page (offset + items.length) rest) : Reading page offset (items ++ rest)

/-- The pages of a list: each is a first part of what follows its offset, says whether more comes
after it, and is empty only where nothing follows. -/
structure PagesOf (page : Nat → List α → Bool → Prop) (all : List α) : Prop where
  answers : ∀ offset ≤ all.length, ∃ items more, page offset items more
  part : ∀ {offset items more}, page offset items more → items <+: all.drop offset
  ends : ∀ {offset items more}, page offset items more →
    more = decide (offset + items.length < all.length)
  progress : ∀ {offset more}, page offset [] more → more = false

namespace PagesOf

/-- A last page carries all that follows its offset. -/
theorem eq_of_last (h : PagesOf page all) (hpage : page offset items false) :
    items = all.drop offset := by
  have hends : ¬ offset + items.length < all.length := by
    simpa using (h.ends hpage).symm
  apply (h.part hpage).eq_of_length_le
  rw [List.length_drop]
  omega

/-- What a page carries and what follows it is what follows its offset. -/
theorem append_drop (h : PagesOf page all) {more : Bool} (hpage : page offset items more) :
    items ++ all.drop (offset + items.length) = all.drop offset := by
  have htake := List.prefix_iff_eq_take.mp (h.part hpage)
  rw [← List.drop_drop]
  nth_rewrite 1 [htake]
  exact List.take_append_drop _ _

/-- Every reading gathers what follows where it starts. -/
theorem eq_of_reading (h : PagesOf page all) (hread : Reading page offset got) :
    got = all.drop offset := by
  induction hread with
  | last hpage => exact h.eq_of_last hpage
  | more hpage _ ih => rw [ih, h.append_drop hpage]

/-- There is a reading from every offset. -/
theorem exists_reading (h : PagesOf page all) (n : Nat) : ∀ offset : Nat,
    offset ≤ all.length → all.length - offset = n → Reading page offset (all.drop offset) := by
  induction n using Nat.strong_induction_on with
  | h n ih =>
    intro offset hoffset hn
    obtain ⟨items, more, hpage⟩ := h.answers offset hoffset
    cases more with
    | false =>
      have hread := Reading.last hpage
      rwa [h.eq_of_last hpage] at hread
    | true =>
      have hpos : 0 < items.length := by
        refine List.length_pos_iff.mpr fun hempty => ?_
        rw [hempty] at hpage
        simpa using h.progress hpage
      have hends : offset + items.length < all.length := by simpa using (h.ends hpage).symm
      have hrest := ih (all.length - (offset + items.length)) (by omega) (offset + items.length)
        hends.le rfl
      rw [← h.append_drop hpage]
      exact .more hpage hrest

/-- A reading of the whole list gathers it, each item once and in order, and there is one. -/
theorem reading_iff (h : PagesOf page all) : Reading page 0 got ↔ got = all := by
  constructor
  · exact fun hread => h.eq_of_reading hread
  · rintro rfl
    exact h.exists_reading _ 0 (Nat.zero_le _) rfl

end PagesOf

end Mabel.Paging
