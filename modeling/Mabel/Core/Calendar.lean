import Mathlib.Algebra.Order.Ring.Nat
import Mathlib.Tactic.Common
import Mathlib.Tactic.IntervalCases

/-!
# The proleptic Gregorian calendar

Dates with the lengths of their months, the day after a date, and the number of a date counted
from the first day of 1970. The number of the next day is the next number, and no two dates
share one. A second count starts years in March, so that the day a leap year adds is the last of
its year and every month before it lies at a fixed place.
-/

namespace Calendar

/-- Whether a year has a day more than the others. -/
def isLeap (year : Nat) : Bool := year % 4 = 0 ∧ (year % 100 ≠ 0 ∨ year % 400 = 0)

/-- The length of a month. -/
def daysInMonth (year month : Nat) : Nat :=
  match month with
  | 2 => if isLeap year then 29 else 28
  | 4 | 6 | 9 | 11 => 30
  | _ => 31

/-- The length of a year. -/
def daysInYear (year : Nat) : Nat := if isLeap year then 366 else 365

/-- A calendar date. -/
@[ext] structure Date where
  year : Nat
  month : Nat
  day : Nat
  deriving DecidableEq, Repr

/-- A date that the calendar has, not before 1970. -/
structure Date.Valid (date : Date) : Prop where
  year : 1970 ≤ date.year
  month : 1 ≤ date.month ∧ date.month ≤ 12
  day : 1 ≤ date.day ∧ date.day ≤ daysInMonth date.year date.month

/-- The day after a date. -/
def Date.next (date : Date) : Date :=
  if date.day < daysInMonth date.year date.month then { date with day := date.day + 1 }
  else if date.month < 12 then ⟨date.year, date.month + 1, 1⟩
  else ⟨date.year + 1, 1, 1⟩

/-- The first day of 1970. -/
def epoch : Date := ⟨1970, 1, 1⟩

/-! ## Numbers of days -/

/-- The days of a year before one of its months. -/
def daysBeforeMonth (year month : Nat) : Nat :=
  ((List.range (month - 1)).map fun m => daysInMonth year (m + 1)).sum

/-- The days from 1970 to the start of a year. -/
def daysBeforeYear (year : Nat) : Nat :=
  ((List.range (year - 1970)).map fun y => daysInYear (1970 + y)).sum

/-- The days from the first of 1970 to a date. -/
def Date.number (date : Date) : Nat :=
  daysBeforeYear date.year + daysBeforeMonth date.year date.month + (date.day - 1)

/-- The days before the next year. -/
theorem daysBeforeYear_succ {year : Nat} (h : 1970 ≤ year) :
    daysBeforeYear (year + 1) = daysBeforeYear year + daysInYear year := by
  obtain ⟨y, rfl⟩ := Nat.exists_eq_add_of_le h
  simp [daysBeforeYear, Nat.add_assoc, List.range_succ]

/-- The days before the next month. -/
theorem daysBeforeMonth_succ {year month : Nat} (h : 1 ≤ month) :
    daysBeforeMonth year (month + 1) = daysBeforeMonth year month + daysInMonth year month := by
  obtain ⟨m, rfl⟩ := Nat.exists_eq_add_of_le' h
  simp [daysBeforeMonth, List.range_succ]

/-- Later years begin later. -/
theorem daysBeforeYear_mono : Monotone daysBeforeYear := by
  apply monotone_nat_of_le_succ
  intro year
  by_cases h : 1970 ≤ year
  · rw [daysBeforeYear_succ h]
    exact Nat.le_add_right _ _
  · simp [daysBeforeYear, show year - 1970 = 0 by omega]

/-- Later months of a year begin later. -/
theorem daysBeforeMonth_mono (year : Nat) : Monotone (daysBeforeMonth year) := by
  apply monotone_nat_of_le_succ
  intro month
  by_cases h : 1 ≤ month
  · rw [daysBeforeMonth_succ h]
    exact Nat.le_add_right _ _
  · simp [daysBeforeMonth, show month - 1 = 0 by omega]

/-- The months of a year make up the year. -/
theorem daysBeforeMonth_end (year : Nat) : daysBeforeMonth year 13 = daysInYear year := by
  cases h : isLeap year <;>
    simp [daysBeforeMonth, daysInMonth, daysInYear, h, List.range_succ]

theorem daysInYear_pos (year : Nat) : 0 < daysInYear year := by
  unfold daysInYear
  split_ifs <;> decide

theorem daysInYear_le (year : Nat) : daysInYear year ≤ 366 := by
  unfold daysInYear
  split_ifs <;> decide

/-- A month has a day. -/
theorem daysInMonth_pos (year month : Nat) : 1 ≤ daysInMonth year month := by
  unfold daysInMonth
  split
  · split_ifs <;> decide
  all_goals decide

/-! ## Dates in order -/

namespace Date

variable {date other : Date}

theorem valid_epoch : epoch.Valid := ⟨by decide, by decide, by decide⟩

theorem number_epoch : epoch.number = 0 := by decide

/-- The day after a date is a date. -/
theorem Valid.next (h : date.Valid) : date.next.Valid := by
  obtain ⟨hyear, hmonth, hday⟩ := h
  unfold Date.next
  split_ifs with hlast hend
  · exact ⟨hyear, hmonth, Nat.le_add_left .., hlast⟩
  · exact ⟨hyear, ⟨Nat.le_add_left .., hend⟩, le_rfl, daysInMonth_pos ..⟩
  · exact ⟨Nat.le_succ_of_le hyear, ⟨le_rfl, by simp⟩, le_rfl, daysInMonth_pos ..⟩

/-- A date lies in its month. -/
theorem Valid.day_lt (h : date.Valid) :
    daysBeforeMonth date.year date.month + (date.day - 1) <
      daysBeforeMonth date.year (date.month + 1) := by
  have hday := h.day
  rw [daysBeforeMonth_succ h.month.1]
  omega

/-- A date lies in its year. -/
theorem Valid.number_lt (h : date.Valid) : date.number < daysBeforeYear (date.year + 1) := by
  have hmonths : daysBeforeMonth date.year (date.month + 1) ≤ daysInYear date.year := by
    rw [← daysBeforeMonth_end]
    exact daysBeforeMonth_mono _ (Nat.succ_le_succ h.month.2)
  have hday := h.day_lt
  rw [number, daysBeforeYear_succ h.year]
  omega

/-- The day after a date has the next number. -/
theorem Valid.number_next (h : date.Valid) : date.next.number = date.number + 1 := by
  have hmonth := h.month
  have hday := h.day
  unfold Date.next number
  split_ifs with hlast hend
  · simp only [Nat.add_sub_cancel]
    omega
  · simp only [daysBeforeMonth_succ hmonth.1]
    omega
  · have hdecember : date.month = 12 := by omega
    have hyear := daysBeforeMonth_end date.year
    have hstart : daysBeforeMonth (date.year + 1) 1 = 0 := rfl
    rw [daysBeforeMonth_succ (by decide)] at hyear
    rw [hdecember] at hlast hday ⊢
    simp only [daysBeforeYear_succ h.year, hstart]
    omega

/-- No two dates share a number. -/
theorem Valid.eq_of_number (h : date.Valid) (hother : other.Valid)
    (hnumber : date.number = other.number) : date = other := by
  have hearlier : ∀ {a b : Date}, a.Valid → a.number = b.number → ¬ a.year < b.year := by
    intro a b ha hab hlt
    have hlast := ha.number_lt
    have hmono := daysBeforeYear_mono (Nat.succ_le_of_lt hlt)
    have hfirst : daysBeforeYear b.year ≤ b.number := Nat.le_add_right_of_le (Nat.le_add_right ..)
    rw [Nat.succ_eq_add_one] at hmono
    omega
  have hyear : date.year = other.year := by
    have := hearlier h hnumber
    have := hearlier hother hnumber.symm
    omega
  have hsame : daysBeforeMonth date.year date.month + (date.day - 1) =
      daysBeforeMonth date.year other.month + (other.day - 1) := by
    rw [number, number, ← hyear] at hnumber
    omega
  have hbefore : ∀ {a b : Date}, a.Valid → a.year = date.year →
      daysBeforeMonth date.year a.month + (a.day - 1) =
        daysBeforeMonth date.year b.month + (b.day - 1) → ¬ a.month < b.month := by
    intro a b ha hayear hab hlt
    have hlast := ha.day_lt
    rw [hayear] at hlast
    have hmono := daysBeforeMonth_mono date.year (Nat.succ_le_of_lt hlt)
    rw [Nat.succ_eq_add_one] at hmono
    omega
  have hmonth : date.month = other.month := by
    have := hbefore h rfl hsame
    have := hbefore hother hyear.symm hsame.symm
    omega
  rw [hmonth] at hsame
  have hday := h.day
  have hday' := hother.day
  ext
  · exact hyear
  · exact hmonth
  · omega

end Date

/-! ## Years from March -/

/-- The days from the first of March of year 0 to the first of March of a year. -/
def marchStart (year : Nat) : Nat := 365 * year + year / 4 - year / 100 + year / 400

/-- The date some days after the first of March of a year, before the next first of March. Five
months from March on have 153 days, and so have the next five. -/
def fromMarch (year days : Nat) : Date :=
  let month := (5 * days + 2) / 153
  let day := days - (153 * month + 2) / 5 + 1
  if month < 10 then ⟨year, month + 3, day⟩ else ⟨year + 1, month - 9, day⟩

/-- The year from March on is as long as the calendar year that its February lies in. -/
theorem marchStart_succ (year : Nat) :
    marchStart (year + 1) = marchStart year + daysInYear (year + 1) := by
  have hcenturies : year / 100 ≤ year / 4 := Nat.div_le_div_left (by decide) (by decide)
  have h100 : (year + 1) % 100 = 0 → (year + 1) % 4 = 0 := by omega
  have h400 : (year + 1) % 400 = 0 → (year + 1) % 100 = 0 := by omega
  simp only [marchStart, Nat.succ_div, Nat.dvd_iff_mod_eq_zero, daysInYear, isLeap]
  generalize year / 4 = fours at *
  generalize year / 100 = centuries at *
  generalize year / 400 = eras at *
  by_cases hfour : (year + 1) % 4 = 0
  · by_cases hcentury : (year + 1) % 100 = 0
    · by_cases hera : (year + 1) % 400 = 0
      · simp only [hfour, hcentury, hera]
        simp
        omega
      · simp [hfour, hcentury, hera]
        omega
    · have hera : ¬ (year + 1) % 400 = 0 := fun h => hcentury (h400 h)
      simp [hfour, hcentury, hera]
      omega
  · have hcentury : ¬ (year + 1) % 100 = 0 := fun h => hfour (h100 h)
    have hera : ¬ (year + 1) % 400 = 0 := fun h => hcentury (h400 h)
    simp [hfour, hcentury, hera]
    omega

/-- Every day lies in one year from March on. -/
theorem exists_march (days : Nat) :
    ∃ year n, days = marchStart year + n ∧ n < daysInYear (year + 1) := by
  induction days with
  | zero => exact ⟨0, 0, rfl, by decide⟩
  | succ days ih =>
    obtain ⟨year, n, rfl, hn⟩ := ih
    by_cases hlast : n + 1 < daysInYear (year + 1)
    · exact ⟨year, n + 1, rfl, hlast⟩
    · refine ⟨year + 1, 0, ?_, ?_⟩
      · rw [marchStart_succ]
        omega
      · exact daysInYear_pos _

/-- The date of a day in the `month`-th month from March on. -/
theorem fromMarch_eq (year : Nat) {month days : Nat} (hstart : 153 * month ≤ 5 * days + 2)
    (hend : 5 * days + 2 < 153 * (month + 1)) :
    fromMarch year days =
      if month < 10 then ⟨year, month + 3, days - (153 * month + 2) / 5 + 1⟩
      else ⟨year + 1, month - 9, days - (153 * month + 2) / 5 + 1⟩ := by
  have hmonth : (5 * days + 2) / 153 = month := by omega
  simp only [fromMarch, hmonth]

/-- A month from March on and before February is as long as its place says. -/
theorem daysInMonth_march (year : Nat) {month : Nat} (h : month < 11) :
    daysInMonth year (if month < 10 then month + 3 else month - 9) =
      (153 * (month + 1) + 2) / 5 - (153 * month + 2) / 5 := by
  interval_cases month <;> rfl

/-- The next day of a year counted from March. -/
theorem fromMarch_next (year : Nat) {n : Nat} (h : n + 1 < daysInYear (year + 1)) :
    (fromMarch year n).next = fromMarch year (n + 1) := by
  obtain ⟨month, hmonth⟩ : ∃ month, (5 * n + 2) / 153 = month := ⟨_, rfl⟩
  have hstart : 153 * month ≤ 5 * n + 2 := by omega
  have hend : 5 * n + 2 < 153 * (month + 1) := by omega
  rw [fromMarch_eq year hstart hend]
  by_cases hfebruary : month < 11
  · have hlength := daysInMonth_march year hfebruary
    have hlength' := daysInMonth_march (year + 1) hfebruary
    by_cases hsame : 5 * (n + 1) + 2 < 153 * (month + 1)
    · rw [fromMarch_eq year (by omega) hsame]
      split_ifs at hlength hlength' ⊢ with hten
      · rw [Date.next, if_pos (by simp only [hlength]; omega)]
        ext <;> simp only
        omega
      · rw [Date.next, if_pos (by simp only [hlength']; omega)]
        ext <;> simp only
        omega
    · rw [fromMarch_eq year (show 153 * (month + 1) ≤ 5 * (n + 1) + 2 by omega) (by omega)]
      by_cases hten : month < 10
      · rw [if_pos hten] at hlength ⊢
        rw [Date.next, if_neg (by simp only [hlength]; omega)]
        by_cases hnine : month < 9
        · rw [if_pos (show month + 3 < 12 by omega), if_pos (by omega)]
          ext <;> simp only
          omega
        · rw [if_neg (show ¬ month + 3 < 12 by omega), if_neg (by omega)]
          ext <;> simp only <;> omega
      · rw [if_neg hten] at hlength' ⊢
        rw [Date.next, if_neg (by simp only [hlength']; omega), if_pos (by simp only; omega),
          if_neg (by omega)]
        ext <;> simp only <;> omega
  · -- February goes on to the last day of the year from March on.
    have hyear : daysInYear (year + 1) = 337 + daysInMonth (year + 1) 2 := by
      cases hleap : isLeap (year + 1) <;> simp [daysInYear, daysInMonth, hleap]
    have hlength : daysInMonth (year + 1) 2 ≤ 29 := by
      cases hleap : isLeap (year + 1) <;> simp [daysInMonth, hleap]
    obtain rfl : month = 11 := by omega
    rw [fromMarch_eq year (show 153 * 11 ≤ 5 * (n + 1) + 2 by omega) (by omega), if_neg (by decide),
      if_neg (by decide), Date.next]
    simp only [Nat.reduceMul, Nat.reduceAdd, Nat.reduceDiv, Nat.reduceSub]
    rw [if_pos (by omega)]
    ext <;> simp only
    omega

/-- The last day of a year counted from March is followed by the first of the next. -/
theorem fromMarch_last (year : Nat) {n : Nat} (h : n + 1 = daysInYear (year + 1)) :
    (fromMarch year n).next = fromMarch (year + 1) 0 := by
  unfold daysInYear at h
  split_ifs at h with hleap
  · obtain rfl : n = 365 := by omega
    simp [fromMarch, Date.next, daysInMonth, hleap]
  · obtain rfl : n = 364 := by omega
    simp [fromMarch, Date.next, daysInMonth, hleap]

end Calendar
