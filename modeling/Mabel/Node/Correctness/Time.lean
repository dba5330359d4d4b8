import Mabel.Core.Calendar
import Mabel.Node.Time

/-!
# Rendered times are civil times

The day number is split into eras of 400 years, the era into years that start in March, and the
year into months. Every day has one place in that split, the next day has the next place, and the
dates of the two follow each other in the calendar. No step of it leaves the range of a `u64`.
-/

namespace Mabel.Node

open Calendar

/-- The date that a day number is rendered as. -/
def civilDate (days : Nat) : Date :=
  ⟨(civilFromDays days).1, (civilFromDays days).2.1, (civilFromDays days).2.2⟩

/-! ## Years of an era -/

/-- The days of an era without those that only leap years have. -/
def commonDays (dayOfEra : Nat) : Nat :=
  dayOfEra - dayOfEra / 1460 + dayOfEra / 36524 - dayOfEra / 146096

/-- Later days have at least as many common days before them. -/
theorem commonDays_mono : Monotone commonDays := by
  apply monotone_nat_of_le_succ
  intro n
  have hera : 146096 ∣ n + 1 → 36524 ∣ n + 1 := Nat.dvd_trans (by decide)
  have hless : n / 1460 ≤ n := Nat.div_le_self ..
  simp only [commonDays, Nat.succ_div]
  generalize n / 1460 = fours at *
  generalize n / 36524 = centuries
  generalize n / 146096 = eras
  split_ifs <;> simp_all <;> omega

theorem commonDays_start : ∀ year < 400, 365 * year ≤ commonDays (marchStart year) := by
  decide +kernel

theorem commonDays_end :
    ∀ year < 400, commonDays (marchStart (year + 1) - 1) < 365 * (year + 1) := by
  decide +kernel

/-- The year of an era is found from the day of the era. -/
theorem yearOfEra_eq {year n : Nat} (hyear : year < 400) (hn : n < daysInYear (year + 1)) :
    commonDays (marchStart year + n) / 365 = year := by
  have hstart := commonDays_start year hyear
  have hend := commonDays_end year hyear
  have hlow : commonDays (marchStart year) ≤ commonDays (marchStart year + n) :=
    commonDays_mono (Nat.le_add_right ..)
  have hhigh : commonDays (marchStart year + n) ≤ commonDays (marchStart (year + 1) - 1) := by
    apply commonDays_mono
    rw [marchStart_succ]
    omega
  omega

/-- Four centuries repeat. -/
theorem marchStart_era (era year : Nat) :
    marchStart (era * 400 + year) = era * 146097 + marchStart year := by
  unfold marchStart
  omega

/-- A day of a year is a day of its era. -/
theorem marchStart_lt {year n : Nat} (hyear : year < 400) (hn : n < daysInYear (year + 1)) :
    marchStart year + n < 146097 := by
  have hend : ∀ year < 400, marchStart (year + 1) ≤ 146097 := by decide +kernel
  have := hend year hyear
  rw [marchStart_succ] at this
  omega

/-- The length of a year depends on its place in the era. -/
theorem daysInYear_era (era year : Nat) :
    daysInYear (era * 400 + year) = daysInYear year := by
  have h4 : (era * 400 + year) % 4 = year % 4 := by omega
  have h100 : (era * 400 + year) % 100 = year % 100 := by omega
  have h400 : (era * 400 + year) % 400 = year % 400 := by omega
  simp [daysInYear, isLeap, h4, h100, h400]

/-- Where the conversion finds a day: its era, the day of the era, the year of the era and the day
of that year. -/
theorem place_eq {days era year n : Nat} (h : days = marchStart (era * 400 + year) + n)
    (hyear : year < 400) (hn : n < daysInYear (year + 1)) :
    days / 146097 = era ∧ days % 146097 = marchStart year + n ∧
      (marchStart year + n - (marchStart year + n) / 1460 + (marchStart year + n) / 36524 -
        (marchStart year + n) / 146096) / 365 = year ∧
      marchStart year = 365 * year + year / 4 - year / 100 := by
  rw [marchStart_era] at h
  have hday := marchStart_lt hyear hn
  refine ⟨by omega, by omega, yearOfEra_eq hyear hn, ?_⟩
  rw [marchStart, Nat.div_eq_of_lt hyear, Nat.add_zero]

theorem exists_era (year : Nat) : ∃ era y, y < 400 ∧ year = era * 400 + y :=
  ⟨year / 400, year % 400, Nat.mod_lt _ (by decide), by omega⟩

/-- A day is rendered as the date of its place in its year from March on. -/
theorem civilDate_eq {days year n : Nat} (h : days + 719468 = marchStart year + n)
    (hn : n < daysInYear (year + 1)) : civilDate days = fromMarch year n := by
  obtain ⟨era, y, hy, rfl⟩ := exists_era year
  rw [Nat.add_assoc, daysInYear_era] at hn
  obtain ⟨hera, hdayOfEra, hyearOfEra, hstart⟩ := place_eq h hy hn
  have hlong := daysInYear_le (y + 1)
  unfold civilDate civilFromDays fromMarch
  simp only [hera, hdayOfEra, hyearOfEra, ← hstart, Nat.add_sub_cancel_left]
  split_ifs with hten hjanuary hjanuary
  · omega
  · ext <;> simp only
    omega
  · ext <;> simp only
    omega
  · omega

/-! ## Days in turn -/

theorem civilFromDays_zero : civilFromDays 0 = (1970, 1, 1) := by decide

/-- The day after is rendered as the date after. -/
theorem civilDate_succ (days : Nat) : civilDate (days + 1) = (civilDate days).next := by
  obtain ⟨year, n, hday, hn⟩ := exists_march (days + 719468)
  rw [civilDate_eq hday hn]
  by_cases hlast : n + 1 < daysInYear (year + 1)
  · have hnext : days + 1 + 719468 = marchStart year + (n + 1) := by omega
    rw [civilDate_eq hnext hlast, fromMarch_next year hlast]
  · have hstart := marchStart_succ year
    have hfirst : days + 1 + 719468 = marchStart (year + 1) + 0 := by omega
    rw [civilDate_eq hfirst (daysInYear_pos _), fromMarch_last year (by omega)]

/-- A day is rendered as a date, the one whose number it is. -/
theorem civilDate_spec (days : Nat) : (civilDate days).Valid ∧ (civilDate days).number = days := by
  induction days with
  | zero =>
    have hepoch : civilDate 0 = epoch := by
      rw [civilDate, civilFromDays_zero]
      rfl
    rw [hepoch]
    exact ⟨Date.valid_epoch, Date.number_epoch⟩
  | succ days ih =>
    rw [civilDate_succ]
    exact ⟨ih.1.next, by rw [ih.1.number_next, ih.2]⟩

/-! ## Civil times -/

/-- A date and a time of day, in whole seconds. -/
structure CivilTime where
  date : Date
  hour : Nat
  minute : Nat
  second : Nat

namespace CivilTime

/-- A civil time that the calendar and the clock have. -/
structure Valid (time : CivilTime) : Prop where
  date : time.date.Valid
  hour : time.hour < 24
  minute : time.minute < 60
  second : time.second < 60

/-- The seconds from the start of 1970 to a civil time. -/
def seconds (time : CivilTime) : Nat :=
  ((time.date.number * 24 + time.hour) * 60 + time.minute) * 60 + time.second

/-- A civil time as RFC 3339 spells it. -/
def text (time : CivilTime) : String :=
  s!"{zeroPadded 4 time.date.year}-{zeroPadded 2 time.date.month}-{zeroPadded 2 time.date.day}T" ++
    s!"{zeroPadded 2 time.hour}:{zeroPadded 2 time.minute}:{zeroPadded 2 time.second}Z"

/-- The civil time of a number of seconds. -/
def ofSeconds (seconds : Nat) : CivilTime where
  date := civilDate (seconds / 86400)
  hour := seconds % 86400 / 3600
  minute := seconds % 86400 % 3600 / 60
  second := seconds % 86400 % 60

/-- Every count of seconds is a valid time. -/
theorem valid_ofSeconds (seconds : Nat) : (ofSeconds seconds).Valid := by
  constructor
  · exact (civilDate_spec _).1
  all_goals
    simp only [ofSeconds]
    omega

theorem seconds_ofSeconds (s : Nat) : (ofSeconds s).seconds = s := by
  simp only [seconds, ofSeconds, (civilDate_spec _).2]
  omega

/-- No two civil times have one number of seconds. -/
theorem Valid.eq_of_seconds {time other : CivilTime} (h : time.Valid) (hother : other.Valid)
    (hseconds : time.seconds = other.seconds) : time = other := by
  have hhour := h.hour
  have hhour' := hother.hour
  have hminute := h.minute
  have hminute' := hother.minute
  have hsecond := h.second
  have hsecond' := hother.second
  unfold seconds at hseconds
  have hnumber : time.date.number = other.date.number := by omega
  have hdate := h.date.eq_of_number hother.date hnumber
  cases time
  cases other
  simp only [mk.injEq]
  simp only at hdate hseconds hnumber hhour hhour' hminute hminute' hsecond hsecond'
  exact ⟨hdate, by omega, by omega, by omega⟩

end CivilTime

theorem rfc3339Utc_eq (timestampMs : Nat) :
    rfc3339Utc timestampMs = (CivilTime.ofSeconds (timestampMs / 1000)).text := rfl

/-! ## In 64 bits -/

section Checked

variable {ε : Type} {a b : Nat}

theorem checkedAdd_eq (h : a + b < 2 ^ 64) : (checkedAdd a b : Outcome ε Nat) = .ok (a + b) :=
  if_pos h

theorem checkedSub_eq (h : b ≤ a) : (checkedSub a b : Outcome ε Nat) = .ok (a - b) :=
  if_pos h

theorem checkedMul_eq (h : a * b < 2 ^ 64) : (checkedMul a b : Outcome ε Nat) = .ok (a * b) :=
  if_pos h

/-- What a `u32` holds, a `u64` holds. -/
theorem lt_of_lt_u32 (h : a < 2 ^ 32) : a < 2 ^ 64 := h.trans (by decide)

/-- A day number that leaves room for the days before 1970 is rendered within 64 bits. -/
theorem civilFromDaysU64_eq {days : Nat} (h : days + 719468 < 2 ^ 64) :
    (civilFromDaysU64 days : Outcome ε (Nat × Nat × Nat)) = .ok (civilFromDays days) := by
  obtain ⟨year, n, hday, hn⟩ := exists_march (days + 719468)
  obtain ⟨era, y, hy, rfl⟩ := exists_era year
  rw [Nat.add_assoc, daysInYear_era] at hn
  obtain ⟨hera, hdayOfEra, hyearOfEra, hstart⟩ := place_eq hday hy hn
  have hlong := daysInYear_le (y + 1)
  have hshort := marchStart_lt hy hn
  -- A year of the calendar has more than one day, so no later year is counted past the days.
  have hyears : y + era * 400 + 1 < 2 ^ 64 := lt_of_le_of_lt (by omega) h
  have heras : era * 400 < 2 ^ 64 := lt_of_le_of_lt (by omega) hyears
  have hyear : y + era * 400 < 2 ^ 64 := lt_of_le_of_lt (by omega) hyears
  unfold civilFromDaysU64 civilFromDays
  rw [checkedAdd_eq h, Outcome.ok_bind]
  simp only [hera, hdayOfEra]
  rw [checkedSub_eq (Nat.div_le_self ..), Outcome.ok_bind,
    checkedAdd_eq (lt_of_lt_u32 (by omega)), Outcome.ok_bind, checkedSub_eq (by omega),
    Outcome.ok_bind, hyearOfEra, checkedMul_eq heras, Outcome.ok_bind,
    checkedAdd_eq hyear, Outcome.ok_bind]
  rw [checkedMul_eq (lt_of_lt_u32 (by omega)), Outcome.ok_bind,
    checkedAdd_eq (lt_of_lt_u32 (by omega)), Outcome.ok_bind, checkedSub_eq (by omega),
    Outcome.ok_bind, ← hstart, checkedSub_eq (by omega), Outcome.ok_bind,
    Nat.add_sub_cancel_left]
  rw [checkedMul_eq (lt_of_lt_u32 (by omega)), Outcome.ok_bind,
    checkedAdd_eq (lt_of_lt_u32 (by omega)), Outcome.ok_bind,
    checkedMul_eq (lt_of_lt_u32 (by omega)), Outcome.ok_bind,
    checkedAdd_eq (lt_of_lt_u32 (by omega)), Outcome.ok_bind, checkedSub_eq (by omega),
    Outcome.ok_bind, checkedAdd_eq (lt_of_lt_u32 (by omega)), Outcome.ok_bind]
  by_cases hten : (5 * n + 2) / 153 < 10
  · have hmarch : ¬ (5 * n + 2) / 153 + 3 ≤ 2 := by omega
    rw [if_pos hten, if_pos hten, checkedAdd_eq (lt_of_lt_u32 (by omega)), Outcome.ok_bind,
      if_neg hmarch, if_neg hmarch, Outcome.ok_bind]
  · have hjanuary : (5 * n + 2) / 153 - 9 ≤ 2 := by omega
    rw [if_neg hten, if_neg hten, checkedSub_eq (by omega), Outcome.ok_bind, if_pos hjanuary,
      if_pos hjanuary, checkedAdd_eq hyears, Outcome.ok_bind]

/-- No timestamp leaves 64 bits on its way to text. -/
theorem rfc3339UtcU64_eq {timestampMs : Nat} (h : timestampMs < 2 ^ 64) :
    (rfc3339UtcU64 timestampMs : Outcome ε String) = .ok (rfc3339Utc timestampMs) := by
  have hdays : timestampMs / 1000 / 86400 + 719468 < 2 ^ 64 := by omega
  unfold rfc3339UtcU64
  dsimp only
  rw [civilFromDaysU64_eq hdays, Outcome.ok_bind]
  rfl

end Checked

/-- A timestamp is rendered, without leaving 64 bits, as the one civil time it stands for. Days are
rendered as the dates of the calendar in turn from the first of 1970 on. -/
theorem rfc3339_exact :
    (∀ timestampMs < 2 ^ 64,
      (rfc3339UtcU64 timestampMs : Outcome Empty String) = .ok (rfc3339Utc timestampMs)) ∧
    (∀ days, days + 719468 < 2 ^ 64 →
      (civilFromDaysU64 days : Outcome Empty (Nat × Nat × Nat)) = .ok (civilFromDays days)) ∧
    civilFromDays 0 = (1970, 1, 1) ∧
    (∀ days, (civilDate days).Valid ∧ civilDate (days + 1) = (civilDate days).next) ∧
    ∀ timestampMs, ∃ time : CivilTime, time.Valid ∧ time.seconds = timestampMs / 1000 ∧
      rfc3339Utc timestampMs = time.text ∧
      ∀ other : CivilTime, other.Valid → other.seconds = timestampMs / 1000 → other = time := by
  refine ⟨fun _ h => rfc3339UtcU64_eq h, fun _ h => civilFromDaysU64_eq h, civilFromDays_zero,
    fun days => ⟨(civilDate_spec days).1, civilDate_succ days⟩, fun timestampMs => ?_⟩
  have hvalid := CivilTime.valid_ofSeconds (timestampMs / 1000)
  have hseconds := CivilTime.seconds_ofSeconds (timestampMs / 1000)
  exact ⟨_, hvalid, hseconds, rfc3339Utc_eq timestampMs, fun other hother h =>
    hother.eq_of_seconds hvalid (h.trans hseconds.symm)⟩

example : rfc3339Utc 1709164800000 = "2024-02-29T00:00:00Z" := by decide +kernel

end Mabel.Node
