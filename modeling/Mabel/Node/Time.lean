import Mathlib.Algebra.Group.Nat.Defs
import Mabel.Core.Outcome

/-!
# Times as text

A timestamp is a count of milliseconds, and what a person reads is its UTC civil time. The
conversion is integer arithmetic on `u64` values, and nothing before it bounds a timestamp.
-/

namespace Mabel.Node

/-- Days since 1970-01-01 as a civil date. -/
def civilFromDays (days : Nat) : Nat × Nat × Nat :=
  let days := days + 719468
  let era := days / 146097
  let dayOfEra := days % 146097
  let yearOfEra := (dayOfEra - dayOfEra / 1460 + dayOfEra / 36524 - dayOfEra / 146096) / 365
  let year := yearOfEra + era * 400
  let dayOfYear := dayOfEra - (365 * yearOfEra + yearOfEra / 4 - yearOfEra / 100)
  let shiftedMonth := (5 * dayOfYear + 2) / 153
  let day := dayOfYear - (153 * shiftedMonth + 2) / 5 + 1
  let month := if shiftedMonth < 10 then shiftedMonth + 3 else shiftedMonth - 9
  (if month ≤ 2 then year + 1 else year, month, day)

/-- A number with zeros before it up to a width. -/
def zeroPadded (width n : Nat) : String :=
  let digits := toString n
  String.ofList (List.replicate (width - digits.length) '0') ++ digits

/-- Unix milliseconds as RFC 3339 UTC, in whole seconds. -/
def rfc3339Utc (timestampMs : Nat) : String :=
  let seconds := timestampMs / 1000
  let days := seconds / 86400
  let time := seconds % 86400
  let (year, month, day) := civilFromDays days
  s!"{zeroPadded 4 year}-{zeroPadded 2 month}-{zeroPadded 2 day}T" ++
    s!"{zeroPadded 2 (time / 3600)}:{zeroPadded 2 (time % 3600 / 60)}:{zeroPadded 2 (time % 60)}Z"

/-! ## In 64 bits

The same computation with every sum, difference and product held to a `u64`. -/

/-- A sum of two `u64` values. -/
def checkedAdd {ε : Type} (a b : Nat) : Outcome ε Nat :=
  if a + b < 2 ^ 64 then .ok (a + b) else Outcome.panic "attempt to add with overflow"

/-- A difference of two `u64` values. -/
def checkedSub {ε : Type} (a b : Nat) : Outcome ε Nat :=
  if b ≤ a then .ok (a - b) else Outcome.panic "attempt to subtract with overflow"

/-- A product of two `u64` values. -/
def checkedMul {ε : Type} (a b : Nat) : Outcome ε Nat :=
  if a * b < 2 ^ 64 then .ok (a * b) else Outcome.panic "attempt to multiply with overflow"

/-- `civilFromDays` in 64 bits. -/
def civilFromDaysU64 {ε : Type} (days : Nat) : Outcome ε (Nat × Nat × Nat) := do
  let days ← checkedAdd days 719468
  let era := days / 146097
  let dayOfEra := days % 146097
  let yearOfEra ← checkedSub dayOfEra (dayOfEra / 1460)
  let yearOfEra ← checkedAdd yearOfEra (dayOfEra / 36524)
  let yearOfEra ← checkedSub yearOfEra (dayOfEra / 146096)
  let yearOfEra := yearOfEra / 365
  let eraYears ← checkedMul era 400
  let year ← checkedAdd yearOfEra eraYears
  let dayOfYear ← checkedMul 365 yearOfEra
  let dayOfYear ← checkedAdd dayOfYear (yearOfEra / 4)
  let dayOfYear ← checkedSub dayOfYear (yearOfEra / 100)
  let dayOfYear ← checkedSub dayOfEra dayOfYear
  let shiftedMonth ← checkedMul 5 dayOfYear
  let shiftedMonth ← checkedAdd shiftedMonth 2
  let shiftedMonth := shiftedMonth / 153
  let day ← checkedMul 153 shiftedMonth
  let day ← checkedAdd day 2
  let day ← checkedSub dayOfYear (day / 5)
  let day ← checkedAdd day 1
  let month ← if shiftedMonth < 10 then checkedAdd shiftedMonth 3 else checkedSub shiftedMonth 9
  let year ← if month ≤ 2 then checkedAdd year 1 else .ok year
  .ok (year, month, day)

/-- `rfc3339Utc` in 64 bits. What is left of it divides. -/
def rfc3339UtcU64 {ε : Type} (timestampMs : Nat) : Outcome ε String := do
  let seconds := timestampMs / 1000
  let days := seconds / 86400
  let time := seconds % 86400
  let (year, month, day) ← civilFromDaysU64 days
  .ok <| s!"{zeroPadded 4 year}-{zeroPadded 2 month}-{zeroPadded 2 day}T" ++
    s!"{zeroPadded 2 (time / 3600)}:{zeroPadded 2 (time % 3600 / 60)}:{zeroPadded 2 (time % 60)}Z"

end Mabel.Node
