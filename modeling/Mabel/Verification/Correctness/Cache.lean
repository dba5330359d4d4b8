import Mabel.Verification.Cache
import Mathlib.Data.List.DropRight

/-!
# What the verification cache holds

An entry is a function of the checks made since the hostname last changed. The last verdict that
is an answer stands when it is decisive, with the check that failed to refresh it beside it, and
the last outcome stands otherwise.
-/

namespace Mabel.Verification

/-- One check of a hostname and when it ran. -/
structure Check where
  outcome : VerificationOutcome
  nowMs : Nat

namespace Check

/-- Whether a check ended with an answer. -/
def answered (check : Check) : Bool := check.outcome.status ≠ .unreachable

/-- Whether a check found the record it looked for. -/
def verified (check : Check) : Bool := check.outcome.status = .verified

/-- Whether two checks are about one hostname. -/
def about (check other : Check) : Bool :=
  eqIgnoreAsciiCase check.outcome.hostname.toList other.outcome.hostname.toList

end Check

/-- The entry after one more check. -/
def fold (previous : Option VerificationEntry) (check : Check) : Option VerificationEntry :=
  some (merge previous check.outcome check.nowMs)

/-- The entry that a history of checks leaves, from no entry. -/
def folded (checks : List Check) : Option VerificationEntry := checks.foldl fold none

/-- The longest run of checks at the end of a history that are all about the hostname of its
last check. -/
def lastRun (checks : List Check) (last : Check) : List Check :=
  (checks ++ [last]).rtakeWhile (·.about last)

/-- The last check of a run that ended with an answer. -/
def lastAnswer (run : List Check) : Option Check := run.findRev? Check.answered

/-- The last check of a run that found the record. -/
def lastVerified (run : List Check) : Option Check := run.findRev? Check.verified

/-- The verdict that stands after a run: its last answer when that is decisive. -/
def standing (run : List Check) : Option Check :=
  (lastAnswer run).filter (·.outcome.status.isDecisive)

/-- What an entry says after a run of checks about one hostname. -/
structure Says (run : List Check) (last : Check) (entry : VerificationEntry) : Prop where
  hostname : entry.covers last.outcome.hostname
  verdict : ∀ m, standing run = some m →
    entry.status = m.outcome.status ∧ entry.detail = m.outcome.detail ∧
      entry.checkedAtMs = m.nowMs ∧
      entry.unreachable =
        if last.answered then none else some ⟨last.nowMs, last.outcome.detail⟩
  open_verdict : standing run = none →
    entry.status = last.outcome.status ∧ entry.detail = last.outcome.detail ∧
      entry.checkedAtMs = last.nowMs ∧ entry.unreachable = none
  verified : entry.lastVerifiedAtMs = (lastVerified run).map Check.nowMs

variable {checks : List Check} {last prev : Check} {entry : VerificationEntry}

/-! ## Hostnames -/

theorem Check.about_self (check : Check) : check.about check = true := by
  simp [about, eqIgnoreAsciiCase]

theorem Check.about_comm (check other : Check) : check.about other = other.about check := by
  simp [about, eqIgnoreAsciiCase, eq_comm]

/-- A check about the hostname of another is about the same hostnames as the other. -/
theorem Check.about_congr (h : prev.about last) (check : Check) :
    check.about prev = check.about last := by
  unfold about eqIgnoreAsciiCase at *
  rw [of_decide_eq_true h]

/-- An entry covers the hostname of a check when it covers one the check is about. -/
theorem VerificationEntry.covers_congr (h : entry.covers prev.outcome.hostname) :
    entry.covers last.outcome.hostname = prev.about last := by
  unfold covers Check.about eqIgnoreAsciiCase at *
  rw [of_decide_eq_true h]

/-! ## Runs -/

@[simp] theorem lastRun_nil : lastRun [] last = [last] := by
  simp [lastRun, Check.about_self]

/-- A further check prolongs the run of the one before it, or starts a run of its own. -/
theorem lastRun_concat : lastRun (checks ++ [prev]) last =
    if prev.about last then lastRun checks prev ++ [last] else [last] := by
  unfold lastRun
  rw [List.rtakeWhile_concat, if_pos last.about_self]
  split_ifs with h
  · have hsame : (fun check : Check => check.about last) = (·.about prev) := by
      ext check
      rw [Check.about_congr h]
    rw [hsame]
  · rw [List.rtakeWhile_concat, if_neg h, List.nil_append]

/-- The search from the end looks at the last check first. -/
theorem findRev?_concat (p : Check → Bool) (run : List Check) (last : Check) :
    (run ++ [last]).findRev? p = if p last then some last else run.findRev? p := by
  rw [List.findRev?_eq_find?_reverse, List.findRev?_eq_find?_reverse, List.reverse_concat,
    List.find?_cons]
  cases p last <;> rfl

/-- A check with an answer stands when it is decisive, and one without leaves what stood. -/
theorem standing_concat (run : List Check) (last : Check) : standing (run ++ [last]) =
    if last.answered then (some last).filter (·.outcome.status.isDecisive) else standing run := by
  unfold standing lastAnswer
  rw [findRev?_concat]
  split_ifs <;> rfl

theorem lastVerified_concat (run : List Check) (last : Check) : lastVerified (run ++ [last]) =
    if last.verified then some last else lastVerified run :=
  findRev?_concat _ _ _

theorem standing_isDecisive {run : List Check} {m : Check} (h : standing run = some m) :
    m.outcome.status.isDecisive = true :=
  (Option.filter_eq_some_iff.mp h).2

/-- A run whose last check is decisive has a verdict that stands. -/
theorem standing_eq_none {run : List Check} (h : standing (run ++ [last]) = none) :
    last.outcome.status.isDecisive = false := by
  rw [standing_concat] at h
  cases hstatus : last.outcome.status <;> simp_all [Check.answered, VerificationStatus.isDecisive]

/-! ## One check -/

/-- What a first entry says. -/
theorem Says.first : Says [last] last (.first last.outcome last.nowMs) := by
  have hstanding := standing_concat [] last
  have hverified := lastVerified_concat [] last
  rw [List.nil_append] at hstanding hverified
  constructor
  · exact last.about_self
  · intro m hm
    rw [hstanding] at hm
    split_ifs at hm with hanswered
    · obtain ⟨hlast, -⟩ := Option.filter_eq_some_iff.mp hm
      obtain rfl : last = m := Option.some.inj hlast
      exact ⟨rfl, rfl, rfl, by rw [if_pos hanswered]; rfl⟩
    · exact absurd hm (by simp [standing, lastAnswer])
  · intro _
    exact ⟨rfl, rfl, rfl, rfl⟩
  · rw [hverified]
    unfold Check.verified VerificationEntry.first
    split_ifs <;> simp_all [lastVerified]

/-- An entry with a decisive verdict notes a check without an answer beside it. -/
theorem merge_keep (hcovers : entry.covers last.outcome.hostname)
    (hanswer : last.answered = false) (hdecisive : entry.status.isDecisive) :
    merge (some entry) last.outcome last.nowMs =
      { entry with unreachable := some ⟨last.nowMs, last.outcome.detail⟩ } := by
  have hstatus : last.outcome.status = .unreachable := by simpa [Check.answered] using hanswer
  unfold merge
  rw [Option.filter_some, if_pos hcovers]
  exact if_pos ⟨hstatus, hdecisive⟩

/-- Every other outcome about its hostname becomes the entry, which keeps when it last
verified. -/
theorem merge_replace (hcovers : entry.covers last.outcome.hostname)
    (h : last.answered = true ∨ entry.status.isDecisive = false) :
    merge (some entry) last.outcome last.nowMs =
      { VerificationEntry.first last.outcome last.nowMs with
        lastVerifiedAtMs :=
          if last.verified then some last.nowMs else entry.lastVerifiedAtMs } := by
  have hkeep : ¬ (last.outcome.status = .unreachable ∧ entry.status.isDecisive = true) := by
    rintro ⟨hstatus, hdecisive⟩
    simp [Check.answered, hstatus, hdecisive] at h
  unfold merge
  rw [Option.filter_some, if_pos hcovers]
  simp only [if_neg hkeep, VerificationEntry.first, Check.verified, decide_eq_true_eq]

/-- An outcome about another hostname starts over. -/
theorem merge_again (hcovers : entry.covers last.outcome.hostname = false) :
    merge (some entry) last.outcome last.nowMs = .first last.outcome last.nowMs := by
  unfold merge
  rw [Option.filter_some, hcovers]
  rfl

/-- What an entry says after one more check about its hostname. -/
theorem Says.next {run : List Check} (h : Says (run ++ [prev]) prev entry)
    (habout : prev.about last) :
    Says (run ++ [prev] ++ [last]) last (merge (some entry) last.outcome last.nowMs) := by
  have hcovers : entry.covers last.outcome.hostname = true := by
    rw [VerificationEntry.covers_congr h.hostname]
    exact habout
  have hstanding := standing_concat (run ++ [prev]) last
  have hverified := lastVerified_concat (run ++ [prev]) last
  cases hanswer : last.answered with
  | true =>
    rw [merge_replace hcovers (.inl hanswer)]
    rw [if_pos hanswer] at hstanding
    constructor
    · exact last.about_self
    · intro m hm
      rw [hstanding] at hm
      obtain ⟨hlast, -⟩ := Option.filter_eq_some_iff.mp hm
      obtain rfl : last = m := Option.some.inj hlast
      exact ⟨rfl, rfl, rfl, by rw [if_pos hanswer]; rfl⟩
    · intro _
      exact ⟨rfl, rfl, rfl, rfl⟩
    · rw [hverified]
      split_ifs
      · rfl
      · exact h.verified
  | false =>
    have hlater : last.verified = false := by
      have hstatus : last.outcome.status = .unreachable := by
        simpa [Check.answered] using hanswer
      simp [Check.verified, hstatus]
    rw [hanswer, if_neg Bool.false_ne_true] at hstanding
    rw [hlater, if_neg Bool.false_ne_true] at hverified
    cases hstands : standing (run ++ [prev]) with
    | some m =>
      obtain ⟨hstatus, hdetail, hchecked, -⟩ := h.verdict m hstands
      have hdecisive : entry.status.isDecisive = true := by
        rw [hstatus]
        exact standing_isDecisive hstands
      rw [merge_keep hcovers hanswer hdecisive]
      constructor
      · exact hcovers
      · intro other hother
        rw [hstanding, hstands] at hother
        obtain rfl : m = other := Option.some.inj hother
        exact ⟨hstatus, hdetail, hchecked, by rw [hanswer]; rfl⟩
      · intro hnone
        rw [hstanding, hstands] at hnone
        cases hnone
      · rw [hverified]
        exact h.verified
    | none =>
      have hopen : entry.status.isDecisive = false := by
        rw [(h.open_verdict hstands).1]
        exact standing_eq_none hstands
      rw [merge_replace hcovers (.inr hopen)]
      constructor
      · exact last.about_self
      · intro other hother
        rw [hstanding, hstands] at hother
        cases hother
      · intro _
        exact ⟨rfl, rfl, rfl, rfl⟩
      · rw [hverified, hlater]
        exact h.verified

/-! ## A history -/

/-- A run of checks is the checks before the last one and the last one. -/
theorem lastRun_eq : lastRun checks last = checks.rtakeWhile (·.about last) ++ [last] := by
  unfold lastRun
  rw [List.rtakeWhile_concat, if_pos last.about_self]

theorem folded_concat : folded (checks ++ [last]) = fold (folded checks) last := by
  rw [folded, List.foldl_concat, folded]

/-- What the entry says after a history of checks. -/
theorem folded_says (checks : List Check) (last : Check) :
    ∃ entry, folded (checks ++ [last]) = some entry ∧ Says (lastRun checks last) last entry := by
  induction checks using List.reverseRecOn generalizing last with
  | nil =>
    refine ⟨_, rfl, ?_⟩
    rw [lastRun_nil]
    exact .first
  | append_singleton checks prev ih =>
    obtain ⟨entry, hfolded, hsays⟩ := ih prev
    rw [folded_concat, hfolded]
    refine ⟨_, rfl, ?_⟩
    rw [lastRun_concat]
    split_ifs with habout
    · rw [lastRun_eq] at hsays ⊢
      exact hsays.next habout
    · have hcovers : entry.covers last.outcome.hostname = false := by
        rw [VerificationEntry.covers_congr hsays.hostname]
        exact Bool.not_eq_true _ ▸ habout
      rw [merge_again hcovers]
      exact .first

/-- Checks that fail to answer leave a decisive verdict and when it was taken alone. -/
theorem failed_keep (hdecisive : entry.status.isDecisive) (failed : List Check)
    (hfailed : ∀ check ∈ failed, check.answered = false ∧ entry.covers check.outcome.hostname) :
    ∃ unreachable, failed.foldl fold (some entry) = some { entry with unreachable } := by
  induction failed using List.reverseRecOn with
  | nil => exact ⟨entry.unreachable, rfl⟩
  | append_singleton failed check ih =>
    obtain ⟨unreachable, hfold⟩ := ih fun other hother =>
      hfailed other (List.mem_append_left _ hother)
    obtain ⟨hanswer, hcovers⟩ := hfailed check (by simp)
    rw [List.foldl_concat, hfold]
    exact ⟨_, congrArg some (merge_keep hcovers hanswer hdecisive)⟩

/-! ## The store -/

/-- The store after checks of several identities, in order. -/
def VerificationStore.recordAll (store : VerificationStore) (checks : List (IdentityId × Check)) :
    VerificationStore :=
  checks.foldl (fun store check => store.record check.1 check.2.outcome check.2.nowMs) store

/-- The checks a history makes of one identity. -/
def checksOf (identity : IdentityId) (history : List (IdentityId × Check)) : List Check :=
  (history.filter (·.1 = identity)).map Prod.snd

/-- The entry of an identity folds the checks of that identity and of no other. -/
theorem VerificationStore.read_recordAll (store : VerificationStore) (identity : IdentityId)
    (history : List (IdentityId × Check)) : (store.recordAll history).read identity =
      (checksOf identity history).foldl fold (store.read identity) := by
  induction history generalizing store with
  | nil => rfl
  | cons check history ih =>
    rw [recordAll, List.foldl_cons]
    refine (ih _).trans ?_
    by_cases hidentity : check.1 = identity
    · rw [checksOf, checksOf, List.filter_cons_of_pos (by simpa using hidentity), List.map_cons,
        List.foldl_cons]
      exact congrArg (List.foldl fold · _) (by simp [record, fold, hidentity])
    · rw [checksOf, checksOf, List.filter_cons_of_neg (by simpa using hidentity)]
      exact congrArg (List.foldl fold · _) (if_neg (Ne.symm hidentity))

/-- The entry that any history of checks leaves is the closed form over the checks made since the
hostname last changed, checks that then fail to answer neither erase nor refresh a decisive
verdict, and it is the entry a store keeps of an identity after those checks of it, whatever else
it records. -/
theorem folded_closed_form (checks : List Check) (last : Check) :
    ∃ entry, folded (checks ++ [last]) = some entry ∧ Says (lastRun checks last) last entry ∧
      (entry.status.isDecisive → ∀ failed : List Check,
        (∀ check ∈ failed, check.answered = false ∧ check.about last) →
        ∃ unreachable,
          folded (checks ++ [last] ++ failed) = some { entry with unreachable }) ∧
      ∀ (store : VerificationStore) (identity : IdentityId) (history : List (IdentityId × Check)),
        store.read identity = none → checksOf identity history = checks ++ [last] →
        (store.recordAll history).read identity = some entry := by
  obtain ⟨entry, hfolded, hsays⟩ := folded_says checks last
  refine ⟨entry, hfolded, hsays, fun hdecisive failed hfailed => ?_,
    fun store identity history hnone hhistory => ?_⟩
  · have hcovers : ∀ check ∈ failed,
        check.answered = false ∧ entry.covers check.outcome.hostname = true := by
      intro check hcheck
      obtain ⟨hanswer, habout⟩ := hfailed check hcheck
      rw [VerificationEntry.covers_congr hsays.hostname, Check.about_comm]
      exact ⟨hanswer, habout⟩
    rw [folded, List.foldl_append, ← folded, hfolded]
    exact failed_keep hdecisive failed hcovers
  · rw [VerificationStore.read_recordAll, hnone, hhistory]
    exact hfolded

end Mabel.Verification
