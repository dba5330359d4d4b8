import Mabel.Ledger.Correctness.Assertions
import Mabel.Ledger.Fold.Trace

/-!
# Fork evidence

Two events are a fork when both would have been accepted at the position after one shared
prefix and they are not the same event. The prefix is the caller's; each event is applied
to a copy of it.
-/

namespace Mabel

open Wire Machine

variable {C : Crypto}

/-- Two distinct valid events at one position of one ledger. -/
structure Fork where
  ledger : LedgerId
  seq : Nat
  /-- The event the holder saw first and keeps. -/
  kept : EventId
  conflicting : EventId
  deriving DecidableEq

/-- Why a claimed fork is not one. -/
inductive ForkError (C : Crypto) where
  /-- There is no position to fork at: two distinct seq-0 events are two ledgers. -/
  | emptyPrefix
  | kept (violation : Violation C)
  | conflicting (violation : Violation C)
  | sameEvent (id : EventId)
  deriving DecidableEq

/-- Apply one event to a copy of the shared prefix and return its id. -/
def verifyAt (shared : LedgerState C) (seq : Nat) (event : Bytes) :
    Outcome (Violation C) EventId := do
  let state ← Outcome.mapReject (Violation.mk seq) (shared.apply event)
  let head ← Outcome.expect "an applied event is the head" state.head
  .ok head.eventId

/-- Check that two events both verify after a shared prefix and differ. -/
def validateForkRecord (shared : LedgerState C) (kept conflicting : Bytes) :
    Outcome (ForkError C) Fork := do
  let ledger ← Outcome.orReject .emptyPrefix shared.ledger
  let seq := shared.nextSeq
  let kept ← Outcome.mapReject .kept (verifyAt shared seq kept)
  let conflicting ← Outcome.mapReject .conflicting (verifyAt shared seq conflicting)
  Outcome.rejectIf (kept = conflicting) (.sameEvent kept)
  .ok ⟨ledger, seq, kept, conflicting⟩

/-! ## What a fork is -/

/-- An event verifies after a prefix exactly when it applies, and its id is the answer. -/
theorem verifyAt_eq_ok {shared : LedgerState C} {seq : Nat} {event : Bytes} {id : EventId} :
    verifyAt shared seq event = .ok id ↔
      (∃ state, shared.apply event = .ok state) ∧ id = eventIdOf C event := by
  rw [verifyAt, Outcome.bind_eq_ok]
  constructor
  · rintro ⟨state, happly, hid⟩
    rw [Outcome.mapReject_eq_ok] at happly
    obtain ⟨st⟩ := apply_iff.mp happly
    refine ⟨⟨state, happly⟩, ?_⟩
    rw [st.head, Outcome.expect_some, Outcome.ok_bind] at hid
    rw [← Except.ok.inj hid, ← st.id_eq]
    rfl
  · rintro ⟨⟨state, happly⟩, rfl⟩
    obtain ⟨st⟩ := apply_iff.mp happly
    refine ⟨state, Outcome.mapReject_eq_ok.mpr happly, ?_⟩
    rw [st.head, Outcome.expect_some, Outcome.ok_bind, ← st.id_eq]
    rfl

/-- Two events fork a ledger after a prefix: both apply to it and their ids differ. -/
structure Forks (shared : LedgerState C) (kept conflicting : Bytes) (fork : Fork) : Prop where
  ledger : shared.ledger = some fork.ledger
  seq : fork.seq = shared.nextSeq
  keptApplies : ∃ state, shared.apply kept = .ok state
  conflictingApplies : ∃ state, shared.apply conflicting = .ok state
  keptId : fork.kept = eventIdOf C kept
  conflictingId : fork.conflicting = eventIdOf C conflicting
  distinct : eventIdOf C kept ≠ eventIdOf C conflicting

/-- A fork record is validated exactly as a fork of the shared chain. -/
theorem validateForkRecord_eq_ok {shared : LedgerState C} {kept conflicting : Bytes} {fork : Fork} :
    validateForkRecord shared kept conflicting = .ok fork ↔ Forks shared kept conflicting fork := by
  simp only [validateForkRecord, Outcome.bind_eq_ok, Outcome.orReject_eq_ok,
    Outcome.mapReject_eq_ok, verifyAt_eq_ok, Outcome.rejectIf_eq_ok, exists_const]
  constructor
  · rintro ⟨ledger, hledger, _, ⟨hkept, rfl⟩, _, ⟨hconflicting, rfl⟩, hne, hfork⟩
    obtain rfl := Except.ok.inj hfork
    exact ⟨hledger, rfl, hkept, hconflicting, rfl, rfl, hne⟩
  · intro h
    refine ⟨_, h.ledger, _, ⟨h.keptApplies, rfl⟩, _, ⟨h.conflictingApplies, rfl⟩, h.distinct, ?_⟩
    rw [← h.seq, ← h.keptId, ← h.conflictingId]

/-- After a run of the fold an event verifies or is refused. -/
theorem verifyAt_noPanic {log : List Bytes} {shared : LedgerState C} (h : FoldRun log shared)
    (seq : Nat) (event : Bytes) : Outcome.NoPanic (verifyAt shared seq event) := by
  refine (Outcome.NoPanic.mapReject
    ((LedgerState.anchored_of_run h).noPanic event)).bind fun state happly => ?_
  obtain ⟨st⟩ := apply_iff.mp (Outcome.mapReject_eq_ok.mp happly)
  rw [st.head]
  exact Outcome.NoPanic.ok

/-- After a run of the fold whose next event is the kept one, a fork check answers, or names
a fault that is not the kept event's. -/
theorem validateForkRecord_cases {log : List Bytes} {shared next : LedgerState C}
    (h : FoldRun log shared) {kept : Bytes} (hkept : shared.apply kept = .ok next)
    (conflicting : Bytes) :
    (∃ fork, Forks shared kept conflicting fork) ∨ ∃ error : ForkError C,
      validateForkRecord shared kept conflicting = .error (.reject error) ∧
        ∀ violation, error ≠ .kept violation := by
  cases hledger : shared.ledger with
  | none =>
    refine .inr ⟨.emptyPrefix, ?_, by simp⟩
    rw [validateForkRecord, hledger]
    rfl
  | some ledger =>
    have hverify : verifyAt shared shared.nextSeq kept = .ok (eventIdOf C kept) :=
      verifyAt_eq_ok.mpr ⟨⟨next, hkept⟩, rfl⟩
    have hsafe := verifyAt_noPanic h shared.nextSeq conflicting
    have hcheck : validateForkRecord shared kept conflicting = (do
        let id ← Outcome.mapReject ForkError.conflicting
          (verifyAt shared shared.nextSeq conflicting)
        Outcome.rejectIf (eventIdOf C kept = id) (.sameEvent (eventIdOf C kept))
        .ok ⟨ledger, shared.nextSeq, eventIdOf C kept, id⟩) := by
      rw [validateForkRecord, hledger]
      dsimp only
      rw [hverify]
      rfl
    cases hconflicting : verifyAt shared shared.nextSeq conflicting with
    | ok id =>
      rw [hconflicting, Outcome.mapReject_ok, Outcome.ok_bind] at hcheck
      by_cases hsame : eventIdOf C kept = id
      · refine .inr ⟨.sameEvent (eventIdOf C kept), ?_, by simp⟩
        rw [hcheck, Outcome.rejectIf, if_pos hsame]
        rfl
      · rw [Outcome.rejectIf_of_not hsame, Outcome.ok_bind] at hcheck
        exact .inl ⟨_, validateForkRecord_eq_ok.mp hcheck⟩
    | error fault =>
      cases fault with
      | panic site => exact absurd hconflicting (hsafe site)
      | reject violation =>
        refine .inr ⟨.conflicting violation, ?_, by simp⟩
        rw [hcheck, hconflicting]
        rfl

end Mabel
