import Mabel.Ledger.Fork

/-!
# A fork record is evidence

A record holds two events that both verify after one prefix. Checking it does not depend on which
event is called the kept one, and what it accepts was signed twice at one position, each time with
the key of a controller of the prefix.
-/

namespace Mabel

open Wire Machine

variable {C : Crypto}

/-- A fork with its events the other way round. -/
def Fork.swapped (fork : Fork) : Fork where
  ledger := fork.ledger
  seq := fork.seq
  kept := fork.conflicting
  conflicting := fork.kept

/-- One branch of a fork: it names the ledger, the position and the event before it, and the key of
a controller of the prefix signed it. -/
structure Branch (shared : LedgerState C) (fork : Fork) (event : Bytes) : Prop where
  signed : ∃ signed body payload key signature who,
    openEvent event = some (signed, body, payload) ∧ body.seq = fork.seq ∧
    body.ledger = fork.ledger.toVec ∧
    (∃ head, shared.head = some head ∧ body.prev = head.eventId.toVec) ∧
    body.authorKey = PublicKey.asBytes (C := C) key ∧
    signed.signature = Block.bytes signature ∧
    key.verify (signInput signed.body) signature = true ∧
    shared.principals.get? who = some ⟨.controller, key⟩

variable {shared : LedgerState C} {kept conflicting : Bytes} {fork : Fork}

/-- What forks a ledger one way round forks it the other. -/
theorem Forks.swap (h : Forks shared kept conflicting fork) :
    Forks shared conflicting kept fork.swapped where
  ledger := h.ledger
  seq := h.seq
  keptApplies := h.conflictingApplies
  conflictingApplies := h.keptApplies
  keptId := h.conflictingId
  conflictingId := h.keptId
  distinct := h.distinct.symm

theorem forks_swap_iff :
    Forks shared conflicting kept fork.swapped ↔ Forks shared kept conflicting fork :=
  ⟨Forks.swap, Forks.swap⟩

/-- A ledger has an id exactly when it has an event. -/
theorem FoldRun.ledger_eq_none {log : List Bytes} (h : FoldRun log shared) :
    shared.ledger = none ↔ log = [] := by
  constructor
  · intro hledger
    by_contra hne
    have hhead : shared.head ≠ none := fun hnone => hne (h.empty_of_head hnone).1
    obtain ⟨first, rest, hlog, ⟨f⟩⟩ := h.founded hhead
    simp [f.ledger_eq] at hledger
  · rintro rfl
    rw [h.eq_of_nil]
    rfl

/-- An event that applies behind a prefix is a branch of every fork of the prefix. -/
theorem branch_of_apply {log : List Bytes} (h : FoldRun log shared) (hne : log ≠ [])
    (hledger : shared.ledger = some fork.ledger) (hseq : fork.seq = shared.nextSeq)
    {event : Bytes} (happly : ∃ state, shared.apply event = .ok state) :
    Branch shared fork event := by
  obtain ⟨state, happly⟩ := happly
  obtain ⟨st⟩ := apply_iff.mp happly
  obtain ⟨head, hhead⟩ := Option.ne_none_iff_exists'.mp fun hnone => hne (h.empty_of_head hnone).1
  obtain ⟨ledger, hsame, hbody, hprev, -⟩ := st.links.chain head hhead
  obtain rfl : fork.ledger = ledger := Option.some.inj (hledger.symm.trans hsame)
  have hsigns := st.signs
  rw [LedgerState.Signs, if_neg (by rw [LedgerState.nextSeq_eq_zero, hhead]; simp)] at hsigns
  obtain ⟨who, hwho, -⟩ := hsigns
  exact ⟨st.signed, st.body, st.payload, st.key, st.sig, who.identity,
    openEvent_of_opened st.opened, st.seq.trans hseq.symm, hbody, ⟨head, hhead, hprev⟩, st.author,
    st.signature, st.verified, (LedgerState.signingPrincipal_some hwho).2⟩

/-- Checking a fork record answers or names a fault. -/
theorem validateForkRecord_noPanic {log : List Bytes} (h : FoldRun log shared)
    (kept conflicting : Bytes) :
    Outcome.NoPanic (validateForkRecord shared kept conflicting) := by
  refine Outcome.NoPanic.orReject.bind fun ledger _ => ?_
  refine (verifyAt_noPanic h _ kept).mapReject.bind fun id _ => ?_
  refine (verifyAt_noPanic h _ conflicting).mapReject.bind fun other _ => ?_
  exact Outcome.NoPanic.rejectIf.bind fun _ _ => Outcome.NoPanic.ok

/-- Whatever was folded before, a fork record is accepted exactly when its two events both apply
and differ, whichever is called the kept one, and then a controller of the prefix signed each of
them at the position behind it. -/
theorem fork_evidence (events : List Bytes) (a b : Bytes) :
    Outcome.NoPanic (validateForkRecord (after C events) a b) ∧
    ((∃ fork, validateForkRecord (after C events) a b = .ok fork) ↔
      acceptedOf C events ≠ [] ∧ (∃ state, (after C events).apply a = .ok state) ∧
        (∃ state, (after C events).apply b = .ok state) ∧ eventIdOf C a ≠ eventIdOf C b) ∧
    (∀ fork, validateForkRecord (after C events) a b = .ok fork ↔
      validateForkRecord (after C events) b a = .ok fork.swapped) ∧
    ∀ fork, validateForkRecord (after C events) a b = .ok fork →
      fork.kept = eventIdOf C a ∧ fork.conflicting = eventIdOf C b ∧
      (after C events).ledger = some fork.ledger ∧ fork.seq = (acceptedOf C events).length ∧
      Branch (after C events) fork a ∧ Branch (after C events) fork b := by
  have hrun : FoldRun (acceptedOf C events) (after C events) := foldRun_after events
  constructor
  · exact validateForkRecord_noPanic hrun a b
  constructor
  · constructor
    · rintro ⟨fork, h⟩
      have hforks := validateForkRecord_eq_ok.mp h
      have hne : acceptedOf C events ≠ [] := fun hnil => by
        simpa [hrun.ledger_eq_none.mpr hnil] using hforks.ledger
      exact ⟨hne, hforks.keptApplies, hforks.conflictingApplies, hforks.distinct⟩
    · rintro ⟨hne, ha, hb, hdistinct⟩
      obtain ⟨ledger, hledger⟩ := Option.ne_none_iff_exists'.mp fun hnone =>
        hne (hrun.ledger_eq_none.mp hnone)
      exact ⟨⟨ledger, _, _, _⟩,
        validateForkRecord_eq_ok.mpr ⟨hledger, rfl, ha, hb, rfl, rfl, hdistinct⟩⟩
  constructor
  · intro fork
    rw [validateForkRecord_eq_ok, validateForkRecord_eq_ok, forks_swap_iff]
  · intro fork h
    have hforks := validateForkRecord_eq_ok.mp h
    have hne : acceptedOf C events ≠ [] := fun hnil => by
      simpa [hrun.ledger_eq_none.mpr hnil] using hforks.ledger
    exact ⟨hforks.keptId, hforks.conflictingId, hforks.ledger, hforks.seq.trans hrun.nextSeq,
      branch_of_apply hrun hne hforks.ledger hforks.seq hforks.keptApplies,
      branch_of_apply hrun hne hforks.ledger hforks.seq hforks.conflictingApplies⟩

end Mabel
