import Mabel.Ledger.Correctness.Links
import Mabel.Ledger.Correctness.Trust
import Mabel.Node.Loaded
import Mabel.Node.Report

/-!
# What a report says is what the chain says

Loading a run keeps the state the fold keeps, and a position for every event the fold accepted.
Where event ids do not collide the two tables of a loaded ledger therefore join without a miss,
so a trust report names positions of the chain and nothing else.
-/

namespace Mabel.Node

open Wire Proto Machine

variable {C : Crypto}

/-! ## Positions by event id -/

/-- A table keeps a position for every event of a log, and only positions of the log. -/
structure Indexes (C : Crypto) (seqOf : SortedMap EventId Nat) (log : List Bytes) : Prop where
  sound : ∀ id i, seqOf.get? id = some i → ∃ event, log[i]? = some event ∧ eventIdOf C event = id
  total : ∀ event ∈ log, ∃ i, seqOf.get? (eventIdOf C event) = some i

namespace Indexes

variable {seqOf : SortedMap EventId Nat} {log : List Bytes}

theorem empty : Indexes C .empty [] := by
  constructor <;> simp

/-- One more event goes under its id. -/
theorem snoc (h : Indexes C seqOf log) (event : Bytes) :
    Indexes C (seqOf.insert (eventIdOf C event) log.length) (log ++ [event]) := by
  refine ⟨fun id i hi => ?_, fun other hother => ?_⟩
  · rw [SortedMap.get?_insert] at hi
    split_ifs at hi with hid
    · obtain rfl := Option.some.inj hi
      exact ⟨event, by simp, hid.symm⟩
    · obtain ⟨other, hother, hid⟩ := h.sound id i hi
      refine ⟨other, ?_, hid⟩
      rw [List.getElem?_append_left (List.getElem?_eq_some_iff.mp hother).1, hother]
  · rw [SortedMap.get?_insert]
    split_ifs with hid
    · exact ⟨log.length, rfl⟩
    · rcases List.mem_append.mp hother with hmem | hmem
      · exact h.total other hmem
      · exact absurd (by rw [List.mem_singleton.mp hmem]) hid

/-- Without collisions the table is exactly the positions of the log. -/
theorem get?_eq_some (h : Indexes C seqOf log) {s : LedgerState C} (hrun : FoldRun log s)
    (hids : CollisionFree C log) {id : EventId} {i : Nat} :
    seqOf.get? id = some i ↔ ∃ event, log[i]? = some event ∧ eventIdOf C event = id := by
  refine ⟨h.sound id i, ?_⟩
  rintro ⟨event, hi, rfl⟩
  obtain ⟨j, hj⟩ := h.total event (List.mem_of_getElem? hi)
  obtain ⟨other, hother, hid⟩ := h.sound _ j hj
  rw [hj, hrun.id_injective hids hother hi hid]

end Indexes

/-! ## Loading against folding -/

namespace LoadedLedger

/-- After a violation, loading only looks at ids. -/
theorem foldFrom_of_violation (events : List Bytes) : ∀ {loaded : LoadedLedger C} (seq : Nat),
    loaded.violation.isSome = true → ∃ loaded' : LoadedLedger C,
      (∀ ε : Type, (loaded.foldFrom seq events : Outcome ε _) = .ok loaded') ∧
        loaded'.state = loaded.state ∧ loaded'.violation = loaded.violation ∧
        loaded'.seqOf = loaded.seqOf := by
  induction events with
  | nil => exact fun seq _ => ⟨_, fun _ => rfl, rfl, rfl, rfl⟩
  | cons bytes events ih =>
    intro loaded seq hviolation
    let id := decodedId C bytes
    obtain ⟨loaded', hfold, hstate, hsame, hseq⟩ := @ih { loaded with
      eventIds := loaded.eventIds ++ [id]
      headSeq := id.elim loaded.headSeq fun _ => seq
      headEvent := id.getD loaded.headEvent } (seq + 1) hviolation
    refine ⟨loaded', fun ε => ?_, hstate, hsame, hseq⟩
    rw [foldFrom, step]
    dsimp only
    rw [if_pos hviolation, Outcome.ok_bind]
    exact hfold ε

/-- Loading a run keeps what folding it keeps, and the positions of what it accepted. -/
theorem foldFrom_agrees (events : List Bytes) : ∀ {loaded : LoadedLedger C} {log : List Bytes},
    loaded.violation = none → FoldRun log loaded.state → Indexes C loaded.seqOf log →
      ∃ (loaded' : LoadedLedger C) (more rest : List Bytes), events = more ++ rest ∧
        (∀ ε : Type, (loaded.foldFrom log.length events : Outcome ε _) = .ok loaded') ∧
        Mabel.foldFrom loaded.state events = .ok (loaded'.state, loaded'.violation) ∧
        FoldRun (log ++ more) loaded'.state ∧ Indexes C loaded'.seqOf (log ++ more) ∧
        (loaded'.violation = none → rest = []) := by
  induction events with
  | nil =>
    intro loaded log hnone hrun hindexes
    refine ⟨loaded, [], [], rfl, fun _ => rfl, ?_, ?_, ?_, fun _ => rfl⟩
    · rw [hnone]
      rfl
    · rwa [List.append_nil]
    · rwa [List.append_nil]
  | cons bytes events ih =>
    intro loaded log hnone hrun hindexes
    rcases happly : loaded.state.apply bytes with (reason | site) | state
    -- The first violation: the rest is only looked at.
    · let id := decodedId C bytes
      obtain ⟨loaded', hfold, hstate, hsame, hseq⟩ := @foldFrom_of_violation C events { loaded with
        eventIds := loaded.eventIds ++ [id]
        headSeq := id.elim loaded.headSeq fun _ => log.length
        headEvent := id.getD loaded.headEvent
        violation := some ⟨log.length, reason⟩
        failedEvent := id } (log.length + 1) rfl
      refine ⟨loaded', [], bytes :: events, rfl, fun ε => ?_, ?_, ?_, ?_, ?_⟩
      · rw [foldFrom, step]
        dsimp only
        rw [hnone, if_neg (by simp), happly]
        exact hfold ε
      · rw [Mabel.foldFrom, happly, hstate, hsame, hrun.nextSeq]
      · rwa [List.append_nil, hstate]
      · rwa [List.append_nil, hseq]
      · intro hvalid
        rw [hsame] at hvalid
        exact absurd hvalid (by simp)
    · exact absurd happly ((LedgerState.anchored_of_run hrun).noPanic bytes site)
    · obtain ⟨st⟩ := apply_iff.mp happly
      have hid : decodedId C bytes = some (eventIdOf C bytes) := by
        rw [decodedId, st.opened.decode, eventIdOf, bodyOf_opened st.opened]
        rfl
      obtain ⟨loaded', more, rest, rfl, hfold, hfolds, hrun', hindexes', hwhole⟩ :=
        @ih { loaded with
          eventIds := loaded.eventIds ++ [some (eventIdOf C bytes)]
          headSeq := log.length
          headEvent := eventIdOf C bytes
          state := state
          seqOf := loaded.seqOf.insert (eventIdOf C bytes) log.length
          createdAtMs := if log.length = 0 then timestampOf bytes else loaded.createdAtMs
          violation := none } (log ++ [bytes]) rfl (hrun.snoc happly) (hindexes.snoc bytes)
      rw [List.length_append, List.length_singleton] at hfold
      rw [List.append_assoc, List.singleton_append] at hrun' hindexes'
      refine ⟨loaded', bytes :: more, rest, rfl, fun ε => ?_, ?_, hrun', hindexes', hwhole⟩
      · rw [foldFrom, step]
        dsimp only
        rw [hnone, if_neg (by simp), happly, hid]
        exact hfold ε
      · rw [Mabel.foldFrom, happly]
        exact hfolds

/-- Any run loads, to the state and the violation of its fold. -/
theorem fold_agrees (ledger : LedgerId) (events : List Bytes) :
    ∃ loaded : LoadedLedger C, (∀ ε : Type, (fold ledger events : Outcome ε _) = .ok loaded) ∧
      Mabel.fold C events = .ok (loaded.state, loaded.violation) ∧
      FoldRun (events.take loaded.state.nextSeq) loaded.state ∧
      Indexes C loaded.seqOf (events.take loaded.state.nextSeq) ∧
      (loaded.violation = none → events.take loaded.state.nextSeq = events) := by
  obtain ⟨loaded, more, rest, rfl, hfold, hfolds, hrun, hindexes, hwhole⟩ :=
    @foldFrom_agrees C events (start ledger events) [] rfl .nil .empty
  rw [List.nil_append] at hrun hindexes
  have htake : (more ++ rest).take loaded.state.nextSeq = more := by
    rw [hrun.nextSeq, List.take_left]
  refine ⟨loaded, hfold, hfolds, ?_, ?_, fun hnone => ?_⟩
  · rwa [htake]
  · rwa [htake]
  · rw [htake, hwhole hnone, List.append_nil]

end LoadedLedger

/-! ## What the chain says of a subject -/

/-- The attestation of a subject that stands: no event of the chain takes it back. -/
structure Standing (C : Crypto) (events : List Bytes) (subject : IdentityId) (k : Nat)
    (event : Bytes) : Prop where
  position : events[k]? = some event
  attests : attestedSubject event = some subject
  kept : ∀ other ∈ events, revokedTarget other ≠ some (eventIdOf C event)

/-- An attestation of a subject and the event that takes it back. -/
structure TakenBack (C : Crypto) (events : List Bytes) (subject : IdentityId) (j : Nat)
    (attestation : Bytes) (k : Nat) (revocation : Bytes) : Prop where
  position : events[j]? = some attestation
  attests : attestedSubject attestation = some subject
  later : events[k]? = some revocation
  revokes : revokedTarget revocation = some (eventIdOf C attestation)

section Chain

variable {events : List Bytes} {s : LedgerState C}

/-- An attestation on record is an event of the chain. -/
theorem exists_attestation (h : FoldRun events s) (hids : CollisionFree C events) {e : EventId}
    {a : Attestation C} (ha : s.trust.get? e = some a) : ∃ (k : Nat) (event : Bytes), events[k]? = some event ∧
      eventIdOf C event = e ∧ attestedSubject event = some a.subject := by
  obtain ⟨event, hmem, hid, hsubject⟩ := (h.mem_trust hids).mp ⟨a, ha, rfl⟩
  obtain ⟨k, hk⟩ := List.mem_iff_getElem?.mp hmem
  exact ⟨k, event, hk, hid, hsubject⟩

/-- What revoked an attestation is an event of the chain that names it. -/
theorem exists_revocation (h : FoldRun events s) (hids : CollisionFree C events) {e r : EventId}
    {a : Attestation C} (ha : s.trust.get? e = some a) (hr : a.revokedBy = some r) :
    ∃ (k : Nat) (event : Bytes), events[k]? = some event ∧ eventIdOf C event = r ∧
      revokedTarget event = some e := by
  have htraced := h.book.traced (h.trust_fresh hids)
  obtain ⟨-, k, -, -, hk⟩ := htraced.revoked e a.vouch r (book_vouch ha) hr
  rw [List.getElem?_map, Option.map_eq_some_iff] at hk
  obtain ⟨event, hevent, hmove⟩ := hk
  obtain ⟨hid, htarget⟩ := trustMoveOf_eq_revoke.mp hmove
  exact ⟨k, event, hevent, hid, htarget⟩

/-- An event that names an attestation revoked it. -/
theorem revokedBy_of_target (h : FoldRun events s) (hids : CollisionFree C events) {e : EventId}
    {event : Bytes} (hmem : event ∈ events) (htarget : revokedTarget event = some e) :
    ∃ a, s.trust.get? e = some a ∧ a.revokedBy = some (eventIdOf C event) := by
  have htraced := h.book.traced (h.trust_fresh hids)
  obtain ⟨v, hv, hr⟩ := htraced.targets (eventIdOf C event) e
    (List.mem_map.mpr ⟨event, hmem, trustMoveOf_eq_revoke.mpr ⟨rfl, htarget⟩⟩)
  obtain ⟨a, ha, rfl⟩ := Option.map_eq_some_iff.mp hv
  exact ⟨a, ha, hr⟩

/-- What stands on record is what stands in the chain. -/
theorem standing_iff (h : FoldRun events s) (hids : CollisionFree C events) {subject : IdentityId}
    {k : Nat} {event : Bytes} : Standing C events subject k event ↔ events[k]? = some event ∧
      ∃ a, s.trust.get? (eventIdOf C event) = some a ∧ a.subject = subject ∧
        a.revokedBy = none := by
  constructor
  · rintro ⟨hk, hsubject, hkept⟩
    obtain ⟨a, ha, hsame⟩ := (h.mem_trust hids).mpr
      ⟨event, List.mem_of_getElem? hk, rfl, hsubject⟩
    refine ⟨hk, a, ha, hsame, ?_⟩
    cases hr : a.revokedBy with
    | none => rfl
    | some r =>
      obtain ⟨j, other, hj, -, htarget⟩ := exists_revocation h hids ha hr
      exact absurd htarget (hkept other (List.mem_of_getElem? hj))
  · rintro ⟨hk, a, ha, rfl, hnone⟩
    obtain ⟨j, other, hj, hid, hsubject⟩ := exists_attestation h hids ha
    obtain rfl := h.id_injective hids hj hk hid
    obtain rfl : other = event := Option.some.inj (hj.symm.trans hk)
    refine ⟨hk, hsubject, fun other hother htarget => ?_⟩
    obtain ⟨b, hb, hr⟩ := revokedBy_of_target h hids hother htarget
    rw [ha] at hb
    rw [← Option.some.inj hb, hnone] at hr
    exact absurd hr (by simp)

/-- What is revoked on record is what the chain takes back. -/
theorem takenBack_iff (h : FoldRun events s) (hids : CollisionFree C events)
    {subject : IdentityId} {j k : Nat} {attestation revocation : Bytes} :
    TakenBack C events subject j attestation k revocation ↔
      events[j]? = some attestation ∧ events[k]? = some revocation ∧
      ∃ a, s.trust.get? (eventIdOf C attestation) = some a ∧ a.subject = subject ∧
        a.revokedBy = some (eventIdOf C revocation) := by
  constructor
  · rintro ⟨hj, hsubject, hk, htarget⟩
    obtain ⟨a, ha, hr⟩ := revokedBy_of_target h hids (List.mem_of_getElem? hk) htarget
    obtain ⟨b, hb, hsame⟩ := (h.mem_trust hids).mpr
      ⟨attestation, List.mem_of_getElem? hj, rfl, hsubject⟩
    obtain rfl := Option.some.inj (ha.symm.trans hb)
    exact ⟨hj, hk, a, ha, hsame, hr⟩
  · rintro ⟨hj, hk, a, ha, rfl, hr⟩
    obtain ⟨i, other, hi, hid, hsubject⟩ := exists_attestation h hids ha
    obtain rfl := h.id_injective hids hi hj hid
    obtain rfl : other = attestation := Option.some.inj (hi.symm.trans hj)
    obtain ⟨i, event, hi', hid', htarget⟩ := exists_revocation h hids ha hr
    obtain rfl := h.id_injective hids hi' hk hid'
    obtain rfl : event = revocation := Option.some.inj (hi'.symm.trans hk)
    exact ⟨hj, hsubject, hk, htarget⟩

end Chain

/-! ## The trust array -/

section Entries

variable {loaded : LoadedLedger C}

/-- The trust entries are those of the state's attestations. -/
theorem mem_trust {entry : TrustEntry} : entry ∈ loaded.trust ↔
    ∃ e a, loaded.state.trust.get? e = some a ∧ entry = loaded.trustEntry e a := by
  rw [LoadedLedger.trust, (List.perm_insertionSort _ _).mem_iff, List.mem_map]
  constructor
  · rintro ⟨⟨e, a⟩, hmem, rfl⟩
    exact ⟨e, a, SortedMap.get?_eq_some.mpr hmem, rfl⟩
  · rintro ⟨e, a, ha, rfl⟩
    exact ⟨(e, a), SortedMap.get?_eq_some.mp ha, rfl⟩

/-- Every sequence number of the trust array is a position of the chain. -/
theorem trustEntry_positions (hrun : FoldRun loaded.events loaded.state)
    (hids : CollisionFree C loaded.events) (hindexes : Indexes C loaded.seqOf loaded.events)
    {e : EventId} {a : Attestation C} (ha : loaded.state.trust.get? e = some a) :
    (∃ k event, loaded.events[k]? = some event ∧ eventIdOf C event = e ∧
      loaded.seqOf.get? e = some k) ∧
    ∀ r, a.revokedBy = some r → ∃ k event, loaded.events[k]? = some event ∧
      eventIdOf C event = r ∧ loaded.seqOf.get? r = some k := by
  refine ⟨?_, fun r hr => ?_⟩
  · obtain ⟨k, event, hk, hid, -⟩ := exists_attestation hrun hids ha
    exact ⟨k, event, hk, hid, (hindexes.get?_eq_some hrun hids).mpr ⟨event, hk, hid⟩⟩
  · obtain ⟨k, event, hk, hid, -⟩ := exists_revocation hrun hids ha hr
    exact ⟨k, event, hk, hid, (hindexes.get?_eq_some hrun hids).mpr ⟨event, hk, hid⟩⟩

/-- The trust array goes by ascending position. -/
theorem trust_ascending (hrun : FoldRun loaded.events loaded.state)
    (hids : CollisionFree C loaded.events) (hindexes : Indexes C loaded.seqOf loaded.events) :
    loaded.trust.Pairwise fun a b => a.attestationSeq < b.attestationSeq := by
  have hsorted : loaded.trust.Pairwise fun a b => a.attestationSeq ≤ b.attestationSeq :=
    List.pairwise_insertionSort _ _
  have hnodup : loaded.trust.Pairwise fun a b => a.attestationSeq ≠ b.attestationSeq := by
    refine (List.perm_insertionSort _ _).symm.pairwise ?_ fun h => h.symm
    rw [List.pairwise_map]
    refine (List.pairwise_map.mp loaded.state.trust.nodup_keys).imp_of_mem ?_
    rintro ⟨e, a⟩ ⟨f, b⟩ hea hfb hne hseq
    obtain ⟨⟨j, event, hj, hid, hje⟩, -⟩ :=
      trustEntry_positions hrun hids hindexes (SortedMap.get?_eq_some.mpr hea)
    obtain ⟨⟨k, other, hk, hid', hkf⟩, -⟩ :=
      trustEntry_positions hrun hids hindexes (SortedMap.get?_eq_some.mpr hfb)
    simp only [LoadedLedger.trustEntry, hje, hkf, Option.getD_some] at hseq
    subst hseq
    obtain rfl : event = other := Option.some.inj (hj.symm.trans hk)
    exact hne (hid.symm.trans hid')
  exact hsorted.imp₂ (fun a b hle hne => lt_of_le_of_ne hle hne) hnodup

end Entries

/-! ## The entry a report answers with -/

/-- The first entry of a subject that is not revoked. -/
def LoadedLedger.standing (loaded : LoadedLedger C) (subject : IdentityId) : Option TrustEntry :=
  (loaded.trust.filter fun entry => entry.subject = subject.display).find?
    fun entry => !entry.revoked

/-- The entries of a subject that are revoked. -/
def LoadedLedger.takenBack (loaded : LoadedLedger C) (subject : IdentityId) :
    List RevokedAttestation :=
  ((loaded.trust.filter fun entry => entry.subject = subject.display).filter
    TrustEntry.revoked).filterMap TrustEntry.asRevoked

section Subject

variable {loaded : LoadedLedger C} {subject : IdentityId}

/-- The trust entries for a subject are those of its attestations. -/
theorem mem_trust_of_subject {entry : TrustEntry} :
    entry ∈ (loaded.trust.filter fun entry => entry.subject = subject.display) ↔
      ∃ e a, loaded.state.trust.get? e = some a ∧ a.subject = subject ∧
        entry = loaded.trustEntry e a := by
  rw [List.mem_filter, mem_trust, decide_eq_true_iff]
  constructor
  · rintro ⟨⟨e, a, ha, rfl⟩, hsubject⟩
    exact ⟨e, a, ha, IdentityId.display_injective hsubject, rfl⟩
  · rintro ⟨e, a, ha, rfl, rfl⟩
    exact ⟨⟨e, a, ha, rfl⟩, rfl⟩

theorem revoked_trustEntry {e : EventId} {a : Attestation C} :
    (loaded.trustEntry e a).revoked = false ↔ a.revokedBy = none := by
  simp [LoadedLedger.trustEntry, Attestation.isRevoked]

/-- The standing entry is that of the one attestation of the subject which nothing revoked. -/
theorem standing_eq_some {entry : TrustEntry} (hrun : FoldRun loaded.events loaded.state) :
    loaded.standing subject = some entry ↔ ∃ e a, loaded.state.trust.get? e = some a ∧
      a.subject = subject ∧ a.revokedBy = none ∧ entry = loaded.trustEntry e a := by
  have hfound : ∀ {entry}, loaded.standing subject = some entry →
      ∃ e a, loaded.state.trust.get? e = some a ∧ a.subject = subject ∧ a.revokedBy = none ∧
        entry = loaded.trustEntry e a := by
    intro entry h
    obtain ⟨e, a, ha, hsubject, rfl⟩ := mem_trust_of_subject.mp (List.mem_of_find?_eq_some h)
    have hlive := List.find?_some h
    rw [Bool.not_eq_true'] at hlive
    exact ⟨e, a, ha, hsubject, revoked_trustEntry.mp hlive, rfl⟩
  refine ⟨hfound, ?_⟩
  rintro ⟨e, a, ha, hsubject, hnone, rfl⟩
  cases h : loaded.standing subject with
  | none =>
    have hlive := List.find?_eq_none.mp h _ (mem_trust_of_subject.mpr ⟨e, a, ha, hsubject, rfl⟩)
    rw [revoked_trustEntry.mpr hnone] at hlive
    exact absurd rfl hlive
  | some other =>
    obtain ⟨f, b, hb, hsame, hnone', rfl⟩ := hfound h
    -- At most one attestation of a subject stands.
    obtain rfl : f = e := hrun.book.sound.single f e b.vouch a.vouch (book_vouch hb)
      (book_vouch ha) hnone' hnone (hsame.trans hsubject.symm)
    rw [Option.some.inj (hb.symm.trans ha)]

/-- An attestation stands when the subject is trusted. -/
theorem isSome_standing (hrun : FoldRun loaded.events loaded.state) :
    (loaded.standing subject).isSome = loaded.state.trusts subject := by
  rw [Bool.eq_iff_iff, Option.isSome_iff_exists, LedgerState.trusts_iff]
  constructor
  · rintro ⟨entry, h⟩
    obtain ⟨e, a, ha, hsubject, hnone, -⟩ := (standing_eq_some hrun).mp h
    exact ⟨e, a, ha, hsubject, hnone⟩
  · rintro ⟨e, a, ha, hsubject, hnone⟩
    exact ⟨_, (standing_eq_some hrun).mpr ⟨e, a, ha, hsubject, hnone, rfl⟩⟩

/-- The entry of an attestation leads back to who signed it. -/
theorem signingPrincipal_trustEntry {e : EventId} {a : Attestation C}
    (ha : loaded.state.trust.get? e = some a) :
    signingPrincipal loaded (loaded.trustEntry e a) =
      some ⟨a.signingPrincipal.identity.display, renderId a.signingPrincipal.key.raw⟩ := by
  have hid : decodeId (loaded.trustEntry e a).attestationEvent.toList = some e.raw :=
    decodeId_renderId e.raw
  simp only [signingPrincipal, hid, Option.map_some, Option.bind_eq_bind, Option.bind_some, ha]
  rfl

section Positions

variable (hrun : FoldRun loaded.events loaded.state) (hids : CollisionFree C loaded.events)
  (hindexes : Indexes C loaded.seqOf loaded.events)

include hrun hids hindexes

/-- The entries taken back are the attestations a later revocation names. -/
theorem mem_takenBack {entry : RevokedAttestation} : entry ∈ loaded.takenBack subject ↔
    ∃ j attestation k revocation, TakenBack C loaded.events subject j attestation k revocation ∧
      entry = ⟨renderId (eventIdOf C attestation).raw, j, renderId (eventIdOf C revocation).raw,
        k⟩ := by
  have hseq : ∀ {id : EventId} {i : Nat}, loaded.seqOf.get? id = some i ↔
      ∃ event, loaded.events[i]? = some event ∧ eventIdOf C event = id :=
    hindexes.get?_eq_some hrun hids
  constructor
  · intro hmem
    obtain ⟨shown, hshown, hentry⟩ := List.mem_filterMap.mp hmem
    obtain ⟨hsubject, hrevoked⟩ := List.mem_filter.mp hshown
    obtain ⟨e, a, ha, hsame, rfl⟩ := mem_trust_of_subject.mp hsubject
    obtain ⟨r, hr⟩ := Option.isSome_iff_exists.mp hrevoked
    obtain ⟨⟨j, attestation, hj, rfl, hje⟩, hrevocation⟩ :=
      trustEntry_positions hrun hids hindexes ha
    obtain ⟨k, revocation, hk, rfl, hkr⟩ := hrevocation r hr
    refine ⟨j, attestation, k, revocation,
      (takenBack_iff hrun hids).mpr ⟨hj, hk, a, ha, hsame, hr⟩, ?_⟩
    simp only [TrustEntry.asRevoked, LoadedLedger.trustEntry, hr, Option.map_some,
      Option.bind_eq_bind, Option.bind_some, hje, hkr, Option.getD_some, Option.pure_def,
      Option.some.injEq] at hentry
    exact hentry.symm
  · rintro ⟨j, attestation, k, revocation, htaken, rfl⟩
    obtain ⟨hj, hk, a, ha, hsame, hr⟩ := (takenBack_iff hrun hids).mp htaken
    have hje := hseq.mpr ⟨attestation, hj, rfl⟩
    have hkr := hseq.mpr ⟨revocation, hk, rfl⟩
    refine List.mem_filterMap.mpr ⟨loaded.trustEntry (eventIdOf C attestation) a,
      List.mem_filter.mpr ⟨mem_trust_of_subject.mpr ⟨_, a, ha, hsame, rfl⟩, ?_⟩, ?_⟩
    · simp [LoadedLedger.trustEntry, Attestation.isRevoked, hr]
    · simp only [TrustEntry.asRevoked, LoadedLedger.trustEntry, hr, Option.map_some,
        Option.bind_eq_bind, Option.bind_some, hje, hkr, Option.getD_some, Option.pure_def]

/-- The entries taken back are in the chain's order. -/
theorem takenBack_ascending :
    (loaded.takenBack subject).Pairwise fun a b => a.attestationSeq < b.attestationSeq := by
  refine List.Pairwise.filterMap TrustEntry.asRevoked ?_
    (((trust_ascending hrun hids hindexes).filter _).filter _)
  intro a b hlt a' ha' b' hb'
  have hkept : ∀ {entry : TrustEntry} {shown}, entry.asRevoked = some shown →
      shown.attestationSeq = entry.attestationSeq := by
    intro entry shown h
    simp only [TrustEntry.asRevoked, Option.bind_eq_bind, Option.bind_eq_some_iff,
      Option.pure_def, Option.some.injEq] at h
    obtain ⟨_, -, _, -, rfl⟩ := h
    rfl
  rw [hkept ha', hkept hb']
  exact hlt

end Positions

end Subject

/-! ## The report -/

/-- Who signed an attestation, as a report spells it. -/
structure SignedBy (C : Crypto) (events : List Bytes) (k : Nat) (event : Bytes)
    (shown : Option ReportedPrincipal) : Prop where
  principal : ∃ signed body payload key principal,
    openEvent event = some (signed, body, payload) ∧
    body.authorKey = PublicKey.asBytes (C := C) key ∧
    (after C (events.take k)).signingPrincipal key = some principal ∧
    shown = some ⟨principal.identity.display, renderId principal.key.raw⟩

/-- A report says of a subject what the chain says. -/
structure Reports (C : Crypto) (events : List Bytes) (state : LedgerState C) (subject : IdentityId)
    (report : TrustReport) : Prop where
  trusted : report.trusted = state.trusts subject
  /-- The report names the one attestation that stands. -/
  standing : ∀ k event, Standing C events subject k event →
    (∀ j other, Standing C events subject j other → j = k) ∧ report.trusted = true ∧
    report.attestationEvent = some (renderId (eventIdOf C event).raw) ∧
    report.attestationSeq = some k ∧ SignedBy C events k event report.signingPrincipal
  /-- Where none stands, it names none. -/
  silent : (∀ k event, ¬ Standing C events subject k event) → report.trusted = false ∧
    report.attestationEvent = none ∧ report.attestationSeq = none ∧
    report.signingPrincipal = none
  /-- It lists what the chain takes back, and nothing else. -/
  revoked : ∀ entry, entry ∈ report.revokedAttestations ↔ ∃ j attestation k revocation,
    TakenBack C events subject j attestation k revocation ∧
    entry = ⟨renderId (eventIdOf C attestation).raw, j, renderId (eventIdOf C revocation).raw, k⟩
  ascending : report.revokedAttestations.Pairwise fun a b => a.attestationSeq < b.attestationSeq
  count : report.revokedCount = report.revokedAttestations.length

/-- The report says of the chain what it should. -/
theorem reports_trustReport {verified : Verified C}
    (hrun : FoldRun verified.candidate.loaded.events verified.candidate.loaded.state)
    (hids : CollisionFree C verified.candidate.loaded.events)
    (hindexes : Indexes C verified.candidate.loaded.seqOf verified.candidate.loaded.events)
    (subject : IdentityId) (resolution : SubjectResolution) :
    Reports C verified.candidate.loaded.events verified.candidate.loaded.state subject
      (trustReport verified subject resolution) := by
  have hsome : (verified.candidate.loaded.standing subject).isSome =
      verified.candidate.loaded.state.trusts subject := isSome_standing hrun
  refine ⟨hsome, fun k event hstanding => ?_, fun hnone => ?_, fun entry => ?_, ?_, rfl⟩
  · obtain ⟨hk, a, ha, hsubject, hlive⟩ := (standing_iff hrun hids).mp hstanding
    have hseq := (hindexes.get?_eq_some hrun hids).mpr ⟨event, hk, rfl⟩
    have hentry : verified.candidate.loaded.standing subject =
        some (verified.candidate.loaded.trustEntry (eventIdOf C event) a) :=
      (standing_eq_some hrun).mpr ⟨_, a, ha, hsubject, hlive, rfl⟩
    refine ⟨fun j other hother => ?_, ?_, ?_, ?_, ?_⟩
    · obtain ⟨hj, b, hb, hsame, hlive'⟩ := (standing_iff hrun hids).mp hother
      have hid := hrun.book.sound.single _ _ b.vouch a.vouch (book_vouch hb) (book_vouch ha) hlive'
        hlive (hsame.trans hsubject.symm)
      exact hrun.id_injective hids hj hk hid
    · exact congrArg Option.isSome hentry
    · exact congrArg (Option.map TrustEntry.attestationEvent) hentry
    · refine (congrArg (Option.map TrustEntry.attestationSeq) hentry).trans ?_
      simp [LoadedLedger.trustEntry, hseq]
    · obtain ⟨signed, body, payload, key, b, hopen, hkey, hb, -, hprincipal⟩ :=
        hrun.attested_by hids hk hstanding.attests
      obtain rfl := Option.some.inj (ha.symm.trans hb)
      refine ⟨⟨signed, body, payload, key, _, hopen, hkey, hprincipal, ?_⟩⟩
      exact (congrArg (Option.bind · (signingPrincipal verified.candidate.loaded)) hentry).trans
        (signingPrincipal_trustEntry ha)
  · have hentry : verified.candidate.loaded.standing subject = none := by
      refine Option.eq_none_iff_forall_ne_some.mpr fun entry h => ?_
      obtain ⟨e, a, ha, hsubject, hlive, -⟩ := (standing_eq_some hrun).mp h
      obtain ⟨k, event, hk, rfl, -⟩ := exists_attestation hrun hids ha
      exact hnone k event ((standing_iff hrun hids).mpr ⟨hk, a, ha, hsubject, hlive⟩)
    exact ⟨congrArg Option.isSome hentry, congrArg (Option.map TrustEntry.attestationEvent) hentry,
      congrArg (Option.map TrustEntry.attestationSeq) hentry,
      congrArg (Option.bind · (signingPrincipal verified.candidate.loaded)) hentry⟩
  · exact mem_takenBack hrun hids hindexes
  · exact takenBack_ascending hrun hids hindexes

/-- A loaded ledger keeps the state and the violation of the fold, and the positions of what the
fold accepted. A trust report over a chain without violation says what the chain says: every
sequence number in it is looked up and none is made up. -/
theorem loaded_view_exact (C : Crypto) :
    (∀ ledger events, ∃ loaded : LoadedLedger C,
      (LoadedLedger.fold ledger events : Outcome Empty _) = .ok loaded ∧
      Mabel.fold C events = .ok (loaded.state, loaded.violation)) ∧
    (∀ ledger events (loaded : LoadedLedger C),
      (LoadedLedger.fold ledger events : Outcome Empty _) = .ok loaded →
      CollisionFree C (events.take loaded.state.nextSeq) → ∀ id i,
        loaded.seqOf.get? id = some i ↔ ∃ event,
          (events.take loaded.state.nextSeq)[i]? = some event ∧ eventIdOf C event = id) ∧
    ∀ ledger events (verified : Verified C) subject resolution,
      (LoadedLedger.fold ledger events : Outcome Empty _) = .ok verified.candidate.loaded →
      verified.candidate.loaded.violation = none → CollisionFree C events →
      Reports C events verified.candidate.loaded.state subject
        (trustReport verified subject resolution) ∧
      ∀ e a, verified.candidate.loaded.state.trust.get? e = some a →
        (verified.candidate.loaded.seqOf.get? e).isSome = true ∧
        ∀ r, a.revokedBy = some r → (verified.candidate.loaded.seqOf.get? r).isSome = true := by
  refine ⟨fun ledger events => ?_, fun ledger events loaded hloaded hids id i => ?_,
    fun ledger events verified subject resolution hloaded hvalid hids => ?_⟩
  · obtain ⟨loaded, hfold, hfolds, -⟩ := LoadedLedger.fold_agrees (C := C) ledger events
    exact ⟨loaded, hfold Empty, hfolds⟩
  · obtain ⟨loaded', hfold, -, hrun, hindexes, -⟩ := LoadedLedger.fold_agrees (C := C) ledger events
    obtain rfl : loaded' = loaded := Except.ok.inj ((hfold Empty).symm.trans hloaded)
    exact hindexes.get?_eq_some hrun hids
  · obtain ⟨loaded, hfold, -, hrun, hindexes, hwhole⟩ :=
      LoadedLedger.fold_agrees (C := C) ledger events
    obtain rfl : loaded = verified.candidate.loaded :=
      Except.ok.inj ((hfold Empty).symm.trans hloaded)
    have hevents := LoadedLedger.fold_events hloaded
    rw [hwhole hvalid, ← hevents] at hrun hindexes
    rw [← hevents] at hids ⊢
    refine ⟨reports_trustReport hrun hids hindexes subject resolution, fun e a ha => ?_⟩
    obtain ⟨⟨k, -, -, -, hk⟩, hrevocation⟩ := trustEntry_positions hrun hids hindexes ha
    refine ⟨by rw [hk]; rfl, fun r hr => ?_⟩
    obtain ⟨j, -, -, -, hj⟩ := hrevocation r hr
    rw [hj]
    rfl

/-- The sample ledger, loaded and verified, meets the hypotheses. -/
theorem loaded_view_exact_sampleLedger :
    let source := (SecretKey.sample 1).publicKey
    let subject : IdentityId := ⟨.ofNat idBytes 1⟩
    ∃ loaded : LoadedLedger Crypto.sample, loaded.events = sampleLedger ∧
      Reports Crypto.sample sampleLedger loaded.state subject
        (trustReport ⟨⟨source, loaded⟩, [source], 1000⟩ subject .resolved) := by
  have hvalid : Mabel.fold Crypto.sample sampleLedger =
      .ok (after Crypto.sample sampleLedger, none) := by decide +kernel
  have hids : CollisionFree Crypto.sample sampleLedger := by decide +kernel
  obtain ⟨hfolds, -, hreports⟩ := loaded_view_exact Crypto.sample
  obtain ⟨loaded, hfold, hsame⟩ := hfolds ⟨.ofNat idBytes 2⟩ sampleLedger
  rw [hvalid, Except.ok.injEq, Prod.mk.injEq] at hsame
  exact ⟨loaded, LoadedLedger.fold_events hfold,
    (hreports _ _ ⟨⟨_, loaded⟩, _, 1000⟩ _ .resolved hfold hsame.2.symm hids).1⟩

end Mabel.Node
