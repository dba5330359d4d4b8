import Mabel.Ledger.Fold.Trace
import Mabel.Ledger.Sign.Build
import Mabel.Ledger.Spec.Trust

/-!
# The trust answers of a ledger

The attestations of a folded state are a trust book, and every accepted event is a move of
it. Where event ids do not collide, the book remembers its log, so the answer to "does this
ledger trust a subject" is the balance of attestations and revocations.
-/

namespace Mabel

open Wire Proto Validate Machine

variable {C : Crypto}

/-- The subject an attestation event names. -/
def attestedSubject (event : Bytes) : Option IdentityId :=
  match openEvent event with
  | some (_, _, .trustAttestation a) => IdentityId.fromSlice a.subject
  | _ => none

/-- The attestation a revocation event names. -/
def revokedTarget (event : Bytes) : Option EventId :=
  match openEvent event with
  | some (_, _, .trustRevocation r) => EventId.fromSlice r.target
  | _ => none

/-- The number of attestations of a subject among these events. -/
def attestationsOf (events : List Bytes) (subject : IdentityId) : Nat :=
  events.countP fun e => decide (attestedSubject e = some subject)

/-- The number of revocations of attestations of a subject among these events. -/
def revocationsOf (C : Crypto) (events : List Bytes) (subject : IdentityId) : Nat :=
  events.countP fun e => events.any fun a =>
    decide (attestedSubject a = some subject) && decide (revokedTarget e = some (eventIdOf C a))

/-! ## The trust book of a state -/

/-- The vouch an attestation makes. -/
def Attestation.vouch (a : Attestation C) : Vouch IdentityId (SigningPrincipal C) EventId :=
  ⟨a.subject, a.signingPrincipal, a.revokedBy⟩

/-- The trust book of a folded state. -/
def LedgerState.book (s : LedgerState C) : TrustBook IdentityId (SigningPrincipal C) EventId where
  self := s.ledger
  vouches := fun e => (s.trust.get? e).map Attestation.vouch

/-- What a payload asks of the trust book. -/
def trustMoveOfPayload (id : EventId) : Payload → TrustMove IdentityId EventId
  | .inception _ => .found id.toIdentity
  | .trustAttestation a =>
    match IdentityId.fromSlice a.subject with
    | some subject => .attest id subject
    | none => .other
  | .trustRevocation r =>
    match EventId.fromSlice r.target with
    | some target => .revoke id target
    | none => .other
  | _ => .other

/-- What an event asks of the trust book. -/
def trustMoveOf (C : Crypto) (event : Bytes) : TrustMove IdentityId EventId :=
  match openEvent event with
  | some (_, _, payload) => trustMoveOfPayload (eventIdOf C event) payload
  | none => .other

/-- An event attests exactly when its payload names that subject. -/
theorem trustMoveOf_eq_attest {event : Bytes} {e : EventId} {subject : IdentityId} :
    trustMoveOf C event = .attest e subject ↔
      eventIdOf C event = e ∧ attestedSubject event = some subject := by
  rw [trustMoveOf, attestedSubject]
  cases openEvent event with
  | none => simp
  | some opened =>
    obtain ⟨signed, body, payload⟩ := opened
    cases payload with
    | trustAttestation a =>
      simp only [trustMoveOfPayload]
      cases IdentityId.fromSlice a.subject <;> simp
    | trustRevocation r =>
      simp only [trustMoveOfPayload]
      cases EventId.fromSlice r.target <;> simp
    | _ => simp [trustMoveOfPayload]

/-- An event revokes exactly when its payload names that target. -/
theorem trustMoveOf_eq_revoke {event : Bytes} {e target : EventId} :
    trustMoveOf C event = .revoke e target ↔
      eventIdOf C event = e ∧ revokedTarget event = some target := by
  rw [trustMoveOf, revokedTarget]
  cases openEvent event with
  | none => simp
  | some opened =>
    obtain ⟨signed, body, payload⟩ := opened
    cases payload with
    | trustAttestation a =>
      simp only [trustMoveOfPayload]
      cases IdentityId.fromSlice a.subject <;> simp
    | trustRevocation r =>
      simp only [trustMoveOfPayload]
      cases EventId.fromSlice r.target <;> simp
    | _ => simp [trustMoveOfPayload]

theorem book_vouch {s : LedgerState C} {e : EventId} {a : Attestation C}
    (h : s.trust.get? e = some a) : s.book.vouches e = some a.vouch := by
  simp [LedgerState.book, h]

/-- A subject is trusted exactly when a vouch for it stands. -/
theorem trusts_iff_stands {s : LedgerState C} {subject : IdentityId} :
    s.trusts subject = true ↔ s.book.Stands subject := by
  rw [LedgerState.trusts_iff]
  constructor
  · rintro ⟨e, a, ha, hsubject, hlive⟩
    exact ⟨e, a.vouch, book_vouch ha, hsubject, hlive⟩
  · rintro ⟨e, v, hv, hsubject, hlive⟩
    obtain ⟨a, ha, rfl⟩ := Option.map_eq_some_iff.mp hv
    exact ⟨e, a, ha, hsubject, hlive⟩

namespace LedgerState

variable {s mid : LedgerState C} {seq : Nat} {id : EventId}
  {signer : Option (SigningPrincipal C)} {payload : Payload}

/-- Every change is a move of the trust book. -/
theorem Change.book_moves (h : s.Change seq id signer payload mid)
    (hfirst : isInception payload = true → s = default) :
    TrustBook.Moves s.book (trustMoveOfPayload id payload) mid.book := by
  cases h with
  | seeded =>
    obtain rfl := hfirst rfl
    exact .found id.toIdentity
  | @attested a subject sp hsubject hother hun =>
    have hbook : LedgerState.book { s with trust := s.trust.insert id ⟨subject, sp, none⟩ } =
        s.book.vouch id ⟨subject, sp, none⟩ := by
      simp only [book, TrustBook.vouch, TrustBook.mk.injEq, true_and]
      funext e
      rw [SortedMap.get?_insert]
      split_ifs <;> rfl
    rw [hbook, trustMoveOfPayload, hsubject, IdentityId.fromSlice_toVec]
    refine .attest id subject sp hother fun hstands => ?_
    have htrusts := trusts_iff_stands.mpr hstands
    rw [trusts, hun] at htrusts
    exact absurd htrusts (by simp)
  | @revoked r target a htarget ha hlive =>
    have hbook : LedgerState.book
        { s with trust := s.trust.adjust target fun a => { a with revokedBy := some id } } =
          s.book.vouch target { a.vouch with revokedBy := some id } := by
      simp only [book, TrustBook.vouch, TrustBook.mk.injEq, true_and]
      funext e
      rw [SortedMap.get?_adjust]
      split_ifs with he
      · rw [he, ha]
        rfl
      · rfl
    rw [hbook, trustMoveOfPayload, htarget, EventId.fromSlice_toVec]
    exact .revoke id target a.vouch (book_vouch ha) hlive
  | _ => exact .other

end LedgerState

/-- One accepted event moves the book as its trust move says. -/
theorem Step.book_moves {s s' : LedgerState C} {event : Bytes} {log : List Bytes}
    (h : FoldRun log s) (st : Step s event s') :
    TrustBook.Moves s.book (trustMoveOf C event) s'.book := by
  obtain ⟨mid, hchange, hs'⟩ := st.change
  have hbook : s'.book = mid.book := (congrArg LedgerState.book hs').trans rfl
  rw [hbook, trustMoveOf, openEvent_of_opened st.opened, ← st.id_eq]
  exact hchange.book_moves (h.inception_iff st).mp

/-- The trust book runs on where the fold runs on. -/
theorem FoldRun.book_from {log rest : List Bytes} {s t : LedgerState C} (h : FoldRun log s)
    (hrest : RunFrom (Accepts LedgerState.apply) s rest t) :
    RunFrom TrustBook.Moves s.book (rest.map (trustMoveOf C)) t.book := by
  refine hrest.simulate TrustBook.Moves LedgerState.book (trustMoveOf C) ?_
  intro log' u event u' hrun _ haccept
  obtain ⟨st⟩ := apply_iff.mp haccept
  exact st.book_moves (h.append hrun)

/-- A fold is a run of the book. -/
theorem FoldRun.book {log : List Bytes} {s : LedgerState C} (h : FoldRun log s) :
    TrustBook.Run (log.map (trustMoveOf C)) s.book := by
  have hnil : FoldRun [] (LedgerState.default : LedgerState C) := .nil
  exact hnil.book_from h

/-! ## What the run says of an attestation -/

/-- What an attestation may become: it can be revoked once. -/
structure Attestation.Becomes (a b : Attestation C) : Prop where
  subject : b.subject = a.subject
  signingPrincipal : b.signingPrincipal = a.signingPrincipal
  revokedBy : b.revokedBy = a.revokedBy ∨ a.revokedBy = none

/-- Where event ids do not collide, every attestation has an id of its own. -/
theorem FoldRun.trust_fresh {log : List Bytes} {s : LedgerState C} (h : FoldRun log s)
    (hids : CollisionFree C log) : TrustBook.Fresh (log.map (trustMoveOf C)) := by
  rw [TrustBook.Fresh, List.filterMap_map]
  refine h.nodup_filterMap hids fun event e he => ?_
  rw [Function.comp] at he
  cases hm : trustMoveOf C event with
  | attest e' subject =>
    rw [hm] at he
    rw [(trustMoveOf_eq_attest.mp hm).1]
    exact (Option.some.inj he).symm
  | _ => simp [hm, TrustMove.issues] at he

/-- An attestation stays on record for the rest of a run. -/
theorem FoldRun.trust_keeps {log rest : List Bytes} {s t : LedgerState C} (h : FoldRun log s)
    (hrest : RunFrom (Accepts LedgerState.apply) s rest t) (hids : CollisionFree C (log ++ rest))
    {e : EventId} {a : Attestation C} (ha : s.trust.get? e = some a) :
    ∃ b, t.trust.get? e = some b ∧ a.Becomes b := by
  have hfresh := FoldRun.trust_fresh (h.append hrest) hids
  rw [List.map_append] at hfresh
  obtain ⟨v, hv, hbecomes⟩ := TrustBook.Run.keeps h.book (h.book_from hrest) hfresh (book_vouch ha)
  obtain ⟨b, hb, rfl⟩ := Option.map_eq_some_iff.mp hv
  exact ⟨b, hb, hbecomes.subject, hbecomes.signer, hbecomes.revokedBy⟩

/-- The attestations on record are those the run accepted. -/
theorem FoldRun.mem_trust {log : List Bytes} {s : LedgerState C} (h : FoldRun log s)
    (hids : CollisionFree C log) {e : EventId} {subject : IdentityId} :
    (∃ a, s.trust.get? e = some a ∧ a.subject = subject) ↔
      ∃ event ∈ log, eventIdOf C event = e ∧ attestedSubject event = some subject := by
  have htraced := h.book.traced (h.trust_fresh hids)
  constructor
  · rintro ⟨a, ha, rfl⟩
    obtain ⟨event, hevent, hmove⟩ := List.mem_map.mp (htraced.made e a.vouch (book_vouch ha))
    exact ⟨event, hevent, trustMoveOf_eq_attest.mp hmove⟩
  · rintro ⟨event, hevent, hmove⟩
    obtain ⟨v, hv, hsubject⟩ := htraced.recorded e subject
      (List.mem_map.mpr ⟨event, hevent, trustMoveOf_eq_attest.mpr hmove⟩)
    obtain ⟨a, ha, rfl⟩ := Option.map_eq_some_iff.mp hv
    exact ⟨a, ha, hsubject⟩

/-- The keys of the trust map are the ids of the accepted attestations. -/
theorem FoldRun.trust_keys {log : List Bytes} {s : LedgerState C} (h : FoldRun log s)
    (hids : CollisionFree C log) : s.trust.keys.Perm
      ((log.filter fun e => (attestedSubject e).isSome).map (eventIdOf C)) := by
  have hnodup : ((log.filter fun e => (attestedSubject e).isSome).map (eventIdOf C)).Nodup :=
    (h.nodup_ids hids).sublist (List.filter_sublist.map _)
  rw [List.perm_ext_iff_of_nodup s.trust.nodup_keys hnodup]
  intro e
  rw [SortedMap.mem_keys, List.mem_map]
  constructor
  · rintro ⟨a, ha⟩
    obtain ⟨event, hevent, hid, hsubject⟩ := (h.mem_trust hids).mp ⟨a, ha, rfl⟩
    exact ⟨event, List.mem_filter.mpr ⟨hevent, by rw [hsubject]; rfl⟩, hid⟩
  · rintro ⟨event, hevent, hid⟩
    obtain ⟨hmem, hsome⟩ := List.mem_filter.mp hevent
    obtain ⟨subject, hsubject⟩ := Option.isSome_iff_exists.mp hsome
    obtain ⟨a, ha, -⟩ := (h.mem_trust hids).mpr ⟨event, hmem, hid, hsubject⟩
    exact ⟨a, ha⟩

/-- The answer is the balance of the run. -/
theorem FoldRun.trust_balance {log : List Bytes} {s : LedgerState C} (h : FoldRun log s)
    (hids : CollisionFree C log) (subject : IdentityId) :
    attestationsOf log subject =
      revocationsOf C log subject + if s.trusts subject then 1 else 0 := by
  have htraced := h.book.traced (h.trust_fresh hids)
  have hfor : (log.map (trustMoveOf C)).countP (TrustBook.vouchesFor subject) =
      attestationsOf log subject := by
    rw [List.countP_map, attestationsOf]
    refine List.countP_congr fun event _ => ?_
    rw [Function.comp, decide_eq_true_iff]
    cases hm : trustMoveOf C event with
    | attest e s' =>
      rw [TrustBook.vouchesFor, (trustMoveOf_eq_attest.mp hm).2]
      simp
    | _ =>
      refine ⟨fun h => absurd h (by simp [TrustBook.vouchesFor]), fun hs => ?_⟩
      rw [trustMoveOf_eq_attest.mpr ⟨rfl, hs⟩] at hm
      simp at hm
  have hback : (log.map (trustMoveOf C)).countP (s.book.takesBack subject) =
      revocationsOf C log subject := by
    rw [List.countP_map, revocationsOf]
    refine List.countP_congr fun event hevent => ?_
    rw [Function.comp, List.any_eq_true]
    simp only [Bool.and_eq_true, decide_eq_true_iff]
    cases hm : trustMoveOf C event with
    | revoke r target =>
      obtain ⟨-, htarget⟩ := trustMoveOf_eq_revoke.mp hm
      have hany : s.book.takesBack subject (.revoke r target) = true ↔
          ∃ a, s.trust.get? target = some a ∧ a.subject = subject := by
        have hvouches : s.book.vouches target =
          (s.trust.get? target).map Attestation.vouch := rfl
        rw [TrustBook.takesBack, hvouches]
        cases s.trust.get? target <;> simp [Attestation.vouch]
      rw [hany, h.mem_trust hids, htarget]
      simp only [Option.some.injEq]
      refine exists_congr fun a => and_congr_right fun _ => ?_
      rw [and_comm, eq_comm (a := target)]
    | _ =>
      refine ⟨fun h => absurd h (by simp [TrustBook.takesBack]), ?_⟩
      rintro ⟨a, -, -, htarget⟩
      rw [trustMoveOf_eq_revoke.mpr ⟨rfl, htarget⟩] at hm
      simp at hm
  rw [← hfor, ← hback]
  split_ifs with ht
  · exact (htraced.balance subject).1 (trusts_iff_stands.mp ht)
  · exact (htraced.balance subject).2 fun hs => ht (trusts_iff_stands.mpr hs)

/-- An accepted attestation is recorded for the principal that signed it. -/
theorem FoldRun.attested_by {log : List Bytes} {s : LedgerState C} (h : FoldRun log s)
    (hids : CollisionFree C log) {k : Nat} {event : Bytes} (hk : log[k]? = some event)
    {subject : IdentityId} (hsubject : attestedSubject event = some subject) :
    ∃ signed body payload key a, openEvent event = some (signed, body, payload) ∧
      body.authorKey = PublicKey.asBytes (C := C) key ∧
      s.trust.get? (eventIdOf C event) = some a ∧ a.subject = subject ∧
      (after C (log.take k)).signingPrincipal key = some a.signingPrincipal := by
  obtain ⟨u, u', hbefore, -, ⟨st⟩, hafter⟩ := h.at_index hk
  obtain ⟨mid, hchange, hs'⟩ := st.change
  have hsigns := st.signs
  have hposition := st.position
  have hopened := openEvent_of_opened st.opened
  rw [attestedSubject, hopened] at hsubject
  generalize hp : st.payload = payload at hchange hposition hsubject
  cases hchange with
  | @attested a subject' sp hnames hother hun hsp =>
    simp only [hnames, IdentityId.fromSlice_toVec, Option.some.injEq] at hsubject
    subst hsubject
    rw [LedgerState.Signs, if_neg (by simpa [isInception] using hposition)] at hsigns
    obtain ⟨sp', hsp', hsigner⟩ := hsigns
    obtain rfl : sp' = sp := Option.some.inj (hsigner.symm.trans hsp)
    have hrecord : u'.trust.get? (eventIdOf C event) = some ⟨subject', sp', none⟩ := by
      rw [hs', ← st.id_eq]
      simp
    have hlog : log.take k ++ [event] ++ log.drop (k + 1) = log := by
      rw [List.append_assoc]
      exact log_split hk
    obtain ⟨b, hb, hbecomes⟩ := FoldRun.trust_keeps (hbefore.snoc (apply_iff.mpr ⟨st⟩)) hafter
      (hlog.symm ▸ hids) hrecord
    refine ⟨st.signed, st.body, st.payload, st.key, b, hopened, st.author, hb, hbecomes.subject, ?_⟩
    rw [FoldRun.after_eq hbefore, hbecomes.signingPrincipal]
    exact hsp'
  | _ => simp at hsubject

/-- A subject has at most one unrevoked attestation and the ledger none of itself; every accepted
attestation has its entry, revoked at most once and by a later revocation that names it; the
answer is the balance of the two. -/
theorem trust_unambiguous (events : List Bytes)
    (hids : CollisionFree C (acceptedOf C events)) :
    -- at most one unrevoked attestation for each subject
    (∀ e f a b, (after C events).trust.get? e = some a → (after C events).trust.get? f = some b →
      a.revokedBy = none → b.revokedBy = none → a.subject = b.subject → e = f) ∧
    -- none of the ledger itself
    (∀ e a, (after C events).trust.get? e = some a →
      (after C events).ledger ≠ some a.subject) ∧
    -- one entry for each accepted attestation, with its subject and its signing principal
    (after C events).trust.keys.Perm
      (((acceptedOf C events).filter fun e => (attestedSubject e).isSome).map (eventIdOf C)) ∧
    (∀ (k : Nat) event subject, (acceptedOf C events)[k]? = some event →
      attestedSubject event = some subject →
      ∃ signed body payload key a, openEvent event = some (signed, body, payload) ∧
        body.authorKey = PublicKey.asBytes (C := C) key ∧
        (after C events).trust.get? (eventIdOf C event) = some a ∧ a.subject = subject ∧
        (after C ((acceptedOf C events).take k)).signingPrincipal key =
          some a.signingPrincipal) ∧
    -- an entry stays, and is revoked at most once
    (∀ k e a, (after C (events.take k)).trust.get? e = some a →
      ∃ b, (after C events).trust.get? e = some b ∧ a.Becomes b) ∧
    -- what revoked it is a later revocation that names it
    (∀ e a r, (after C events).trust.get? e = some a → a.revokedBy = some r →
      ∃ (j k : Nat) (attestation revocation : Bytes), j < k ∧
        (acceptedOf C events)[j]? = some attestation ∧ eventIdOf C attestation = e ∧
        attestedSubject attestation = some a.subject ∧
        (acceptedOf C events)[k]? = some revocation ∧ eventIdOf C revocation = r ∧
        revokedTarget revocation = some e) ∧
    -- the answer is the balance
    (∀ subject, attestationsOf (acceptedOf C events) subject =
        revocationsOf C (acceptedOf C events) subject +
          (if (after C events).trusts subject then 1 else 0) ∧
      ((after C events).trusts subject = true ↔
        attestationsOf (acceptedOf C events) subject >
          revocationsOf C (acceptedOf C events) subject)) := by
  have hrun : FoldRun (acceptedOf C events) (after C events) := foldRun_after events
  have hsound := hrun.book.sound
  have htraced := hrun.book.traced (hrun.trust_fresh hids)
  refine ⟨?_, ?_, hrun.trust_keys hids, fun k event subject hk => hrun.attested_by hids hk, ?_, ?_, ?_⟩
  · intro e f a b ha hb
    exact hsound.single e f a.vouch b.vouch (book_vouch ha) (book_vouch hb)
  · intro e a ha
    exact hsound.noSelf e a.vouch (book_vouch ha)
  · intro k e a ha
    have hsplit := List.take_append_drop k events
    have hrest := runFrom_after (C := C) (events.take k) (events.drop k)
    rw [← hsplit, acceptedOf_append] at hids
    rw [hsplit] at hrest
    exact FoldRun.trust_keeps (foldRun_after (events.take k)) hrest hids ha
  · intro e a r ha hr
    obtain ⟨j, k, hjk, hj, hk⟩ := htraced.revoked e a.vouch r (book_vouch ha) hr
    rw [List.getElem?_map, Option.map_eq_some_iff] at hj hk
    obtain ⟨attestation, hattestation, hattest⟩ := hj
    obtain ⟨revocation, hrevocation, hrevoke⟩ := hk
    obtain ⟨hid, hsubject⟩ := trustMoveOf_eq_attest.mp hattest
    obtain ⟨hid', htarget⟩ := trustMoveOf_eq_revoke.mp hrevoke
    exact ⟨j, k, attestation, revocation, hjk, hattestation, hid, hsubject, hrevocation, hid',
      htarget⟩
  · intro subject
    have hbalance := hrun.trust_balance hids subject
    refine ⟨hbalance, ?_⟩
    rw [hbalance]
    cases (after C events).trusts subject <;> simp

/-- The sample ledger trusts exactly whom it attested more often than it revoked. -/
theorem trust_unambiguous_sampleLedger :
    (acceptedOf Crypto.sample sampleLedger).length = 5 ∧
      ∀ subject, (after Crypto.sample sampleLedger).trusts subject = true ↔
        attestationsOf (acceptedOf Crypto.sample sampleLedger) subject >
          revocationsOf Crypto.sample (acceptedOf Crypto.sample sampleLedger) subject := by
  have hids : CollisionFree Crypto.sample (acceptedOf Crypto.sample sampleLedger) := by
    decide +kernel
  refine ⟨by decide +kernel, fun subject => ?_⟩
  exact ((trust_unambiguous _ hids).2.2.2.2.2.2 subject).2

end Mabel
