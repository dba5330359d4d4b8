import Mabel.Ledger.Correctness.Control
import Mabel.Ledger.Spec.Admissions

/-!
# The life of an invitation

Where the events of a run have different ids, an invitation stays on record, closes once,
is consumed by one acceptance that its invitee signed for it, and the last one consumed
says what its invitee may do.
-/

namespace Mabel

open Wire Proto Validate Machine

variable {C : Crypto}

/-- The acceptance payload of an event. -/
def acceptanceOf (event : Bytes) : Option MembershipAcceptance :=
  match openEvent event with
  | some (_, _, .membershipAcceptance a) => some a
  | _ => none

/-- The invitation an acceptance event names. -/
def consumedInvitation (event : Bytes) : Option EventId := do
  let a ← acceptanceOf event
  let blob ← Acceptance.decode a.acceptance
  EventId.fromSlice blob.invitationEvent

/-- What an invitation may become: only its status changes, and only while it is open. -/
structure Invitation.Becomes (i j : Invitation C) : Prop where
  invitee : j.invitee = i.invitee
  inviteeKey : j.inviteeKey = i.inviteeKey
  role : j.role = i.role
  status : j.status = i.status ∨ i.status = .open

/-- An event consumes an invitation of a ledger: it is an acceptance whose blob names the
ledger, the invitation, its invitee and its key, and is signed under that key. -/
structure Consumes (ledger : LedgerId) (id : EventId) (i : Invitation C) (event : Bytes)
    (a : MembershipAcceptance) (blob : Acceptance) (signature : Block sigBytes) : Prop where
  payload : acceptanceOf event = some a
  decode : Acceptance.decode a.acceptance = some blob
  namesLedger : blob.ledger = ledger.toVec
  namesInvitation : blob.invitationEvent = id.toVec
  namesInvitee : blob.invitee = i.invitee.toVec
  namesKey : blob.inviteeKey = i.inviteeKey.asBytes
  signature_eq : a.signature = signature.bytes
  verified : i.inviteeKey.verify (acceptInput a.acceptance) signature = true

/-! ## Invitations and offers -/

/-- A move that issues an offer does so under the id of its event. -/
theorem moveOfPayload_issues {id e : EventId} {payload : Payload}
    {m : Move IdentityId (PublicKey C) EventId} (h : moveOfPayload C id payload = some m)
    (hm : m.issues = some e) : e = id := by
  cases m with
  | invite event invitee key role =>
    cases payload with
    | inception i =>
      simp only [moveOfPayload] at h
      split at h <;> simp at h
    | membershipInvitation i =>
      simp only [moveOfPayload, Option.bind_eq_bind, Option.bind_eq_some_iff] at h
      obtain ⟨_, -, _, -, _, -, _, -, h⟩ := h
      obtain ⟨rfl, -, -, -⟩ := Move.invite.injEq .. ▸ Option.some.inj h
      exact (Option.some.inj hm).symm
    | _ => simp [moveOfPayload, Option.bind_eq_some_iff] at h
  | _ => simp [Move.issues] at hm

/-- The moves that take up an offer are the acceptances that name it. -/
theorem moveOfPayload_eq_accept {id e : EventId} {payload : Payload} :
    moveOfPayload C id payload = some (.accept e) ↔ ∃ a blob,
      payload = .membershipAcceptance a ∧ Acceptance.decode a.acceptance = some blob ∧
      EventId.fromSlice blob.invitationEvent = some e := by
  cases payload with
  | inception i =>
    simp only [moveOfPayload]
    split <;> simp
  | _ => simp [moveOfPayload, Option.bind_eq_some_iff]

/-- An offer is issued under the id of its event. -/
theorem moveOf_issues {event : Bytes} {e : EventId} (h : (moveOf C event).issues = some e) :
    e = eventIdOf C event := by
  cases hopen : openEvent event with
  | none => simp [moveOf, hopen, Move.issues] at h
  | some opened =>
    rw [moveOf_eq hopen] at h
    cases hmove : moveOfPayload C (eventIdOf C event) opened.2.2 with
    | none => simp [hmove, Move.issues] at h
    | some m =>
      rw [hmove, Option.getD_some] at h
      exact moveOfPayload_issues hmove h

/-- The moves that take up an offer are the acceptance events that name it. -/
theorem moveOf_eq_accept {event : Bytes} {e : EventId} :
    moveOf C event = .accept e ↔ consumedInvitation event = some e := by
  rw [consumedInvitation, acceptanceOf]
  cases hopen : openEvent event with
  | none => simp [moveOf, hopen]
  | some opened =>
    obtain ⟨signed, body, payload⟩ := opened
    have hsome : moveOf C event = .accept e ↔
        moveOfPayload C (eventIdOf C event) payload = some (.accept e) := by
      rw [moveOf_eq hopen]
      cases moveOfPayload C (eventIdOf C event) payload <;> simp
    rw [hsome, moveOfPayload_eq_accept]
    cases payload <;> simp [Option.bind_eq_some_iff]

/-- Where event ids do not collide, every invitation has an id of its own. -/
theorem FoldRun.fresh {log : List Bytes} {s : LedgerState C} (h : FoldRun log s)
    (hids : CollisionFree C log) : Roster.Fresh (log.map (moveOf C)) := by
  rw [Roster.Fresh, List.filterMap_map]
  exact h.nodup_filterMap hids fun event e he => moveOf_issues he

/-- The acceptances of a run are where its roster takes up an offer. -/
theorem takesUp_iff {log : List Bytes} {k : Nat} {e : EventId} :
    Roster.TakesUp (log.map (moveOf C)) k e ↔
      ∃ event, log[k]? = some event ∧ consumedInvitation event = some e := by
  simp only [Roster.TakesUp, List.getElem?_map, Option.map_eq_some_iff, moveOf_eq_accept]

/-! ## What the run says of an invitation -/

theorem becomes_of_offer {i j : Invitation C} (h : i.offer.Becomes j.offer) : i.Becomes j :=
  ⟨h.invitee, h.key, h.role, h.status⟩

/-- An invitation stays on record for the rest of a run. -/
theorem FoldRun.keeps {log rest : List Bytes} {s t : LedgerState C} (h : FoldRun log s)
    (hrest : RunFrom (Accepts LedgerState.apply) s rest t) (hids : CollisionFree C (log ++ rest))
    {e : EventId} {i : Invitation C} (hi : s.invitations.get? e = some i) :
    ∃ j, t.invitations.get? e = some j ∧ i.Becomes j := by
  have hfresh := FoldRun.fresh (h.append hrest) hids
  rw [List.map_append] at hfresh
  obtain ⟨o, ho, hbecomes⟩ := Roster.Run.keeps h.roster (h.roster_from hrest) hfresh
    (roster_offer hi)
  obtain ⟨j, hj, rfl⟩ := Option.map_eq_some_iff.mp ho
  exact ⟨j, hj, becomes_of_offer hbecomes⟩

/-- An accepted acceptance consumes the invitation it names. -/
theorem Step.consumes {s s' : LedgerState C} {event : Bytes} (st : Step s event s')
    {e : EventId} (hevent : consumedInvitation event = some e) :
    ∃ l i a blob signature, s.ledger = some l ∧ s.invitations.get? e = some i ∧
      s'.invitations.get? e = some { i with status := .accepted } ∧
      Consumes l e i event a blob signature := by
  obtain ⟨mid, hchange, hs'⟩ := st.change
  have hopened := st.opened
  have hvalid := st.opened.payloadValid
  rw [consumedInvitation, acceptanceOf, openEvent_of_opened st.opened] at hevent
  generalize st.payload = payload at hchange hopened hvalid hevent
  cases hchange with
  | @admitted a blob e' i hblob hmatch =>
    simp only [Option.bind_eq_bind, Option.bind_some, hblob, hmatch.names,
      EventId.fromSlice_toVec, Option.some.injEq] at hevent
    subst hevent
    obtain ⟨l, hl, hnames⟩ := hmatch.ledger
    have hv : MembershipAcceptance.Valid C 2 a := hvalid
    obtain ⟨blob', hblob', hencode, key, signature, hkey, hsignature, hverify⟩ := hv.blob
    have hsame : blob' = blob := by
      rw [hencode, acceptance_decode C hblob'] at hblob
      exact Option.some.inj hblob
    obtain rfl : key = i.inviteeKey := PublicKey.asBytes_injective
      (hkey.symm.trans (hsame ▸ hmatch.inviteeKey))
    refine ⟨l, i, a, blob, signature, hl, hmatch.issued, ?_, ?_⟩
    · rw [hs']
      simp [hmatch.issued]
    · refine ⟨?_, hblob, hnames, hmatch.names, hmatch.invitee, hmatch.inviteeKey, hsignature, ?_⟩
      · rw [acceptanceOf, openEvent_of_opened hopened]
      · rw [hencode]
        exact hverify
  | _ => simp at hevent

/-- An accepted acceptance names an invitation. -/
theorem Step.consumed_of_acceptance {s s' : LedgerState C} {event : Bytes}
    (st : Step s event s') {a : MembershipAcceptance} (ha : acceptanceOf event = some a) :
    ∃ e, consumedInvitation event = some e := by
  obtain ⟨mid, hchange, -⟩ := st.change
  have hacceptance := ha
  rw [acceptanceOf, openEvent_of_opened st.opened] at ha
  generalize st.payload = payload at hchange ha
  cases hchange with
  | @admitted a' blob e' i hblob hmatch =>
    obtain rfl := Option.some.inj ha
    refine ⟨e', ?_⟩
    simp [consumedInvitation, hacceptance, hblob, hmatch.names]
  | _ => simp at ha

/-- Whoever is seated by an acceptance holds the seat of the last one. -/
theorem FoldRun.heldUnder {log : List Bytes} {s : LedgerState C} (h : FoldRun log s)
    (hids : CollisionFree C log) {id : IdentityId} {p : Principal C}
    (hp : s.principals.get? id = some p) (hroot : s.rootIdentity ≠ some id) :
    ∃ (k : Nat) (event : Bytes) (e : EventId) (i : Invitation C), log[k]? = some event ∧ consumedInvitation event = some e ∧
      s.invitations.get? e = some i ∧ i.invitee = id ∧ i.status = .accepted ∧
      p = ⟨i.role, i.inviteeKey⟩ ∧
      ∀ (j : Nat) event' e' i', k < j → log[j]? = some event' → consumedInvitation event' = some e' →
        s.invitations.get? e' = some i' → i'.invitee ≠ id := by
  have htraced := h.roster.traced (h.fresh hids)
  obtain ⟨k, e, o, hk, ho, hinvitee, hseat, hlater⟩ := htraced.latest id p.seat (roster_seat hp) hroot
  obtain ⟨event, hevent, hconsumed⟩ := takesUp_iff.mp hk
  obtain ⟨i, hi, rfl⟩ := Option.map_eq_some_iff.mp ho
  obtain ⟨o', ho', hstatus⟩ := (htraced.accepted e).mp hk.mem
  obtain rfl := Option.some.inj (ho.symm.trans ho')
  refine ⟨k, event, e, i, hevent, hconsumed, hi, hinvitee, hstatus, ?_, ?_⟩
  · obtain ⟨role, key⟩ := p
    obtain ⟨rfl, rfl⟩ := Seat.mk.injEq .. ▸ hseat
    rfl
  · intro j event' e' i' hj hlog hc hi'
    exact hlater j e' i'.offer hj (takesUp_iff.mpr ⟨event', hlog, hc⟩) (roster_offer hi')

/-- No invitation is consumed twice. -/
theorem FoldRun.consumed_once {log : List Bytes} {s : LedgerState C} (h : FoldRun log s)
    (hids : CollisionFree C log) {j k : Nat} {a b : Bytes} {e : EventId} (hj : log[j]? = some a)
    (hk : log[k]? = some b) (ha : consumedInvitation a = some e)
    (hb : consumedInvitation b = some e) : j = k :=
  (h.roster.traced (h.fresh hids)).once e j k (takesUp_iff.mpr ⟨a, hj, ha⟩)
    (takesUp_iff.mpr ⟨b, hk, hb⟩)

/-- An accepted invitation was consumed by an acceptance of the run. -/
theorem FoldRun.consumer {log : List Bytes} {s : LedgerState C} (h : FoldRun log s)
    (hids : CollisionFree C log) {e : EventId} {i : Invitation C}
    (hi : s.invitations.get? e = some i) (hstatus : i.status = .accepted) :
    ∃ (k : Nat) (event : Bytes) (l : LedgerId) (a : MembershipAcceptance) (blob : Acceptance)
      (signature : Block sigBytes), log[k]? = some event ∧ consumedInvitation event = some e ∧
      s.ledger = some l ∧ Consumes l e i event a blob signature := by
  have htraced := h.roster.traced (h.fresh hids)
  obtain ⟨k, hk⟩ := List.mem_iff_getElem?.mp
    ((htraced.accepted e).mpr ⟨i.offer, roster_offer hi, hstatus⟩)
  obtain ⟨event, hevent, hconsumed⟩ := takesUp_iff.mp hk
  obtain ⟨u, u', hbefore, -, ⟨st⟩, hafter⟩ := h.at_index hevent
  obtain ⟨l, j, a, blob, signature, hl, hj, hj', hconsumes⟩ := st.consumes hconsumed
  have hlog : log.take k ++ [event] ++ log.drop (k + 1) = log := by
    rw [List.append_assoc]
    exact log_split hevent
  obtain ⟨i', hi', hbecomes⟩ := FoldRun.keeps (hbefore.snoc (apply_iff.mpr ⟨st⟩)) hafter
    (hlog.symm ▸ hids) hj'
  obtain rfl := Option.some.inj (hi'.symm.trans hi)
  have hledger : s.ledger = some l := by
    have hhead : u.head ≠ none := fun hnone => by
      rw [(hbefore.empty_of_head hnone).2] at hl
      simp [LedgerState.default] at hl
    rw [(fixed_of_runFrom hafter (by simp [st.head])).2.2.2, (st.fixed hhead).2.2, hl]
  refine ⟨k, event, l, a, blob, signature, hevent, hconsumed, hledger, ?_⟩
  exact { hconsumes with
    namesInvitee := hbecomes.invitee ▸ hconsumes.namesInvitee
    namesKey := hbecomes.inviteeKey ▸ hconsumes.namesKey
    verified := hbecomes.inviteeKey ▸ hconsumes.verified }

/-- An invitee has at most one open invitation, a record changes its status once and nothing else,
a seat is what its last accepted invitation offered, and every acceptance takes up one invitation,
once. -/
theorem invitation_lifecycle (events : List Bytes)
    (hids : CollisionFree C (acceptedOf C events)) :
    -- at most one open invitation for each invitee
    (∀ e f i j, (after C events).invitations.get? e = some i →
      (after C events).invitations.get? f = some j → i.status = .open → j.status = .open →
      i.invitee = j.invitee → e = f) ∧
    -- a record stays, and only its status changes, once
    (∀ k e i, (after C (events.take k)).invitations.get? e = some i →
      ∃ j, (after C events).invitations.get? e = some j ∧ i.Becomes j) ∧
    -- a principal other than the root holds what its last accepted invitation offered
    (∀ id p, (after C events).principals.get? id = some p →
      (after C events).rootIdentity ≠ some id →
      ∃ (k : Nat) (event : Bytes) (e : EventId) (i : Invitation C),
        (acceptedOf C events)[k]? = some event ∧ consumedInvitation event = some e ∧
        (after C events).invitations.get? e = some i ∧ i.invitee = id ∧ i.status = .accepted ∧
        p = ⟨i.role, i.inviteeKey⟩ ∧
        ∀ (j : Nat) event' e' i', k < j → (acceptedOf C events)[j]? = some event' →
          consumedInvitation event' = some e' →
          (after C events).invitations.get? e' = some i' → i'.invitee ≠ id) ∧
    -- an accepted invitation was consumed by one acceptance, signed for it
    (∀ e i, (after C events).invitations.get? e = some i → i.status = .accepted →
      ∃ (k : Nat) (event : Bytes) (l : LedgerId) (a : MembershipAcceptance) (blob : Acceptance)
        (signature : Block sigBytes), (acceptedOf C events)[k]? = some event ∧
        (after C events).ledger = some l ∧ Consumes l e i event a blob signature ∧
        ∀ (j : Nat) event', (acceptedOf C events)[j]? = some event' →
          consumedInvitation event' = some e → j = k) ∧
    -- one acceptance blob is applied at most once
    (∀ (j k : Nat) event event' a a', (acceptedOf C events)[j]? = some event →
      (acceptedOf C events)[k]? = some event' → acceptanceOf event = some a →
      acceptanceOf event' = some a' → a.acceptance = a'.acceptance → j = k) := by
  have hrun : FoldRun (acceptedOf C events) (after C events) := foldRun_after events
  refine ⟨?_, ?_, fun id p => hrun.heldUnder hids, ?_, ?_⟩
  · intro e f i j hi hj
    exact (sound_after events).single e f i.offer j.offer (roster_offer hi) (roster_offer hj)
  · intro k e i hi
    have hsplit := List.take_append_drop k events
    have hrest := runFrom_after (C := C) (events.take k) (events.drop k)
    rw [← hsplit, acceptedOf_append] at hids
    rw [hsplit] at hrest
    exact FoldRun.keeps (foldRun_after (events.take k)) hrest hids hi
  · intro e i hi hstatus
    obtain ⟨k, event, l, a, blob, signature, hevent, hconsumed, hl, hconsumes⟩ :=
      hrun.consumer hids hi hstatus
    exact ⟨k, event, l, a, blob, signature, hevent, hl, hconsumes, fun j event' hj hevent' =>
      hrun.consumed_once hids hj hevent hevent' hconsumed⟩
  · intro j k event event' a a' hj hk ha ha' hblob
    obtain ⟨u, u', -, -, ⟨st⟩, -⟩ := hrun.at_index hj
    obtain ⟨e, he⟩ := st.consumed_of_acceptance ha
    refine hrun.consumed_once hids hj hk he ?_
    rw [consumedInvitation, ha, Option.bind_eq_bind, Option.bind_some, hblob] at he
    rw [consumedInvitation, ha', Option.bind_eq_bind, Option.bind_some, he]

/-- The sample's invitation is accepted once. -/
theorem invitation_lifecycle_sampleLedger :
    (acceptedOf Crypto.sample (sampleLedger.take 3)).length = 3 ∧
      ∀ e i, (after Crypto.sample (sampleLedger.take 3)).invitations.get? e = some i →
        i.status = .accepted → ∃ k : Nat, ∀ (j : Nat) event',
          (acceptedOf Crypto.sample (sampleLedger.take 3))[j]? = some event' →
            consumedInvitation event' = some e → j = k := by
  have hids : CollisionFree Crypto.sample (acceptedOf Crypto.sample (sampleLedger.take 3)) := by
    decide +kernel
  refine ⟨by decide +kernel, fun e i hi hstatus => ?_⟩
  obtain ⟨k, _, _, _, _, _, _, _, _, hunique⟩ :=
    (invitation_lifecycle _ hids).2.2.2.1 e i hi hstatus
  exact ⟨k, hunique⟩

end Mabel
